/-
Implet/Proofs/Extending.lean

What the operations on substitutions do to what is known.  `Subst.Extends k s
s'` says that `s'` is well formed, that it holds only of valuations that `s`
holds of, and that `k` variables have been made in between.  Each operation
extends the substitution it starts from.

`Subst.Within U` bounds the types that variables are linked to.  No operation
makes a type that is not there already, so it is kept as well.
-/
import Implet.Proofs.Links

namespace Implet

/-! ### Actions that leave a state behind also if they fail -/

section

variable {ε σ α β : Type}

theorem run_bind (x : StateM σ α) (f : α → StateM σ β) (s : σ) :
    (x >>= f) s = f (x s).1 (x s).2 := rfl

theorem run_bind_match (x : ExceptT ε (StateM σ) α) (f : α → ExceptT ε (StateM σ) β)
    (s : σ) : (x >>= f).run s = match x.run s with
      | (.ok a, s₁) => (f a).run s₁
      | (.error e, s₁) => (.error e, s₁) := by
  show ExceptT.bindCont f (x.run s).1 (x.run s).2 = _
  rcases x.run s with ⟨e | a, s₁⟩ <;> rfl

theorem run_tryCatch (x : ExceptT ε (StateM σ) α) (handle : ε → ExceptT ε (StateM σ) α)
    (s : σ) : (tryCatch x handle).run s = match x.run s with
      | (.ok a, s₁) => (.ok a, s₁)
      | (.error e, s₁) => (handle e).run s₁ := by
  simp only [tryCatch, tryCatchThe, MonadExceptOf.tryCatch, ExceptT.tryCatch, ExceptT.run,
    ExceptT.mk]
  rw [run_bind]
  rcases x s with ⟨e | a, s₁⟩ <;> rfl

end

/-! ### Parts of a type -/

namespace Ty

mutual

/-- The parts of a type, itself first. -/
def parts : Ty → List Ty
  | int => [int]
  | bool => [bool]
  | var n => [var n]
  | func params ret => func params ret :: (partsList params ++ ret.parts)

/-- The parts of a list of types. -/
def partsList : List Ty → List Ty
  | [] => []
  | t :: ts => t.parts ++ partsList ts

end

theorem partsList_eq (ts : List Ty) : partsList ts = ts.flatMap parts := by
  induction ts with
  | nil => rfl
  | cons t ts ih => rw [partsList, ih, List.flatMap_cons]

theorem self_mem_parts (t : Ty) : t ∈ t.parts := by
  cases t <;> simp [parts]

theorem length_partsList {ts : List Ty} (h : ∀ t ∈ ts, t.parts.length = t.size) :
    (partsList ts).length = sizes ts := by
  induction ts with
  | nil => rfl
  | cons t ts ih =>
    rw [partsList, sizes, List.length_append, h t (by simp),
      ih fun t' ht' => h t' (List.mem_cons_of_mem _ ht')]

@[simp] theorem length_parts (t : Ty) : t.parts.length = t.size := by
  induction t with
  | int | bool | var => rfl
  | func params ret hp hr =>
    rw [parts, size, List.length_cons, List.length_append, length_partsList hp, hr]

/-- The types of a list come with all their parts. -/
def PartsClosed (U : List Ty) : Prop :=
  ∀ ⦃params ret⦄, func params ret ∈ U → (∀ p ∈ params, p ∈ U) ∧ ret ∈ U

theorem PartsClosed.append {U U' : List Ty} (h : PartsClosed U) (h' : PartsClosed U') :
    PartsClosed (U ++ U') := by
  intro params ret hf
  rcases List.mem_append.mp hf with hf | hf
  · exact ⟨fun p hp => List.mem_append_left _ ((h hf).1 p hp),
      List.mem_append_left _ (h hf).2⟩
  · exact ⟨fun p hp => List.mem_append_right _ ((h' hf).1 p hp),
      List.mem_append_right _ (h' hf).2⟩

theorem partsClosed_flatMap {ts : List Ty} (h : ∀ t ∈ ts, PartsClosed t.parts) :
    PartsClosed (ts.flatMap parts) := by
  induction ts with
  | nil => exact fun _ _ hf => nomatch hf
  | cons t ts ih =>
    rw [List.flatMap_cons]
    exact (h t (by simp)).append (ih fun t' ht' => h t' (List.mem_cons_of_mem _ ht'))

theorem partsClosed_parts (t : Ty) : PartsClosed t.parts := by
  induction t with
  | int | bool | var => exact fun _ _ hf => by simp [parts] at hf
  | func params ret hp hr =>
    intro params' ret' hf
    rw [parts, partsList_eq] at hf ⊢
    rcases List.mem_cons.mp hf with hf | hf
    · obtain ⟨rfl, rfl⟩ := Ty.func.inj hf
      refine ⟨fun p hpm => ?_, ?_⟩
      · exact List.mem_cons_of_mem _ (List.mem_append_left _
          (List.mem_flatMap.mpr ⟨p, hpm, self_mem_parts p⟩))
      · exact List.mem_cons_of_mem _ (List.mem_append_right _ (self_mem_parts ret'))
    · have h := (partsClosed_flatMap hp).append hr hf
      exact ⟨fun p hpm => List.mem_cons_of_mem _ (h.1 p hpm), List.mem_cons_of_mem _ h.2⟩

theorem PartsClosed.part {U : List Ty} (h : PartsClosed U) {params : List Ty} {ret p : Ty}
    (hf : func params ret ∈ U) (hp : p ∈ params ++ [ret]) : p ∈ U := by
  rcases List.mem_append.mp hp with hp | hp
  · exact (h hf).1 p hp
  · exact List.mem_singleton.mp hp ▸ (h hf).2

end Ty

namespace Subst

variable {α β : Type} {s s' s'' : Subst} {ρ : Valuation} {U : List Ty}

/-! ### Extending a substitution -/

/-- `s'` knows all that `s` knows, and `minted` more variables have been made. -/
structure Extends (minted : Nat) (s s' : Subst) : Prop where
  wellFormed : s'.WellFormed
  holds : ∀ {ρ}, s'.Holds ρ → s.Holds ρ
  next : s'.next = s.next + minted

theorem WellFormed.extends_self (hs : s.WellFormed) : s.Extends 0 s := ⟨hs, id, rfl⟩

theorem Extends.trans {j k : Nat} (h : s.Extends j s') (h' : s'.Extends k s'') :
    s.Extends (j + k) s'' where
  wellFormed := h'.wellFormed
  holds := fun hρ => h.holds (h'.holds hρ)
  next := by rw [h'.next, h.next, Nat.add_assoc]

/-- Every linked variable is linked to a type of `U`. -/
def Within (s : Subst) (U : List Ty) : Prop := ∀ ⦃n t⦄, s.link? n = some t → t ∈ U

/-! ### Links and marks -/

theorem link?_cons (n : Nat) (t : Ty) (k : Nat) :
    ({ s with links := (n, t) :: s.links } : Subst).link? k
      = if k = n then some t else s.link? k := by
  by_cases h : k = n
  · subst h
    simp [link?]
  · have hb : (k == n) = false := by simpa using h
    simp [link?, List.lookup_cons, hb, h]

/-- Linking a free variable to a type in which it does not occur. -/
theorem WellFormed.cons (hs : s.WellFormed) {n : Nat} {t : Ty} (hn : s.link? n = none)
    (ht : n ∉ (s.expand t).vars) (hb : n ∈ s.baseOnly → s.BaseLike t) :
    ({ s with links := (n, t) :: s.links } : Subst).WellFormed where
  acyclic := by
    obtain ⟨rank, hr, hle⟩ := hs.exists_bounded_rank
    -- variables that stand for something with `n` in it move above all others
    let above (m : Nat) : Prop := n ∈ (s.expand (.var m)).vars
    let rank' (m : Nat) : Nat := open Classical in
      rank m + if above m then s.links.length + 1 else 0
    have habove : above n := by simp [above, expand_free hn]
    refine ⟨rank', ?_⟩
    intro k u hu
    rw [link?_cons] at hu
    split at hu
    · next hk =>
      subst hk
      obtain rfl := Option.some.inj hu
      refine ⟨by simp only [rank', if_pos habove]; omega, ?_⟩
      intro m hm
      have hm' : ¬ above m := by
        intro h
        refine ht ?_
        rw [expand_eq_subst, Ty.mem_vars_subst]
        exact ⟨m, hm, h⟩
      have := hle m
      simp only [rank', if_neg hm', if_pos habove]
      omega
    · next hk =>
      -- a link that was there before: if it leads to something with `n` in it,
      -- then both sides have moved
      refine ⟨by have := (hr hu).1; simp only [rank']; omega, ?_⟩
      intro m hm
      have hlt := (hr hu).2 m hm
      by_cases hm' : above m
      · have hk' : above k := by
          show n ∈ (s.expand (.var k)).vars
          rw [hs.expand_link hu, expand_eq_subst, Ty.mem_vars_subst]
          exact ⟨m, hm, hm'⟩
        simp only [rank', if_pos hm', if_pos hk']
        omega
      · simp only [rank', if_neg hm']
        omega
  marks := by
    intro k u hk hu
    rw [link?_cons] at hu
    split at hu
    · next hkn =>
      subst hkn
      obtain rfl := Option.some.inj hu
      exact hb hk
    · exact hs.marks hk hu

theorem WellFormed.extends_cons (hs : s.WellFormed) {n : Nat} {t : Ty}
    (hn : s.link? n = none)
    (ht : n ∉ (s.expand t).vars) (hb : n ∈ s.baseOnly → s.BaseLike t) :
    s.Extends 0 { s with links := (n, t) :: s.links } where
  wellFormed := hs.cons hn ht hb
  holds := by
    intro ρ hρ
    refine ⟨fun {k u} hu => hρ.link ?_, hρ.base⟩
    have hk : k ≠ n := by
      rintro rfl
      exact absurd (hn.symm.trans hu) (by simp)
    rw [link?_cons, if_neg hk, hu]
  next := rfl

theorem link?_congr (h : s'.links = s.links) (n : Nat) : s'.link? n = s.link? n := by
  rw [link?, link?, h]

theorem expand_congr (h : s'.links = s.links) (t : Ty) : s'.expand t = s.expand t := by
  have hstep : s'.step = s.step := by
    funext n
    rw [step, step, link?_congr h]
  have hw : ∀ rounds t, s'.expandWithin rounds t = s.expandWithin rounds t := by
    intro rounds
    induction rounds with
    | zero => exact fun _ => rfl
    | succ rounds ih =>
      intro t
      rw [expandWithin, expandWithin, hstep, ih]
  rw [expand, expand, h, hw]

theorem BaseLike.mark {t : Ty} (h : s.BaseLike t) (n : Nat) :
    ({ s with baseOnly := s.baseOnly.insert n } : Subst).BaseLike t := by
  rcases h with h | h | ⟨m, hm, h⟩
  · exact Or.inl h
  · exact Or.inr (Or.inl h)
  · exact Or.inr (Or.inr ⟨m, List.mem_insert_of_mem hm, h⟩)

/-- Marking a free variable. -/
theorem WellFormed.extends_mark (hs : s.WellFormed) {n : Nat} (hn : s.link? n = none) :
    s.Extends 0 { s with baseOnly := s.baseOnly.insert n } where
  wellFormed := by
    refine ⟨hs.acyclic, ?_⟩
    intro k u hk hu
    rcases List.mem_insert_iff.mp hk with rfl | hk
    · exact absurd (hn.symm.trans hu) (by simp)
    · exact (hs.marks hk hu).mark n
  holds := fun hρ => ⟨hρ.link, fun hk => hρ.base (List.mem_insert_of_mem hk)⟩
  next := rfl

/-! ### Resolving -/

/-- Shortening the chain from a type changes nothing that is known. -/
theorem WellFormed.extends_relink (hs : s.WellFormed) (t : Ty) :
    s.Extends 0 (s.relink (s.chain t) (s.root t)) where
  wellFormed := by
    refine ⟨?_, ?_⟩
    · obtain ⟨rank, hr⟩ := hs.acyclic
      refine ⟨rank, ?_⟩
      intro n u hu
      rw [link?_relink] at hu
      split at hu
      · next hn =>
        -- a variable on the chain is linked to the root, where it led to before
        obtain ⟨v, hv, rfl⟩ := Option.map_eq_some_iff.mp hu
        exact ⟨(hr hv).1, (leads_of_mem_chainWithin hn).rank_lt hr⟩
      · exact hr hu
    · intro n u hn hu
      rw [link?_relink] at hu
      split at hu
      · next hc =>
        obtain ⟨v, hv, rfl⟩ := Option.map_eq_some_iff.mp hu
        exact show s.BaseLike _ from (leads_of_mem_chainWithin hc).baseLike hs hn
      · exact hs.marks hn hu
  holds := by
    intro ρ hρ
    have hroot : ∀ {n}, n ∈ s.chain t → ρ n = (s.root t).ground ρ := by
      intro n hn
      obtain ⟨u, hu⟩ := (leads_of_mem_chainWithin hn).isLinked
      refine hρ.link ?_
      rw [link?_relink, if_pos hn, hu]
      rfl
    refine ⟨fun {n u} hu => ?_, hρ.base⟩
    by_cases hn : n ∈ s.chain t
    · -- the link that was there before led to the root or to another variable on the chain
      rcases link_of_mem_chainWithin hn hu with rfl | ⟨m, hm, rfl⟩
      · exact hroot hn
      · rw [hroot hn, Ty.ground_var, hroot hm]
    · refine hρ.link ?_
      rw [link?_relink, if_neg hn]
      exact hu
  next := rfl

theorem isSome_link?_relink (t : Ty) (n : Nat) :
    (s.relink (s.chain t) (s.root t)).link? n = none ↔ s.link? n = none := by
  rw [link?_relink]
  split <;> simp

theorem root_mem (hU : s.Within U) {t : Ty} (ht : t ∈ U) : s.root t ∈ U :=
  rootWithin_induction ht (fun hl _ => hU hl) _

theorem Within.relink (hU : s.Within U) {t : Ty} (ht : t ∈ U) :
    (s.relink (s.chain t) (s.root t)).Within U := by
  intro n u hu
  rw [link?_relink] at hu
  split at hu
  · obtain ⟨v, -, rfl⟩ := Option.map_eq_some_iff.mp hu
    exact root_mem hU ht
  · exact hU hu

theorem resolve_eq (t : Ty) (s : Subst) :
    resolve t s = (s.root t, s.relink (s.chain t) (s.root t)) := rfl

/-- A type that is no linked variable is its own root. -/
theorem root_of_free {t : Ty} (h : ∀ n, t = .var n → s.link? n = none) :
    s.root t = t := by
  rw [root]
  cases s.links.length with
  | zero => cases t <;> rfl
  | succ steps =>
    cases t with
    | var n => rw [rootWithin, h n rfl]
    | int | bool | func => rfl

theorem resolve_of_free {t : Ty} (h : ∀ n, t = .var n → s.link? n = none) :
    resolve t s = (t, s) := by
  have hc : s.chain t = [] := by
    rw [chain]
    cases s.links.length with
    | zero => cases t <;> rfl
    | succ steps =>
      cases t with
      | var n => rw [chainWithin, h n rfl]
      | int | bool | func => rfl
  rw [resolve_eq, root_of_free h, hc]
  simp [relink]

/-! ### Operations that can fail -/

theorem bind_eq_ok {x : UnifyM α} {f : α → UnifyM β} {b : β} :
    (x >>= f).run s = (.ok b, s') ↔
      ∃ a s₁, x.run s = (.ok a, s₁) ∧ (f a).run s₁ = (.ok b, s') := by
  rw [run_bind_match]
  rcases x.run s with ⟨e | a, s₁⟩
  · constructor
    · intro h
      cases h
    · rintro ⟨a, s₁', h, -⟩
      cases h
  · constructor
    · exact fun h => ⟨a, s₁, rfl, h⟩
    · rintro ⟨a', s₁', h, h'⟩
      cases h
      exact h'

theorem lift_eq_ok {x : StateM Subst α} {a : α} :
    (liftM x : UnifyM α).run s = (.ok a, s') ↔ x s = (a, s') := by
  show ((Except.ok (x s).1 : Except UnifyError α), (x s).2) = (.ok a, s') ↔ _
  rw [Prod.mk.injEq, Except.ok.injEq, Prod.ext_iff]

theorem throw_ne_ok {e : UnifyError} {a : α} :
    (throw e : UnifyM α).run s ≠ (.ok a, s') := by
  intro h
  cases h

theorem pure_eq_ok {a b : α} :
    (pure a : UnifyM α).run s = (.ok b, s') ↔ a = b ∧ s = s' := by
  show ((Except.ok a : Except UnifyError α), s) = (.ok b, s') ↔ _
  rw [Prod.mk.injEq, Except.ok.injEq]

theorem get_eq_ok {t : Subst} :
    (get : UnifyM Subst).run s = (.ok t, s') ↔ s = t ∧ s = s' :=
  pure_eq_ok (α := Subst)

theorem modify_eq_ok {f : Subst → Subst} {u : Unit} :
    (modify f : UnifyM Unit).run s = (.ok u, s') ↔ f s = s' := by
  show ((Except.ok () : Except UnifyError Unit), f s) = (.ok u, s') ↔ _
  simp

/-! ### Requiring a base type -/

/-- Requiring a base type resolves the type and marks its root if that is a variable. -/
theorem requireBase_cases {t : Ty} (h : (requireBase t).run s = (.ok (), s')) :
    let s₁ := s.relink (s.chain t) (s.root t)
    (s.root t = .int ∨ s.root t = .bool) ∧ s' = s₁ ∨
      ∃ m, s.root t = .var m ∧ s' = { s₁ with baseOnly := s₁.baseOnly.insert m } := by
  simp only [requireBase, bind_eq_ok, lift_eq_ok, resolve_eq] at h
  obtain ⟨u, s₁, h₁, h⟩ := h
  obtain ⟨hu, rfl⟩ := Prod.mk.inj h₁
  cases u with
  | var n => exact Or.inr ⟨n, hu, (modify_eq_ok.mp h).symm⟩
  | int => exact Or.inl ⟨Or.inl hu, (pure_eq_ok.mp h).2.symm⟩
  | bool => exact Or.inl ⟨Or.inr hu, (pure_eq_ok.mp h).2.symm⟩
  | func params ret =>
    obtain ⟨v, s₂, -, h⟩ := bind_eq_ok.mp h
    exact absurd h throw_ne_ok

/-- A type of which a base type has been required is one under every valuation. -/
theorem requireBase_spec (hs : s.WellFormed) {t : Ty}
    (h : (requireBase t).run s = (.ok (), s')) :
    s.Extends 0 s' ∧ ∀ {ρ}, s'.Holds ρ → (t.ground ρ).IsBase := by
  have hx := hs.extends_relink t
  rcases requireBase_cases h with ⟨hr, rfl⟩ | ⟨m, hr, rfl⟩
  · refine ⟨hx, ?_⟩
    intro ρ hρ
    rw [← ground_root (hx.holds hρ)]
    rcases hr with hr | hr <;> rw [hr] <;> trivial
  · have hm := hx.wellFormed.extends_mark ((isSome_link?_relink t m).mpr (hs.root_free hr))
    refine ⟨hx.trans hm, ?_⟩
    intro ρ hρ
    rw [← ground_root (hx.holds (hm.holds hρ)), hr]
    exact hρ.base List.mem_insert_self

/-- Of a type that is no linked variable, only the marks can change. -/
theorem requireBase_of_free {t : Ty} (ht : ∀ n, t = .var n → s.link? n = none)
    (h : (requireBase t).run s = (.ok (), s')) :
    s'.links = s.links ∧ s'.BaseLike t := by
  have hr : s.root t = t := root_of_free ht
  have hs₁ : s.relink (s.chain t) (s.root t) = s := congrArg Prod.snd (resolve_of_free ht)
  have h := requireBase_cases h
  rw [hs₁, hr] at h
  rcases h with ⟨hb, rfl⟩ | ⟨m, hm, rfl⟩
  · exact ⟨rfl, hb.elim Or.inl fun hb => Or.inr (Or.inl hb)⟩
  · exact ⟨rfl, Or.inr (Or.inr ⟨m, List.mem_insert_self, hm⟩)⟩

/-! ### Making and applying -/

/-- Making a variable says nothing about the others. -/
theorem WellFormed.extends_fresh (hs : s.WellFormed) :
    s.Extends 1 { s with next := s.next + 1 } :=
  ⟨⟨hs.acyclic, hs.marks⟩, fun hρ => ⟨hρ.link, hρ.base⟩, rfl⟩

/-- `r` is what has become of a type: another with the same value, and a
substitution that knows as much as before. -/
structure Applied (t : Ty) (s : Subst) (r : Ty × Subst) : Prop where
  extends_ : s.Extends 0 r.2
  ground : ∀ {ρ}, r.2.Holds ρ → r.1.ground ρ = t.ground ρ

theorem extends_mapM {f : α → StateM Subst β} {as : List α}
    (hf : ∀ {s : Subst}, s.WellFormed → ∀ a, s.Extends 0 (f a s).2) (hs : s.WellFormed) :
    s.Extends 0 (as.mapM f s).2 := by
  induction as generalizing s with
  | nil => exact hs.extends_self
  | cons a as ih =>
    have ha := hf hs a
    rw [List.mapM_cons]
    exact ha.trans (ih ha.wellFormed)

theorem mapM_spec {f : Ty → StateM Subst Ty} {ts : List Ty}
    (hf : ∀ {s}, s.WellFormed → ∀ t, Applied t s (f t s)) (hs : s.WellFormed) :
    s.Extends 0 (ts.mapM f s).2 ∧ ∀ {ρ}, (ts.mapM f s).2.Holds ρ →
      (ts.mapM f s).1.map (Ty.ground ρ) = ts.map (Ty.ground ρ) := by
  refine ⟨extends_mapM (fun hs t => (hf hs t).extends_) hs, ?_⟩
  induction ts generalizing s with
  | nil => exact fun _ => rfl
  | cons t ts ih =>
    have ht := hf hs t
    have hx : (f t s).2.Extends 0 (ts.mapM f (f t s).2).2 :=
      extends_mapM (fun hs t => (hf hs t).extends_) ht.extends_.wellFormed
    intro ρ hρ
    rw [List.mapM_cons] at hρ ⊢
    show ((f t s).1 :: (ts.mapM f (f t s).2).1).map (Ty.ground ρ) = _
    rw [List.map_cons, List.map_cons, ht.ground (hx.holds hρ), ih ht.extends_.wellFormed hρ]

theorem applyWithin_succ (depth : Nat) (t : Ty) (s : Subst) :
    applyWithin (depth + 1) t s = match s.root t with
      | .func params ret =>
        let r := params.mapM (applyWithin depth) (s.relink (s.chain t) (s.root t))
        let r' := applyWithin depth ret r.2
        (.func r.1 r'.1, r'.2)
      | root => (root, s.relink (s.chain t) (s.root t)) := by
  show (match s.root t with
    | .func params ret => (do
      return .func (← params.mapM (applyWithin depth)) (← applyWithin depth ret))
    | root => pure root : StateM Subst Ty) (s.relink (s.chain t) (s.root t)) = _
  cases s.root t <;> rfl

theorem applied_applyWithin (hs : s.WellFormed) (depth : Nat) (t : Ty) :
    Applied t s (applyWithin depth t s) := by
  induction depth generalizing s t with
  | zero => exact ⟨hs.extends_self, fun _ => rfl⟩
  | succ depth ih =>
    have hx := hs.extends_relink t
    have hroot : ∀ {ρ}, (s.relink (s.chain t) (s.root t)).Holds ρ →
        (s.root t).ground ρ = t.ground ρ := fun hρ => ground_root (hx.holds hρ) t
    rw [applyWithin_succ]
    generalize s.root t = u at hx hroot ⊢
    cases u with
    | int | bool | var => exact ⟨hx, hroot⟩
    | func params ret =>
      obtain ⟨hxp, hp⟩ := mapM_spec (fun hs t => ih hs t) hx.wellFormed
      have hr := ih hxp.wellFormed ret
      refine ⟨(hx.trans hxp).trans hr.extends_, ?_⟩
      intro ρ hρ
      have hρ' := hr.extends_.holds hρ
      rw [← hroot (hxp.holds hρ'), Ty.ground_func, Ty.ground_func, hr.ground hρ, hp hρ']

/-- Applying a substitution to a type changes nothing that is known. -/
theorem applied_apply (hs : s.WellFormed) (t : Ty) : Applied t s (apply t s) :=
  applied_applyWithin hs _ t

/-- No linked variable is left when a substitution has been applied. -/
theorem apply_free (hs : s.WellFormed) {t : Ty} {n : Nat} (h : (apply t s).1 = .var n) :
    (apply t s).2.link? n = none := by
  -- there is at least one level, so the type that comes out is a root
  obtain ⟨depth, hd⟩ : ∃ depth, s.depthBound t.size = depth + 1 := by
    have := Nat.le_mul_self (t.size + s.size + 1)
    exact ⟨s.depthBound t.size - 1, by rw [depthBound]; omega⟩
  have hfree : ∀ m, s.root t = .var m → (s.relink (s.chain t) (s.root t)).link? m = none :=
    fun m hm => (isSome_link?_relink t m).mpr (hs.root_free hm)
  have hrun : apply t s = applyWithin (depth + 1) t s := by rw [← hd]; rfl
  rw [hrun, applyWithin_succ] at h ⊢
  generalize s.root t = u at h hfree ⊢
  cases u with
  | int | bool | func => cases h
  | var m =>
    obtain rfl : m = n := Ty.var.inj h
    exact hfree m rfl

end Subst

end Implet
