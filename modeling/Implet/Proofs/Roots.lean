/-
Implet/Proofs/Roots.lean

Substitutions with the same roots.  The links of a substitution can be long
chains or short ones, and every query shortens those it walks.  What an
operation answers, and whether and how it fails, depends on the roots only: from
substitutions with the same roots it gives the same answer and leads to
substitutions with the same roots (`Subst.Steady`).

For unification this takes one more step, as the depth at which it stops depends
on the sizes of the linked types.  The depth is enough whatever the links are,
and going deeper than is enough changes nothing (`WellFormed.unify_eq`), so two
runs can be compared at one depth.
-/
import Implet.Proofs.Applying

namespace Implet.Subst

variable {s s' s'' : Subst} {U : List Ty}

/-! ### Roots along links -/

theorem root_congr (h : s'.links = s.links) (t : Ty) : s'.root t = s.root t := by
  have hw : ∀ steps t, s'.rootWithin steps t = s.rootWithin steps t := by
    intro steps
    induction steps with
    | zero => exact fun _ => rfl
    | succ steps ih =>
      intro t
      cases t with
      | var n =>
        rw [rootWithin, rootWithin, link?_congr h]
        cases s.link? n with
        | none => rfl
        | some u => exact ih u
      | int | bool | func => rfl
  rw [root, root, h, hw]

namespace WellFormed

/-- What holds of all types that are no linked variables, and of a linked
variable if it holds of the type it is linked to, holds of all types. -/
theorem link_induction (hs : s.WellFormed) {P : Ty → Prop}
    (hfree : ∀ t, (∀ n, t = .var n → s.link? n = none) → P t)
    (hlink : ∀ {n u}, s.link? n = some u → P u → P (.var n)) (t : Ty) : P t := by
  obtain ⟨rank, hr⟩ := hs.acyclic
  have hvar : ∀ n, P (.var n) := by
    intro n
    induction hk : rank n using Nat.strong_induction_on generalizing n with
    | _ k ih =>
      rcases hl : s.link? n with - | u
      · exact hfree _ fun m hm => by rwa [← Ty.var.inj hm]
      · refine hlink hl ?_
        cases u with
        | var m => exact ih (rank m) (hk ▸ (hr hl).2 m (by simp)) m rfl
        | int | bool | func => exact hfree _ nofun
  cases t with
  | var n => exact hvar n
  | int | bool | func => exact hfree _ nofun

/-- A walk from a linked variable is one step and the walk from the type it is
linked to. -/
theorem walk_link (hs : s.WellFormed) {n : Nat} {u : Ty} (h : s.link? n = some u) :
    s.root (.var n) = s.root u ∧ s.chain (.var n) = n :: s.chain u := by
  obtain ⟨rank, hr, hb⟩ := hs.exists_bounded_rank
  -- steps beyond the rank find nothing to follow
  have hmore : ∀ {steps t}, (∀ m, t = .var m → rank m ≤ steps) →
      s.rootWithin (steps + 1) t = s.rootWithin steps t ∧
        s.chainWithin (steps + 1) t = s.chainWithin steps t := by
    intro steps
    induction steps with
    | zero =>
      intro t ht
      cases t with
      | var m =>
        rcases hl : s.link? m with - | v
        · simp [rootWithin, chainWithin, hl]
        · have h₁ := ht m rfl
          have h₂ := (hr hl).1
          omega
      | int | bool | func => exact ⟨rfl, rfl⟩
    | succ steps ih =>
      intro t ht
      cases t with
      | var m =>
        rw [rootWithin, rootWithin, chainWithin, chainWithin]
        rcases hl : s.link? m with - | v
        · exact ⟨rfl, rfl⟩
        · obtain ⟨hroot, hchain⟩ := ih (t := v) fun k hk => by
            have h₁ := ht m rfl
            have h₂ := (hr hl).2 k (by rw [hk]; simp)
            omega
          exact ⟨hroot, congrArg (m :: ·) hchain⟩
      | int | bool | func => exact ⟨rfl, rfl⟩
  obtain ⟨steps, hsteps⟩ : ∃ steps, s.links.length = steps + 1 := by
    have h₁ := (hr h).1
    have h₂ := hb n
    exact ⟨s.links.length - 1, by omega⟩
  have hu : ∀ m, u = .var m → rank m ≤ steps := by
    rintro m rfl
    have h₁ := (hr h).2 m (by simp)
    have h₂ := hb n
    omega
  obtain ⟨hroot, hchain⟩ := hmore hu
  rw [root, root, chain, chain, hsteps, hroot, hchain, rootWithin, chainWithin, h]
  exact ⟨rfl, rfl⟩

/-- The root of a linked variable is that of the type it is linked to. -/
theorem root_link (hs : s.WellFormed) {n : Nat} {u : Ty} (h : s.link? n = some u) :
    s.root (.var n) = s.root u := (hs.walk_link h).1

theorem root_root (hs : s.WellFormed) (t : Ty) : s.root (s.root t) = s.root t :=
  root_of_free fun _ hn => hs.root_free hn

theorem root_leads (hs : s.WellFormed) {n : Nat} {t : Ty} (h : s.Leads n t) :
    s.root (.var n) = s.root t := by
  induction h with
  | link h => exact hs.root_link h
  | step _ h ih => rw [ih, hs.root_link h]

/-- Shortening chains moves no root. -/
theorem root_relink (hs : s.WellFormed) (t u : Ty) :
    (s.relink (s.chain t) (s.root t)).root u = s.root u := by
  have hs₁ := (hs.extends_relink t).wellFormed
  refine hs.link_induction (P := fun u => Subst.root _ u = s.root u) ?_ ?_ u
  · intro u hu
    rw [root_of_free hu, root_of_free fun n hn => (isSome_link?_relink t n).mpr (hu n hn)]
  · intro n u hu ih
    by_cases hn : n ∈ s.chain t
    · have hl : (s.relink (s.chain t) (s.root t)).link? n = some (s.root t) := by
        rw [link?_relink, if_pos hn, hu]
        rfl
      rw [hs₁.root_link hl, hs.root_leads (leads_of_mem_chainWithin hn),
        root_of_free fun m hm => (isSome_link?_relink t m).mpr (hs.root_free hm)]
      exact (hs.root_root t).symm
    · have hl : (s.relink (s.chain t) (s.root t)).link? n = some u := by
        rw [link?_relink, if_neg hn, hu]
      rw [hs₁.root_link hl, ih, hs.root_link hu]

/-- A new link moves the roots that were the variable to the type it is linked to. -/
theorem root_cons (hs : s.WellFormed) {n : Nat} {r : Ty}
    (hs' : ({ s with links := (n, r) :: s.links } : Subst).WellFormed)
    (hn : s.link? n = none) (hr : ∀ m, r = .var m → m ≠ n ∧ s.link? m = none) (t : Ty) :
    ({ s with links := (n, r) :: s.links } : Subst).root t
      = if s.root t = .var n then r else s.root t := by
  have hfree : ∀ {u : Ty}, (∀ m, u = .var m → m ≠ n ∧ s.link? m = none) →
      ({ s with links := (n, r) :: s.links } : Subst).root u = u := by
    intro u hu
    refine root_of_free fun m hm => ?_
    rw [link?_cons, if_neg (hu m hm).1]
    exact (hu m hm).2
  refine hs.link_induction
    (P := fun t => Subst.root _ t = if s.root t = .var n then r else s.root t)
    ?_ ?_ t
  · intro u hu
    rw [root_of_free hu]
    split
    · next he =>
      rw [he, hs'.root_link (u := r) (by rw [link?_cons, if_pos rfl]), hfree hr]
    · next he =>
      exact hfree fun m hm => ⟨fun h => he (by rw [hm, h]), hu m hm⟩
  · intro m u hu ih
    have hmn : m ≠ n := by
      rintro rfl
      exact absurd (hn.symm.trans hu) (by simp)
    rw [hs.root_link hu, ← ih]
    exact hs'.root_link (by rw [link?_cons, if_neg hmn, hu])

end WellFormed

/-! ### The same roots -/

/-- Two substitutions in which every type has the same root, with the same marks
and the same next variable.  How long the chains to the roots are can differ. -/
structure SameRoots (s s' : Subst) : Prop where
  left : s.WellFormed
  right : s'.WellFormed
  root : ∀ t, s'.root t = s.root t
  baseOnly : s'.baseOnly = s.baseOnly
  next : s'.next = s.next

theorem WellFormed.sameRoots_self (hs : s.WellFormed) : s.SameRoots s :=
  ⟨hs, hs, fun _ => rfl, rfl, rfl⟩

theorem WellFormed.free_iff_root (hs : s.WellFormed) (n : Nat) :
    s.link? n = none ↔ s.root (.var n) = .var n :=
  ⟨fun h => root_of_free fun _ hm => by rwa [← Ty.var.inj hm], hs.root_free⟩

namespace SameRoots

theorem symm (h : s.SameRoots s') : s'.SameRoots s :=
  ⟨h.right, h.left, fun t => (h.root t).symm, h.baseOnly.symm, h.next.symm⟩

theorem trans (h : s.SameRoots s') (h' : s'.SameRoots s'') : s.SameRoots s'' :=
  ⟨h.left, h'.right, fun t => (h'.root t).trans (h.root t), h'.baseOnly.trans h.baseOnly,
    h'.next.trans h.next⟩

theorem free (h : s.SameRoots s') (n : Nat) : s'.link? n = none ↔ s.link? n = none := by
  rw [h.right.free_iff_root, h.left.free_iff_root, h.root]

theorem holds (h : s.SameRoots s') {ρ : Valuation} (hρ : s'.Holds ρ) : s.Holds ρ := by
  refine ⟨?_, fun hn => hρ.base (h.baseOnly ▸ hn)⟩
  intro n u hu
  -- both have the value of the root that they share
  have hroot : s'.root (.var n) = s'.root u := by
    rw [h.root, h.root, h.left.root_link hu]
  rw [← ground_root hρ u, ← hroot, ground_root hρ, Ty.ground_var]

/-- What has the same roots says the same. -/
theorem shortens (h : s.SameRoots s') : s.Shortens s' :=
  ⟨h.right, ⟨h.holds, h.symm.holds⟩, h.free, h.baseOnly, h.next⟩

/-- Roots are a matter of the links. -/
theorem root_of_links (h : s.SameRoots s') {u u' : Subst} (hu : u.links = s.links)
    (hu' : u'.links = s'.links) (t : Ty) : u'.root t = u.root t := by
  rw [root_congr hu', root_congr hu, h.root]

theorem expand (h : s.SameRoots s') (t : Ty) : s'.expand t = s.expand t :=
  h.shortens.expand_eq h.left t

theorem isBound (h : s.SameRoots s') (n : Nat) : s'.isBound n = s.isBound n := by
  rw [Subst.isBound, Subst.isBound, Bool.eq_iff_iff, Option.isSome_iff_ne_none,
    Option.isSome_iff_ne_none]
  exact not_congr (h.free n)

theorem occurs (h : s.SameRoots s') (n : Nat) (t : Ty) :
    s'.occurs n t = s.occurs n t := by
  rw [Subst.occurs, Subst.occurs, h.expand]

theorem mark (h : s.SameRoots s') {n : Nat} (hn : s.link? n = none) :
    SameRoots { s with baseOnly := s.baseOnly.insert n }
      { s' with baseOnly := s'.baseOnly.insert n } where
  left := (h.left.extends_mark hn).wellFormed
  right := (h.right.extends_mark ((h.free n).mpr hn)).wellFormed
  root := h.root_of_links rfl rfl
  baseOnly := by rw [h.baseOnly]
  next := h.next

/-- Linking a free variable to a root in which it does not occur. -/
theorem link (h : s.SameRoots s') {n : Nat} {r : Ty} (hn : s.link? n = none)
    (hr : ∀ m, r = .var m → s.link? m = none) (ho : n ∉ (s.expand r).vars)
    (hb : n ∈ s.baseOnly → s.BaseLike r) :
    SameRoots { s with links := (n, r) :: s.links } { s' with links := (n, r) :: s'.links } := by
  have hb' : n ∈ s'.baseOnly → s'.BaseLike r := by
    rw [BaseLike, h.baseOnly]
    exact hb
  have hw := h.left.cons hn ho hb
  have hw' := h.right.cons ((h.free n).mpr hn) (by rwa [h.expand]) hb'
  have hne : ∀ m, r = .var m → m ≠ n := by
    rintro m rfl rfl
    exact ho (by simp [WellFormed.expand_free hn])
  refine ⟨hw, hw', fun t => ?_, h.baseOnly, h.next⟩
  rw [h.left.root_cons hw hn fun m hm => ⟨hne m hm, hr m hm⟩,
    h.right.root_cons hw' ((h.free n).mpr hn) fun m hm => ⟨hne m hm, (h.free m).mpr (hr m hm)⟩,
    h.root]

end SameRoots

theorem WellFormed.sameRoots_relink (hs : s.WellFormed) (t : Ty) :
    s.SameRoots (s.relink (s.chain t) (s.root t)) :=
  ⟨hs, (hs.extends_relink t).wellFormed, hs.root_relink t, rfl, rfl⟩

theorem sameRoots_applyWithin (hs : s.WellFormed) (depth : Nat) (t : Ty) :
    s.SameRoots (applyWithin depth t s).2 := by
  induction depth generalizing s t with
  | zero => exact hs.sameRoots_self
  | succ depth ih =>
    have hx := hs.sameRoots_relink t
    rw [applyWithin_succ]
    generalize s.root t = u at hx ⊢
    cases u with
    | int | bool | var => exact hx
    | func params ret =>
      have hp := mapM_induction (I := s.SameRoots) (P := fun _ => True) params
        (fun {_ p} _ h => ⟨h.trans (ih h.right p), trivial⟩) hx
      exact hp.1.trans (ih hp.1.right ret)

theorem WellFormed.sameRoots_apply (hs : s.WellFormed) (t : Ty) :
    s.SameRoots (apply t s).2 :=
  sameRoots_applyWithin hs _ t

theorem WellFormed.sameRoots_occursIn (hs : s.WellFormed) (n : Nat) (t : Ty) :
    s.SameRoots (occursIn n t s).2 := by
  have hsearch : ∀ depth {s : Subst} (t : Ty), s.WellFormed →
      s.SameRoots (occursWithin n depth t s).2 := by
    intro depth
    induction depth with
    | zero => exact fun _ hs => hs.sameRoots_self
    | succ depth ih =>
      intro s t hs
      have hx := hs.sameRoots_relink t
      rw [occursWithin_succ]
      generalize s.root t = u at hx ⊢
      cases u with
      | int | bool | var => exact hx
      | func params ret =>
        exact anyM_induction (I := s.SameRoots) _ (fun {_ p} _ h => h.trans (ih p h.right)) hx
  exact hsearch _ t hs

/-! ### Operations that depend on the roots only -/

/-- From substitutions with the same roots, an operation gives the same answer
and leads to substitutions with the same roots. -/
def Steady {α : Type} (x : StateM Subst α) : Prop :=
  ∀ ⦃s s' : Subst⦄, s.SameRoots s' → (x s').1 = (x s).1 ∧ (x s).2.SameRoots (x s').2

section Steady

variable {α β : Type}

theorem steady_pure (a : α) : Steady (pure a) := fun _ _ h => ⟨rfl, h⟩

theorem Steady.bind {x : StateM Subst α} {f : α → StateM Subst β} (hx : Steady x)
    (hf : ∀ a, Steady (f a)) : Steady (x >>= f) := by
  intro s s' h
  obtain ⟨ha, h₁⟩ := hx h
  rw [run_bind, run_bind, ha]
  exact hf _ h₁

theorem steady_mapM {f : α → StateM Subst β} (hf : ∀ a, Steady (f a)) (as : List α) :
    Steady (as.mapM f) := by
  induction as with
  | nil => exact steady_pure _
  | cons a as ih =>
    rw [List.mapM_cons]
    exact (hf a).bind fun b => ih.bind fun bs => steady_pure _

theorem steady_fresh : Steady fresh := fun _ _ h =>
  ⟨h.next, h.left.extends_fresh.wellFormed, h.right.extends_fresh.wellFormed,
    h.root_of_links rfl rfl,
    h.baseOnly, congrArg (· + 1) h.next⟩

theorem steady_resolve (t : Ty) : Steady (resolve t) := fun _ _ h =>
  ⟨h.root t, ((h.left.sameRoots_relink t).symm.trans h).trans (h.right.sameRoots_relink t)⟩

theorem steady_apply (t : Ty) : Steady (apply t) := fun _ _ h =>
  ⟨by rw [h.right.apply_eq_expand, h.left.apply_eq_expand, h.expand],
    ((h.left.sameRoots_apply t).symm.trans h).trans (h.right.sameRoots_apply t)⟩

theorem steady_occursIn (n : Nat) (t : Ty) : Steady (occursIn n t) := fun _ _ h =>
  ⟨by rw [h.right.occursIn_eq, h.left.occursIn_eq, h.occurs],
    ((h.left.sameRoots_occursIn n t).symm.trans h).trans (h.right.sameRoots_occursIn n t)⟩

/-! ### Operations that can fail -/

theorem Steady.bindU {x : UnifyM α} {f : α → UnifyM β} (hx : Steady x.run)
    (hf : ∀ a, Steady (f a).run) : Steady (x >>= f).run := by
  intro s s' h
  obtain ⟨ha, h₁⟩ := hx h
  rw [run_bind_match, run_bind_match]
  rcases hr : x.run s with ⟨e | a, s₁⟩ <;> rcases hr' : x.run s' with ⟨e' | a', s₁'⟩ <;>
    rw [hr, hr'] at ha h₁
  · exact ⟨by rw [Except.error.inj ha], h₁⟩
  · cases ha
  · cases ha
  · obtain rfl := Except.ok.inj ha
    exact hf _ h₁

theorem steady_lift {x : StateM Subst α} (hx : Steady x) :
    Steady (liftM x : UnifyM α).run :=
  fun _ _ h => ⟨congrArg Except.ok (hx h).1, (hx h).2⟩

theorem steady_pureU (a : α) : Steady (pure a : UnifyM α).run := fun _ _ h => ⟨rfl, h⟩

theorem steady_throw (e : UnifyError) :
    Steady (throw e : UnifyM α).run := fun _ _ h => ⟨rfl, h⟩

theorem steady_mismatch (expected found : Ty) :
    Steady (do throw (.mismatch (← apply expected) (← apply found)) : UnifyM Unit).run :=
  (steady_lift (steady_apply expected)).bindU fun _ =>
    (steady_lift (steady_apply found)).bindU fun _ => steady_throw _

theorem requireBase_run (t : Ty) (s : Subst) :
    (requireBase t).run s = match s.root t with
      | .var n => let s₁ := s.relink (s.chain t) (s.root t)
        (.ok (), { s₁ with baseOnly := s₁.baseOnly.insert n })
      | .int | .bool => (.ok (), s.relink (s.chain t) (s.root t))
      | root => (do throw (.notBase (← apply root)) : UnifyM Unit).run
        (s.relink (s.chain t) (s.root t)) := by
  rw [requireBase, run_bind_match]
  show (match s.root t with
    | .var n => modify fun s => { s with baseOnly := s.baseOnly.insert n }
    | .int | .bool => pure ()
    | root => do throw (.notBase (← apply root)) : UnifyM Unit).run
      (s.relink (s.chain t) (s.root t)) = _
  cases s.root t <;> rfl

theorem steady_requireBase (t : Ty) : Steady (requireBase t).run := by
  intro s s' h
  have h₁ := (steady_resolve t h).2
  rw [resolve_eq, resolve_eq] at h₁
  have hfree : ∀ n, s.root t = .var n → (s.relink (s.chain t) (s.root t)).link? n = none :=
    fun n hn => (isSome_link?_relink t n).mpr (h.left.root_free hn)
  rw [requireBase_run, requireBase_run, h.root t]
  rw [h.root t] at h₁
  generalize s.root t = r at h₁ hfree ⊢
  cases r with
  | int | bool => exact ⟨rfl, h₁⟩
  | var n => exact ⟨rfl, h₁.mark (hfree n rfl)⟩
  | func params ret =>
    exact ((steady_lift (steady_apply _)).bindU fun _ => steady_throw (.notBase _)) h₁

theorem steady_bind (n : Nat) (t : Ty) : Steady (Subst.bind n t).run := by
  intro s s' h
  have h₁ := (steady_resolve t h).2
  rw [resolve_eq, resolve_eq] at h₁
  have hfree : ∀ m, s.root t = .var m → (s.relink (s.chain t) (s.root t)).link? m = none :=
    fun m hm => (isSome_link?_relink t m).mpr (h.left.root_free hm)
  rw [bind_run, bind_run, h.isBound, h.root]
  rw [h.root] at h₁
  by_cases hn : s.isBound n
  · rw [if_pos hn, if_pos hn]
    exact ⟨rfl, h⟩
  rw [if_neg hn, if_neg hn]
  have hn₁ : (s.relink (s.chain t) (s.root t)).link? n = none :=
    (isSome_link?_relink t n).mpr (by simpa [isBound] using hn)
  generalize s.relink (s.chain t) (s.root t) = s₁ at h₁ hfree hn₁ ⊢
  generalize s'.relink (s'.chain t) (s.root t) = s₁' at h₁ ⊢
  generalize s.root t = r at hfree ⊢
  dsimp only
  by_cases hr : r = .var n
  · rw [if_pos hr, if_pos hr]
    exact ⟨rfl, h₁⟩
  dsimp only at h₁
  obtain ⟨hfound, h₂⟩ := steady_occursIn n r h₁
  have hmarked : (occursIn n r s₁').2.baseOnly.contains n
      = (occursIn n r s₁).2.baseOnly.contains n := by rw [h₂.baseOnly]
  rw [if_neg hr, if_neg hr, hfound, hmarked]
  by_cases ho : (occursIn n r s₁).1
  · rw [if_pos ho, if_pos ho]
    exact ((steady_lift (steady_apply r)).bindU fun _ => steady_throw _) h₂
  rw [if_neg ho, if_neg ho]
  rw [Bool.not_eq_true] at ho
  have hx := h₁.left.shortens_occursIn n r
  have hfree₂ : ∀ m, r = .var m → (occursIn n r s₁).2.link? m = none :=
    fun m hm => (hx.free m).mpr (hfree m hm)
  by_cases hm : (occursIn n r s₁).2.baseOnly.contains n
  · -- the mark goes over to the type, which changes no link
    rw [if_pos hm, if_pos hm, run_bind_match, run_bind_match]
    obtain ⟨ha, h₃⟩ := steady_requireBase r h₂
    rcases hreq : (requireBase r).run (occursIn n r s₁).2 with ⟨e | _, s₃⟩ <;>
      rcases hreq' : (requireBase r).run (occursIn n r s₁').2 with ⟨e' | _, s₃'⟩ <;>
        rw [hreq, hreq'] at ha h₃
    · exact ⟨by rw [Except.error.inj ha], h₃⟩
    · cases ha
    · cases ha
    · obtain ⟨-, hl, hn₃, ho₃, hb⟩ := bind_link h₁.left hn₁ hfree ho
        (.inl ⟨by simpa using hm, hreq⟩)
      exact ⟨rfl, h₃.link hn₃ (fun m hm => by rw [link?_congr hl, hfree₂ m hm]) ho₃ hb⟩
  · rw [if_neg hm, if_neg hm]
    obtain ⟨-, -, hn₃, ho₃, hb⟩ := bind_link h₁.left hn₁ hfree ho (.inr ⟨by simpa using hm, rfl⟩)
    exact ⟨rfl, h₂.link hn₃ hfree₂ ho₃ hb⟩

/-! ### Unification -/

theorem steady_widening {expected found : Ty} {action : UnifyM Unit}
    (h : Steady action.run) :
    Steady (widening expected found action).run := by
  intro s s' hs
  obtain ⟨ha, h₁⟩ := h hs
  rw [widening, run_tryCatch, run_tryCatch]
  rcases hr : action.run s with ⟨e | _, s₁⟩ <;> rcases hr' : action.run s' with ⟨e' | _, s₁'⟩ <;>
    rw [hr, hr'] at ha h₁
  · obtain rfl := Except.error.inj ha
    cases e' with
    | mismatch => exact steady_mismatch expected found h₁
    | occursCheck | alreadyBound | notBase => exact steady_throw _ h₁
  · cases ha
  · cases ha
  · exact ⟨rfl, h₁⟩

theorem steady_forEachPair {action : Ty → Ty → UnifyM Unit}
    (h : ∀ a b, Steady (action a b).run)
    (as bs : List Ty) : Steady (forEachPair action as bs).run := by
  induction as generalizing bs with
  | nil => exact steady_pureU ()
  | cons a as ih =>
    cases bs with
    | nil => exact steady_pureU ()
    | cons b bs => exact (h a b).bindU fun _ => ih bs

theorem steady_unifyWithin (depth : Nat) (a b : Ty) :
    Steady (unifyWithin depth a b).run := by
  induction depth generalizing a b with
  | zero => exact steady_pureU ()
  | succ depth ih =>
    rw [unifyWithin]
    refine (steady_lift (steady_resolve a)).bindU fun e =>
      (steady_lift (steady_resolve b)).bindU fun f => ?_
    cases e with
    | int =>
      cases f with
      | int => exact steady_pureU ()
      | var n => exact steady_bind n _
      | bool | func => exact steady_mismatch _ _
    | bool =>
      cases f with
      | bool => exact steady_pureU ()
      | var n => exact steady_bind n _
      | int | func => exact steady_mismatch _ _
    | var m =>
      cases f with
      | var n =>
        dsimp only
        split
        · exact steady_pureU ()
        · exact steady_bind m _
      | int | bool | func => exact steady_bind m _
    | func params ret =>
      cases f with
      | int | bool => exact steady_mismatch _ _
      | var n => exact steady_bind n _
      | func params' ret' =>
        dsimp only
        split
        · exact (steady_forEachPair (fun a b => steady_widening (ih a b)) params params').bindU
            fun _ => steady_widening (ih ret ret')
        · exact steady_mismatch _ _

end Steady

/-! ### The depth of unification -/

theorem run_bind_congr {α β : Type} {x : UnifyM α} {f g : α → UnifyM β}
    (h : ∀ a s₁, x.run s = (.ok a, s₁) → (f a).run s₁ = (g a).run s₁) :
    (x >>= f).run s = (x >>= g).run s := by
  rw [run_bind_match, run_bind_match]
  rcases hx : x.run s with ⟨e | a, s₁⟩
  · rfl
  · exact h a s₁ hx

theorem widening_congr {expected found : Ty} {action action' : UnifyM Unit}
    (h : action'.run s = action.run s) :
    (widening expected found action').run s = (widening expected found action).run s := by
  rw [widening, widening, run_tryCatch, run_tryCatch, h]

/-- Two ways of dealing with pairs that do the same from the substitutions that
are reached. -/
theorem forEachPair_congr {action action' : Ty → Ty → UnifyM Unit} {I : Subst → Prop}
    {as bs : List Ty}
    (hact : ∀ {a b s}, a ∈ as → b ∈ bs → I s → (action' a b).run s = (action a b).run s ∧
      ∀ s', (action a b).run s = (.ok (), s') → I s')
    (hs : I s) : (forEachPair action' as bs).run s = (forEachPair action as bs).run s ∧
      ∀ s', (forEachPair action as bs).run s = (.ok (), s') → I s' := by
  have hnil : ∀ s', (pure () : UnifyM Unit).run s = (.ok (), s') → I s' :=
    fun s' h => (pure_eq_ok.mp h).2 ▸ hs
  induction as generalizing bs s with
  | nil => exact ⟨rfl, hnil⟩
  | cons a as ih =>
    cases bs with
    | nil => exact ⟨rfl, hnil⟩
    | cons b bs =>
      obtain ⟨heq, hI⟩ := hact List.mem_cons_self List.mem_cons_self hs
      rw [forEachPair, forEachPair, run_bind_match, run_bind_match, heq]
      rcases hr : (action a b).run s with ⟨e | _, s₁⟩
      · exact ⟨rfl, fun _ h => by cases h⟩
      · have hs₁ := hI s₁ hr
        exact ih (fun ha hb => hact (List.mem_cons_of_mem _ ha) (List.mem_cons_of_mem _ hb)) hs₁
          fun s' h => (pure_eq_ok.mp h).2 ▸ hs₁

/-- `seen` are the function types above the two types.  Where the depth exceeds
the number of types that have not been met, one more level makes no
difference. -/
theorem unifyWithin_succ (hP : Ty.PartsClosed U) {depth : Nat} {a b : Ty} {seen : List Ty}
    (hs : s.WellFormed) (hU : s.Within U) (ha : a ∈ U) (hb : b ∈ U) (hseen : Above U seen s a)
    (hdepth : U.length < depth + seen.length) :
    (unifyWithin (depth + 1) a b).run s = (unifyWithin depth a b).run s := by
  induction depth generalizing a b seen s with
  | zero =>
    have := hseen.length_le
    omega
  | succ depth ih =>
    rw [unifyWithin, unifyWithin]
    refine run_bind_congr fun e s₁ h₁ => run_bind_congr fun f s₂ h₂ => ?_
    obtain ⟨hae, he⟩ := unified_resolve hs hU ha h₁
    obtain ⟨hbf, hf⟩ := unified_resolve hae.extends_.wellFormed hae.within hb h₂
    have hs₂ := hbf.extends_.wellFormed
    have hseen₂ : Above U seen s₂ e := hseen.of_agree (hae.extends_.trans hbf.extends_)
      fun hρ => hae.agree (hbf.extends_.holds hρ)
    cases e with
    | int | bool | var => cases f <;> rfl
    | func params ret =>
      cases f with
      | int | bool | var => rfl
      | func params' ret' =>
        dsimp only
        split
        · next hlen =>
          have hdepth' : U.length < depth + (Ty.func params ret :: seen).length := by
            rw [List.length_cons]
            omega
          -- a pair of parameters is unified in the same way and extends what is known
          have hpair : ∀ {c c' : Ty} {s₃ : Subst}, c ∈ params → c' ∈ params' →
              s₂.Extends 0 s₃ ∧ s₃.Within U →
              (widening (.func params ret) (.func params' ret')
                (unifyWithin (depth + 1) c c')).run s₃ = (widening (.func params ret)
                  (.func params' ret') (unifyWithin depth c c')).run s₃ ∧
              ∀ s', (widening (.func params ret) (.func params' ret')
                (unifyWithin depth c c')).run s₃ = (.ok (), s') →
                s₂.Extends 0 s' ∧ s'.Within U := by
            intro c c' s₃ hc hc' h
            have hbelow := hseen₂.part hs₂ he (List.mem_append_left _ hc) h.1
            have hcU := (hP he).1 _ hc
            have hcU' := (hP hf).1 _ hc'
            refine ⟨widening_congr (ih h.1.wellFormed h.2 hcU hcU' hbelow hdepth'), ?_⟩
            intro s' hr
            have hu := unifyWithin_spec hP h.1.wellFormed h.2 hcU hcU' hbelow hdepth'
              (widening_eq_ok hr)
            exact ⟨h.1.trans hu.extends_, hu.within⟩
          obtain ⟨heq, hI⟩ := forEachPair_congr hpair ⟨hs₂.extends_self, hbf.within⟩
          -- so the results are compared in the same state
          rw [run_bind_match, run_bind_match, heq]
          rcases hr : (forEachPair (fun a b => widening (.func params ret) (.func params' ret')
            (unifyWithin depth a b)) params params').run s₂ with ⟨e | _, s₃⟩
          · rfl
          · obtain ⟨hx, hU₃⟩ := hI s₃ hr
            exact widening_congr (ih hx.wellFormed hU₃ (hP he).2 (hP hf).2
              (hseen₂.part hs₂ he List.mem_concat_self hx) hdepth')
        · rfl

/-- The depth that is fixed before the start is enough: going deeper changes nothing. -/
theorem WellFormed.unify_eq (hs : s.WellFormed) (a b : Ty) (more : Nat) :
    (unify a b).run s
      = (unifyWithin (s.depthBound (a.size + b.size) + more) a b).run s := by
  obtain ⟨U, hP, hU, hab, hlen⟩ := s.exists_parts [a, b]
  change U.length < s.depthBound (a.size + b.size) at hlen
  induction more with
  | zero => exact run_bind_match get _ s
  | succ more ih =>
    rw [ih, ← Nat.add_assoc]
    refine (unifyWithin_succ hP hs hU (hab (by simp)) (hab (by simp)) .nil ?_).symm
    rw [List.length_nil]
    omega

/-- How long chains are makes no difference to unification. -/
theorem steady_unify (a b : Ty) : Steady (unify a b).run := by
  intro s s' h
  rw [h.left.unify_eq a b (s'.depthBound (a.size + b.size)),
    h.right.unify_eq a b (s.depthBound (a.size + b.size)), Nat.add_comm]
  exact steady_unifyWithin _ a b h

end Implet.Subst
