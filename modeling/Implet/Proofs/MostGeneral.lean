/-
Implet/Proofs/MostGeneral.lean

Unification is exact.  A success asks of a valuation that the two types have the
same value and nothing else, and a failure means that no valuation gives them
the same value (`Subst.Reachable.unify_mostGeneral`).

That a success asks for enough is `Subst.unify_spec`.  Here it is shown that
nothing is asked for too much: an operation is complete for a requirement if it
keeps every valuation that meets the requirement, and fails only if there is
none (`Subst.Complete`).  Steps that are complete for a requirement can be put
one after the other, so the proofs follow the operations line by line, and how
deep the recursion goes does not matter here.
-/
import Implet.Proofs.Applying

namespace Implet.Subst

variable {α β : Type} {s s' : Subst} {P Q : Valuation → Prop} {ρ : Valuation}

/-! ### Operations that fail -/

theorem bind_eq_error {x : UnifyM α} {f : α → UnifyM β} {e : UnifyError} :
    (x >>= f).run s = (.error e, s') ↔
      x.run s = (.error e, s') ∨ ∃ a s₁, x.run s = (.ok a, s₁) ∧ (f a).run s₁ = (.error e, s') := by
  rw [run_bind_match]
  rcases x.run s with ⟨e' | a, s₁⟩
  · constructor
    · intro h
      cases h
      exact Or.inl rfl
    · rintro (h | ⟨a, s₁', h, -⟩)
      · cases h
        rfl
      · cases h
  · constructor
    · exact fun h => Or.inr ⟨a, s₁, rfl, h⟩
    · rintro (h | ⟨a', s₁', h, h'⟩)
      · cases h
      · cases h
        exact h'

theorem lift_ne_error {x : StateM Subst α} {e : UnifyError} :
    (liftM x : UnifyM α).run s ≠ (.error e, s') := by
  intro h
  cases h

/-! ### Complete operations -/

/-- `x` asks for no more than `P`: it keeps the valuations with `P`, and fails
only if there are none. -/
structure Complete (P : Valuation → Prop) (x : UnifyM α) (s : Subst) : Prop where
  wellFormed : ∀ {r s'}, x.run s = (r, s') → s'.WellFormed
  keeps : ∀ {a s'}, x.run s = (.ok a, s') → ∀ {ρ}, s.Holds ρ → P ρ → s'.Holds ρ
  refuses : ∀ {e s'}, x.run s = (.error e, s') →
    (∀ n, e ≠ .alreadyBound n) ∧ ∀ {ρ}, s.Holds ρ → ¬ P ρ

theorem complete_pure (hs : s.WellFormed) {a : α} : Complete P (pure a) s where
  wellFormed h := (Prod.mk.inj h).2 ▸ hs
  keeps h := (pure_eq_ok.mp h).2 ▸ fun hρ _ => hρ
  refuses h := nomatch h

theorem complete_throw {e : UnifyError} (hs : s.WellFormed)
    (he : ∀ n, e ≠ .alreadyBound n)
    (hP : ∀ {ρ}, s.Holds ρ → ¬ P ρ) : Complete P (throw e : UnifyM α) s where
  wellFormed h := (Prod.mk.inj h).2 ▸ hs
  keeps h := absurd h throw_ne_ok
  refuses h := Except.error.inj (Prod.mk.inj h).1 ▸ ⟨he, hP⟩

theorem complete_modify {f : Subst → Subst} (hf : (f s).WellFormed)
    (h : ∀ {ρ}, s.Holds ρ → P ρ → (f s).Holds ρ) : Complete P (modify f : UnifyM Unit) s where
  wellFormed hr := (Prod.mk.inj hr).2 ▸ hf
  keeps hr := modify_eq_ok.mp hr ▸ h
  refuses hr := nomatch hr

/-- What only shortens chains asks for nothing. -/
theorem complete_lift {x : StateM Subst α} (h : s.Shortens (x s).2) :
    Complete P (liftM x : UnifyM α) s where
  wellFormed hr := (Prod.mk.inj hr).2 ▸ h.wellFormed
  keeps hr := by
    rw [lift_eq_ok] at hr
    rw [hr] at h
    exact fun hρ _ => h.holds.mpr hρ
  refuses hr := absurd hr lift_ne_error

theorem complete_resolve (hs : s.WellFormed) (t : Ty) :
    Complete P (liftM (resolve t) : UnifyM Ty) s := complete_lift (hs.shortens_relink t)

theorem complete_apply (hs : s.WellFormed) (t : Ty) :
    Complete P (liftM (apply t) : UnifyM Ty) s := complete_lift (hs.shortens_apply t)

theorem complete_get (hs : s.WellFormed) : Complete P (get : UnifyM Subst) s where
  wellFormed h := (Prod.mk.inj h).2 ▸ hs
  keeps h := (get_eq_ok.mp h).2 ▸ fun hρ _ => hρ
  refuses h := nomatch h

/-- Steps that ask for no more than `P` ask together for no more than `P`. -/
theorem Complete.bind {x : UnifyM α} {f : α → UnifyM β} (hx : Complete P x s)
    (hf : ∀ {a s₁}, x.run s = (.ok a, s₁) → s₁.WellFormed → Complete P (f a) s₁) :
    Complete P (x >>= f) s where
  wellFormed {r s'} h := by
    cases r with
    | ok b =>
      obtain ⟨a, s₁, h₁, h₂⟩ := bind_eq_ok.mp h
      exact (hf h₁ (hx.wellFormed h₁)).wellFormed h₂
    | error e =>
      rcases bind_eq_error.mp h with h₁ | ⟨a, s₁, h₁, h₂⟩
      · exact hx.wellFormed h₁
      · exact (hf h₁ (hx.wellFormed h₁)).wellFormed h₂
  keeps h := by
    obtain ⟨a, s₁, h₁, h₂⟩ := bind_eq_ok.mp h
    exact fun hρ hP => (hf h₁ (hx.wellFormed h₁)).keeps h₂ (hx.keeps h₁ hρ hP) hP
  refuses h := by
    rcases bind_eq_error.mp h with h₁ | ⟨a, s₁, h₁, h₂⟩
    · exact hx.refuses h₁
    · obtain ⟨he, hP⟩ := (hf h₁ (hx.wellFormed h₁)).refuses h₂
      exact ⟨he, fun hρ hPρ => hP (hx.keeps h₁ hρ hPρ) hPρ⟩

theorem Complete.mono {x : UnifyM α} (h : Complete P x s)
    (hP : ∀ {ρ}, s.Holds ρ → Q ρ → P ρ) :
    Complete Q x s where
  wellFormed := h.wellFormed
  keeps hr := fun hρ hQ => h.keeps hr hρ (hP hρ hQ)
  refuses hr := ⟨(h.refuses hr).1, fun hρ hQ => (h.refuses hr).2 hρ (hP hρ hQ)⟩

/-! ### Requiring a base type and linking -/

/-- `u` is what a type resolves to: it has the same value and is no linked variable. -/
structure Resolved (t u : Ty) (s s' : Subst) : Prop where
  shortens : s.Shortens s'
  ground : ∀ {ρ}, s'.Holds ρ → u.ground ρ = t.ground ρ
  free : ∀ m, u = .var m → s'.link? m = none

theorem WellFormed.resolved (hs : s.WellFormed) {t u : Ty}
    (h : (liftM (resolve t) : UnifyM Ty).run s = (.ok u, s')) : Resolved t u s s' := by
  rw [lift_eq_ok, resolve_eq] at h
  obtain ⟨rfl, rfl⟩ := Prod.mk.inj h
  have hx := hs.shortens_relink t
  exact ⟨hx, fun hρ => ground_root (hx.holds.mp hρ) t,
    fun m hm => (hx.free m).mpr (hs.root_free hm)⟩

theorem complete_requireBase (hs : s.WellFormed) (t : Ty) :
    Complete (fun ρ => (t.ground ρ).IsBase) (requireBase t) s := by
  refine (complete_resolve hs t).bind fun {u s₁} h₁ hs₁ => ?_
  have hu := hs.resolved h₁
  cases u with
  | int | bool => exact complete_pure hs₁
  | var n =>
    refine complete_modify (hs₁.extends_mark (hu.free n rfl)).wellFormed fun {ρ} hρ hb => ?_
    refine ⟨hρ.link, fun {k} hk => ?_⟩
    rcases List.mem_insert_iff.mp hk with rfl | hk
    · rwa [← hu.ground hρ] at hb
    · exact hρ.base hk
  | func params ret =>
    refine (complete_apply hs₁ _).bind fun {_ s₂} h₂ hs₂ => ?_
    obtain rfl := congrArg Prod.snd (lift_eq_ok.mp h₂)
    refine complete_throw hs₂ (fun n h => by cases h) fun {ρ} hρ hb => ?_
    rw [← hu.ground ((hs₁.shortens_apply _).holds.mp hρ), Ty.ground_func] at hb
    exact hb

/-- A variable is worth less than a type that it occurs in. -/
theorem ne_ground_of_mem_vars {n : Nat} {t : Ty} (hn : n ∈ t.vars) (ht : t ≠ .var n)
    (ρ : Valuation) : ρ n ≠ t.ground ρ := by
  have hle : ∀ t : Ty, n ∈ t.vars → (ρ n).size ≤ (t.ground ρ).size := by
    intro t
    induction t with
    | int | bool => exact fun h => absurd h List.not_mem_nil
    | var m =>
      intro h
      rw [List.mem_singleton.mp h]
      rfl
    | func params ret hp hr =>
      intro h
      rw [Ty.vars_func, List.mem_append, List.mem_flatMap] at h
      rcases h with ⟨p, hpm, h⟩ | h
      · exact (hp p hpm h).trans (Ty.size_ground_lt_param hpm).le
      · exact (hr h).trans Ty.size_ground_lt_ret.le
  cases t with
  | int | bool => exact absurd hn List.not_mem_nil
  | var m => exact absurd (by rw [List.mem_singleton.mp hn]) ht
  | func params ret =>
    intro h
    have hsize := congrArg Ground.size h
    rw [Ty.vars_func, List.mem_append, List.mem_flatMap] at hn
    rcases hn with ⟨p, hpm, hn⟩ | hn
    · have := hle p hn
      have : (p.ground ρ).size < ((Ty.func params ret).ground ρ).size :=
        Ty.size_ground_lt_param hpm
      omega
    · have := hle ret hn
      have : (ret.ground ρ).size < ((Ty.func params ret).ground ρ).size := Ty.size_ground_lt_ret
      omega

theorem expand_ne_var {n : Nat} {t : Ty} (ht : t ≠ .var n)
    (hfree : ∀ m, t = .var m → s.link? m = none) : s.expand t ≠ .var n := by
  cases t with
  | var m => rwa [WellFormed.expand_free (hfree m rfl)]
  | int | bool | func =>
    rw [WellFormed.expand_eq_subst]
    intro h
    cases h

theorem Holds.cons (hρ : s.Holds ρ) {n : Nat} {t : Ty} (h : ρ n = t.ground ρ) :
    ({ s with links := (n, t) :: s.links } : Subst).Holds ρ := by
  refine ⟨fun {k u} hu => ?_, hρ.base⟩
  rw [link?_cons] at hu
  split at hu
  · next hk =>
    obtain rfl := Option.some.inj hu
    exact hk ▸ h
  · exact hρ.link hu

/-- Linking a free variable asks only that it has the value of the type. -/
theorem complete_bind (hs : s.WellFormed) {n : Nat} (hn : s.link? n = none) (t : Ty) :
    Complete (fun ρ => ρ n = t.ground ρ) (bind n t) s := by
  rw [Subst.bind]
  refine (complete_get hs).bind fun {_ s₀} h₀ _ => ?_
  obtain ⟨rfl, rfl⟩ := get_eq_ok.mp h₀
  rw [if_neg (by simp [isBound, hn])]
  refine (complete_resolve hs t).bind fun {u s₁} h₁ hs₁ => ?_
  have hu := hs.resolved h₁
  have hn₁ := (hu.shortens.free n).mpr hn
  split
  · exact complete_pure hs₁
  next hne =>
  have hx := hs₁.shortens_occursIn n u
  have hfound := hs₁.occursIn_eq n u
  refine (complete_lift hx).bind fun {found s₂} h₂ hs₂ => ?_
  rw [← hx.occurs_eq hs₁, lift_eq_ok.mp h₂] at hfound
  rw [lift_eq_ok.mp h₂] at hx
  dsimp only at hfound hx
  subst hfound
  have hground : ∀ {ρ}, s₂.Holds ρ → u.ground ρ = t.ground ρ :=
    fun hρ => hu.ground (hx.holds.mp hρ)
  have hfree : ∀ m, u = .var m → s₂.link? m = none := fun m hm => (hx.free m).mpr (hu.free m hm)
  have hn₂ := (hx.free n).mpr hn₁
  split
  · next ho =>
    -- a variable is never worth as much as a type that it occurs in
    have ho : n ∈ (s₂.expand u).vars := by simpa [occurs] using ho
    refine (complete_apply hs₂ u).bind fun {_ s₃} h₃ hs₃ => ?_
    obtain rfl := congrArg Prod.snd (lift_eq_ok.mp h₃)
    refine Complete.bind (complete_throw hs₃ (fun n h => by cases h) fun {ρ} hρ hP => ?_)
      fun h _ => absurd h throw_ne_ok
    have hρ₂ := (hs₂.shortens_apply u).holds.mp hρ
    rw [← hground hρ₂, ← ground_expand hρ₂ u] at hP
    exact ne_ground_of_mem_vars ho (expand_ne_var hne hfree) ρ hP
  next ho =>
  have ho : n ∉ (s₂.expand u).vars := by simpa [occurs] using ho
  refine (complete_get hs₂).bind fun {_ s₃} h₃ _ => ?_
  obtain ⟨rfl, rfl⟩ := get_eq_ok.mp h₃
  split
  · next hm =>
    -- a marked variable has a base type, and so has the type it is to be linked to
    have hm : n ∈ s₂.baseOnly := by simpa using hm
    refine Complete.bind ((complete_requireBase hs₂ u).mono fun {ρ} hρ hP => ?_)
      fun {_ s₃} h₃ hs₃ => complete_modify ?_ fun {ρ} hρ hP => hρ.cons ?_
    · rw [hground hρ, ← hP]
      exact hρ.base hm
    · obtain ⟨hl, hb⟩ := requireBase_of_free hfree h₃
      exact hs₃.cons (link?_congr hl n ▸ hn₂) (expand_congr hl u ▸ ho) fun _ => hb
    · rw [hground ((requireBase_spec hs₂ h₃).1.holds hρ), hP]
  · next hm =>
    refine complete_modify (hs₂.cons hn₂ ho fun h => absurd h (by simpa using hm))
      fun {ρ} hρ hP => hρ.cons ?_
    rw [hground hρ, hP]

/-! ### Unification -/

/-- Reporting a conflict is right if no valuation gives the types the same value. -/
theorem complete_mismatch (hs : s.WellFormed) {expected found : Ty}
    (hP : ∀ {ρ}, s.Holds ρ → ¬ P ρ) :
    Complete P (do throw (.mismatch (← apply expected) (← apply found)) : UnifyM Unit) s := by
  refine (complete_apply hs expected).bind fun {_ s₁} h₁ hs₁ => ?_
  obtain rfl := congrArg Prod.snd (lift_eq_ok.mp h₁)
  refine (complete_apply hs₁ found).bind fun {_ s₂} h₂ hs₂ => ?_
  obtain rfl := congrArg Prod.snd (lift_eq_ok.mp h₂)
  have hx := (hs.shortens_apply expected).trans (hs₁.shortens_apply found)
  exact complete_throw hs₂ (fun n h => by cases h) fun hρ => hP (hx.holds.mp hρ)

/-- What is done about a failure cannot make good for it. -/
theorem Complete.catch {x : UnifyM Unit} {handle : UnifyError → UnifyM Unit}
    (hx : Complete P x s) (hh : ∀ {e s₁}, s₁.WellFormed → (∀ n, e ≠ .alreadyBound n) →
      Complete (fun _ => False) (handle e) s₁) : Complete P (tryCatch x handle) s := by
  have hrun := run_tryCatch x handle s
  rcases hr : x.run s with ⟨e | u, s₁⟩
  · obtain ⟨he, hP⟩ := hx.refuses hr
    have hc := hh (hx.wellFormed hr) he
    rw [hr] at hrun
    constructor
    · exact fun h => hc.wellFormed (hrun ▸ h)
    · exact fun _ _ hρ hPρ => absurd hPρ (hP hρ)
    · exact fun h => ⟨(hc.refuses (hrun ▸ h)).1, hP⟩
  · rw [hr] at hrun
    constructor
    · exact fun h => hx.wellFormed (hr.trans (hrun ▸ h))
    · exact fun h => hx.keeps (hr.trans (hrun ▸ h))
    · exact fun h => nomatch hrun ▸ h

/-- It does not matter against which types a conflict is reported. -/
theorem Complete.widening {action : UnifyM Unit} (h : Complete P action s)
    (expected found : Ty) :
    Complete P (widening expected found action) s := by
  apply h.catch
  intro e s₁ hs₁ he
  cases e with
  | mismatch => exact complete_mismatch hs₁ fun _ h => h
  | occursCheck | alreadyBound | notBase => exact complete_throw hs₁ he fun _ h => h

theorem complete_forEachPair {action : Ty → Ty → UnifyM Unit}
    (hact : ∀ {s : Subst} a b, s.WellFormed →
      Complete (fun ρ => a.ground ρ = b.ground ρ) (action a b) s)
    (hs : s.WellFormed) (as bs : List Ty) :
    Complete (fun ρ => as.map (Ty.ground ρ) = bs.map (Ty.ground ρ))
      (forEachPair action as bs) s := by
  induction as generalizing bs s with
  | nil => exact complete_pure hs
  | cons a as ih =>
    cases bs with
    | nil => exact complete_pure hs
    | cons b bs =>
      refine ((hact a b hs).mono fun _ h => (List.cons.inj h).1).bind fun _ hs₁ => ?_
      exact (ih hs₁ bs).mono fun _ h => (List.cons.inj h).2

/-- Unifying two types asks only that they have the same value. -/
theorem complete_unifyWithin (hs : s.WellFormed) (depth : Nat) (a b : Ty) :
    Complete (fun ρ => a.ground ρ = b.ground ρ) (unifyWithin depth a b) s := by
  induction depth generalizing a b s with
  | zero => exact complete_pure hs
  | succ depth ih =>
    rw [unifyWithin]
    refine (complete_resolve hs a).bind fun {e s₁} h₁ hs₁ => ?_
    refine (complete_resolve hs₁ b).bind fun {f s₂} h₂ hs₂ => ?_
    have he := hs.resolved h₁
    have hf := hs₁.resolved h₂
    have hfree : ∀ m, e = .var m → s₂.link? m = none :=
      fun m hm => (hf.shortens.free m).mpr (he.free m hm)
    -- from here on only the two roots matter
    refine Complete.mono (P := fun ρ => e.ground ρ = f.ground ρ) ?_ fun {ρ} hρ h => by
      rw [he.ground (hf.shortens.holds.mp hρ), hf.ground hρ, h]
    cases e with
    | int =>
      cases f with
      | int => exact complete_pure hs₂
      | var n => exact (complete_bind hs₂ (hf.free n rfl) .int).mono fun _ h => h.symm
      | bool | func => exact complete_mismatch hs₂ fun _ h => by cases h
    | bool =>
      cases f with
      | bool => exact complete_pure hs₂
      | var n => exact (complete_bind hs₂ (hf.free n rfl) .bool).mono fun _ h => h.symm
      | int | func => exact complete_mismatch hs₂ fun _ h => by cases h
    | var m =>
      cases f with
      | var n =>
        by_cases hmn : m = n
        · simp only [if_pos hmn]
          exact complete_pure hs₂
        · simp only [if_neg hmn]
          exact complete_bind hs₂ (hfree m rfl) (.var n)
      | int | bool | func => exact complete_bind hs₂ (hfree m rfl) _
    | func params ret =>
      cases f with
      | int | bool => exact complete_mismatch hs₂ fun _ h => by cases h
      | var n => exact (complete_bind hs₂ (hf.free n rfl) _).mono fun _ h => h.symm
      | func params' ret' =>
        simp only [Ty.ground_func, Ground.func.injEq]
        split
        · refine ((complete_forEachPair (fun p q hs => (ih hs p q).widening _ _) hs₂ params
            params').mono fun _ h => h.1).bind fun _ hs₃ => ?_
          exact ((ih hs₃ ret ret').mono fun _ h => h.2).widening _ _
        · next hlen =>
          refine complete_mismatch hs₂ fun _ h => hlen ?_
          simpa using congrArg List.length h.1

theorem complete_unify (hs : s.WellFormed) (a b : Ty) :
    Complete (fun ρ => a.ground ρ = b.ground ρ) (unify a b) s := by
  refine (complete_get hs).bind fun h _ => ?_
  obtain ⟨rfl, rfl⟩ := get_eq_ok.mp h
  exact complete_unifyWithin hs _ a b

/-- A success asks that the two types have the same value, no more and no less. -/
theorem unify_holds_iff (hs : s.WellFormed) {a b : Ty}
    (h : (unify a b).run s = (.ok (), s')) :
    s'.Holds ρ ↔ s.Holds ρ ∧ a.ground ρ = b.ground ρ := by
  obtain ⟨hx, heq⟩ := unify_spec hs h
  exact ⟨fun hρ => ⟨hx.holds hρ, heq hρ⟩, fun hρ => (complete_unify hs a b).keeps h hρ.1 hρ.2⟩

/-- Types that have been unified are the same when they are applied. -/
theorem apply_eq_of_unify (hs : s.WellFormed) {a b : Ty}
    (h : (unify a b).run s = (.ok (), s')) : (apply a s').1 = (apply b s').1 := by
  have hs' := (unify_spec hs h).1.wellFormed
  rw [hs'.apply_eq_expand, hs'.apply_eq_expand]
  apply hs'.eq_of_ground (hs'.free_expand a) (hs'.free_expand b)
  intro ρ hρ
  rw [ground_expand hρ, ground_expand hρ, (unify_spec hs h).2 hρ]

/-! ### All substitutions that can come about -/

/-- The substitutions that operations lead to from the empty one, also those
that fail. -/
inductive Reachable : Subst → Prop
  | empty : Reachable .empty
  | fresh {s : Subst} : Reachable s → Reachable (Subst.fresh s).2
  | bind {s : Subst} (n : Nat) (t : Ty) : Reachable s → Reachable ((Subst.bind n t).run s).2
  | requireBase {s : Subst} (t : Ty) : Reachable s → Reachable ((Subst.requireBase t).run s).2
  | unify {s : Subst} (a b : Ty) : Reachable s → Reachable ((Subst.unify a b).run s).2
  | resolve {s : Subst} (t : Ty) : Reachable s → Reachable (Subst.resolve t s).2
  | apply {s : Subst} (t : Ty) : Reachable s → Reachable (Subst.apply t s).2

/-- Linking a variable that is linked already does nothing. -/
theorem run_bind_of_linked {n : Nat} {u : Ty} (h : s.link? n = some u) (t : Ty) :
    (bind n t).run s = (.error (.alreadyBound n), s) := by
  have hb : s.isBound n = true := by simp [isBound, h]
  show (if s.isBound n then _ else _ : UnifyM Unit).run s = _
  rw [if_pos hb]
  rfl

theorem WellFormed.bind (hs : s.WellFormed) (n : Nat) (t : Ty) :
    ((bind n t).run s).2.WellFormed := by
  rcases hn : s.link? n with - | u
  · exact (complete_bind hs hn t).wellFormed rfl
  · rw [run_bind_of_linked hn]
    exact hs

theorem Reachable.wellFormed (h : s.Reachable) : s.WellFormed := by
  induction h with
  | empty => exact wellFormed_empty
  | fresh _ ih => exact ih.extends_fresh.wellFormed
  | bind n t _ ih => exact ih.bind n t
  | requireBase t _ ih => exact (complete_requireBase ih t).wellFormed rfl
  | unify a b _ ih => exact (complete_unify ih a b).wellFormed rfl
  | resolve t _ ih => exact (ih.shortens_relink t).wellFormed
  | apply t _ ih => exact (ih.shortens_apply t).wellFormed

/-- Unification finds a most general unifier.  A success makes the types the
same, and the valuations that are left are all those that give them the same
value.  A failure means that there are none, and is never that a variable is
linked already. -/
theorem Reachable.unify_mostGeneral (h : s.Reachable) (a b : Ty) :
    (∀ s', (Subst.unify a b).run s = (.ok (), s') →
      (Subst.apply a s').1 = (Subst.apply b s').1 ∧
        ∀ ρ, s'.Holds ρ ↔ s.Holds ρ ∧ a.ground ρ = b.ground ρ) ∧
    ∀ e s', (Subst.unify a b).run s = (.error e, s') →
      (∀ n, e ≠ .alreadyBound n) ∧ ∀ ρ, s.Holds ρ → a.ground ρ ≠ b.ground ρ := by
  have hs := h.wellFormed
  refine ⟨fun s' hr => ⟨apply_eq_of_unify hs hr, fun ρ => unify_holds_iff hs hr⟩, ?_⟩
  intro e s' hr
  obtain ⟨he, hP⟩ := (complete_unify hs a b).refuses hr
  exact ⟨he, fun ρ hρ => hP hρ⟩

/-- Two variables that are one and have to have a base type. -/
def paired : Subst :=
  ((requireBase (.var 0)).run ((unify (.var 0) (.var 1)).run empty).2).2

theorem unify_mostGeneral_paired :
    paired.Reachable ∧
    (∃ s', (unify (.func [.var 0] .bool) (.func [.var 2] (.var 1))).run paired = (.ok (), s') ∧
      (apply (.func [.var 0] .bool) s').1 = (apply (.func [.var 2] (.var 1)) s').1 ∧
      ∀ ρ, s'.Holds ρ ↔ paired.Holds ρ ∧
        (Ty.func [.var 0] .bool).ground ρ = (Ty.func [.var 2] (.var 1)).ground ρ) ∧
    ∃ e s', (unify (.var 1) (.func [] .int)).run paired = (.error e, s') ∧
      (∀ n, e ≠ .alreadyBound n) ∧
      ∀ ρ, paired.Holds ρ → (Ty.var 1).ground ρ ≠ (Ty.func [] .int).ground ρ := by
  have h : paired.Reachable := .requireBase _ (.unify _ _ .empty)
  have hok : ((unify (.func [.var 0] .bool) (.func [.var 2] (.var 1))).run paired).1 = .ok () := by
    decide +kernel
  have herr : ((unify (.var 1) (.func [] .int)).run paired).1 =
      .error (.notBase (.func [] .int)) := by
    decide +kernel
  refine ⟨h, ⟨_, Prod.ext hok rfl, ?_⟩, _, _, Prod.ext herr rfl, ?_⟩
  · exact (h.unify_mostGeneral _ _).1 _ (Prod.ext hok rfl)
  · exact (h.unify_mostGeneral _ _).2 _ _ (Prod.ext herr rfl)

end Implet.Subst
