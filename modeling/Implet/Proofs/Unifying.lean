/-
Implet/Proofs/Unifying.lean

Unification makes two types equal: a successful `unify` extends the substitution
to one under which both types have the same value (`unify_spec`).

The recursion stops at a depth that is fixed before the start, and what is not
compared because of that would be taken for equal.  So it has to be shown that
the depth is never used up.  All types that are met on the way down come from a
list that is fixed before the start too: the parts of the two types and of the
linked ones.  A function type that is met below another one is worth less under
every valuation, so no type is met twice on the way, and the way is no longer
than the list.
-/
import Mathlib.Data.List.Perm.Subperm
import Implet.Proofs.Linking
import Implet.Ty.Unify

namespace Implet

namespace Subst

variable {s s' s₀ : Subst} {U : List Ty}

/-! ### The steps of unification -/

theorem tryCatch_eq_ok {x : UnifyM Unit} {handle : UnifyError → UnifyM Unit} {u : Unit}
    (hh : ∀ e s₁, (handle e).run s₁ ≠ (.ok u, s'))
    (h : (tryCatch x handle).run s = (.ok u, s')) : x.run s = (.ok u, s') := by
  rw [run_tryCatch] at h
  rcases hx : x.run s with ⟨e | u', s₁⟩
  · rw [hx] at h
    exact absurd h (hh e s₁)
  · rw [hx] at h
    exact h

/-- Reporting a conflict is no success. -/
theorem mismatch_ne_ok {expected found : Ty} {u : Unit} :
    (do throw (.mismatch (← apply expected) (← apply found)) : UnifyM Unit).run s
      ≠ (.ok u, s') := by
  intro h
  obtain ⟨_, _, -, h⟩ := bind_eq_ok.mp h
  obtain ⟨_, _, -, h⟩ := bind_eq_ok.mp h
  exact throw_ne_ok h

theorem widening_eq_ok {expected found : Ty} {action : UnifyM Unit} {u : Unit}
    (h : (widening expected found action).run s = (.ok u, s')) :
    action.run s = (.ok u, s') := by
  refine tryCatch_eq_ok (fun e s₁ h => ?_) h
  cases e with
  | mismatch => exact mismatch_ne_ok h
  | occursCheck | alreadyBound | notBase => exact throw_ne_ok h

/-- What a successful unification makes sure of. -/
structure Unified (U : List Ty) (a b : Ty) (s s' : Subst) : Prop where
  extends_ : s.Extends 0 s'
  within : s'.Within U
  agree : ∀ {ρ}, s'.Holds ρ → a.ground ρ = b.ground ρ

/-- Pairs of types that are unified one after the other all agree in the end. -/
theorem forEachPair_spec {action : Ty → Ty → UnifyM Unit} {as bs : List Ty}
    (hact : ∀ {a b s₁ s₂}, a ∈ as → b ∈ bs → s₀.Extends 0 s₁ → s₁.Within U →
      (action a b).run s₁ = (.ok (), s₂) → Unified U a b s₁ s₂)
    (hlen : as.length = bs.length) (hs : s₀.Extends 0 s) (hU : s.Within U)
    (h : (forEachPair action as bs).run s = (.ok (), s')) :
    s.Extends 0 s' ∧ s'.Within U ∧
      ∀ {ρ}, s'.Holds ρ → as.map (Ty.ground ρ) = bs.map (Ty.ground ρ) := by
  induction as generalizing bs s with
  | nil =>
    obtain rfl : bs = [] := List.length_eq_zero_iff.mp hlen.symm
    obtain ⟨-, rfl⟩ := pure_eq_ok.mp h
    exact ⟨hs.wellFormed.extends_self, hU, fun _ => rfl⟩
  | cons a as ih =>
    cases bs with
    | nil => cases hlen
    | cons b bs =>
      rw [forEachPair] at h
      obtain ⟨_, s₁, h₁, h⟩ := bind_eq_ok.mp h
      have hu := hact (by simp) (by simp) hs hU h₁
      obtain ⟨hx, hU', heq⟩ := ih
        (fun ha hb => hact (List.mem_cons_of_mem _ ha) (List.mem_cons_of_mem _ hb))
        (by simpa using hlen) (hs.trans hu.extends_) hu.within h
      refine ⟨hu.extends_.trans hx, hU', ?_⟩
      intro ρ hρ
      rw [List.map_cons, List.map_cons, hu.agree (hx.holds hρ), heq hρ]

/-! ### Unification -/

theorem Unified.symm {a b : Ty} (h : Unified U a b s s') : Unified U b a s s' :=
  ⟨h.extends_, h.within, fun hρ => (h.agree hρ).symm⟩

/-- Linking a free variable to a type of `U` unifies the two. -/
theorem unified_bind (hP : Ty.PartsClosed U) (hs : s.WellFormed) (hU : s.Within U)
    {n : Nat}
    {t : Ty} (ht : t ∈ U) (h : (bind n t).run s = (.ok (), s')) : Unified U (.var n) t s s' :=
  have ⟨hx, heq⟩ := bind_spec hs h
  ⟨hx, within_bind hP hs hU ht h, heq⟩

/-- A type agrees with its root. -/
theorem unified_resolve (hs : s.WellFormed) (hU : s.Within U) {a e : Ty} (ha : a ∈ U)
    (h : (liftM (resolve a) : UnifyM Ty).run s = (.ok e, s')) : Unified U a e s s' ∧ e ∈ U := by
  rw [lift_eq_ok, resolve_eq] at h
  obtain ⟨rfl, rfl⟩ := Prod.mk.inj h
  have hx := hs.extends_relink a
  exact ⟨⟨hx, hU.relink ha, fun hρ => (ground_root (hx.holds hρ) a).symm⟩, root_mem hU ha⟩

/-- It is enough to unify what two types agree with. -/
theorem Unified.of_roots {a b e f : Ty} {s₁ s₂ : Subst} (ha : Unified U a e s s₁)
    (hb : Unified U b f s₁ s₂) (h : Unified U e f s₂ s') : Unified U a b s s' := by
  refine ⟨(ha.extends_.trans hb.extends_).trans h.extends_, h.within, ?_⟩
  intro ρ hρ
  have hρ₂ := h.extends_.holds hρ
  calc a.ground ρ = e.ground ρ := ha.agree (hb.extends_.holds hρ₂)
    _ = f.ground ρ := h.agree hρ
    _ = b.ground ρ := (hb.agree hρ₂).symm

/-- The function types that are met on the way down to a type: none twice, and
each worth more than the type under every valuation. -/
structure Above (U seen : List Ty) (s : Subst) (a : Ty) : Prop where
  nodup : seen.Nodup
  subset : seen ⊆ U
  size_lt : ∀ t ∈ seen, ∀ {ρ}, s.Holds ρ → (a.ground ρ).size < (t.ground ρ).size

namespace Above

variable {seen : List Ty} {a : Ty}

theorem nil : Above U [] s a :=
  ⟨List.nodup_nil, List.nil_subset _, fun _ ht => absurd ht List.not_mem_nil⟩

theorem length_le (h : Above U seen s a) : seen.length ≤ U.length :=
  (h.nodup.subperm h.subset).length_le

/-- The way is the same for a type of the same value. -/
theorem of_agree (h : Above U seen s a) {k : Nat} (hx : s.Extends k s') {e : Ty}
    (he : ∀ {ρ}, s'.Holds ρ → a.ground ρ = e.ground ρ) : Above U seen s' e := by
  refine ⟨h.nodup, h.subset, ?_⟩
  intro t ht ρ hρ
  rw [← he hρ]
  exact h.size_lt t ht (hx.holds hρ)

/-- The way is the same for the root of a type, once the chain to it is shortened. -/
theorem root (h : Above U seen s a) (hs : s.WellFormed) :
    Above U seen (s.relink (s.chain a) (s.root a)) (s.root a) := by
  have hx := hs.shortens_relink a
  exact h.of_agree hx.extends fun hρ => (ground_root (hx.holds.mp hρ) a).symm

/-- No type is below itself, so a type that is reached is none of those above it. -/
theorem not_mem (h : Above U seen s a) (hs : s.WellFormed) : a ∉ seen := by
  intro ha
  obtain ⟨ρ, hρ⟩ := hs.exists_holds
  exact lt_irrefl _ (h.size_lt a ha hρ)

/-- One step further down. -/
theorem cons (h : Above U seen s a) (hs : s.WellFormed) (ha : a ∈ U) {c : Ty}
    (hc : ∀ ρ, (c.ground ρ).size < (a.ground ρ).size) : Above U (a :: seen) s c := by
  refine ⟨List.nodup_cons.mpr ⟨h.not_mem hs, h.nodup⟩, List.cons_subset.mpr ⟨ha, h.subset⟩, ?_⟩
  intro t ht ρ hρ
  rcases List.mem_cons.mp ht with rfl | ht
  · exact hc ρ
  · exact (hc ρ).trans (h.size_lt t ht hρ)

/-- One step further down, to a part of a function type, when more is known. -/
theorem part {params : List Ty} {ret p : Ty} (h : Above U seen s (.func params ret))
    (hs : s.WellFormed) (hf : .func params ret ∈ U) (hp : p ∈ params ++ [ret]) {k : Nat}
    (hx : s.Extends k s') : Above U (.func params ret :: seen) s' p :=
  (h.cons hs hf (Ty.size_ground_lt_part hp)).of_agree hx fun _ => rfl

end Above

/-- `seen` are the function types above the two types.  The depth that is left
exceeds the number of types that have not been met. -/
theorem unifyWithin_spec (hP : Ty.PartsClosed U) {depth : Nat} {a b : Ty} {seen : List Ty}
    (hs : s.WellFormed) (hU : s.Within U) (ha : a ∈ U) (hb : b ∈ U) (hseen : Above U seen s a)
    (hdepth : U.length < depth + seen.length)
    (h : (unifyWithin depth a b).run s = (.ok (), s')) : Unified U a b s s' := by
  induction depth generalizing a b seen s s' with
  | zero =>
    -- there are no more types above than there are types
    have := hseen.length_le
    omega
  | succ depth ih =>
    rw [unifyWithin] at h
    obtain ⟨e, s₁, h₁, h⟩ := bind_eq_ok.mp h
    obtain ⟨f, s₂, h₂, h⟩ := bind_eq_ok.mp h
    obtain ⟨hae, he⟩ := unified_resolve hs hU ha h₁
    obtain ⟨hbf, hf⟩ := unified_resolve hae.extends_.wellFormed hae.within hb h₂
    have hs₂ := hbf.extends_.wellFormed
    have hU₂ := hbf.within
    have hseen₂ : Above U seen s₂ e := hseen.of_agree (hae.extends_.trans hbf.extends_)
      fun hρ => hae.agree (hbf.extends_.holds hρ)
    refine hae.of_roots hbf ?_
    cases e with
    | int =>
      cases f with
      | int =>
        obtain ⟨-, rfl⟩ := pure_eq_ok.mp h
        exact ⟨hs₂.extends_self, hU₂, fun _ => rfl⟩
      | var n => exact (unified_bind hP hs₂ hU₂ he h).symm
      | bool | func => exact absurd h mismatch_ne_ok
    | bool =>
      cases f with
      | bool =>
        obtain ⟨-, rfl⟩ := pure_eq_ok.mp h
        exact ⟨hs₂.extends_self, hU₂, fun _ => rfl⟩
      | var n => exact (unified_bind hP hs₂ hU₂ he h).symm
      | int | func => exact absurd h mismatch_ne_ok
    | var m =>
      cases f with
      | var n =>
        by_cases hmn : m = n
        · simp only [hmn] at h
          obtain ⟨-, rfl⟩ := pure_eq_ok.mp h
          exact ⟨hs₂.extends_self, hU₂, fun _ => by rw [hmn]⟩
        · simp only [if_neg hmn] at h
          exact unified_bind hP hs₂ hU₂ hf h
      | int | bool | func => exact unified_bind hP hs₂ hU₂ hf h
    | func params ret =>
      cases f with
      | int | bool => exact absurd h mismatch_ne_ok
      | var n => exact (unified_bind hP hs₂ hU₂ he h).symm
      | func params' ret' =>
        simp only at h
        split at h
        · next hlen =>
          obtain ⟨_, s₃, h₁, h₂⟩ := bind_eq_ok.mp h
          -- the parts are unified below this function type, with one level less
          have hdepth' : U.length < depth + (Ty.func params ret :: seen).length := by
            rw [List.length_cons]
            omega
          obtain ⟨hx₃, hU₃, hparams⟩ := forEachPair_spec
            (fun hp hq hx hU' h => ih hx.wellFormed hU' ((hP he).1 _ hp) ((hP hf).1 _ hq)
              (hseen₂.part hs₂ he (List.mem_append_left _ hp) hx) hdepth' (widening_eq_ok h))
            hlen hs₂.extends_self hU₂ h₁
          have hret := ih hx₃.wellFormed hU₃ (hP he).2 (hP hf).2
            (hseen₂.part hs₂ he List.mem_concat_self hx₃) hdepth' (widening_eq_ok h₂)
          refine ⟨hx₃.trans hret.extends_, hret.within, ?_⟩
          intro ρ hρ
          rw [Ty.ground_func, Ty.ground_func, hparams (hret.extends_.holds hρ), hret.agree hρ]
        · exact absurd h mismatch_ne_ok

/-- The types that can be met on the way down from some types: the parts of
these and of the linked ones.  The depth that is fixed before the start exceeds
the number of them. -/
theorem exists_parts (s : Subst) (ts : List Ty) :
    ∃ U, Ty.PartsClosed U ∧ s.Within U ∧ ts ⊆ U ∧
    U.length < s.depthBound (Ty.sizes ts) := by
  refine ⟨ts.flatMap Ty.parts ++ (s.links.map (·.2)).flatMap Ty.parts, ?_, ?_, ?_, ?_⟩
  · exact (Ty.partsClosed_flatMap fun t _ => Ty.partsClosed_parts t).append
      (Ty.partsClosed_flatMap fun t _ => Ty.partsClosed_parts t)
  · intro n t ht
    obtain ⟨l₁, l₂, hl, -⟩ := List.lookup_eq_some_iff.mp ht
    refine List.mem_append_right _ (List.mem_flatMap.mpr ⟨t, ?_, t.self_mem_parts⟩)
    rw [hl]
    simp
  · exact fun t ht => List.mem_append_left _ (List.mem_flatMap.mpr ⟨t, ht, t.self_mem_parts⟩)
  · rw [List.length_append, ← Ty.partsList_eq, ← Ty.partsList_eq, depthBound, size,
      Ty.length_partsList fun t _ => Ty.length_parts t,
      Ty.length_partsList fun t _ => Ty.length_parts t]
    exact Nat.le_mul_self _

/-- Two types that have been unified have the same value under every valuation. -/
theorem unify_spec (hs : s.WellFormed) {a b : Ty} (h : (unify a b).run s = (.ok (), s')) :
    s.Extends 0 s' ∧ ∀ {ρ}, s'.Holds ρ → a.ground ρ = b.ground ρ := by
  obtain ⟨_, _, h₁, h⟩ := bind_eq_ok.mp h
  obtain ⟨rfl, rfl⟩ := get_eq_ok.mp h₁
  obtain ⟨U, hP, hU, hab, hlen⟩ := s.exists_parts [a, b]
  have hu := unifyWithin_spec hP hs hU (hab (by simp)) (hab (by simp)) .nil hlen h
  exact ⟨hu.extends_, hu.agree⟩

end Subst

end Implet
