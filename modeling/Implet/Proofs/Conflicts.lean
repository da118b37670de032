/-
Implet/Proofs/Conflicts.lean

What a failed unification says about the two types.  A conflict can lie deep
inside function types.  On the way out it is reported anew at every level, with
the types that were resolved at that level before any of the parts was unified,
under a substitution that has grown since.

Whatever was known when a type was resolved is known when it is reported, so the
root that was remembered expands to what the type itself expands to
(`Retains.expand_root`).  And a conflict between two parts is a conflict between
the wholes (`Apart.func`).

Main result: a mismatch names the two whole types as the substitution left
behind has them, and no choice for the variables that are left makes them equal
(`Reachable.mismatch_whole`).
-/
import Implet.Proofs.Operations

namespace Implet.Subst

variable {s s' : Subst} {a b e f : Ty}

/-! ### Types apart -/

/-- Under the substitution, whatever the free variables stand for, the types differ. -/
def Apart (s : Subst) (a b : Ty) : Prop :=
  ∀ σ : Nat → Ty, (s.expand a).subst σ ≠ (s.expand b).subst σ

theorem Apart.of_clashes (h : a.Clashes b) : s.Apart a b := by
  intro σ
  rw [WellFormed.expand_eq_subst, WellFormed.expand_eq_subst b, Ty.subst_subst, Ty.subst_subst]
  exact h.subst_ne _

/-- Function types are apart if two of their parts are. -/
theorem Apart.func {params params' : List Ty} {ret ret' : Ty}
    (hab : (a, b) ∈ (params ++ [ret]).zip (params' ++ [ret'])) (h : s.Apart a b) :
    s.Apart (.func params ret) (.func params' ret') := by
  intro σ he
  rw [expand_func, expand_func, Ty.subst_func, Ty.subst_func, List.map_map, List.map_map] at he
  have hparts : List.Forall₂ (fun p q => (s.expand p).subst σ = (s.expand q).subst σ)
      (params ++ [ret]) (params' ++ [ret']) := by
    obtain ⟨hparams, hret⟩ := Ty.func.inj he
    rw [← List.forall₂_eq_eq_eq, List.forall₂_map_left_iff, List.forall₂_map_right_iff] at hparams
    exact List.rel_append hparams (.cons hret .nil)
  exact h σ ((List.forall₂_iff_zip.mp hparts).2 hab)

theorem Shortens.apart (h : s.Shortens s') (hs : s.WellFormed) (hab : s.Apart a b) :
    s'.Apart a b := by
  intro σ
  rw [h.expand_eq hs, h.expand_eq hs]
  exact hab σ

/-! ### Where a mismatch comes from -/

/-- A mismatch between two types, as it is reported with `s'` left behind. -/
structure Conflict (s' : Subst) (a b e f : Ty) : Prop where
  expected : e = s'.expand a
  found : f = s'.expand b
  apart : s'.Apart a b

theorem mismatch_run (a b : Ty) (s : Subst) :
    (do throw (.mismatch (← apply a) (← apply b)) : UnifyM Unit).run s =
      (.error (.mismatch (apply a s).1 (apply b (apply a s).2).1), (apply b (apply a s).2).2) := rfl

/-- Reporting two types that are apart. -/
theorem WellFormed.conflict_mismatch (hs : s.WellFormed) (hab : s.Apart a b)
    (hr : (do throw (.mismatch (← apply a) (← apply b)) : UnifyM Unit).run s
      = (.error (.mismatch e f), s')) : s'.Conflict a b e f := by
  have ha := hs.shortens_apply a
  have hb := ha.wellFormed.shortens_apply b
  rw [mismatch_run, Prod.mk.injEq, Except.error.injEq, UnifyError.mismatch.injEq] at hr
  obtain ⟨⟨rfl, rfl⟩, rfl⟩ := hr
  refine ⟨?_, ?_, (ha.trans hb).apart hs hab⟩
  · rw [hs.apply_eq_expand, (ha.trans hb).expand_eq hs]
  · rw [ha.wellFormed.apply_eq_expand, hb.expand_eq ha.wellFormed]

/-- A mismatch that has been widened was a mismatch before. -/
theorem widening_mismatch {action : UnifyM Unit}
    (hr : (widening a b action).run s = (.error (.mismatch e f), s')) :
    ∃ e' f' s₁, action.run s = (.error (.mismatch e' f'), s₁) ∧
      (do throw (.mismatch (← apply a) (← apply b)) : UnifyM Unit).run s₁
        = (.error (.mismatch e f), s') := by
  rw [widening, run_tryCatch] at hr
  rcases ha : action.run s with ⟨e' | _, s₁⟩ <;> rw [ha] at hr
  · cases e' with
    | mismatch e' f' => exact ⟨e', f', s₁, rfl, hr⟩
    | occursCheck | alreadyBound | notBase => cases (Prod.mk.inj hr).1
  · cases (Prod.mk.inj hr).1

/-- If a list of pairs fails, one of the pairs does. -/
theorem forEachPair_error {action : Ty → Ty → UnifyM Unit} {as bs : List Ty}
    {err : UnifyError}
    (hact : ∀ {s : Subst} a b, s.WellFormed → s.Retains ((action a b).run s).2)
    (hs : s.WellFormed) (hr : (forEachPair action as bs).run s = (.error err, s')) :
    ∃ a b s₁, (a, b) ∈ as.zip bs ∧ s.Retains s₁ ∧ (action a b).run s₁ = (.error err, s') := by
  induction as generalizing bs s with
  | nil => cases (Prod.mk.inj hr).1
  | cons a as ih =>
    cases bs with
    | nil => cases (Prod.mk.inj hr).1
    | cons b bs =>
      have h := hact a b hs
      rw [forEachPair, run_bind_match] at hr
      rcases ha : (action a b).run s with ⟨e | _, s₁⟩ <;> rw [ha] at hr h
      · exact ⟨a, b, s, List.mem_cons_self, hs.retains_self, ha.trans hr⟩
      · obtain ⟨a', b', s₂, hmem, hx, hr⟩ := ih h.wellFormed hr
        exact ⟨a', b', s₂, List.mem_cons_of_mem _ hmem, h.trans hx, hr⟩

theorem requireBase_ne_mismatch (t : Ty) :
    ((requireBase t).run s).1 ≠ .error (.mismatch e f) := by
  rw [requireBase_run]
  cases s.root t <;> exact nofun

/-- Linking a variable fails in other ways. -/
theorem bind_ne_mismatch (n : Nat) (t : Ty) :
    ((Subst.bind n t).run s).1 ≠ .error (.mismatch e f) := by
  rw [bind_run]
  split
  · exact nofun
  dsimp only
  split
  · exact nofun
  split
  · exact nofun
  split
  · rw [run_bind_match]
    generalize (occursIn n (s.root t) (s.relink (s.chain t) (s.root t))).2 = s₂
    have hreq := requireBase_ne_mismatch (s := s₂) (e := e) (f := f) (s.root t)
    rcases hr : (requireBase (s.root t)).run s₂ with ⟨e' | _, s₃⟩
    · rwa [hr] at hreq
    · exact nofun
  · exact nofun

/-! ### Through the levels -/

theorem WellFormed.conflict_unifyWithin (hs : s.WellFormed) {depth : Nat}
    (hr : (unifyWithin depth a b).run s = (.error (.mismatch e f), s')) :
    s'.Conflict a b e f := by
  induction depth generalizing a b e f s s' with
  | zero => cases (Prod.mk.inj hr).1
  | succ depth ih =>
    have hs₂ : (resolve b (resolve a s).2).2.WellFormed :=
      ((hs.shortens_relink a).wellFormed.shortens_relink b).wellFormed
    have hstep := unifyWithin_step depth a b s
    have hx := hs.retains_unifyWithin (depth + 1) a b
    rw [hr] at hstep hx
    have hea : s'.expand (resolve a s).1 = s'.expand a := hx.expand_root a
    have heb : s'.expand (resolve b (resolve a s).2).1 = s'.expand b :=
      (congrArg s'.expand (hs.root_relink a b)).trans (hx.expand_root b)
    -- so it is enough to look at the roots
    suffices h : s'.Conflict (resolve a s).1 (resolve b (resolve a s).2).1 e f by
      refine ⟨h.expected.trans hea, h.found.trans heb, fun σ => ?_⟩
      rw [← hea, ← heb]
      exact h.apart σ
    clear hea heb
    generalize (resolve b (resolve a s).2).2 = s₂ at hs₂ hstep
    generalize (resolve a s).1 = t at hstep ⊢
    generalize (resolve b (resolve a s).2).1 = u at hstep ⊢
    generalize hres : (Except.error (UnifyError.mismatch e f), s') = r at hstep
    cases hstep with
    | same => cases (Prod.mk.inj hres).1
    | left | right => exact absurd (Prod.mk.inj hres).1.symm (bind_ne_mismatch _ _)
    | clash h => exact hs₂.conflict_mismatch (.of_clashes h) hres.symm
    | @parts params ret params' ret' hlen =>
      obtain ⟨p, q, s₃, hpq, hx₃, hw⟩ := forEachPair_error
        (fun p q hs => (hs.retains_unifyWithin depth p q).widening _ _) hs₂ hres.symm
      obtain ⟨e', f', s₄, hact, hw⟩ := widening_mismatch hw
      have hx₄ := hx₃.wellFormed.retains_unifyWithin depth p q
      rw [hact] at hx₄
      exact hx₄.wellFormed.conflict_mismatch ((ih hx₃.wellFormed hact).apart.func hpq) hw

theorem WellFormed.conflict_unify (hs : s.WellFormed)
    (hr : (unify a b).run s = (.error (.mismatch e f), s')) : s'.Conflict a b e f := by
  rw [hs.unify_eq a b 0] at hr
  exact hs.conflict_unifyWithin hr

/-- A mismatch is reported against the whole types that were to be unified, with
everything that has become known on the way, and it is a real one. -/
theorem Reachable.mismatch_whole (h : s.Reachable)
    (hr : (Subst.unify a b).run s = (.error (.mismatch e f), s')) :
    e = (Subst.apply a s').1 ∧ f = (Subst.apply b s').1 ∧
      ∀ σ : Nat → Ty, e.subst σ ≠ f.subst σ := by
  have hs := h.wellFormed
  have hs' := (hs.retains_unify a b).wellFormed
  rw [hr] at hs'
  obtain ⟨rfl, rfl, hap⟩ := hs.conflict_unify hr
  exact ⟨(hs'.apply_eq_expand a).symm, (hs'.apply_eq_expand b).symm, hap⟩

/-- The first parameter decides what the variable is, and the conflict is inside
of the second. -/
theorem mismatch_whole_nested :
    empty.Reachable ∧ ∃ s', (unify (.func [.var 0, .func [.var 0] .int] (.var 1))
        (.func [.int, .func [.bool] .int] (.var 2))).run empty
      = (.error (.mismatch (.func [.int, .func [.int] .int] (.var 1))
        (.func [.int, .func [.bool] .int] (.var 2))), s') ∧
    (apply (.func [.var 0, .func [.var 0] .int] (.var 1)) s').1
      = .func [.int, .func [.int] .int] (.var 1) ∧
    ∀ σ : Nat → Ty, (Ty.func [.int, .func [.int] .int] (.var 1)).subst σ
      ≠ (Ty.func [.int, .func [.bool] .int] (.var 2)).subst σ := by
  have hfail : ((unify (.func [.var 0, .func [.var 0] .int] (.var 1))
      (.func [.int, .func [.bool] .int] (.var 2))).run empty).1
      = .error (.mismatch (.func [.int, .func [.int] .int] (.var 1))
        (.func [.int, .func [.bool] .int] (.var 2))) := by
    decide +kernel
  rcases hr : (unify (.func [.var 0, .func [.var 0] .int] (.var 1))
    (.func [.int, .func [.bool] .int] (.var 2))).run empty with ⟨r, s'⟩
  rw [hr] at hfail
  obtain rfl := hfail
  obtain ⟨he, -, hap⟩ := Reachable.empty.mismatch_whole hr
  exact ⟨.empty, s', rfl, he.symm, hap⟩

end Implet.Subst
