/-
Implet/Proofs/CheckRoots.lean

Checkers that differ in the length of their chains only.  They accept and reject
the same entries, with the same types and for the same reasons, and stay that
way (`Checker.Alike.run`); they give the same answers to queries
(`Checker.Alike.typeOf`, `Checker.Alike.globals`).  What a query does to a
checker is of that kind (`Checker.Alike.after_typeOf`).
-/
import Implet.Proofs.CheckPairs
import Implet.Proofs.CheckWalk
import Implet.Proofs.Roots

namespace Implet.Checker

open Subst

variable {α β : Type} {c c' c'' : Checker}

/-- Two checkers with the same names, of the same types, whose substitutions
have the same roots. -/
structure Alike (c c' : Checker) : Prop where
  env : c'.env = c.env
  subst : c.subst.SameRoots c'.subst

theorem alike_self (hs : c.subst.WellFormed) : Alike c c := ⟨rfl, hs.sameRoots_self⟩

theorem Alike.symm (h : Alike c c') : Alike c' c := ⟨h.env.symm, h.subst.symm⟩

theorem Alike.trans (h : Alike c c') (h' : Alike c' c'') : Alike c c'' :=
  ⟨h'.env.trans h.env, h.subst.trans h'.subst⟩

/-! ### Steps -/

section Steps

variable {E : TypeError → TypeError → Prop}

theorem alike_onSubst {action : StateM Subst α} (h : Steady action) :
    Same E Alike Alike (onSubst action) (onSubst action) := by
  intro c c' hc
  obtain ⟨ha, hs⟩ := h hc.subst
  show (action c.subst).1 = (action c'.subst).1 ∧
    Alike ⟨c.env, (action c.subst).2⟩ ⟨c'.env, (action c'.subst).2⟩
  exact ⟨ha.symm, hc.env, hs⟩

theorem alike_onSubstAt {action : UnifyM α} (span : Span) (h : Steady action.run) :
    Same Eq Alike Alike (onSubstAt span action) (onSubstAt span action) := by
  apply (alike_onSubst h).bind
  intro r
  cases r with
  | ok a => exact same_pure a
  | error e => exact same_throw rfl

theorem alike_typeOfName (x : Ident) :
    Same Eq Alike Alike (typeOfName x) (typeOfName x) := by
  intro c c' h
  unfold typeOfName
  rw [get_bind, get_bind, h.env]
  cases c.env.lookup x.name with
  | ok t => exact ⟨rfl, h⟩
  | error e => rfl

theorem alike_onScopeAt (span : Span) (action : Scope Ty → Except ScopeError (Scope Ty)) :
    Same Eq Alike Alike (onScopeAt span action) (onScopeAt span action) := by
  intro c c' h
  unfold onScopeAt
  rw [get_bind, get_bind, h.env]
  cases action c.env with
  | ok env => exact ⟨rfl, rfl, h.subst⟩
  | error e => rfl

theorem alike_inFrame {check : CheckM Unit} (h : Same Eq Alike Alike check check) :
    Same Eq Alike Alike (inFrame check) (inFrame check) := by
  have henter : Same Eq Alike Alike (modify fun c => { c with env := c.env.enter } : CheckM Unit)
      (modify fun c => { c with env := c.env.enter }) :=
    fun _ _ hc => ⟨rfl, congrArg Scope.enter hc.env, hc.subst⟩
  exact henter.bind fun _ => h.bind fun _ => alike_onScopeAt _ _

/-- No step of a check looks at more of the substitution than the roots. -/
theorem alike_closed : Closed fun p => Same Eq Alike Alike p p where
  pure := same_pure
  throw _ := same_throw rfl
  bind := Same.bind
  fresh := alike_onSubst steady_fresh
  resolve t := alike_onSubst (steady_resolve t)
  apply t := alike_onSubst (steady_apply t)
  unifyAt span _ a b := (alike_onSubstAt span (steady_unify a b)).catch fun _ => rfl
  requireBaseAt span t := alike_onSubstAt span (steady_requireBase t)
  typeOfName := alike_typeOfName
  declareAt span _ _ := alike_onScopeAt span _
  inFrame := alike_inFrame

end Steps

/-! ### Entries and queries -/

namespace Alike

/-- Checkers that are alike agree on every entry, and are alike after it. -/
theorem run (h : Alike c c') (e : Entry) :
    (c'.run e).1 = (c.run e).1 ∧ Alike (c.run e).2 (c'.run e).2 := by
  rw [run_eq, run_eq]
  rcases (alike_closed.checkResolved e).cases h with
    ⟨err, _, hr, hr', rfl⟩ | ⟨t, d, d', hr, hr', hd⟩
  · rw [hr, hr']
    exact ⟨rfl, h⟩
  · rw [hr, hr']
    exact ⟨rfl, hd⟩

theorem typeOf (h : Alike c c') (name : String) :
    (Checker.typeOf name c').1 = (Checker.typeOf name c).1 ∧
      Alike (Checker.typeOf name c).2 (Checker.typeOf name c').2 := by
  unfold Checker.typeOf
  rw [h.env]
  cases c.env.get? name with
  | none => exact ⟨rfl, h⟩
  | some t =>
    obtain ⟨ht, hs⟩ := steady_apply t h.subst
    exact ⟨congrArg some ht, rfl, hs⟩

theorem globals (h : Alike c c') : (Checker.globals c').1 = (Checker.globals c).1 ∧
    Alike (Checker.globals c).2 (Checker.globals c').2 := by
  have hmap := steady_mapM (f := fun b : String × Ty => do return (b.1, ← Subst.apply b.2))
    (fun b => (steady_apply b.2).bind fun t => steady_pure (b.1, t)) c.env.globals h.subst
  unfold Checker.globals
  rw [h.env]
  exact ⟨hmap.1, rfl, hmap.2⟩

end Alike

/-- Asking for a type only shortens chains. -/
theorem alike_after_typeOf (hs : c.subst.WellFormed) (name : String) :
    Alike c (typeOf name c).2 := by
  unfold typeOf
  rcases c.env.get? name with - | t
  · exact alike_self hs
  · exact ⟨rfl, hs.sameRoots_apply t⟩

theorem alike_after_globals (hs : c.subst.WellFormed) : Alike c (globals c).2 := by
  have hmap := mapM_induction (I := c.subst.SameRoots) (P := fun _ : String × Ty => True)
    (f := fun b : String × Ty => do return (b.1, ← Subst.apply b.2)) c.env.globals
    (fun {_ b} _ h => ⟨h.trans (h.right.sameRoots_apply b.2), trivial⟩) hs.sameRoots_self
  exact ⟨rfl, hmap.1⟩

end Implet.Checker
