/-
Implet/Proofs/Careful.lean

The check keeps its own house in order: a step leaves as many frames as it
found, and the substitution well formed.  So it never leaves a frame that is not
there nor links a variable twice, and what it can fail with are failures that an
entry leads to (`Checker.careful_checkResolved`).
-/
import Implet.Proofs.CheckWalk
import Implet.Proofs.MostGeneral

namespace Implet

theorem TypeError.isInternal_withNote {note : String} {e : TypeError} :
    (e.withNote note).IsInternal ↔ e.IsInternal := by
  cases e <;> exact Iff.rfl

theorem TypeError.isInternal_ofUnify {span : Span} {e : UnifyError}
    (h : (TypeError.ofUnify span e).IsInternal) : ∃ n, e = .alreadyBound n := by
  cases e with
  | alreadyBound n => exact ⟨n, rfl⟩
  | mismatch | occursCheck | notBase => cases h

namespace Checker

open Subst

variable {α β : Type} {c c' : Checker}

/-! ### Checks that keep their frames -/

/-- A check that starts with a frame and a well-formed substitution ends with as
many frames and a well-formed substitution, or with a failure that an entry can
lead to. -/
def Careful (x : CheckM α) : Prop :=
  ∀ c : Checker, c.subst.WellFormed → 0 < c.env.depth → match x c with
    | .ok (_, c') => c'.subst.WellFormed ∧ c'.env.depth = c.env.depth
    | .error err => ¬ err.IsInternal

theorem Careful.error {x : CheckM α} (h : Careful x) (hs : c.subst.WellFormed)
    (hd : 0 < c.env.depth) {err : TypeError} (hr : x c = .error err) : ¬ err.IsInternal := by
  have h := h c hs hd
  rwa [hr] at h

theorem careful_pure (a : α) : Careful (pure a) := fun _ hs _ => ⟨hs, rfl⟩

theorem careful_throw {err : TypeError} (h : ¬ err.IsInternal) :
    Careful (throw err : CheckM α) :=
  fun _ _ _ => h

theorem Careful.bind {x : CheckM α} {f : α → CheckM β} (hx : Careful x)
    (hf : ∀ a, Careful (f a)) : Careful (x >>= f) := by
  intro c hs hd
  have hrun : (x >>= f) c = (x c >>= fun p => f p.1 p.2) := rfl
  rw [hrun]
  have hx := hx c hs hd
  rcases hr : x c with err | ⟨a, c₁⟩
  · rwa [hr] at hx
  · rw [hr] at hx
    obtain ⟨hs₁, hd₁⟩ := hx
    have hf := hf a c₁ hs₁ (hd₁ ▸ hd)
    have hrun : (Except.ok (a, c₁) >>= fun p => f p.1 p.2) = f a c₁ := rfl
    rwa [hrun, ← hd₁]

theorem careful_onSubst {action : StateM Subst α}
    (h : ∀ {s : Subst}, s.WellFormed → (action s).2.WellFormed) : Careful (onSubst action) :=
  fun _ hs _ => ⟨h hs, rfl⟩

theorem careful_fresh : Careful (onSubst fresh) :=
  careful_onSubst fun hs => hs.extends_fresh.wellFormed

theorem careful_apply (t : Ty) : Careful (onSubst (apply t)) :=
  careful_onSubst fun hs => (hs.shortens_apply t).wellFormed

/-- What the substitution refuses, it does not refuse for having linked a
variable before. -/
theorem careful_onSubstAt {action : UnifyM α} {P : Valuation → Prop} (span : Span)
    (h : ∀ {s : Subst}, s.WellFormed → Subst.Complete P action s) :
    Careful (onSubstAt span action) := by
  intro c hs _
  rcases hr : action.run c.subst with ⟨err | a, s⟩
  · rw [onSubstAt_of_error hr]
    intro hi
    obtain ⟨n, rfl⟩ := TypeError.isInternal_ofUnify hi
    exact ((h hs).refuses hr).1 n rfl
  · rw [onSubstAt_of_ok hr]
    exact ⟨(h hs).wellFormed hr, rfl⟩

theorem careful_unifyAt (span : Span) (note : String) (a b : Ty) :
    Careful (unifyAt span note a b) := by
  intro c hs hd
  have hx := careful_onSubstAt span (complete_unify · a b) c hs hd
  rcases hr : onSubstAt span (unify a b) c with err | ⟨u, c₁⟩
  · rw [unifyAt_of_error hr]
    rw [hr] at hx
    exact fun h => hx (TypeError.isInternal_withNote.mp h)
  · rw [unifyAt_of_ok hr]
    rwa [hr] at hx

theorem careful_typeOfName (x : Ident) : Careful (typeOfName x) := by
  intro c hs _
  rcases hx : c.env.get? x.name with - | t
  · rw [typeOfName_of_not_get? hx]
    exact id
  · rw [typeOfName_of_get? hx]
    exact ⟨hs, rfl⟩

theorem careful_declareAt (span : Span) (name : String) (t : Ty) :
    Careful (declareAt span name t) := by
  rintro ⟨⟨_ | ⟨f, fs⟩⟩, s⟩ hs hd
  · cases hd
  · unfold declareAt
    by_cases hn : name ∈ f.names
    · rw [onScopeAt_of_error (Scope.declare_of_mem t hn)]
      exact id
    · rw [onScopeAt_of_ok (Scope.declare_of_not_mem t hn)]
      exact ⟨hs, rfl⟩

/-- There is a frame to leave: the one that was entered. -/
theorem Careful.exit {check : CheckM α} (h : Careful check) (hs : c.subst.WellFormed)
    {a : α} (hr : check c.enter = .ok (a, c')) :
    ∃ env, c'.env.exit = .ok env ∧ env.depth = c.env.depth := by
  have h := h c.enter hs (Nat.succ_pos _)
  rw [hr] at h
  obtain ⟨⟨_ | ⟨f, fs⟩⟩, s⟩ := c'
  · exact absurd h.2 (Nat.succ_ne_zero _).symm
  · exact ⟨⟨fs⟩, rfl, Nat.succ.inj h.2⟩

theorem careful_inFrame {check : CheckM Unit} (h : Careful check) :
    Careful (inFrame check) := by
  intro c hs _
  have hrun : inFrame check c = (check c.enter >>= fun p => onScopeAt .empty Scope.exit p.2) := rfl
  have hc := h c.enter hs (Nat.succ_pos _)
  rw [hrun]
  rcases hr : check c.enter with err | ⟨u, c₁⟩
  · rwa [hr] at hc
  · rw [hr] at hc
    obtain ⟨env, he, hd⟩ := h.exit hs hr
    have hexit : (Except.ok (u, c₁) >>= fun p => onScopeAt .empty Scope.exit p.2)
        = .ok ((), { c₁ with env }) := onScopeAt_of_ok he
    rw [hexit]
    exact ⟨hc.1, hd⟩

theorem careful_closed : Closed Careful where
  pure := careful_pure
  throw := careful_throw
  bind := Careful.bind
  fresh := careful_fresh
  resolve t := careful_onSubst fun hs => (hs.shortens_relink t).wellFormed
  apply := careful_apply
  unifyAt := careful_unifyAt
  requireBaseAt span t := careful_onSubstAt span (complete_requireBase · t)
  typeOfName := careful_typeOfName
  declareAt := careful_declareAt
  inFrame := careful_inFrame

theorem careful_checkResolved (e : Entry) : Careful (checkResolved e) :=
  careful_closed.checkResolved e

end Checker

end Implet
