/-
Implet/Ty/Unify.lean

Making two types equal by linking variables.  Base types agree with themselves,
a free variable is linked to the other side, and function types of the same
number of parameters are made equal part by part.  A conflict below a function
type is reported against the whole function types, as they are known by then.

When it fails, the links made before the failure stay.

Every function type met on the way down is a part of one of the two types or of
a linked one, and none is met twice, so the depth is bounded before the start.
-/
import Implet.Ty.Subst

namespace Implet.Subst

/-- Report a conflict below two function types against these types; other errors
are left alone. -/
def widening (expected found : Ty) (action : UnifyM Unit) : UnifyM Unit :=
  tryCatch action fun
    | .mismatch _ _ => do throw (.mismatch (← apply expected) (← apply found))
    | e => throw e

/-- Do something for the members of two lists pairwise, as far as the shorter
one goes. -/
def forEachPair (action : Ty → Ty → UnifyM Unit) : List Ty → List Ty → UnifyM Unit
  | s :: ss, t :: ts => do
    action s t
    forEachPair action ss ts
  | _, _ => return

/-- Make two types equal down to a given depth. -/
def unifyWithin : (depth : Nat) → (expected found : Ty) → UnifyM Unit
  | 0, _, _ => return
  | depth + 1, expected, found => do
    let expected ← resolve expected
    let found ← resolve found
    match expected, found with
    | .int, .int | .bool, .bool => return
    | .var m, .var n => if m = n then return else bind m (.var n)
    | .var m, t => bind m t
    | t, .var n => bind n t
    | .func params ret, .func params' ret' =>
      if params.length = params'.length then
        forEachPair (fun s t => widening expected found (unifyWithin depth s t)) params params'
        widening expected found (unifyWithin depth ret ret')
      else
        throw (.mismatch (← apply expected) (← apply found))
    | _, _ => throw (.mismatch (← apply expected) (← apply found))

/-- Make two types equal. -/
def unify (expected found : Ty) : UnifyM Unit := do
  unifyWithin ((← get).depthBound (expected.size + found.size)) expected found

end Implet.Subst
