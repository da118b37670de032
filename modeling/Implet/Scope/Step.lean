/-
Implet/Scope/Step.lean

Sequences of steps on a scope.  `Scope.perform` does one step and
`Scope.performAll` does one after the other up to the first that fails, so that
what a sequence does as a whole can be stated and run, also in a frame of its
own.
-/
import Implet.Scope.Basic

namespace Implet.Scope

variable {V : Type}

/-- A step on a scope. -/
inductive Step (V : Type) where
  | enter
  | exit
  | declare (name : String) (value : V)
  | assign (name : String) (value : V)
  | lookup (name : String)

/-- Do one step.  A look-up yields the value it finds. -/
def perform (s : Scope V) : Step V → Except ScopeError (Option V × Scope V)
  | .enter => .ok (none, s.enter)
  | .exit => s.exit.map (none, ·)
  | .declare name value => (s.declare name value).map (none, ·)
  | .assign name value => (s.assign name value).map (none, ·)
  | .lookup name => (s.lookup name).map (some ·, s)

/-- Do steps up to the first that fails.  What was looked up last is the value
of a sequence that does not fail, and `last` if nothing was. -/
def performAll (last : Option V) (s : Scope V) :
    List (Step V) → Except ScopeError (Option V) × Scope V
  | [] => (.ok last, s)
  | step :: steps =>
    match s.perform step with
    | .ok (value, s) => performAll (value <|> last) s steps
    | .error e => (.error e, s)

end Implet.Scope
