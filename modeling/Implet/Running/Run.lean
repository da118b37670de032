/-
Implet/Running/Run.lean

Runs.  A `Run` starts from a store and finishes with a value or an error, and
with a store in both cases: what was done before an error stays done.  A run
that was not given enough fuel has no outcome at all, which is `none` and
neither a value nor an error.
-/
import Implet.Running.Error
import Implet.Running.Value

namespace Implet

/-- A run from a store to a value or an error, and a store; `none` when the fuel
did not suffice. -/
def Run (α : Type) : Type := Store → Option (Except RuntimeError α × Store)

namespace Run

variable {α β : Type}

/-- An error ends a sequence where it happened. -/
@[always_inline, inline]
def bind (p : Run α) (f : α → Run β) : Run β := fun s =>
  match p s with
  | some (.ok a, s) => f a s
  | some (.error e, s) => some (.error e, s)
  | none => none

@[always_inline]
instance : Monad Run where
  pure a s := some (.ok a, s)
  bind := bind

/-- No fuel is left. -/
def outOfFuel : Run α := fun _ => none

/-- Stop early. -/
def fail (e : RuntimeError) : Run α := fun s => some (.error e, s)

/-- An environment as it is now. -/
def env (r : EnvRef) : Run Environment := fun s => some (.ok (s.env r), s)

/-- Do something with an environment on behalf of the construct at `span`. -/
def onEnvAt (r : EnvRef) (span : Span)
    (action : Environment → Except ScopeError Environment) : Run Unit := fun s =>
  match action (s.env r) with
  | .ok e => some (.ok (), s.setEnv r e)
  | .error e => some (.error (.ofScope span e), s)

/-- Run something in a fresh frame of an environment, which is left however the
run finishes.  An error of the run itself is reported before one of leaving the
frame. -/
@[always_inline, inline]
def inFrame (r : EnvRef) (body : Run α) : Run α := fun s =>
  match body (s.setEnv r (s.env r).enter) with
  | none => none
  | some (result, s) =>
    match (s.env r).exit, result with
    | .ok e, _ => some (result, s.setEnv r e)
    | .error _, .error e => some (.error e, s)
    | .error e, .ok _ => some (.error (.ofScope .empty e), s)

end Run

end Implet
