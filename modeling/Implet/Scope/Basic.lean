/-
Implet/Scope/Basic.lean

Scopes: names with a value each, in frames that stack.  A name is declared at
most once in a frame; looking it up and assigning it find the innermost frame
that has it; assigning never makes a binding.  The outermost frame holds the
globals.

A scope is a plain value, so a copy is independent of what it was copied from.
Operations that can fail return the scope they lead to, or the cause.
-/

namespace Implet

/-- Why an operation on a scope fails. -/
inductive ScopeError where
  | duplicate (name : String)
  | undeclared (name : String)
  | noActiveScope
  deriving DecidableEq

namespace ScopeError

/-- The wording of a scope error. -/
def message : ScopeError → String
  | duplicate name => "variable '" ++ name ++ "' is already declared in this scope"
  | undeclared name => "variable '" ++ name ++ "' is not declared"
  | noActiveScope => "no scope is active"

end ScopeError

/-- The bindings of a frame, the latest declaration first. -/
abbrev Frame (V : Type) := List (String × V)

namespace Frame

variable {V : Type}

/-- Whether a frame binds a name. -/
def has (f : Frame V) (name : String) : Bool := f.any (·.1 = name)

/-- The value of a name. -/
def get? (f : Frame V) (name : String) : Option V := (f.find? (·.1 = name)).map (·.2)

/-- Give a bound name another value. -/
def set (f : Frame V) (name : String) (value : V) : Frame V :=
  f.map fun b => if b.1 = name then (b.1, value) else b

/-- Whether two frames bind the same names to the same values, in whatever order
they were declared. -/
def agrees [DecidableEq V] (f g : Frame V) : Bool :=
  f.length = g.length && f.all fun b => g.get? b.1 = some b.2

end Frame

/-- Frames, the innermost first. -/
structure Scope (V : Type) where
  frames : List (Frame V)
  deriving DecidableEq

namespace Scope

variable {V : Type}

/-- A scope with one empty frame for the globals. -/
def initial : Scope V := ⟨[[]]⟩

instance : Inhabited (Scope V) := ⟨initial⟩

/-- Enter a fresh frame. -/
def enter (s : Scope V) : Scope V := ⟨[] :: s.frames⟩

/-- Leave the innermost frame. -/
def exit (s : Scope V) : Except ScopeError (Scope V) :=
  match s.frames with
  | _ :: frames => .ok ⟨frames⟩
  | [] => .error .noActiveScope

/-- Bind a name in the innermost frame, which must not bind it yet. -/
def declare (s : Scope V) (name : String) (value : V) : Except ScopeError (Scope V) :=
  match s.frames with
  | f :: frames =>
    if f.has name then .error (.duplicate name) else .ok ⟨((name, value) :: f) :: frames⟩
  | [] => .error .noActiveScope

/-- The value of a name in the innermost frame that binds it. -/
def get? (s : Scope V) (name : String) : Option V := s.frames.findSome? (·.get? name)

/-- The value of a name, which must be bound. -/
def lookup (s : Scope V) (name : String) : Except ScopeError V :=
  match s.get? name with
  | some value => .ok value
  | none => .error (.undeclared name)

/-- Give a name another value in the innermost frame that binds it. -/
def assignIn (name : String) (value : V) : List (Frame V) → Option (List (Frame V))
  | [] => none
  | f :: frames =>
    if f.has name then some (f.set name value :: frames)
    else (assignIn name value frames).map (f :: ·)

/-- Give a bound name another value, in the innermost frame that binds it. -/
def assign (s : Scope V) (name : String) (value : V) : Except ScopeError (Scope V) :=
  match assignIn name value s.frames with
  | some frames => .ok ⟨frames⟩
  | none => .error (.undeclared name)

/-- Whether the innermost frame binds a name. -/
def isDeclaredLocally (s : Scope V) (name : String) : Bool :=
  match s.frames with
  | f :: _ => f.has name
  | [] => false

/-- The number of frames. -/
def depth (s : Scope V) : Nat := s.frames.length

/-- The bindings of the outermost frame, sorted by name. -/
def globals (s : Scope V) : List (String × V) :=
  match s.frames.getLast? with
  | some f => f.mergeSort fun a b => decide (a.1 ≤ b.1)
  | none => []

/-- Whether two scopes have the same frames. -/
def agrees [DecidableEq V] (s t : Scope V) : Bool :=
  s.frames.length = t.frames.length && (s.frames.zip t.frames).all fun (f, g) => f.agrees g

/-- Run `body` in a fresh frame, which is left whatever `body` does.  A failure
of `body` is reported before a failure to leave the frame. -/
def withinFrame {ε α : Type} (lift : ScopeError → ε)
    (body : Scope V → Except ε α × Scope V) (s : Scope V) : Except ε α × Scope V :=
  let (result, inner) := body s.enter
  match inner.exit with
  | .ok outer => (result, outer)
  | .error e =>
    match result with
    | .ok _ => (.error (lift e), inner)
    | .error _ => (result, inner)

end Scope

end Implet
