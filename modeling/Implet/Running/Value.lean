/-
Implet/Running/Value.lean

Values and where they live.  A closure is a function together with a reference
to the environment it owns; two closures are the same exactly when they own the
same environment.  A `Store` holds all environments, the one of the session
first.

Making a closure copies the frames of the environment it is made in, so that
later assignments there are not seen through it, while closures found in the
copy are shared, as they are references.
-/
import Implet.Scope.Basic
import Implet.Syntax.Basic
import Implet.Text.Quoted

namespace Implet

/-- The number of an environment in the store. -/
abbrev EnvRef := Nat

/-- Values. -/
inductive Value where
  | integer (n : Int64)
  | boolean (b : Bool)
  /-- What a `var` holds before its first assignment. -/
  | uninitialized
  | closure (function : FunDef) (env : EnvRef)

instance : Inhabited Value := ⟨.uninitialized⟩

/-- Names with values, a frame for each block or call. -/
abbrev Environment := Scope Value

namespace Value

/-- What a declared variable holds at first. -/
def default : Option BaseType → Value
  | some .int => integer 0
  | some .bool => boolean false
  | none => uninitialized

/-- What an error calls a value. -/
def kind : Value → String
  | integer _ => "integer"
  | boolean _ => "boolean"
  | uninitialized => "uninitialized variable"
  | closure _ _ => "function"

/-- The text of a value. -/
def text : Value → String
  | integer n => toString n.toInt
  | boolean b => if b then "true" else "false"
  | uninitialized => "uninitialized"
  | closure function _ => "function: " ++ function.name.name

/-- Whether two values are the same; closures are told apart by what they own. -/
def same : Value → Value → Bool
  | integer m, integer n => m = n
  | boolean a, boolean b => a = b
  | uninitialized, uninitialized => true
  | closure _ e, closure _ e' => e = e'
  | _, _ => false

end Value

/-- All environments, by number. -/
structure Store where
  envs : Array Environment

namespace Store

/-- The number of the environment in which entries are run. -/
def base : EnvRef := 0

/-- A store with an empty environment for entries. -/
def initial : Store := ⟨#[.initial]⟩

instance : Inhabited Store := ⟨initial⟩

/-- An environment. -/
def env (s : Store) (r : EnvRef) : Environment := s.envs.getD r .initial

/-- Put another environment in the place of one. -/
def setEnv (s : Store) (r : EnvRef) (e : Environment) : Store :=
  ⟨s.envs.setIfInBounds r e⟩

/-- Add an environment and return its number. -/
def allocate (s : Store) (e : Environment) : EnvRef × Store :=
  (s.envs.size, ⟨s.envs.push e⟩)

/-- The environment that a closure owns. -/
def captured? (s : Store) : Value → Option Environment
  | .closure _ r => some (s.env r)
  | _ => none

/-- A closure in full: its name and the number of frames it holds. -/
def describeClosure (s : Store) (function : FunDef) (r : EnvRef) : String :=
  "Closure \x7b function: " ++ quoted function.name.name ++ ", captured: Some("
    ++ toString (s.env r).depth ++ ") \x7d"

end Store

end Implet
