/-
Implet/Ty/Subst.lean

Substitutions: what is known about the type variables so far.  A variable is
either linked to a type or free; it can be marked base-only, which means that it
has to become `int` or `bool`; and there is a number for the next fresh
variable.

`root` follows links from a type until it reaches one that is no linked
variable, `expand` replaces the linked variables everywhere in a type, and
`occurs` looks for a variable there.  All three only read.  The operations
`resolve`, `apply` and `occursIn` give the same answers and also shorten the
chains they walked, so that the next walk is short; what a substitution says
about any type stays the same.

No chain of links leads back to its start, so a chain passes each linked
variable at most once: as many steps as there are links are enough for a chain,
and as many rounds of replacing are enough for a type.
-/
import Implet.Ty.Basic

namespace Implet

/-- Why two types cannot be made equal, or a variable not be linked. -/
inductive UnifyError where
  | mismatch (expected found : Ty)
  | occursCheck (n : Nat) (type : Ty)
  | alreadyBound (n : Nat)
  | notBase (type : Ty)
  deriving DecidableEq

namespace UnifyError

/-- The wording of a unification error. -/
def message : UnifyError → String
  | mismatch expected found =>
    "type mismatch: expected " ++ expected.text ++ ", found " ++ found.text
  | occursCheck n type =>
    "occurs check: cannot construct infinite type " ++ (Ty.var n).text ++ " = " ++ type.text
  | alreadyBound n => "type variable " ++ (Ty.var n).text ++ " is already bound"
  | notBase type => "expected int or bool, found " ++ type.text

end UnifyError

/-- Links from variables to types, base-only marks, and the next fresh variable. -/
structure Subst where
  links : List (Nat × Ty)
  baseOnly : List Nat
  next : Nat
  deriving DecidableEq

namespace Subst

/-- Nothing is known and no variable has been made. -/
def empty : Subst := ⟨[], [], 0⟩

instance : Inhabited Subst := ⟨empty⟩

/-! ### Reading -/

/-- The type that a variable is linked to. -/
def link? (s : Subst) (n : Nat) : Option Ty := s.links.lookup n

/-- Whether a variable is linked. -/
def isBound (s : Subst) (n : Nat) : Bool := (s.link? n).isSome

/-- The type at the end of at most `steps` links from a type. -/
def rootWithin (s : Subst) : (steps : Nat) → Ty → Ty
  | steps + 1, .var n =>
    match s.link? n with
    | some t => s.rootWithin steps t
    | none => .var n
  | _, t => t

/-- The type at the end of the links from a type. -/
def root (s : Subst) (t : Ty) : Ty := s.rootWithin s.links.length t

/-- The linked variables on at most `steps` links from a type. -/
def chainWithin (s : Subst) : (steps : Nat) → Ty → List Nat
  | steps + 1, .var n =>
    match s.link? n with
    | some t => n :: s.chainWithin steps t
    | none => []
  | _, _ => []

/-- The linked variables on the way from a type to its root. -/
def chain (s : Subst) (t : Ty) : List Nat := s.chainWithin s.links.length t

/-- What a variable stands for, one link on. -/
def step (s : Subst) (n : Nat) : Ty := (s.link? n).getD (.var n)

/-- Replace the variables of a type by what they are linked to, `rounds` times. -/
def expandWithin (s : Subst) : (rounds : Nat) → Ty → Ty
  | 0, t => t
  | rounds + 1, t => s.expandWithin rounds (t.subst s.step)

/-- A type with its linked variables replaced, also inside function types. -/
def expand (s : Subst) (t : Ty) : Ty := s.expandWithin s.links.length t

/-- Whether a variable occurs in a type, seen through the links. -/
def occurs (s : Subst) (n : Nat) (t : Ty) : Bool := (s.expand t).vars.contains n

/-! ### Operations -/

/-- Make a variable that has not been used before. -/
def fresh : StateM Subst Nat := fun s => (s.next, { s with next := s.next + 1 })

/-- Point linked variables at `target`. -/
def relink (s : Subst) (ns : List Nat) (target : Ty) : Subst :=
  { s with links := s.links.map fun l => if ns.contains l.1 then (l.1, target) else l }

/-- The root of a type.  All links on the way to it are made to lead there at once. -/
def resolve (t : Ty) :
    StateM Subst Ty := fun s => (s.root t, s.relink (s.chain t) (s.root t))

/-- Resolve a type and, up to `depth` levels down, the parts of a function type. -/
def applyWithin : (depth : Nat) → Ty → StateM Subst Ty
  | 0, t => pure t
  | depth + 1, t => do
    match ← resolve t with
    | .func params ret => return .func (← params.mapM (applyWithin depth)) (← applyWithin depth ret)
    | root => return root

/-- The number of nodes of all linked types. -/
def size (s : Subst) : Nat := Ty.sizes (s.links.map (·.2))

/-- More levels than any type made of `n` nodes besides the linked ones can have
under a substitution: a path down such a type passes each linked variable once,
and between two of them it stays within one of the types. -/
def depthBound (s : Subst) (n : Nat) : Nat := (n + s.size + 1) * (n + s.size + 1)

/-- A type with its linked variables replaced, also inside function types.  The
links that are walked are shortened. -/
def apply (t : Ty) : StateM Subst Ty := do applyWithin ((← get).depthBound t.size) t

/-- Look for a variable in the root of a type and, up to `depth` levels down, in
the parts of a function type, until it is found.  What lies deeper is only
read. -/
def occursWithin (n : Nat) : (depth : Nat) → Ty → StateM Subst Bool
  | 0, t => return (← get).occurs n t
  | depth + 1, t => do
    match ← resolve t with
    | .int | .bool => return false
    | .var m => return m = n
    | .func params ret => (params ++ [ret]).anyM (occursWithin n depth)

/-- Whether a variable occurs in a type, seen through the links.  The links that
are walked are shortened. -/
def occursIn (n : Nat) (t : Ty) : StateM Subst Bool := do
  occursWithin n ((← get).depthBound t.size) t

/-- Operations that can fail and keep what they did before they failed. -/
abbrev UnifyM := ExceptT UnifyError (StateM Subst)

/-- Require a type to be `int` or `bool`, now or as soon as its variable is linked. -/
def requireBase (t : Ty) : UnifyM Unit := do
  match ← resolve t with
  | .var n => modify fun s => { s with baseOnly := s.baseOnly.insert n }
  | .int | .bool => return
  | root => throw (.notBase (← apply root))

/-- Link a free variable to a type in which it does not occur.  A base-only mark
on the variable goes over to the type. -/
def bind (n : Nat) (t : Ty) : UnifyM Unit := do
  if (← get).isBound n then throw (.alreadyBound n)
  let t ← resolve t
  if t = .var n then return
  if ← occursIn n t then throw (.occursCheck n (← apply t))
  if (← get).baseOnly.contains n then requireBase t
  modify fun s => { s with links := (n, t) :: s.links }

end Subst

end Implet
