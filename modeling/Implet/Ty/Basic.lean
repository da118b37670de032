/-
Implet/Ty/Basic.lean

Types: the two base types, type variables by number, and function types.  Types
have decidable equality and a text; `Ty.size` counts the nodes of a type.
-/
import Implet.Syntax.Basic

namespace Implet

/-- Types. -/
inductive Ty where
  | int
  | bool
  | var (n : Nat)
  | func (params : List Ty) (ret : Ty)
  deriving Inhabited

namespace Ty

mutual

/-- Equality of types is decided node by node. -/
def decEq : (s t : Ty) → Decidable (s = t)
  | int, int => isTrue rfl
  | bool, bool => isTrue rfl
  | var m, var n =>
    if h : m = n then isTrue (by rw [h]) else isFalse (by simpa using h)
  | func ps r, func qs u =>
    match decEqList ps qs, decEq r u with
    | isTrue h, isTrue k => isTrue (by rw [h, k])
    | isFalse h, _ => isFalse (fun e => h (by cases e; rfl))
    | _, isFalse k => isFalse (fun e => k (by cases e; rfl))
  | int, bool | int, var _ | int, func _ _ | bool, int | bool, var _ | bool, func _ _
  | var _, int | var _, bool | var _, func _ _ | func _ _, int | func _ _, bool
  | func _ _, var _ => isFalse (by intro h; cases h)

/-- Equality of lists of types. -/
def decEqList : (ss ts : List Ty) → Decidable (ss = ts)
  | [], [] => isTrue rfl
  | s :: ss, t :: ts =>
    match decEq s t, decEqList ss ts with
    | isTrue h, isTrue k => isTrue (by rw [h, k])
    | isFalse h, _ => isFalse (fun e => h (by cases e; rfl))
    | _, isFalse k => isFalse (fun e => k (by cases e; rfl))
  | [], _ :: _ | _ :: _, [] => isFalse (by intro h; cases h)

end

instance : DecidableEq Ty := decEq

/-- The type that an annotation stands for. -/
def ofBase : BaseType → Ty
  | .int => int
  | .bool => bool

/-- Whether a type is one of the two base types. -/
def isBase : Ty → Bool
  | int | bool => true
  | var _ | func _ _ => false

mutual

/-- The text of a type. -/
def text : Ty → String
  | int => "int"
  | bool => "bool"
  | var n => "'t" ++ toString n
  | func params ret => "(" ++ ", ".intercalate (texts params) ++ ") -> " ++ ret.text

/-- The texts of a list of types. -/
def texts : List Ty → List String
  | [] => []
  | t :: ts => t.text :: texts ts

end

mutual

/-- The number of nodes of a type. -/
def size : Ty → Nat
  | int | bool | var _ => 1
  | func params ret => sizes params + ret.size + 1

/-- The number of nodes of a list of types. -/
def sizes : List Ty → Nat
  | [] => 0
  | t :: ts => t.size + sizes ts

end

mutual

/-- The variables of a type, from left to right. -/
def vars : Ty → List Nat
  | int | bool => []
  | var n => [n]
  | func params ret => varsList params ++ ret.vars

/-- The variables of a list of types. -/
def varsList : List Ty → List Nat
  | [] => []
  | t :: ts => t.vars ++ varsList ts

end

mutual

/-- Put a type in the place of each variable. -/
def subst (f : Nat → Ty) : Ty → Ty
  | int => int
  | bool => bool
  | var n => f n
  | func params ret => func (substList f params) (ret.subst f)

/-- Put a type in the place of each variable of a list of types. -/
def substList (f : Nat → Ty) : List Ty → List Ty
  | [] => []
  | t :: ts => t.subst f :: substList f ts

end

end Ty

end Implet
