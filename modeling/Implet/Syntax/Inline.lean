/-
Implet/Syntax/Inline.lean

Expressions as text.  An operator below another operator is put in parentheses;
at the top, and as an argument of a call, it is not, since nothing can regroup
it there.
-/
import Implet.Syntax.Basic

namespace Implet

/-- Put `text` in parentheses when it is nested. -/
def parenthesize (nested : Bool) (text : String) : String :=
  if nested then "(" ++ text ++ ")" else text

mutual

/-- The text of an expression, which is `nested` when it is an operand. -/
def Expr.textWithin (nested : Bool) : Expr → String
  | .integer value _ => toString value.toInt
  | .boolean value _ => if value then "true" else "false"
  | .ident id => id.name
  | .binary op left right _ =>
    parenthesize nested
      (left.textWithin true ++ " " ++ op.text ++ " " ++ right.textWithin true)
  | .call func args _ => func.name ++ "(" ++ ", ".intercalate (argumentTexts args) ++ ")"

/-- The texts of the arguments of a call. -/
def argumentTexts : List Expr → List String
  | [] => []
  | e :: es => e.textWithin false :: argumentTexts es

end

/-- The text of an expression. -/
def Expr.text (e : Expr) : String := e.textWithin false

end Implet
