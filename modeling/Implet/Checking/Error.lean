/-
Implet/Checking/Error.lean

Why an entry is rejected.  Each cause carries the span of the construct that is
at fault; `TypeError.ofScope` and `TypeError.ofUnify` give a failure of a scope
or of the substitution its place in the text.
-/
import Implet.Scope.Basic
import Implet.Text.Excerpt
import Implet.Ty.Unify

namespace Implet

/-- The causes for which an entry is rejected. -/
inductive TypeError where
  | undeclared (name : String) (span : Span)
  | duplicate (name : String) (span : Span)
  /-- Two types that should agree, with a note on what asked for it. -/
  | mismatch (expected found : Ty) (note : Option String) (span : Span)
  | arity (name : String) (expected found : Nat) (span : Span)
  | notAFunction (name : String) (type : Ty) (span : Span)
  | occursCheck (n : Nat) (type : Ty) (span : Span)
  | returnOutsideFunction (span : Span)
  /-- A failure that no entry leads to. -/
  | internal (message : String) (span : Span)
  deriving DecidableEq

namespace TypeError

/-- A failure of a scope at a place in the text. -/
def ofScope (span : Span) : ScopeError → TypeError
  | .duplicate name => .duplicate name span
  | .undeclared name => .undeclared name span
  | .noActiveScope => .internal ScopeError.noActiveScope.message span

/-- A failure of the substitution at the construct that asked for two types to agree. -/
def ofUnify (span : Span) : UnifyError → TypeError
  | .mismatch expected found => .mismatch expected found none span
  | .occursCheck n type => .occursCheck n type span
  | .notBase type => .mismatch .int type (some "only int and bool values can be compared") span
  | .alreadyBound n => .internal (UnifyError.alreadyBound n).message span

/-- Say what asked for two types to agree.  Other causes take no note. -/
def withNote (note : String) : TypeError → TypeError
  | mismatch expected found _ span => mismatch expected found (some note) span
  | e => e

/-- Where the cause is. -/
def span : TypeError → Span
  | undeclared _ s | duplicate _ s | mismatch _ _ _ s | arity _ _ _ s | notAFunction _ _ s
  | occursCheck _ _ s | returnOutsideFunction s | internal _ s => s

/-- The wording of a type error, without its place. -/
def message : TypeError → String
  | undeclared name _ => "undeclared variable: " ++ name
  | duplicate name _ => "variable '" ++ name ++ "' is already declared in this scope"
  | mismatch expected found note _ =>
    "type mismatch: expected " ++ expected.text ++ ", found " ++ found.text
      ++ (match note with
          | some note => "\n  Note: " ++ note
          | none => "")
  | arity name expected found _ =>
    "function '" ++ name ++ "' expects " ++ toString expected ++ " argument(s), found "
      ++ toString found
  | notAFunction name type _ =>
    "'" ++ name ++ "' has type " ++ type.text ++ " and is not a function"
  | occursCheck n type _ =>
    "cannot construct infinite type: " ++ (Ty.var n).text ++ " = " ++ type.text
  | returnOutsideFunction _ => "return statement outside of a function body"
  | internal message _ => "internal checker error: " ++ message

/-- The message as it is shown, with an excerpt where there is a text to quote. -/
def report (e : TypeError) : String := Implet.report "Type error" (some e.span) e.message

end TypeError

end Implet
