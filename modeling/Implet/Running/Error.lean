/-
Implet/Running/Error.lean

Why running an entry stops early.  Each cause carries the span of the construct
that is at fault.
-/
import Implet.Scope.Basic
import Implet.Text.Excerpt

namespace Implet

/-- The causes for which a run stops early. -/
inductive RuntimeError where
  | undeclared (name : String) (span : Span)
  | duplicate (name : String) (span : Span)
  | notAFunction (name kind : String) (span : Span)
  | arity (name : String) (expected got : Nat) (span : Span)
  | missingReturn (name : String) (span : Span)
  /-- A value of the wrong kind, which no entry that passed the check should meet. -/
  | wrongKind (expected found : String) (span : Span)
  | uninitialized (name : String) (span : Span)
  | divisionByZero (span : Span)
  | returnOutsideFunction (span : Span)
  /-- A failure that no entry leads to. -/
  | internal (message : String) (span : Span)
  deriving DecidableEq

namespace RuntimeError

/-- A failure of a scope at a place in the text. -/
def ofScope (span : Span) : ScopeError → RuntimeError
  | .duplicate name => .duplicate name span
  | .undeclared name => .undeclared name span
  | .noActiveScope => .internal ScopeError.noActiveScope.message span

/-- Where the cause is. -/
def span : RuntimeError → Span
  | undeclared _ s | duplicate _ s | notAFunction _ _ s | arity _ _ _ s | missingReturn _ s
  | wrongKind _ _ s | uninitialized _ s | divisionByZero s | returnOutsideFunction s
  | internal _ s => s

/-- The wording of a runtime error, without its place. -/
def message : RuntimeError → String
  | undeclared name _ => "undeclared variable: " ++ name
  | duplicate name _ => "variable '" ++ name ++ "' is already declared in this scope"
  | notAFunction name kind _ => "'" ++ name ++ "' is a " ++ kind ++ ", not a function"
  | arity name expected got _ =>
    "function '" ++ name ++ "' expects " ++ toString expected ++ " argument(s), got "
      ++ toString got
  | missingReturn name _ => "function '" ++ name ++ "' finished without returning a value"
  | wrongKind expected found _ => "expected " ++ expected ++ " value, found " ++ found
  | uninitialized name _ => "variable '" ++ name ++ "' is used before it was assigned"
  | divisionByZero _ => "division by zero"
  | returnOutsideFunction _ => "return outside function"
  | internal message _ => "internal interpreter error: " ++ message

/-- The message as it is shown, with an excerpt where there is a text to quote. -/
def report (e : RuntimeError) : String :=
  Implet.report "Runtime error" (some e.span) e.message

end RuntimeError

end Implet
