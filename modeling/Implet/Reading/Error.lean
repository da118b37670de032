/-
Implet/Reading/Error.lean

What can go wrong while reading tokens.  A `ParseError` is a fault together with
what was expected in its place; the wording is in `ParseError.message`.
-/
import Implet.Token.Scan
import Implet.Text.Excerpt

namespace Implet

/-- What a reader was looking for. -/
inductive Expectation where
  | terminal (t : Terminal)
  | identifier
  | integer
  | boolean
  | expression
  | statement
  | type
  | functionName
  | named (name : String)
  deriving DecidableEq

namespace Expectation

/-- How an expectation is worded. -/
def text : Expectation → String
  | terminal t => t.describe
  | identifier => "identifier"
  | integer => "integer"
  | boolean => "boolean"
  | expression => "expression"
  | statement => "statement"
  | type => "type"
  | functionName => "function name"
  | named name => name

end Expectation

/-- The causes of a parse error. -/
inductive ParseFault where
  /-- A token that does not fit. -/
  | unexpected (token : Token)
  /-- The tokens end too early. -/
  | endOfInput
  /-- An integer literal that has no 64-bit value. -/
  | literalOutOfRange (digits : String) (span : Span)
  /-- The text has no tokens to read. -/
  | lexing (error : LexError)
  deriving DecidableEq

/-- A fault and what was expected in its place. -/
structure ParseError where
  fault : ParseFault
  expected : List Expectation
  deriving DecidableEq

namespace ParseError

/-- The bare cause, without what was expected or found. -/
def what (e : ParseError) : String :=
  match e.fault with
  | .unexpected _ => "unexpected token"
  | .endOfInput => "unexpected end of input"
  | .literalOutOfRange _ _ => "integer literal out of range"
  | .lexing error => "lexing failed: " ++ error.message

/-- What stood in the place of what was expected. -/
def found (e : ParseError) : Option String :=
  match e.fault with
  | .unexpected token => some token.describe
  | .literalOutOfRange digits _ => some digits
  | .endOfInput | .lexing _ => none

/-- Where the fault is, when it is at a token. -/
def span (e : ParseError) : Option Span :=
  match e.fault with
  | .unexpected token => some token.span
  | .literalOutOfRange _ span => some span
  | .endOfInput | .lexing _ => none

/-- The cause, what was expected and what was found, as far as there is any. -/
def message (e : ParseError) : String :=
  e.what
    ++ (if e.expected.isEmpty then ""
        else ", expected " ++ " or ".intercalate (e.expected.map Expectation.text))
    ++ (match e.found with
        | some found => ", found " ++ found
        | none => "")

/-- The message as it is shown, with an excerpt where the fault is at a token. -/
def report (e : ParseError) : String := Implet.report "Parse error" e.span e.message

end ParseError

end Implet
