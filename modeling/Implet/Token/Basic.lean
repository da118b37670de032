/-
Implet/Token/Basic.lean

The words of the language.  A `Terminal` is a word with one spelling: a keyword,
an operator or a mark of punctuation.  A `Lexeme` is a terminal, an identifier
or an integer literal, and a `Token` is a lexeme with the span it was read from.

`Lexeme.text` is how a lexeme is written and `Lexeme.describe` how an error
names it.
-/
import Implet.Text.Span

namespace Implet

/-- The words with exactly one spelling. -/
inductive Terminal where
  | kwFunction | kwInt | kwBool | kwVar | kwIf | kwElse | kwWhile | kwReturn
  | kwTrue | kwFalse | kwAnd | kwOr
  | assign | doubleEquals | less | greater | plus | minus | star | slash
  | leftParen | rightParen | leftBrace | rightBrace | comma | semicolon
  deriving DecidableEq

namespace Terminal

/-- How a terminal is written. -/
def text : Terminal → String
  | kwFunction => "function"
  | kwInt => "int"
  | kwBool => "bool"
  | kwVar => "var"
  | kwIf => "if"
  | kwElse => "else"
  | kwWhile => "while"
  | kwReturn => "return"
  | kwTrue => "true"
  | kwFalse => "false"
  | kwAnd => "and"
  | kwOr => "or"
  | assign => ":="
  | doubleEquals => "=="
  | less => "<"
  | greater => ">"
  | plus => "+"
  | minus => "-"
  | star => "*"
  | slash => "/"
  | leftParen => "("
  | rightParen => ")"
  | leftBrace => "\x7b"
  | rightBrace => "\x7d"
  | comma => ","
  | semicolon => ";"

/-- The terminals that are spelled like identifiers. -/
def keywords : List Terminal :=
  [kwFunction, kwInt, kwBool, kwVar, kwIf, kwElse, kwWhile, kwReturn, kwTrue, kwFalse, kwAnd, kwOr]

/-- The terminals that are spelled with marks.  The two of two characters come
first, so that the first one that fits is the longest. -/
def marks : List Terminal :=
  [assign, doubleEquals, less, greater, plus, minus, star, slash, leftParen, rightParen,
    leftBrace, rightBrace, comma, semicolon]

/-- All terminals. -/
def all : List Terminal := keywords ++ marks

theorem mem_all (t : Terminal) : t ∈ all := by cases t <;> decide

/-- How an error names a terminal. -/
def describe (t : Terminal) : String := "'" ++ t.text ++ "'"

end Terminal

/-- A word of the language. -/
inductive Lexeme where
  | fixed (t : Terminal)
  | ident (name : String)
  | integer (digits : String)
  deriving DecidableEq

namespace Lexeme

/-- How a lexeme is written. -/
def text : Lexeme → String
  | fixed t => t.text
  | ident name => name
  | integer digits => digits

/-- How an error names a lexeme. -/
def describe : Lexeme → String
  | fixed t => t.describe
  | ident name => "identifier '" ++ name ++ "'"
  | integer digits => "integer '" ++ digits ++ "'"

end Lexeme

/-- A word of the language with the place it was read from. -/
structure Token where
  lexeme : Lexeme
  span : Span
  deriving DecidableEq

namespace Token

/-- How an error names a token. -/
def describe (token : Token) : String := token.lexeme.describe

end Token

end Implet
