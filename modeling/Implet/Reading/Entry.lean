/-
Implet/Reading/Entry.lean

Reading entries.  An entry is a bare expression, with or without a semicolon, if
its tokens can be read as one from the first to the last; else it is a list of
items.  One item is an entry of its own kind, any other number makes a program.

An entry that cannot be read is refused with the error that was raised furthest
into the input, whichever alternative raised it.
-/
import Implet.Reading.Stmt
import Implet.Text.Comment

namespace Implet

open Implet.Parser

/-- One item of an entry. -/
inductive Item where
  | function (f : FunDef)
  | declaration (d : Decl)
  | statement (s : Stmt)

namespace Item

/-- An item, which its first token tells apart. -/
def parser : Parser Item := do
  match (← peek).map Token.lexeme with
  | some (.fixed .kwFunction) => Item.function <$> FunDef.parser
  | some (.fixed .kwInt) | some (.fixed .kwBool) | some (.fixed .kwVar) =>
    Item.declaration <$> Decl.parser
  | _ => Item.statement <$> Stmt.parser

/-- Up to `rounds` items, up to the end of the tokens. -/
def listWithin (rounds : Nat) : Parser (List Item) :=
  match rounds with
  | 0 => pure []
  | rounds + 1 => do
    match ← peek with
    | none => return []
    | some _ =>
      let first ← Item.parser
      return first :: (← listWithin rounds)

/-- The function that an item is. -/
def function? : Item → Option FunDef
  | function f => some f
  | _ => none

/-- The declaration that an item is. -/
def declaration? : Item → Option Decl
  | declaration d => some d
  | _ => none

/-- The statement that an item is. -/
def statement? : Item → Option Stmt
  | statement s => some s
  | _ => none

end Item

namespace Entry

/-- The entry that a list of items makes. -/
def ofItems : List Item → Entry
  | [.function f] => .function f
  | [.declaration d] => .declaration d
  | [.statement s] => .statement s
  | items =>
    .program ⟨items.filterMap Item.function?, items.filterMap Item.declaration?,
      items.filterMap Item.statement?⟩

/-- An expression that takes up all tokens, if there is one. -/
def bareExpression : Parser (Option Expr) := fun c =>
  match skip Expr.parser (optional (Parser.terminal .semicolon)) c with
  | (.ok e, c') =>
    if c'.rest.isEmpty then (.ok (some e), c') else (.ok none, { c' with rest := c.rest })
  | (.error _, c') => (.ok none, { c' with rest := c.rest })

/-- An entry, which takes up all tokens. -/
def parser : Parser Entry := do
  match ← bareExpression with
  | some e => return .expression e
  | none => return ofItems (← Item.listWithin (← remaining))

/-- The entry that a list of tokens makes, or the furthest error. -/
def ofTokens (tokens : List Token) : Except ParseError Entry :=
  match parser (.ofTokens tokens) with
  | (.ok entry, _) => .ok entry
  | (.error e, c) =>
    match c.furthest with
    | some (_, furthest) => .error furthest
    | none => .error e

/-- The tokens of a text whose comments have been blanked. -/
def tokens (source : String) : Except ParseError (List Token) :=
  match Token.scan (blankComments source) with
  | .ok tokens => .ok tokens
  | .error e => .error ⟨.lexing e, []⟩

/-- The entry that a text holds. -/
def parse (source : String) : Except ParseError Entry := do ofTokens (← tokens source)

end Entry

end Implet
