/-
Implet/Reading/Expr.lean

Reading expressions.  Operators bind in six levels, `BinOp.levels`, and group to
the left within a level; below them stand the primary expressions: literals,
calls, names and parentheses.  Parentheses leave no node and widen no span.

The reader of primary expressions takes the reader of what stands in parentheses
as an argument, and `Expr.parserWithin` closes that knot for as many nestings as
there are tokens left.  Each nesting takes a token, and at the end of the tokens
there is nothing to read but the failure, so the bound is never felt.
-/
import Implet.Reading.Parser
import Implet.Syntax.Basic

namespace Implet

open Implet.Parser

namespace BinOp

/-- The word for an operator. -/
def terminal : BinOp → Terminal
  | add => .plus
  | sub => .minus
  | mul => .star
  | div => .slash
  | eq => .doubleEquals
  | lt => .less
  | gt => .greater
  | and => .kwAnd
  | or => .kwOr

/-- The operators by level, those that bind loosest first. -/
def levels : List (List BinOp) := [[or], [and], [eq], [lt, gt], [add, sub], [mul, div]]

/-- The operator that a token is, among `ops`. -/
def ofToken? (ops : List BinOp) (token : Token) : Option BinOp :=
  ops.find? fun op => token.lexeme = .fixed op.terminal

end BinOp

/-- A name. -/
def Ident.parser : Parser Ident := fun c =>
  match c.rest with
  | ⟨.ident name, span⟩ :: rest => (.ok ⟨name, span⟩, { c with rest })
  | _ => expected .identifier c

namespace Expr

/-- The number that a list of decimal digits stands for. -/
def digitsValue (digits : List Char) : Nat :=
  digits.foldl (fun n d => 10 * n + (d.toNat - '0'.toNat)) 0

/-- The first number too large for a 64-bit literal. -/
def literalLimit : Nat := 1 <<< 63

/-- An integer literal.  One that is out of range is refused without a trace. -/
def integerLiteral : Parser Expr := fun c =>
  match c.rest with
  | ⟨.integer digits, span⟩ :: rest =>
    let value := digitsValue digits.toList
    if value < literalLimit then (.ok (.integer (Int64.ofNat value) span), { c with rest })
    else fail ⟨.literalOutOfRange digits span, []⟩ c
  | _ => expected .integer c

/-- A truth value. -/
def booleanLiteral : Parser Expr := fun c =>
  match c.rest with
  | ⟨.fixed .kwTrue, span⟩ :: rest => (.ok (.boolean true span), { c with rest })
  | ⟨.fixed .kwFalse, span⟩ :: rest => (.ok (.boolean false span), { c with rest })
  | _ => expected .boolean c

/-- A call, whose arguments `inner` reads. -/
def callParser (inner : Parser Expr) : Parser Expr := do
  let func ← Ident.parser
  let _ ← Parser.terminal .leftParen
  let args ← separated inner (Parser.terminal .comma)
  let close ← Parser.terminal .rightParen
  return .call func args (func.span.merge close.span)

/-- An expression in parentheses, which `inner` reads. -/
def parenthesized (inner : Parser Expr) : Parser Expr :=
  skip (skipLeft (Parser.terminal .leftParen) inner) (Parser.terminal .rightParen)

/-- An expression without operators of its own. -/
def primary (inner : Parser Expr) : Parser Expr :=
  label ((((integerLiteral.or booleanLiteral).or (callParser inner)).or
    (Expr.ident <$> Ident.parser)).or (parenthesized inner)) .expression

/-- Up to `rounds` operators among `ops`, each with its right operand. -/
def chainWithin (rounds : Nat) (ops : List BinOp) (operand : Parser Expr) (left : Expr) :
    Parser Expr :=
  match rounds with
  | 0 => pure left
  | rounds + 1 => do
    match (← peek).bind (BinOp.ofToken? ops) with
    | none => return left
    | some op =>
      advance
      let right ← operand
      chainWithin rounds ops operand (.binary op left right (left.span.merge right.span))

/-- Operands with operators among `ops` between them, grouped to the left. -/
def chain (ops : List BinOp) (operand : Parser Expr) : Parser Expr := do
  let first ← operand
  chainWithin (← remaining) ops operand first

/-- The operators of all levels over a reader of operands. -/
def operators (operand : Parser Expr) : Parser Expr := BinOp.levels.foldr chain operand

/-- An expression with at most `depth` nestings of parentheses and calls. -/
def parserWithin : Nat → Parser Expr
  | 0 => expected .expression
  | depth + 1 => operators (primary fun c => parserWithin depth c)

/-- An expression. -/
def parser : Parser Expr := do parserWithin (← remaining)

end Expr

end Implet
