/-
Implet/Reading/Stmt.lean

Reading declarations, blocks and statements.  The first token decides which
statement it is.  As with expressions, the readers of compound statements take
the reader of their parts as an argument, and `Stmt.parserWithin` closes the
knot for as many nestings as there are tokens left.
-/
import Implet.Reading.Expr

namespace Implet

open Implet.Parser

namespace Decl

/-- A word with the type it stands for. -/
def typeWord (t : Terminal) (type : Option BaseType) :
    Parser (Option BaseType × Span) := do
  let token ← Parser.terminal t
  return (type, token.span)

/-- The type of a declaration and its span. -/
def typeParser : Parser (Option BaseType × Span) :=
  label (((typeWord .kwInt (some .int)).or (typeWord .kwBool (some .bool))).or
    (typeWord .kwVar none)) .type

/-- A parameter: a type and a name. -/
def parameterParser : Parser Decl := do
  let (type, start) ← typeParser
  let name ← Ident.parser
  return ⟨type, name, start.merge name.span⟩

/-- A declaration: a type, a name and a semicolon, which belongs to its span. -/
def parser : Parser Decl := do
  let decl ← parameterParser
  let semicolon ← Parser.terminal .semicolon
  return { decl with span := decl.span.merge semicolon.span }

end Decl

namespace Block

/-- Up to `rounds` statements before a closing brace or the end of the tokens. -/
def statementsWithin (rounds : Nat) (inner : Parser Stmt) : Parser (List Stmt) :=
  match rounds with
  | 0 => pure []
  | rounds + 1 => do
    match ← peek with
    | none => return []
    | some token =>
      if token.lexeme = .fixed .rightBrace then return []
      else
        let first ← inner
        return first :: (← statementsWithin rounds inner)

/-- A block, whose statements `inner` reads. -/
def parserOf (inner : Parser Stmt) : Parser Block := do
  let brace ← Parser.terminal .leftBrace
  let declarations ← many Decl.parser
  let statements ← statementsWithin (← remaining) inner
  let close ← Parser.terminal .rightBrace
  return ⟨declarations, statements, brace.span.merge close.span⟩

end Block

namespace Stmt

/-- A conditional.  An `else` goes with the nearest one that is open. -/
def condParser (inner : Parser Stmt) : Parser Stmt := do
  let word ← Parser.terminal .kwIf
  let condition ← Expr.parser
  let thenBranch ← inner
  let elseBranch ← optional (skipLeft (Parser.terminal .kwElse) inner)
  let last := elseBranch.getD thenBranch
  return .cond condition thenBranch elseBranch (word.span.merge last.span)

/-- A loop. -/
def loopParser (inner : Parser Stmt) : Parser Stmt := do
  let word ← Parser.terminal .kwWhile
  let condition ← Expr.parser
  let body ← inner
  return .loop condition body (word.span.merge body.span)

/-- A return statement. -/
def returnParser : Parser Stmt := do
  let word ← Parser.terminal .kwReturn
  let value ← Expr.parser
  let semicolon ← Parser.terminal .semicolon
  return .ret value (word.span.merge semicolon.span)

/-- An assignment. -/
def assignParser : Parser Stmt := do
  let target ← Ident.parser
  let _ ← Parser.terminal .assign
  let value ← Expr.parser
  let semicolon ← Parser.terminal .semicolon
  return .assign target value (target.span.merge semicolon.span)

/-- A statement, whose parts `inner` reads. -/
def parserOf (inner : Parser Stmt) : Parser Stmt := do
  match (← peek).map Token.lexeme with
  | some (.fixed .leftBrace) => Stmt.ofBlock <$> Block.parserOf inner
  | some (.fixed .kwIf) => condParser inner
  | some (.fixed .kwWhile) => loopParser inner
  | some (.fixed .kwReturn) => returnParser
  | some (.ident _) => assignParser
  | _ => expected .statement

/-- A statement with at most `depth` nestings. -/
def parserWithin : Nat → Parser Stmt
  | 0 => expected .statement
  | depth + 1 => parserOf fun c => parserWithin depth c

/-- A statement. -/
def parser : Parser Stmt := do parserWithin (← remaining)

end Stmt

/-- A block. -/
def Block.parser : Parser Block := Block.parserOf Stmt.parser

/-- A function definition. -/
def FunDef.parser : Parser FunDef := do
  let word ← Parser.terminal .kwFunction
  let name ← label Ident.parser .functionName
  let _ ← Parser.terminal .leftParen
  let params ← separated Decl.parameterParser (Parser.terminal .comma)
  let _ ← Parser.terminal .rightParen
  let body ← Block.parser
  return ⟨name, params, body, word.span.merge body.span⟩

end Implet
