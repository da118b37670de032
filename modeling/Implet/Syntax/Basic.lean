/-
Implet/Syntax/Basic.lean

The syntax trees.  Functions are called by name only; a declaration without a
base type leaves the type to be inferred; the declarations of a block come
before its statements.  An `Entry` is what is read, checked and run in one go.

Every node keeps the span it was read from.  `bare` forgets all spans, so two
trees agree up to layout when their `bare` forms are equal.
-/
import Implet.Text.Span

namespace Implet

/-- A name where it is declared, assigned or called. -/
structure Ident where
  name : String
  span : Span
  deriving DecidableEq, Inhabited

/-- The types a declaration can be annotated with. -/
inductive BaseType where
  | int
  | bool
  deriving DecidableEq

/-- A variable or parameter, with `none` for a type to be inferred. -/
structure Decl where
  type : Option BaseType
  name : Ident
  span : Span
  deriving DecidableEq

/-- The binary operators. -/
inductive BinOp where
  | add | sub | mul | div | eq | lt | gt | and | or
  deriving DecidableEq

/-- Expressions. -/
inductive Expr where
  | integer (value : Int64) (span : Span)
  | boolean (value : Bool) (span : Span)
  | ident (id : Ident)
  | binary (op : BinOp) (left right : Expr) (span : Span)
  | call (func : Ident) (args : List Expr) (span : Span)

/-- Statements. -/
inductive Stmt where
  | block (declarations : List Decl) (statements : List Stmt) (span : Span)
  | cond (condition : Expr) (thenBranch : Stmt) (elseBranch : Option Stmt) (span : Span)
  | loop (condition : Expr) (body : Stmt) (span : Span)
  | assign (target : Ident) (value : Expr) (span : Span)
  | ret (value : Expr) (span : Span)

/-- The contents of a pair of braces. -/
structure Block where
  declarations : List Decl
  statements : List Stmt
  span : Span

/-- A function definition. -/
structure FunDef where
  name : Ident
  params : List Decl
  body : Block
  span : Span

/-- Several items, sorted by kind in the order in which they are run. -/
structure Program where
  functions : List FunDef
  globals : List Decl
  main : List Stmt

/-- One input that is read, checked and run as a whole. -/
inductive Entry where
  | program (p : Program)
  | function (f : FunDef)
  | declaration (d : Decl)
  | statement (s : Stmt)
  | expression (e : Expr)

namespace BaseType

/-- How a base type is written. -/
def text : BaseType → String
  | int => "int"
  | bool => "bool"

end BaseType

namespace BinOp

/-- How an operator is written. -/
def text : BinOp → String
  | add => "+"
  | sub => "-"
  | mul => "*"
  | div => "/"
  | eq => "=="
  | lt => "<"
  | gt => ">"
  | and => "and"
  | or => "or"

end BinOp

namespace Expr

/-- Where an expression was read. -/
def span : Expr → Span
  | integer _ s => s
  | boolean _ s => s
  | ident id => id.span
  | binary _ _ _ s => s
  | call _ _ s => s

end Expr

namespace Stmt

/-- Where a statement was read. -/
def span : Stmt → Span
  | block _ _ s => s
  | cond _ _ _ s => s
  | loop _ _ s => s
  | assign _ _ s => s
  | ret _ s => s

/-- A block as a statement. -/
def ofBlock (b : Block) : Stmt := block b.declarations b.statements b.span

end Stmt

namespace Program

/-- The items of a program as entries of their own, in the order in which they
are run. -/
def entries (p : Program) : List Entry :=
  p.functions.map .function ++ p.globals.map .declaration ++ p.main.map .statement

end Program

/-! ### Trees without their spans -/

/-- An identifier without its span. -/
def Ident.bare (id : Ident) : Ident := ⟨id.name, .empty⟩

/-- A declaration without its spans. -/
def Decl.bare (d : Decl) : Decl := ⟨d.type, d.name.bare, .empty⟩

mutual

/-- An expression without its spans. -/
def Expr.bare : Expr → Expr
  | .integer value _ => .integer value .empty
  | .boolean value _ => .boolean value .empty
  | .ident id => .ident id.bare
  | .binary op left right _ => .binary op left.bare right.bare .empty
  | .call func args _ => .call func.bare (bareExprs args) .empty

/-- Expressions without their spans. -/
def bareExprs : List Expr → List Expr
  | [] => []
  | e :: es => e.bare :: bareExprs es

end

mutual

/-- A statement without its spans. -/
def Stmt.bare : Stmt → Stmt
  | .block declarations statements _ =>
    .block (declarations.map Decl.bare) (bareStmts statements) .empty
  | .cond condition thenBranch none _ => .cond condition.bare thenBranch.bare none .empty
  | .cond condition thenBranch (some elseBranch) _ =>
    .cond condition.bare thenBranch.bare (some elseBranch.bare) .empty
  | .loop condition body _ => .loop condition.bare body.bare .empty
  | .assign target value _ => .assign target.bare value.bare .empty
  | .ret value _ => .ret value.bare .empty

/-- Statements without their spans. -/
def bareStmts : List Stmt → List Stmt
  | [] => []
  | s :: ss => s.bare :: bareStmts ss

end

/-- A block without its spans. -/
def Block.bare (b : Block) : Block :=
  ⟨b.declarations.map Decl.bare, bareStmts b.statements, .empty⟩

/-- A function without its spans. -/
def FunDef.bare (f : FunDef) : FunDef :=
  ⟨f.name.bare, f.params.map Decl.bare, f.body.bare, .empty⟩

/-- A program without its spans. -/
def Program.bare (p : Program) : Program :=
  ⟨p.functions.map FunDef.bare, p.globals.map Decl.bare, p.main.map Stmt.bare⟩

/-- An entry without its spans. -/
def Entry.bare : Entry → Entry
  | .program p => .program p.bare
  | .function f => .function f.bare
  | .declaration d => .declaration d.bare
  | .statement s => .statement s.bare
  | .expression e => .expression e.bare

end Implet
