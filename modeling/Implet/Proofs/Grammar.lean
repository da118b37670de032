/-
Implet/Proofs/Grammar.lean

The grammar of entries, independent of how they are read.  `Nonterminal.rule`
gives the rule of each nonterminal, `Forest` says which trees the rules allow,
`Tree.words` is the list of words that a tree derives and `Tree.part` the syntax
tree that it stands for.

The rules leave one thing open: an `else` after two conditionals can belong to
either of them.  `Entry.ElseNearest` says that each `else` belongs to the
nearest conditional that is still open.

The rules also say nothing about the size of integer literals, which
`Lexeme.Fits` bounds.
-/
import Implet.Reading.Entry

namespace Implet.Grammar

/-! ### The rules -/

/-- The nonterminals. -/
inductive Nonterminal where
  | unit | item | function | param | type | declaration | block
  | statement | cond | loop | ret | assignment
  | expression | or | and | equality | comparison | additive | term | primary | call

/-- The right sides of rules. -/
inductive Ebnf where
  | terminal (t : Terminal)
  | ident
  | integer
  | nonterminal (n : Nonterminal)
  | seq (es : List Ebnf)
  | alt (es : List Ebnf)
  | opt (e : Ebnf)
  | many (e : Ebnf)

namespace Ebnf

/-- Nothing, or items with commas between them. -/
def commaList (e : Ebnf) : Ebnf := opt (seq [e, many (seq [terminal .comma, e])])

/-- Operands with operators between them. -/
def operated (operand : Nonterminal) (operators : List Terminal) : Ebnf :=
  seq [nonterminal operand, many (seq [alt (operators.map terminal), nonterminal operand])]

end Ebnf

namespace Nonterminal

open Ebnf

/-- The rule of a nonterminal. -/
def rule : Nonterminal → Ebnf
  -- unit := expression ";"? EOF | item* EOF
  | unit => alt [seq [nonterminal expression, opt (terminal .semicolon)], many (nonterminal item)]
  -- item := function | declaration | statement
  | item => alt [nonterminal function, nonterminal declaration, nonterminal statement]
  -- function := "function" ident "(" [param ("," param)*] ")" block
  | function => seq [terminal .kwFunction, ident, terminal .leftParen,
      commaList (nonterminal param), terminal .rightParen, nonterminal block]
  -- param := type ident
  | param => seq [nonterminal type, ident]
  -- type := "int" | "bool" | "var"
  | type => alt [terminal .kwInt, terminal .kwBool, terminal .kwVar]
  -- declaration := type ident ";"
  | declaration => seq [nonterminal type, ident, terminal .semicolon]
  -- block := "{" declaration* statement* "}"
  | block => seq [terminal .leftBrace, many (nonterminal declaration),
      many (nonterminal statement), terminal .rightBrace]
  -- statement := block | if | while | return | assignment
  | statement => alt [nonterminal block, nonterminal cond, nonterminal loop, nonterminal ret,
      nonterminal assignment]
  -- if := "if" expression statement ["else" statement]
  | cond => seq [terminal .kwIf, nonterminal expression, nonterminal statement,
      opt (seq [terminal .kwElse, nonterminal statement])]
  -- while := "while" expression statement
  | loop => seq [terminal .kwWhile, nonterminal expression, nonterminal statement]
  -- return := "return" expression ";"
  | ret => seq [terminal .kwReturn, nonterminal expression, terminal .semicolon]
  -- assignment := ident ":=" expression ";"
  | assignment => seq [ident, terminal .assign, nonterminal expression, terminal .semicolon]
  -- expression := or
  | expression => nonterminal or
  -- or := and ("or" and)*
  | or => operated and [.kwOr]
  -- and := equality ("and" equality)*
  | and => operated equality [.kwAnd]
  -- equality := comparison ("==" comparison)*
  | equality => operated comparison [.doubleEquals]
  -- comparison := additive (("<" | ">") additive)*
  | comparison => operated additive [.less, .greater]
  -- additive := term (("+" | "-") term)*
  | additive => operated term [.plus, .minus]
  -- term := primary (("*" | "/") primary)*
  | term => operated primary [.star, .slash]
  -- primary := integer | "true" | "false" | call | ident | "(" expression ")"
  | primary => alt [integer, terminal .kwTrue, terminal .kwFalse, nonterminal call, ident,
      seq [terminal .leftParen, nonterminal expression, terminal .rightParen]]
  -- call := ident "(" [expression ("," expression)*] ")"
  | call => seq [ident, terminal .leftParen, commaList (nonterminal expression),
      terminal .rightParen]

end Nonterminal

/-! ### Derivation trees -/

/-- Trees with words at the leaves. -/
inductive Tree where
  | leaf (l : Lexeme)
  | node (n : Nonterminal) (children : List Tree)

/-- The trees that the right side of a rule allows next to each other. -/
inductive Forest : Ebnf → List Tree → Prop
  | terminal (t : Terminal) : Forest (.terminal t) [.leaf (.fixed t)]
  | ident (name : String) : Forest .ident [.leaf (.ident name)]
  | integer (digits : String) : Forest .integer [.leaf (.integer digits)]
  | nonterminal {n ts} : Forest n.rule ts → Forest (.nonterminal n) [.node n ts]
  | seqNil : Forest (.seq []) []
  | seqCons {e es ts us} : Forest e ts → Forest (.seq es) us → Forest (.seq (e :: es)) (ts ++ us)
  | alt {e es ts} : e ∈ es → Forest e ts → Forest (.alt es) ts
  | optNone {e} : Forest (.opt e) []
  | optSome {e ts} : Forest e ts → Forest (.opt e) ts
  | manyNil {e} : Forest (.many e) []
  | manyCons {e ts us} : Forest e ts → Forest (.many e) us → Forest (.many e) (ts ++ us)

mutual

/-- The words at the leaves, from left to right. -/
def Tree.words : Tree → List Lexeme
  | .leaf l => [l]
  | .node _ ts => forestWords ts

/-- The words at the leaves of trees next to each other. -/
def forestWords : List Tree → List Lexeme
  | [] => []
  | t :: ts => t.words ++ forestWords ts

end

/-! ### Syntax trees -/

/-- What a derivation tree stands for: a word, or a syntax tree without spans. -/
inductive Part where
  | word (l : Lexeme)
  | type (t : Option BaseType)
  | decl (d : Decl)
  | expr (e : Expr)
  | block (b : Block)
  | stmt (s : Stmt)
  | func (f : FunDef)
  | item (i : Item)
  | entry (e : Entry)

namespace Part

/-- The declarations among some parts. -/
def decls (ps : List Part) : List Decl := ps.filterMap fun | decl d => some d | _ => none

/-- The expressions among some parts. -/
def exprs (ps : List Part) : List Expr := ps.filterMap fun | expr e => some e | _ => none

/-- The statements among some parts. -/
def stmts (ps : List Part) : List Stmt := ps.filterMap fun | stmt s => some s | _ => none

/-- The items among some parts. -/
def items (ps : List Part) : List Item := ps.filterMap fun | item i => some i | _ => none

/-- The operator that a word stands for. -/
def operator? : Terminal → Option BinOp
  | .plus => some .add
  | .minus => some .sub
  | .star => some .mul
  | .slash => some .div
  | .doubleEquals => some .eq
  | .less => some .lt
  | .greater => some .gt
  | .kwAnd => some .and
  | .kwOr => some .or
  | _ => none

/-- An expression with the operators and operands that follow it, grouped to the
left. -/
def grouped : Expr → List Part → Expr
  | left, .word (.fixed t) :: .expr right :: rest =>
    match operator? t with
    | some op => grouped (.binary op left right .empty) rest
    | none => left
  | left, _ => left

/-- The expression that the parts of one make. -/
def toExpr : List Part → Expr
  | [.word (.integer digits)] =>
    .integer (Int64.ofNat (Expr.digitsValue digits.toList)) .empty
  | [.word (.fixed .kwTrue)] => .boolean true .empty
  | [.word (.fixed .kwFalse)] => .boolean false .empty
  | [.word (.ident name)] => .ident ⟨name, .empty⟩
  | [.word (.fixed .leftParen), .expr e, .word (.fixed .rightParen)] => e
  | .word (.ident name) :: .word (.fixed .leftParen) :: rest =>
    .call ⟨name, .empty⟩ (exprs rest) .empty
  | .expr first :: rest => grouped first rest
  | _ => .boolean false .empty

/-- The type that a word stands for. -/
def toType : List Part → Option BaseType
  | [.word (.fixed .kwInt)] => some .int
  | [.word (.fixed .kwBool)] => some .bool
  | _ => none

/-- The parameter or declaration that the parts of one make. -/
def toDecl : List Part → Decl
  | .type t :: .word (.ident name) :: _ => ⟨t, ⟨name, .empty⟩, .empty⟩
  | _ => ⟨none, default, .empty⟩

/-- The block that the parts of one make. -/
def toBlock (ps : List Part) : Block := ⟨decls ps, stmts ps, .empty⟩

/-- The statement that the parts of one make. -/
def toStmt : List Part → Stmt
  | [.block b] => .ofBlock b
  | [.stmt s] => s
  | [.word (.fixed .kwIf), .expr c, .stmt s] => .cond c s none .empty
  | [.word (.fixed .kwIf), .expr c, .stmt s, .word (.fixed .kwElse), .stmt t] =>
    .cond c s (some t) .empty
  | [.word (.fixed .kwWhile), .expr c, .stmt s] => .loop c s .empty
  | [.word (.fixed .kwReturn), .expr e, .word (.fixed .semicolon)] => .ret e .empty
  | [.word (.ident name), .word (.fixed .assign), .expr e, .word (.fixed .semicolon)] =>
    .assign ⟨name, .empty⟩ e .empty
  | _ => .block [] [] .empty

/-- The function that the parts of one make. -/
def toFunc : List Part → FunDef
  | .word (.fixed .kwFunction) :: .word (.ident name) :: rest =>
    match rest.getLast? with
    | some (.block b) => ⟨⟨name, .empty⟩, decls rest, b, .empty⟩
    | _ => ⟨default, [], toBlock [], .empty⟩
  | _ => ⟨default, [], toBlock [], .empty⟩

/-- The item that a part makes. -/
def toItem : List Part → Item
  | [.func f] => .function f
  | [.decl d] => .declaration d
  | [.stmt s] => .statement s
  | _ => .statement (toStmt [])

/-- The entry that the parts of one make: an expression, a single item, or a
program with the items sorted by kind. -/
def toEntry : List Part → Entry
  | .expr e :: _ => .expression e
  | [.item (.function f)] => .function f
  | [.item (.declaration d)] => .declaration d
  | [.item (.statement s)] => .statement s
  | ps => .program
    ⟨(items ps).filterMap fun | .function f => some f | _ => none,
      (items ps).filterMap fun | .declaration d => some d | _ => none,
      (items ps).filterMap fun | .statement s => some s | _ => none⟩

end Part

/-- What the parts of a nonterminal make. -/
def Nonterminal.build (ps : List Part) : Nonterminal → Part
  | .unit => .entry (Part.toEntry ps)
  | .item => .item (Part.toItem ps)
  | .function => .func (Part.toFunc ps)
  | .param | .declaration => .decl (Part.toDecl ps)
  | .type => .type (Part.toType ps)
  | .block => .block (Part.toBlock ps)
  | .statement | .cond | .loop | .ret | .assignment => .stmt (Part.toStmt ps)
  | .expression | .or | .and | .equality | .comparison | .additive | .term | .primary | .call =>
    .expr (Part.toExpr ps)

mutual

/-- The part that a derivation tree stands for. -/
def Tree.part : Tree → Part
  | .leaf l => .word l
  | .node n ts => n.build (forestParts ts)

/-- The parts that derivation trees stand for. -/
def forestParts : List Tree → List Part
  | [] => []
  | t :: ts => t.part :: forestParts ts

end

end Implet.Grammar

namespace Implet

/-- An integer literal with a 64-bit value, or a word of another kind. -/
def Lexeme.Fits : Lexeme → Prop
  | .integer digits => Expr.digitsValue digits.toList < Nat.pow 2 63
  | .fixed _ | .ident _ => True

/-- An `else` after the statement could belong to a conditional at its end. -/
def Stmt.EndsOpen : Stmt → Prop
  | .cond _ _ none _ => True
  | .cond _ _ (some elseBranch) _ => elseBranch.EndsOpen
  | .loop _ body _ => body.EndsOpen
  | .block _ _ _ | .assign _ _ _ | .ret _ _ => False

mutual

/-- Each `else` belongs to the nearest conditional that is still open. -/
def Stmt.ElseNearest : Stmt → Prop
  | .block _ statements _ => stmtsElseNearest statements
  | .cond _ thenBranch none _ => thenBranch.ElseNearest
  | .cond _ thenBranch (some elseBranch) _ =>
    ¬ thenBranch.EndsOpen ∧ thenBranch.ElseNearest ∧ elseBranch.ElseNearest
  | .loop _ body _ => body.ElseNearest
  | .assign _ _ _ | .ret _ _ => True

/-- In all statements, each `else` belongs to the nearest conditional that is
still open. -/
def stmtsElseNearest : List Stmt → Prop
  | [] => True
  | s :: ss => s.ElseNearest ∧ stmtsElseNearest ss

end

/-- In the body of a function, each `else` belongs to the nearest conditional. -/
def FunDef.ElseNearest (f : FunDef) : Prop := stmtsElseNearest f.body.statements

/-- In an entry, each `else` belongs to the nearest conditional. -/
def Entry.ElseNearest : Entry → Prop
  | .program p => (∀ f ∈ p.functions, f.ElseNearest) ∧ stmtsElseNearest p.main
  | .function f => f.ElseNearest
  | .statement s => s.ElseNearest
  | .declaration _ | .expression _ => True

end Implet
