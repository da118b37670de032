/-
Implet/Proofs/Readers.lean

The readers of the grammar without bounds.  Those that are run count their
rounds and nestings, which bounds them from the start.  Here they are written
down once more as programs in which nothing is counted: a `Reader` may go round
a loop as often as it likes, and read an expression or a statement within
another one.

Such a reader can fail to end, so it is run on fuel, and `Reader.Ends` says that
some fuel is enough.  How a reader ends does not depend on the fuel
(`Reader.Ends.unique`).
-/
import Implet.Reading.Entry

namespace Implet

/-! ### Readers without bounds -/

/-- What looks at one token at most. -/
inductive Glance : Type → Type 1
  | pure {α : Type} (a : α) : Glance α
  | fail {α : Type} (e : ParseError) : Glance α
  | expected {α : Type} (x : Expectation) : Glance α
  | peek : Glance (Option Token)
  | advance : Glance Unit
  | terminal (t : Terminal) : Glance Token
  | ident : Glance Ident
  | integer : Glance Expr
  | boolean : Glance Expr

/-- A glance is a parser of its own. -/
def Glance.parser {α : Type} : Glance α → Parser α
  | pure a => Pure.pure a
  | fail e => Parser.fail e
  | expected x => Parser.expected x
  | peek => Parser.peek
  | advance => Parser.advance
  | terminal t => Parser.terminal t
  | ident => Ident.parser
  | integer => Expr.integerLiteral
  | boolean => Expr.booleanLiteral

/-- Readers that are put together from glances, in which nothing is counted. -/
inductive Reader : Type → Type 1
  | glance {α : Type} (g : Glance α) : Reader α
  | bind {α β : Type} (m : Reader α) (f : α → Reader β) : Reader β
  | or {α : Type} (m m' : Reader α) : Reader α
  | label {α : Type} (m : Reader α) (x : Expectation) : Reader α
  | optional {α : Type} (m : Reader α) : Reader (Option α)
  /-- One round after the other, each of which says whether there is another one. -/
  | loop {σ α : Type} (s : σ) (body : σ → Reader (σ ⊕ α)) : Reader α
  /-- An expression, whatever it is in. -/
  | expression : Reader Expr
  /-- A statement, whatever it is in. -/
  | statement : Reader Stmt

namespace Reader

variable {α β σ : Type}

instance : Monad Reader where
  pure a := .glance (.pure a)
  bind := .bind

/-- A token with a given spelling. -/
def terminal (t : Terminal) : Reader Token := .glance (.terminal t)

/-- A name. -/
def ident : Reader Ident := .glance .ident

/-- The token under the cursor. -/
def peek : Reader (Option Token) := .glance .peek

/-- Both, of which the first is kept. -/
def skip (m : Reader α) (m' : Reader β) : Reader α := do
  let a ← m
  let _ ← m'
  return a

/-- Both, of which the second is kept. -/
def skipLeft (m : Reader α) (m' : Reader β) : Reader β := do
  let _ ← m
  m'

/-- A round that adds an element to a list, or ends it. -/
def gather (step : Reader (Option α)) (as : List α) : Reader (List α ⊕ List α) := do
  match ← step with
  | some a => return .inl (as ++ [a])
  | none => return .inr as

/-- A list, of which each round adds an element. -/
def collect (step : Reader (Option α)) : Reader (List α) := .loop [] (gather step)

/-- As often as it succeeds. -/
def many (m : Reader α) : Reader (List α) := collect m.optional

/-- A separator and an item, which must follow it, or nothing. -/
def following (m : Reader α) (separator : Reader β) : Reader (Option α) := do
  match ← separator.optional with
  | none => return none
  | some _ => return some (← m)

/-- Items with separators between them, or nothing. -/
def separated (m : Reader α) (separator : Reader β) : Reader (List α) := do
  match ← m.optional with
  | none => return []
  | some first => return first :: (← collect (following m separator))

/-- An element, unless the tokens end or the next one is a stop. -/
def element (stop : Token → Bool) (m : Reader α) : Reader (Option α) := do
  match ← peek with
  | none => return none
  | some token => if stop token then return none else return some (← m)

/-! ### Expressions -/

/-- A call. -/
def call : Reader Expr := do
  let func ← ident
  let _ ← terminal .leftParen
  let args ← separated .expression (terminal .comma)
  let close ← terminal .rightParen
  return .call func args (func.span.merge close.span)

/-- An expression in parentheses. -/
def parenthesized : Reader Expr :=
  skip (skipLeft (terminal .leftParen) .expression) (terminal .rightParen)

/-- An expression without operators of its own. -/
def primary : Reader Expr :=
  .label (.or (.or (.or (.or (.glance .integer) (.glance .boolean)) call) (Expr.ident <$> ident))
    parenthesized) .expression

/-- An operator among `ops` and its right operand, or nothing. -/
def operation (ops : List BinOp) (operand : Reader Expr) (left : Expr) :
    Reader (Expr ⊕ Expr) := do
  match (← peek).bind (BinOp.ofToken? ops) with
  | none => return .inr left
  | some op =>
    let _ ← Reader.glance .advance
    let right ← operand
    return .inl (.binary op left right (left.span.merge right.span))

/-- Operands with operators among `ops` between them, grouped to the left. -/
def chain (ops : List BinOp) (operand : Reader Expr) : Reader Expr := do
  let first ← operand
  .loop first (operation ops operand)

/-- What an expression is. -/
def expressionBody : Reader Expr := BinOp.levels.foldr chain primary

/-! ### Declarations and statements -/

/-- A word with the type it stands for. -/
def typeWord (t : Terminal) (type : Option BaseType) :
    Reader (Option BaseType × Span) := do
  let token ← terminal t
  return (type, token.span)

/-- The type of a declaration and its span. -/
def typeName : Reader (Option BaseType × Span) :=
  .label (.or (.or (typeWord .kwInt (some .int)) (typeWord .kwBool (some .bool)))
    (typeWord .kwVar none)) .type

/-- A parameter. -/
def parameter : Reader Decl := do
  let (type, start) ← typeName
  let name ← ident
  return ⟨type, name, start.merge name.span⟩

/-- A declaration. -/
def declaration : Reader Decl := do
  let decl ← parameter
  let semicolon ← terminal .semicolon
  return { decl with span := decl.span.merge semicolon.span }

/-- A statement, unless there is a closing brace or the tokens end. -/
def nextStatement : Reader (Option Stmt) :=
  element (fun token => token.lexeme = .fixed .rightBrace) Reader.statement

/-- A block. -/
def block : Reader Block := do
  let brace ← terminal .leftBrace
  let declarations ← many declaration
  let statements ← collect nextStatement
  let close ← terminal .rightBrace
  return ⟨declarations, statements, brace.span.merge close.span⟩

/-- A conditional. -/
def cond : Reader Stmt := do
  let word ← terminal .kwIf
  let condition ← Reader.expression
  let thenBranch ← Reader.statement
  let elseBranch ← (skipLeft (terminal .kwElse) Reader.statement).optional
  let last := elseBranch.getD thenBranch
  return .cond condition thenBranch elseBranch (word.span.merge last.span)

/-- A loop statement. -/
def loopStmt : Reader Stmt := do
  let word ← terminal .kwWhile
  let condition ← Reader.expression
  let body ← Reader.statement
  return .loop condition body (word.span.merge body.span)

/-- A return statement. -/
def ret : Reader Stmt := do
  let word ← terminal .kwReturn
  let value ← Reader.expression
  let semicolon ← terminal .semicolon
  return .ret value (word.span.merge semicolon.span)

/-- An assignment. -/
def assign : Reader Stmt := do
  let target ← ident
  let _ ← terminal .assign
  let value ← Reader.expression
  let semicolon ← terminal .semicolon
  return .assign target value (target.span.merge semicolon.span)

/-- What a statement is. -/
def statementBody : Reader Stmt := do
  match (← peek).map Token.lexeme with
  | some (.fixed .leftBrace) => Stmt.ofBlock <$> block
  | some (.fixed .kwIf) => cond
  | some (.fixed .kwWhile) => loopStmt
  | some (.fixed .kwReturn) => ret
  | some (.ident _) => assign
  | _ => .glance (.expected .statement)

/-! ### Entries -/

/-- A function definition. -/
def function : Reader FunDef := do
  let word ← terminal .kwFunction
  let name ← ident.label .functionName
  let _ ← terminal .leftParen
  let params ← separated parameter (terminal .comma)
  let _ ← terminal .rightParen
  let body ← block
  return ⟨name, params, body, word.span.merge body.span⟩

/-- An item. -/
def item : Reader Item := do
  match (← peek).map Token.lexeme with
  | some (.fixed .kwFunction) => Item.function <$> function
  | some (.fixed .kwInt) | some (.fixed .kwBool) | some (.fixed .kwVar) =>
    Item.declaration <$> declaration
  | _ => Item.statement <$> Reader.statement

/-- An item, unless the tokens end. -/
def nextItem : Reader (Option Item) := element (fun _ => false) item

/-- A value, if no tokens are left. -/
def complete (a : α) : Reader α := do
  match ← peek with
  | none => return a
  | some token => .glance (.fail ⟨.unexpected token, []⟩)

/-- An expression that takes up all tokens, if there is one. -/
def bareExpression : Reader (Option Expr) :=
  Reader.optional do
    let e ← skip Reader.expression (terminal .semicolon).optional
    complete e

/-- An entry, which takes up all tokens. -/
def unit : Reader Entry := do
  match ← bareExpression with
  | some e => return .expression e
  | none => return .ofItems (← collect nextItem)

/-! ### Running on fuel -/

/-- How a reader ends, if its fuel is enough. -/
abbrev Result (α : Type) := Option (Except ParseError α × Cursor)

/-- What is run after a part, if that ends. -/
def after (r : Result α) (ok : α → Cursor → Result β)
    (error : ParseError → Cursor → Result β) :
    Result β :=
  match r with
  | some (.ok a, c) => ok a c
  | some (.error e, c) => error e c
  | none => none

section

variable {q q' : Result α} {ok ok' : α → Cursor → Result β}
  {error error' : ParseError → Cursor → Result β} {c : Cursor}

theorem after_ok {a : α} (h : q = some (.ok a, c)) : after q ok error = ok a c := by
  rw [h]
  rfl

theorem after_error {e : ParseError} (h : q = some (.error e, c)) :
    after q ok error = error e c := by
  rw [h]
  rfl

theorem after_mono {r : Except ParseError β × Cursor}
    (hq : ∀ {p}, q = some p → q' = some p)
    (hok : ∀ {a c}, ok a c = some r → ok' a c = some r)
    (herror : ∀ {e c}, error e c = some r → error' e c = some r)
    (h : after q ok error = some r) : after q' ok' error' = some r := by
  cases q with
  | none => cases h
  | some p =>
    rw [hq rfl]
    obtain ⟨e | a, c⟩ := p
    · exact herror h
    · exact hok h

end

/-- Run a reader, where each step into a part, a round or a nesting takes one of
the fuel. -/
def run : (fuel : Nat) → {α : Type} → Reader α → Cursor → Result α
  | 0, _, _, _ => none
  | _ + 1, _, .glance g, c => some (g.parser c)
  | fuel + 1, _, .bind m f, c =>
    after (m.run fuel c) (fun a => (f a).run fuel) fun e c' => some (.error e, c')
  | fuel + 1, _, .or m m', c =>
    after (m.run fuel c) (fun a c' => some (.ok a, c')) fun _ c' =>
      m'.run fuel { c' with rest := c.rest }
  | fuel + 1, _, .label m x, c =>
    after (m.run fuel c) (fun a c' => some (.ok a, c')) fun e c' =>
      some (.error { e with expected := [x] }, c'.record { e with expected := [x] })
  | fuel + 1, _, .optional m, c =>
    after (m.run fuel c) (fun a c' => some (.ok (some a), c')) fun _ c' =>
      some (.ok none, { c' with rest := c.rest })
  | fuel + 1, _, .loop s body, c =>
    after ((body s).run fuel c)
      (fun
        | .inl s', c' => (Reader.loop s' body).run fuel c'
        | .inr a, c' => some (.ok a, c'))
      fun e c' => some (.error e, c')
  | fuel + 1, _, .expression, c => expressionBody.run fuel c
  | fuel + 1, _, .statement, c => statementBody.run fuel c

/-- The reader ends in this way: some fuel is enough for it. -/
def Ends (m : Reader α) (c : Cursor) (r : Except ParseError α × Cursor) : Prop :=
  ∃ fuel, m.run fuel c = some r

variable {c c' : Cursor} {r : Except ParseError α × Cursor}

theorem run_succ {fuel : Nat} {m : Reader α} (h : m.run fuel c = some r) :
    m.run (fuel + 1) c = some r := by
  induction fuel generalizing α c with
  | zero => cases h
  | succ fuel ih =>
    cases m with
    | glance g => exact h
    | bind m f => exact after_mono ih ih id h
    | or m m' => exact after_mono ih id ih h
    | label m | optional m => exact after_mono ih id id h
    | loop s body =>
      refine after_mono ih (fun {x c} hx => ?_) id h
      cases x with
      | inl s' => exact ih hx
      | inr a => exact hx
    | expression | statement => exact ih h

theorem run_le {fuel more : Nat} {m : Reader α} (hle : fuel ≤ more)
    (h : m.run fuel c = some r) :
    m.run more c = some r := by
  induction hle with
  | refl => exact h
  | step _ ih => exact run_succ ih

/-! ### Ways to end -/

section

variable {m m' : Reader α} {f : α → Reader β} {rb : Except ParseError β × Cursor} {a : α}
  {e : ParseError}

theorem ends_glance (g : Glance α) (c : Cursor) : (glance g).Ends c (g.parser c) :=
  ⟨1, rfl⟩

theorem ends_pure (a : α) (c : Cursor) : Ends (pure a) c (.ok a, c) :=
  ends_glance (.pure a) c

theorem Ends.bind (h : m.Ends c (.ok a, c')) (hf : (f a).Ends c' rb) :
    (m >>= f).Ends c rb := by
  obtain ⟨fuel, h⟩ := h
  obtain ⟨fuel', hf⟩ := hf
  have hm := run_le (Nat.le_max_left fuel fuel') h
  exact ⟨max fuel fuel' + 1, (after_ok hm).trans (run_le (Nat.le_max_right fuel fuel') hf)⟩

theorem Ends.peek {f : Option Token → Reader α} (h : (f c.rest.head?).Ends c r) :
    (Reader.peek >>= f).Ends c r := (ends_glance .peek c).bind h

theorem Ends.bind_error (h : m.Ends c (.error e, c')) :
    (m >>= f).Ends c (.error e, c') := by
  obtain ⟨fuel, h⟩ := h
  exact ⟨fuel + 1, after_error h⟩

theorem Ends.or (h : m.Ends c (.ok a, c')) : (m.or m').Ends c (.ok a, c') := by
  obtain ⟨fuel, h⟩ := h
  exact ⟨fuel + 1, after_ok h⟩

theorem Ends.or_error (h : m.Ends c (.error e, c'))
    (h' : m'.Ends { c' with rest := c.rest } r) : (m.or m').Ends c r := by
  obtain ⟨fuel, h⟩ := h
  obtain ⟨fuel', h'⟩ := h'
  have hm := run_le (Nat.le_max_left fuel fuel') h
  exact ⟨max fuel fuel' + 1, (after_error hm).trans (run_le (Nat.le_max_right fuel fuel') h')⟩

theorem Ends.label (h : m.Ends c (.ok a, c')) (x : Expectation) :
    (m.label x).Ends c (.ok a, c') := by
  obtain ⟨fuel, h⟩ := h
  exact ⟨fuel + 1, after_ok h⟩

theorem Ends.label_error (h : m.Ends c (.error e, c')) (x : Expectation) :
    (m.label x).Ends c
    (.error { e with expected := [x] }, c'.record { e with expected := [x] }) := by
  obtain ⟨fuel, h⟩ := h
  exact ⟨fuel + 1, after_error h⟩

theorem Ends.optional (h : m.Ends c (.ok a, c')) :
    m.optional.Ends c (.ok (some a), c') := by
  obtain ⟨fuel, h⟩ := h
  exact ⟨fuel + 1, after_ok h⟩

theorem Ends.optional_error (h : m.Ends c (.error e, c')) :
    m.optional.Ends c (.ok none, { c' with rest := c.rest }) := by
  obtain ⟨fuel, h⟩ := h
  exact ⟨fuel + 1, after_error h⟩

variable {s s' : σ} {body : σ → Reader (σ ⊕ α)}

theorem Ends.loop_again (h : (body s).Ends c (.ok (.inl s'), c'))
    (h' : (loop s' body).Ends c' r) : (loop s body).Ends c r := by
  obtain ⟨fuel, h⟩ := h
  obtain ⟨fuel', h'⟩ := h'
  have hm := run_le (Nat.le_max_left fuel fuel') h
  exact ⟨max fuel fuel' + 1, (after_ok hm).trans (run_le (Nat.le_max_right fuel fuel') h')⟩

theorem Ends.loop_done (h : (body s).Ends c (.ok (.inr a), c')) :
    (loop s body).Ends c (.ok a, c') := by
  obtain ⟨fuel, h⟩ := h
  exact ⟨fuel + 1, after_ok h⟩

theorem Ends.loop_error (h : (body s).Ends c (.error e, c')) :
    (loop s body).Ends c (.error e, c') := by
  obtain ⟨fuel, h⟩ := h
  exact ⟨fuel + 1, after_error h⟩

theorem Ends.expression {r : Except ParseError Expr × Cursor}
    (h : expressionBody.Ends c r) :
    Reader.expression.Ends c r := by
  obtain ⟨fuel, h⟩ := h
  exact ⟨fuel + 1, h⟩

theorem Ends.statement {r : Except ParseError Stmt × Cursor}
    (h : statementBody.Ends c r) :
    Reader.statement.Ends c r := by
  obtain ⟨fuel, h⟩ := h
  exact ⟨fuel + 1, h⟩

/-- A reader ends in one way at most. -/
theorem Ends.unique {r' : Except ParseError α × Cursor} (h : m.Ends c r)
    (h' : m.Ends c r') :
    r = r' := by
  obtain ⟨fuel, h⟩ := h
  obtain ⟨fuel', h'⟩ := h'
  have hmax := run_le (Nat.le_max_left fuel fuel') h
  rw [run_le (Nat.le_max_right fuel fuel') h'] at hmax
  exact (Option.some.inj hmax).symm

end

end Reader

end Implet
