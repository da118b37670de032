/-
Implet/Reading/Parser.lean

Parsers by ordered choice.  A `Parser` runs on a `Cursor`: the tokens that are
left, and the error that was raised furthest into the input.  Choice and
repetition go back to where they started when an alternative fails, which
forgets its error but not the memory of the furthest one; of two errors raised
at the same token the later one is remembered.

Repetition runs for as many rounds as there are tokens left.  Each round that
succeeds takes a token, and when the rounds are used up no token is left, so the
last round is the one that fails.
-/
import Implet.Reading.Error

namespace Implet

/-- Where a parser stands: the tokens that are left, and the furthest error with
the number of tokens that were left when it was raised. -/
structure Cursor where
  rest : List Token
  furthest : Option (Nat × ParseError)
  deriving DecidableEq

namespace Cursor

/-- The cursor before the first token. -/
def ofTokens (tokens : List Token) : Cursor := ⟨tokens, none⟩

/-- Remember an error unless one further on is remembered already. -/
def record (c : Cursor) (e : ParseError) : Cursor :=
  match c.furthest with
  | some (left, _) =>
    if left < c.rest.length then c else { c with furthest := some (c.rest.length, e) }
  | none => { c with furthest := some (c.rest.length, e) }

/-- The error of a parser that looked for `x` here. -/
def complaint (c : Cursor) (x : Expectation) : ParseError :=
  match c.rest with
  | token :: _ => ⟨.unexpected token, [x]⟩
  | [] => ⟨.endOfInput, [x]⟩

end Cursor

/-- A parser either yields a value or fails, and leaves a cursor in both cases. -/
def Parser (α : Type) : Type := Cursor → Except ParseError α × Cursor

namespace Parser

variable {α β : Type}

/-- A failure ends a sequence where it happened. -/
@[always_inline, inline]
def bind (p : Parser α) (f : α → Parser β) : Parser β := fun c =>
  match p c with
  | (.ok a, c) => f a c
  | (.error e, c) => (.error e, c)

instance : Monad Parser where
  pure a c := (.ok a, c)
  bind := bind

/-- Fail without a trace. -/
def fail (e : ParseError) : Parser α := fun c => (.error e, c)

/-- Fail, looking for `x`, and remember the error. -/
def expected (x : Expectation) : Parser α := fun c =>
  (.error (c.complaint x), c.record (c.complaint x))

/-- The token under the cursor. -/
def peek : Parser (Option Token) := fun c => (.ok c.rest.head?, c)

/-- Step over a token. -/
def advance : Parser Unit := fun c => (.ok (), { c with rest := c.rest.tail })

/-- The number of tokens that are left. -/
def remaining : Parser Nat := fun c => (.ok c.rest.length, c)

/-- A token with a given spelling. -/
def terminal (t : Terminal) : Parser Token := fun c =>
  match c.rest with
  | token :: rest =>
    if token.lexeme = .fixed t then (.ok token, { c with rest })
    else expected (.terminal t) c
  | [] => expected (.terminal t) c

/-! ### Combinators -/

/-- Both, one after the other. -/
def seq (p : Parser α) (q : Parser β) : Parser (α × β) := do
  let a ← p
  let b ← q
  return (a, b)

/-- Both, of which the first is kept. -/
def skip (p : Parser α) (q : Parser β) : Parser α := do
  let a ← p
  let _ ← q
  return a

/-- Both, of which the second is kept. -/
def skipLeft (p : Parser α) (q : Parser β) : Parser β := do
  let _ ← p
  q

/-- The first, or the second from the same place if the first fails. -/
def or (p q : Parser α) : Parser α := fun c =>
  match p c with
  | (.ok a, c') => (.ok a, c')
  | (.error _, c') => q { c' with rest := c.rest }

/-- Say what was expected when `p` fails, however deep inside it the error was. -/
def label (p : Parser α) (x : Expectation) : Parser α := fun c =>
  match p c with
  | (.ok a, c) => (.ok a, c)
  | (.error e, c) =>
    let e := { e with expected := [x] }
    (.error e, c.record e)

/-- `p`, or nothing if it fails. -/
def optional (p : Parser α) : Parser (Option α) := fun c =>
  match p c with
  | (.ok a, c') => (.ok (some a), c')
  | (.error _, c') => (.ok none, { c' with rest := c.rest })

/-- `p` up to `rounds + 1` times. -/
def manyWithin (rounds : Nat) (p : Parser α) : Parser (List α) := do
  match ← optional p with
  | none => return []
  | some a =>
    match rounds with
    | 0 => return [a]
    | rounds + 1 => return a :: (← manyWithin rounds p)

/-- `p` as often as it succeeds. -/
def many (p : Parser α) : Parser (List α) := do manyWithin (← remaining) p

/-- Up to `rounds + 1` times a separator and an item, which must follow it. -/
def separatedWithin (rounds : Nat) (p : Parser α) (separator : Parser β) :
    Parser (List α) := do
  match ← optional separator with
  | none => return []
  | some _ =>
    let a ← p
    match rounds with
    | 0 => return [a]
    | rounds + 1 => return a :: (← separatedWithin rounds p separator)

/-- Items with separators between them, or nothing. -/
def separated (p : Parser α) (separator : Parser β) : Parser (List α) := do
  match ← optional p with
  | none => return []
  | some first => return first :: (← separatedWithin (← remaining) p separator)

end Parser

end Implet
