/-
Implet/Text/Span.lean

Places in a text.  A `Position` is a line and a column, both counted from 0; a
column counts bytes of the UTF-8 form, so it can be read off without knowing how
wide a character is drawn.  A `Span` is a stretch of a text, end exclusive, that
carries the text it was cut from, so that a report can quote it later.

Main definitions: `Position.after` moves a position over a list of characters,
`Span.merge` covers two spans from the start of the first to the stop of the
second.
-/

namespace Implet

/-- A place in a text: the line and the byte column, both from 0. -/
structure Position where
  line : Nat
  column : Nat
  deriving DecidableEq, Inhabited

namespace Position

/-- The beginning of a text. -/
def start : Position := ⟨0, 0⟩

/-- The place behind one character: a newline opens the next line, any other
character moves on by its width in bytes. -/
def advance (p : Position) (c : Char) : Position :=
  if c = '\n' then ⟨p.line + 1, 0⟩ else ⟨p.line, p.column + c.utf8Size⟩

/-- The place behind a list of characters. -/
def after (p : Position) (cs : List Char) : Position := cs.foldl advance p

@[simp] theorem after_cons (p : Position) (c : Char) (cs : List Char) :
    p.after (c :: cs) = (p.advance c).after cs := rfl

theorem after_append (p : Position) (cs ds : List Char) :
    p.after (cs ++ ds) = (p.after cs).after ds := by
  simp [after, List.foldl_append]

end Position

/-- A stretch of `source` from `start` up to, and not including, `stop`. -/
structure Span where
  start : Position
  stop : Position
  source : String
  deriving DecidableEq, Inhabited

namespace Span

/-- The span of a tree that was not read from a text. -/
def empty : Span := ⟨.start, .start, ""⟩

/-- From the start of the first span to the stop of the second. -/
def merge (a b : Span) : Span := ⟨a.start, b.stop, a.source⟩

@[simp] theorem merge_source (a b : Span) : (a.merge b).source = a.source := rfl

end Span

end Implet
