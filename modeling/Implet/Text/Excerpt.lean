/-
Implet/Text/Excerpt.lean

Reports with a source excerpt.  `Span.excerpt` quotes the line before a span and
every line of the span behind a ruled margin, and puts the message under the
last one, with a caret below the last byte of the span.

`report` is the form used for all errors: the excerpt where there is a text to
quote, and the message behind a heading where there is none.
-/
import Implet.Text.Span

namespace Implet

/-- The lines of a text.  A carriage return directly before a newline belongs to
the line end, and a newline at the end of the text opens no further line.
`line` holds the characters of the current line, last one first. -/
def linesFrom (line : List Char) : List Char → List String
  | [] => if line.isEmpty then [] else [String.ofList line.reverse]
  | '\n' :: cs =>
    let body := match line with
      | '\r' :: rest => rest
      | _ => line
    String.ofList body.reverse :: linesFrom [] cs
  | c :: cs => linesFrom (c :: line) cs

/-- The lines of a text. -/
def lines (text : String) : List String := linesFrom [] text.toList

/-- `n` spaces. -/
def spaces (n : Nat) : String := String.ofList (List.replicate n ' ')

namespace Span

/-- The quoted lines of a span with the message below them. -/
def excerpt (span : Span) (message : String) : String :=
  let quoted := lines span.source
  let line (k : Nat) : String := quoted.getD k ""
  let first := span.start.line
  let last := span.stop.line
  let margin := spaces (toString last).length ++ " |"
  let before := if first = 0 then "" else line (first - 1)
  let further := (List.range' (first + 1) (last - first)).map fun k => "\n" ++ margin ++ line k
  margin ++ "\n"
    ++ margin ++ before ++ " \n"
    ++ toString (first + 1) ++ " |" ++ line first
    ++ String.join further
    ++ "\n" ++ toString (last + 2) ++ " |" ++ spaces (span.stop.column - 1) ++ "^--- " ++ message
    ++ "\n" ++ margin

end Span

/-- A message as it is shown: with an excerpt when `span?` carries a text, else
behind `heading`. -/
def report (heading : String) (span? : Option Span) (message : String) : String :=
  match span? with
  | some span =>
    if span.source.isEmpty then heading ++ ": " ++ message else span.excerpt message
  | none => heading ++ ": " ++ message

end Implet
