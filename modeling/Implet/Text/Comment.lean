/-
Implet/Text/Comment.lean

Line comments.  `blankComments` replaces every character of a comment, from its
`//` up to the end of the line, by one space and leaves all else alone, so that
the rest of the text keeps its lines and columns.
-/

namespace Implet.Comment

mutual

/-- Blank the comments of a text read from outside any comment. -/
def outside : List Char → List Char
  | '/' :: '/' :: cs => ' ' :: ' ' :: inside cs
  | c :: cs => c :: outside cs
  | [] => []

/-- Blank the comments of a text read from inside a comment, which the next
newline ends. -/
def inside : List Char → List Char
  | '\n' :: cs => '\n' :: outside cs
  | _ :: cs => ' ' :: inside cs
  | [] => []

end

end Implet.Comment

namespace Implet

/-- A text with each character of its line comments replaced by a space. -/
def blankComments (text : String) : String := String.ofList (Comment.outside text.toList)

end Implet
