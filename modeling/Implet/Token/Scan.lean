/-
Implet/Token/Scan.lean

From text to tokens.  `Lexeme.read?` takes the longest lexeme off the front of a
list of characters: a run of word characters is a keyword if it is spelled like
one and an identifier otherwise, a run of digits is an integer literal, and of
two marks that fit the longer one is taken.  `Token.scan` reads a whole text,
skips the white space between lexemes and keeps their places.

`Lexeme.read?_eq_some` is what the recursion rests on: what is read and what is
left make up the text, and what is read is not empty.
-/
import Implet.Token.Basic

namespace Implet

/-- The white space between tokens. -/
def isGap (c : Char) : Bool :=
  c == ' ' || c == '\t' || c == '\n' || c == '\x0c' || c == '\r'

/-- The characters an identifier may begin with. -/
def isWordStart (c : Char) : Bool :=
  ('a' ≤ c && c ≤ 'z') || ('A' ≤ c && c ≤ 'Z') || c == '_'

/-- The digits of an integer literal. -/
def isDigit (c : Char) : Bool := '0' ≤ c && c ≤ '9'

/-- The characters an identifier may go on with. -/
def isWordChar (c : Char) : Bool := isWordStart c || isDigit c

namespace Terminal

/-- The mark at the front of a list of characters. -/
def readMark? (cs : List Char) : Option Terminal :=
  marks.find? fun t => t.text.toList.isPrefixOf cs

end Terminal

namespace Lexeme

/-- The lexeme that a run of word characters spells. -/
def ofWord (word : String) : Lexeme :=
  match Terminal.keywords.find? (·.text = word) with
  | some t => fixed t
  | none => ident word

/-- The longest lexeme at the front of a list of characters. -/
def read? (cs : List Char) : Option Lexeme :=
  match cs with
  | [] => none
  | c :: _ =>
    if isWordStart c then some (ofWord (String.ofList (cs.takeWhile isWordChar)))
    else if isDigit c then some (integer (String.ofList (cs.takeWhile isDigit)))
    else (Terminal.readMark? cs).map fixed

@[simp] theorem text_ofWord (word : String) : (ofWord word).text = word := by
  unfold ofWord
  split
  · next t h => simpa [text] using List.find?_some h
  · rfl

/-- What is read is the beginning of the text, and is not empty. -/
theorem read?_eq_some {cs : List Char} {l : Lexeme} (h : read? cs = some l) :
    l.text.toList ≠ [] ∧ cs = l.text.toList ++ cs.drop l.text.toList.length := by
  have cut (p : Char → Bool) : cs = cs.takeWhile p ++ cs.drop (cs.takeWhile p).length :=
    (List.prefix_iff_eq_append.1 (List.takeWhile_prefix p)).symm
  unfold read? at h
  split at h
  · cases h
  · next c rest =>
    split at h
    · next hw =>
      cases h
      refine ⟨?_, by simpa using cut isWordChar⟩
      simp [isWordChar, hw]
    · split at h
      · next hd =>
        cases h
        refine ⟨?_, by simpa [text] using cut isDigit⟩
        simp [text, hd]
      · obtain ⟨t, ht, rfl⟩ := Option.map_eq_some_iff.1 h
        have hp := List.find?_some ht
        have hm := List.mem_of_find?_eq_some ht
        refine ⟨?_, ?_⟩
        · clear hp ht h cut
          revert hm
          cases t <;> simp [text, Terminal.text, Terminal.marks]
        · obtain ⟨tail, htail⟩ := List.isPrefixOf_iff_prefix.1 hp
          simp [text, ← htail]

theorem length_pos_of_read? {cs : List Char} {l : Lexeme} (h : read? cs = some l) :
    0 < l.text.toList.length := List.length_pos_iff.2 (read?_eq_some h).1

end Lexeme

/-- A text that has no lexeme at some place: `rest` is what follows from there. -/
structure LexError where
  source : String
  rest : List Char
  deriving DecidableEq

namespace LexError

/-- The byte at which no lexeme begins. -/
def offset (e : LexError) : Nat :=
  e.source.utf8ByteSize - (String.ofList e.rest).utf8ByteSize

/-- The wording of a lexing error, which quotes the whole text and what follows
the place. -/
def message (e : LexError) : String :=
  "Failed to lex '" ++ e.source ++ "' at position " ++ toString e.offset
    ++ "; remaining '" ++ String.ofList e.rest ++ "'"

end LexError

namespace Token

/-- The tokens of a text, of which `cs` is left, starting at `p`. -/
def scanFrom (source : String) (p : Position) (cs : List Char) :
    Except LexError (List Token) :=
  match cs with
  | [] => .ok []
  | c :: rest =>
    if isGap c then scanFrom source (p.advance c) rest
    else
      match h : Lexeme.read? (c :: rest) with
      | none => .error ⟨source, c :: rest⟩
      | some l =>
        have := Lexeme.length_pos_of_read? h
        let stop := p.after l.text.toList
        match scanFrom source stop ((c :: rest).drop l.text.toList.length) with
        | .ok tokens => .ok (⟨l, ⟨p, stop, source⟩⟩ :: tokens)
        | .error e => .error e
  termination_by cs.length
  decreasing_by
    · simp
    · simp only [List.length_drop, List.length_cons]
      omega

/-- The tokens of a text. -/
def scan (source : String) : Except LexError (List Token) :=
  scanFrom source .start source.toList

end Token

end Implet
