/-
Implet/Proofs/Layout.lean

Layout does not matter.  Words can be written with any white space between them
and with comments in it, as long as a comment does not begin right behind a word
(`Written`).  However that is done, the same words are read, and what is read of
them is the same but for the spans (`Entry.parse_written`).

Blanking the comments leaves white space where there was white space or a
comment, so the scanner finds each word apart from the next one; and what is
made of the words does not depend on where they stand
(`Entry.ofTokens_of_like`).
-/
import Implet.Proofs.ReadLikeness
import Implet.Proofs.Scanning

namespace Implet

/-! ### Words and what is between them -/

/-- A lexeme that can be read: names are no keywords, and integers have digits
and nothing else. -/
def Lexeme.Valid : Lexeme → Prop
  | fixed _ => True
  | ident name => IsName name
  | integer digits => digits.toList ≠ [] ∧ ∀ c ∈ digits.toList, isDigit c = true

/-- White space, and line comments that are ended by a newline each. -/
inductive Filler : List Char → Prop
  | nil : Filler []
  | blank {c : Char} {cs : List Char} : isGap c = true → Filler cs → Filler (c :: cs)
  | comment {body cs : List Char} : (∀ c ∈ body, c ≠ '\n') → Filler cs →
    Filler ('/' :: '/' :: (body ++ '\n' :: cs))

/-- What may stand between two words, which begins with white space. -/
inductive Gap : List Char → Prop
  | blank {c : Char} {cs : List Char} : isGap c = true → Filler cs → Gap (c :: cs)

/-- The characters are words, with gaps between them and at both ends. -/
inductive Written : List Lexeme → List Char → Prop
  | nil {gap : List Char} : Gap gap → Written [] gap
  | cons {gap cs : List Char} {l : Lexeme} {ls : List Lexeme} : Gap gap → l.Valid → Written ls cs →
    Written (l :: ls) (gap ++ (l.text.toList ++ cs))

/-! ### Gaps without their comments -/

/-- From inside a comment, all up to the end of the line is blanked. -/
theorem Comment.inside_append {body : List Char} (h : ∀ c ∈ body, c ≠ '\n')
    (rest : List Char) :
    inside (body ++ '\n' :: rest) =
      List.replicate body.length ' ' ++ '\n' :: outside rest := by
  induction body with
  | nil => rw [List.nil_append, inside, List.length_nil, List.replicate_zero, List.nil_append]
  | cons c body ih =>
    obtain ⟨hc, hbody⟩ := List.forall_mem_cons.mp h
    rw [List.cons_append, inside, ih hbody, List.length_cons, List.replicate_succ, List.cons_append]
    exact hc

/-- Blanking leaves white space in the place of white space and comments. -/
theorem Filler.outside {cs : List Char} (h : Filler cs) :
    ∃ blanks : List Char, (∀ c ∈ blanks, isGap c = true) ∧
      ∀ rest, Comment.outside (cs ++ rest) = blanks ++ Comment.outside rest := by
  induction h with
  | nil => exact ⟨[], nofun, fun _ => rfl⟩
  | @blank c cs hc _ ih =>
    obtain ⟨blanks, hblanks, hcs⟩ := ih
    refine ⟨c :: blanks, List.forall_mem_cons.mpr ⟨hc, hblanks⟩, fun rest => ?_⟩
    have hslash : ∀ d ∈ [c], d ≠ '/' := by
      intro d hd
      rw [List.mem_singleton.mp hd]
      exact ne_slash_of_isGap hc
    rw [List.cons_append, List.cons_append, ← hcs]
    exact Comment.outside_append hslash _
  | @comment body cs hbody _ ih =>
    obtain ⟨blanks, hblanks, hcs⟩ := ih
    refine ⟨' ' :: ' ' :: (List.replicate body.length ' ' ++ '\n' :: blanks), ?_, fun rest => ?_⟩
    · simp only [List.mem_cons, List.mem_append, List.mem_replicate]
      rintro c (rfl | rfl | ⟨-, rfl⟩ | rfl | hc)
      exacts [rfl, rfl, rfl, rfl, hblanks c hc]
    · simp only [List.cons_append, List.append_assoc]
      rw [Comment.outside, Comment.inside_append hbody, hcs]

theorem Gap.outside {cs : List Char} (h : Gap cs) :
    ∃ (b : Char) (blanks : List Char), isGap b = true ∧ (∀ c ∈ blanks, isGap c = true) ∧
      ∀ rest, Comment.outside (cs ++ rest) = b :: (blanks ++ Comment.outside rest) := by
  obtain @⟨c, cs, hc, hcs⟩ := h
  obtain ⟨blanks, hblanks, hrest⟩ := hcs.outside
  refine ⟨c, blanks, hc, hblanks, fun rest => ?_⟩
  rw [List.cons_append, Comment.outside, hrest]
  rintro _ rfl
  exact absurd rfl (ne_slash_of_isGap hc)

/-- White space is skipped. -/
theorem Token.scanFrom_gaps {source : String} {blanks : List Char}
    (h : ∀ c ∈ blanks, isGap c = true) (p : Position) (rest : List Char) :
    scanFrom source p (blanks ++ rest) = scanFrom source (p.after blanks) rest := by
  induction blanks generalizing p with
  | nil => rfl
  | cons c blanks ih =>
    obtain ⟨hc, hblanks⟩ := List.forall_mem_cons.mp h
    rw [List.cons_append, scanFrom_gap hc, ih hblanks, Position.after_cons]

/-! ### Words in a written text -/

namespace Lexeme

/-- A lexeme that can be read is read, where nothing that follows goes on with it. -/
theorem Valid.read? {l : Lexeme} (h : l.Valid) {rest : List Char} (hrest : Apart rest) :
    read? (l.text.toList ++ rest) = some l := by
  cases l with
  | fixed t => exact read?_terminal t hrest
  | ident name => exact read?_name h hrest
  | integer digits => exact read?_integer h.1 h.2 hrest

/-- No word is taken for a comment, where no slash follows it. -/
theorem Valid.outside {l : Lexeme} (h : l.Valid) {rest : List Char}
    (hrest : ∀ c ∈ rest.head?, c ≠ '/') :
    Comment.outside (l.text.toList ++ rest) = l.text.toList ++ Comment.outside rest := by
  cases l with
  | fixed t => exact Comment.outside_terminal t hrest
  | ident name =>
    refine Comment.outside_append ?_ rest
    rintro c hc rfl
    exact absurd (List.all_eq_true.mp h.1.2 _ hc) (by decide)
  | integer digits =>
    refine Comment.outside_append ?_ rest
    rintro c hc rfl
    exact absurd (h.2 _ hc) (by decide)

end Lexeme

namespace Written

variable {ls : List Lexeme} {cs : List Char}

/-- A written text begins with white space. -/
theorem isGap_head (h : Written ls cs) : ∀ c ∈ cs.head?, isGap c = true := by
  rcases h with ⟨⟨hb, -⟩⟩ | ⟨⟨hb, -⟩, -, -⟩
  all_goals
    rintro c ⟨⟩
    exact hb

/-- With its comments blanked a written text begins with white space too. -/
theorem apart (h : Written ls cs) : Apart (Comment.outside cs) := by
  have hgap {gap : List Char} (h : Gap gap) (rest : List Char) :
      Apart (Comment.outside (gap ++ rest)) := by
    obtain ⟨b, blanks, hb, -, hout⟩ := h.outside
    rw [hout]
    exact apart_cons (isWordChar_of_isGap hb) (ne_slash_of_isGap hb) _
  cases h with
  | nil hg =>
    have := hgap hg []
    rwa [List.append_nil] at this
  | cons hg _ _ => exact hgap hg _

/-- The words of a written text are scanned. -/
theorem scan (h : Written ls cs) (source : String) (p : Position) :
    ∃ ts, Token.scanFrom source p (Comment.outside cs) = .ok ts ∧ ts.map Token.lexeme = ls := by
  induction h generalizing p with
  | nil hg =>
    obtain ⟨b, blanks, hb, hblanks, hout⟩ := hg.outside
    refine ⟨[], ?_, rfl⟩
    have hout := hout []
    rw [List.append_nil, Comment.outside, ← List.cons_append] at hout
    rw [hout, Token.scanFrom_gaps (List.forall_mem_cons.mpr ⟨hb, hblanks⟩), Token.scanFrom]
  | @cons gap cs l ls hg hl hcs ih =>
    obtain ⟨b, blanks, hb, hblanks, hout⟩ := hg.outside
    obtain ⟨ts, hts, hls⟩ := ih ((p.after (b :: blanks)).after l.text.toList)
    have hscan := Token.scanFrom_append (hl.read? hcs.apart) hts
    rw [← hl.outside fun c hc => ne_slash_of_isGap (hcs.isGap_head c hc),
      ← Token.scanFrom_gaps (List.forall_mem_cons.mpr ⟨hb, hblanks⟩), List.cons_append,
      ← hout] at hscan
    exact ⟨_, hscan, by rw [List.map_cons, hls]⟩

/-- The words of a written text are its tokens. -/
theorem tokens {text : String} (h : Written ls text.toList) :
    ∃ ts, Entry.tokens text = .ok ts ∧ ts.map Token.lexeme = ls := by
  obtain ⟨ts, hts, hls⟩ := h.scan (blankComments text) .start
  refine ⟨ts, Entry.tokens_eq_ok_iff.mpr ?_, hls⟩
  rw [Token.scan, toList_blankComments]
  exact hts

end Written

/-! ### Entries -/

/-- Tokens with the same lexemes are alike, wherever they stand. -/
theorem tokens_like_of_lexemes {ts us : List Token}
    (h : ts.map Token.lexeme = us.map Token.lexeme) :
    List.Forall₂ (Token.Like fun _ _ => True) ts us := by
  induction ts generalizing us with
  | nil =>
    rw [List.map_nil, eq_comm, List.map_eq_nil_iff] at h
    subst h
    exact .nil
  | cons t ts ih =>
    cases us with
    | nil => cases h
    | cons u us =>
      obtain ⟨ht, hts⟩ := List.cons.inj h
      exact .cons ⟨ht.symm, trivial⟩ (ih hts)

namespace Entry

/-- The tokens of a written text are its words, and two ways of writing the same
words give the same entry but for its spans, or an error with the same
message. -/
theorem parse_written {ls : List Lexeme} {text other : String}
    (h : Written ls text.toList)
    (h' : Written ls other.toList) : (tokens text).map (List.map Token.lexeme) = .ok ls ∧
      ((parse text).map bare).mapError ParseError.message =
        ((parse other).map bare).mapError ParseError.message := by
  obtain ⟨ts, hts, hls⟩ := h.tokens
  obtain ⟨us, hus, hls'⟩ := h'.tokens
  have hparse : parse text = ofTokens ts ∧ parse other = ofTokens us := by
    rw [parse, parse, hts, hus]
    exact ⟨rfl, rfl⟩
  refine ⟨?_, ?_⟩
  · rw [hts, ← hls]
    rfl
  · rw [hparse.1, hparse.2]
    rcases ofTokens_of_like (fun _ _ _ _ _ _ => trivial)
      (tokens_like_of_lexemes (hls.trans hls'.symm)) with
      ⟨e, e', he, he', hlike⟩ | ⟨err, err', herr, herr', hlike⟩
    · rw [he, he']
      exact congrArg Except.ok hlike.bare.symm
    · rw [herr, herr']
      exact congrArg Except.error hlike.message.symm

/-- The words of a statement on lines of their own, with a comment. -/
def spacious : String := "\nreturn\n//\"\x7b ü /*\n\n/\t007\r\n ;\t"

/-- The same words on one line. -/
def compact : String := " return / 007 ; "

theorem parse_written_spacious :
    ∃ ls, Written ls spacious.toList ∧ Written ls compact.toList ∧
    (tokens spacious).map (List.map Token.lexeme) = .ok ls ∧
      ((parse spacious).map bare).mapError ParseError.message =
        ((parse compact).map bare).mapError ParseError.message := by
  have hdigits : (Lexeme.integer "007").Valid :=
    ⟨by decide, List.all_eq_true.mp (by decide)⟩
  have hblank (c : Char) (hc : isGap c = true) : Gap [c] := .blank hc .nil
  have hbody : ∀ c ∈ "\"\x7b ü /*".toList, c ≠ '\n' := by
    rintro c hc rfl
    exact absurd hc (by decide)
  have hcomment : Gap ("\n//\"\x7b ü /*\n\n".toList) :=
    .blank (by decide) (.comment hbody (.blank (by decide) .nil))
  have hspacious : Written [.fixed .kwReturn, .fixed .slash, .integer "007", .fixed .semicolon]
      spacious.toList :=
    .cons (hblank '\n' (by decide)) trivial (.cons hcomment trivial
      (.cons (hblank '\t' (by decide)) hdigits (.cons (.blank (by decide) (.blank (by decide)
        (.blank (by decide) .nil))) trivial (.nil (hblank '\t' (by decide))))))
  have hcompact : Written [.fixed .kwReturn, .fixed .slash, .integer "007", .fixed .semicolon]
      compact.toList :=
    .cons (hblank ' ' (by decide)) trivial (.cons (hblank ' ' (by decide)) trivial
      (.cons (hblank ' ' (by decide)) hdigits (.cons (hblank ' ' (by decide)) trivial
        (.nil (hblank ' ' (by decide))))))
  exact ⟨_, hspacious, hcompact, parse_written hspacious hcompact⟩

end Entry

end Implet
