/-
Implet/Proofs/Blanking.lean

Where things are when comments have been blanked: all that is not in a comment
is where it was, on the same line and at the same byte of it, and the span of a
token delimits the same text before and after (`blankComments_keeps`).

A character of a comment can be wider than the space it becomes, so columns do
change within a comment, up to the newline that ends it.  That newline counts as
a part of the comment here.  What comes behind it is on another line, where
columns are counted anew: from inside of a comment on, a place depends on the
line alone (`Comment.blanked_at`).
-/
import Implet.Proofs.LineEnds
import Implet.Proofs.Replacing

namespace Implet

/-! ### Characters in comments -/

namespace Comment

/-- The character at `i` is in a line comment: two slashes begin at it or before
it, with no newline between them and the character.  The newline that ends a
comment is the last of its characters. -/
def InComment (cs : List Char) (i : Nat) : Prop :=
  ∃ j ≤ i, cs[j]? = some '/' ∧ cs[j + 1]? = some '/' ∧ ∀ k, j ≤ k → k < i → cs[k]? ≠ some '\n'

instance (cs : List Char) (i : Nat) : Decidable (InComment cs i) :=
  inferInstanceAs (Decidable (∃ j, j ≤ i ∧ _))

/-- No newline comes before the character at `i`. -/
def OnFirstLine (cs : List Char) (i : Nat) : Prop := ∀ k < i, cs[k]? ≠ some '\n'

/-- The character at `i` is in a comment, if the text begins in one. -/
def InOpened (cs : List Char) (i : Nat) : Prop := InComment cs i ∨ OnFirstLine cs i

variable {c : Char} {cs : List Char} {i : Nat}

theorem onFirstLine_zero (cs : List Char) : OnFirstLine cs 0 :=
  fun _ hk => absurd hk (Nat.not_lt_zero _)

theorem onFirstLine_succ_iff :
    OnFirstLine (c :: cs) (i + 1) ↔ c ≠ '\n' ∧ OnFirstLine cs i := by
  constructor
  · intro h
    refine ⟨fun hc => h 0 (Nat.succ_pos i) (congrArg some hc), fun k hk => ?_⟩
    exact h (k + 1) (Nat.succ_lt_succ hk)
  · rintro ⟨hc, h⟩ (- | k) hk
    · exact fun heq => hc (Option.some.inj heq)
    · exact h k (Nat.lt_of_succ_lt_succ hk)

theorem inComment_zero_iff : InComment (c :: cs) 0 ↔ c = '/' ∧ cs[0]? = some '/' := by
  constructor
  · rintro ⟨j, hj, hfirst, hsecond, -⟩
    obtain rfl := Nat.le_zero.mp hj
    exact ⟨Option.some.inj hfirst, hsecond⟩
  · rintro ⟨rfl, hsecond⟩
    exact ⟨0, Nat.le_refl 0, rfl, hsecond, fun k _ hk => absurd hk (Nat.not_lt_zero k)⟩

theorem inComment_succ_iff : InComment (c :: cs) (i + 1) ↔
    InComment cs i ∨ c = '/' ∧ cs[0]? = some '/' ∧ OnFirstLine cs i := by
  constructor
  · rintro ⟨- | j, hj, hfirst, hsecond, hline⟩
    · exact .inr ⟨Option.some.inj hfirst, hsecond,
        fun k hk => hline (k + 1) (Nat.zero_le _) (Nat.succ_lt_succ hk)⟩
    · exact .inl ⟨j, Nat.le_of_succ_le_succ hj, hfirst, hsecond,
        fun k hjk hk => hline (k + 1) (Nat.succ_le_succ hjk) (Nat.succ_lt_succ hk)⟩
  · rintro (⟨j, hj, hfirst, hsecond, hline⟩ | ⟨rfl, hsecond, hline⟩)
    · refine ⟨j + 1, Nat.succ_le_succ hj, hfirst, hsecond, ?_⟩
      rintro (- | k) hjk hk
      · exact absurd hjk (Nat.not_succ_le_zero j)
      · exact hline k (Nat.le_of_succ_le_succ hjk) (Nat.lt_of_succ_lt_succ hk)
    · refine ⟨0, Nat.zero_le _, rfl, hsecond, ?_⟩
      rintro (- | k) - hk
      · exact nofun
      · exact hline k (Nat.lt_of_succ_lt_succ hk)

theorem inComment_slashes_iff : InComment ('/' :: '/' :: cs) (i + 2) ↔ InOpened cs i := by
  rw [inComment_succ_iff, inComment_succ_iff, onFirstLine_succ_iff, InOpened]
  constructor
  · rintro ((h | ⟨-, -, h⟩) | ⟨-, -, -, h⟩)
    exacts [.inl h, .inr h, .inr h]
  · rintro (h | h)
    exacts [.inl (.inl h), .inr ⟨rfl, rfl, by decide, h⟩]

theorem inComment_kept_iff (h : ¬(c = '/' ∧ cs[0]? = some '/')) :
    InComment (c :: cs) (i + 1) ↔ InComment cs i := by
  rw [inComment_succ_iff]
  exact or_iff_left fun hslashes => h ⟨hslashes.1, hslashes.2.1⟩

theorem inOpened_zero (cs : List Char) : InOpened cs 0 := .inr (onFirstLine_zero cs)

theorem inOpened_newline_iff : InOpened ('\n' :: cs) (i + 1) ↔ InComment cs i := by
  have hkept : ¬('\n' = '/' ∧ cs[0]? = some '/') := fun h => absurd h.1 (by decide)
  rw [InOpened, inComment_kept_iff hkept, onFirstLine_succ_iff]
  exact or_iff_left fun h => h.1 rfl

theorem inOpened_blank_iff (hc : c ≠ '\n') :
    InOpened (c :: cs) (i + 1) ↔ InOpened cs i := by
  rw [InOpened, InOpened, inComment_succ_iff, onFirstLine_succ_iff, and_iff_right hc, or_assoc]
  exact or_congr_right (or_iff_right_of_imp fun h => h.2.2)

/-! ### What becomes of a character -/

/-- What is left of a character of a comment. -/
def blankChar (c : Char) : Char := if c = '\n' then c else ' '

/-- Of the characters at `i` of a text and of the blanked one: one that is
covered is blanked, and another one is left alone, at the place where it was, if
the texts begin at the `same` place. -/
structure BlankedAt (covered : Prop) (same : Position → Position → Prop) (cs bs : List Char)
    (i : Nat) : Prop where
  blanked : covered → bs[i]? = cs[i]?.map blankChar
  kept : ¬covered → bs[i]? = cs[i]?
  place : ¬covered → ∀ p q, same p q → p.after (bs.take i) = q.after (cs.take i)

theorem BlankedAt.cons {covered covered' : Prop} {same same' : Position → Position → Prop}
    {b : Char}
    {bs : List Char} (h : BlankedAt covered same cs bs i) (hcovered : covered' ↔ covered)
    (hsame : ∀ p q, same' p q → same (p.advance b) (q.advance c)) :
    BlankedAt covered' same' (c :: cs) (b :: bs) (i + 1) where
  blanked hc := h.blanked (hcovered.mp hc)
  kept hc := h.kept fun hc' => hc (hcovered.mpr hc')
  place hc p q hpq := h.place (fun hc' => hc (hcovered.mpr hc')) _ _ (hsame p q hpq)

theorem blankedAt_of_covered {covered : Prop} {same : Position → Position → Prop}
    {bs : List Char}
    (h : covered) (hblank : bs[i]? = cs[i]?.map blankChar) : BlankedAt covered same cs bs i where
  blanked _ := hblank
  kept hc := absurd h hc
  place hc := absurd h hc

/-- On one line, at whatever column. -/
def SameLine (p q : Position) : Prop := p.line = q.line

theorem SameLine.advance {p q : Position} (h : SameLine p q) {b c : Char} (hb : b ≠ '\n')
    (hc : c ≠ '\n') : SameLine (p.advance b) (q.advance c) := by
  rw [SameLine, Position.advance, Position.advance, if_neg hb, if_neg hc]
  exact h

theorem SameLine.newline {p q : Position} (h : SameLine p q) :
    p.advance '\n' = q.advance '\n' := by
  rw [Position.advance, Position.advance, if_pos rfl, if_pos rfl, h]

/-- Blanking treats each character as it should, if the text begins outside of
comments. -/
def OutsideBlanked (cs : List Char) : Prop :=
  ∀ i, BlankedAt (InComment cs i) Eq cs (outside cs) i

/-- Blanking treats each character as it should, if the text begins in a
comment, of which the part before it can have been wider. -/
def InsideBlanked (cs : List Char) : Prop :=
  ∀ i, BlankedAt (InOpened cs i) SameLine cs (inside cs) i

theorem outsideBlanked_nil : OutsideBlanked [] := by
  intro i
  have hnone : ¬InComment [] i := by
    rintro ⟨j, -, hj, -⟩
    cases hj
  rw [outside]
  refine ⟨fun h => absurd h hnone, fun _ => rfl, ?_⟩
  rintro - p _ rfl
  rfl

theorem insideBlanked_nil : InsideBlanked [] := by
  intro i
  have hopened : InOpened [] i := by
    refine .inr fun k _ h => ?_
    cases h
  rw [inside]
  exact blankedAt_of_covered hopened rfl

/-- Two slashes begin a comment. -/
theorem InsideBlanked.slashes (h : InsideBlanked cs) :
    OutsideBlanked ('/' :: '/' :: cs) := by
  rw [OutsideBlanked, outside]
  rintro (- | - | i)
  · exact blankedAt_of_covered (inComment_zero_iff.mpr ⟨rfl, rfl⟩) rfl
  · have hfirst : InComment ('/' :: '/' :: cs) 1 :=
      inComment_succ_iff.mpr (.inr ⟨rfl, rfl, onFirstLine_zero _⟩)
    exact blankedAt_of_covered hfirst rfl
  · -- behind the slashes nothing but the line matters
    have hsecond : BlankedAt (InOpened cs i) SameLine ('/' :: cs) (' ' :: inside cs) (i + 1) :=
      (h i).cons Iff.rfl fun p q hpq => hpq.advance (by decide) (by decide)
    refine hsecond.cons inComment_slashes_iff ?_
    rintro p _ rfl
    exact SameLine.advance rfl (by decide) (by decide)

/-- All else is left alone outside of comments. -/
theorem OutsideBlanked.kept (h : OutsideBlanked cs)
    (hc : ¬(c = '/' ∧ cs[0]? = some '/')) :
    OutsideBlanked (c :: cs) := by
  have hslash : c = '/' → ∀ d ∈ cs.head?, d ≠ '/' := by
    rintro hslash d hd rfl
    rw [List.head?_eq_getElem?] at hd
    exact hc ⟨hslash, hd⟩
  rw [OutsideBlanked, outside_cons hslash]
  rintro (- | i)
  · have hzero : ¬InComment (c :: cs) 0 := fun h => hc (inComment_zero_iff.mp h)
    exact ⟨fun h => absurd h hzero, fun _ => rfl, fun _ p q hpq => hpq⟩
  · refine (h i).cons (inComment_kept_iff hc) ?_
    rintro p _ rfl
    rfl

/-- A newline ends a comment. -/
theorem OutsideBlanked.newline (h : OutsideBlanked cs) : InsideBlanked ('\n' :: cs) := by
  rw [InsideBlanked, inside]
  rintro (- | i)
  · exact blankedAt_of_covered (inOpened_zero _) rfl
  · exact (h i).cons inOpened_newline_iff fun p q hpq => hpq.newline

/-- Other characters are blanked inside of a comment. -/
theorem InsideBlanked.blank (h : InsideBlanked cs) (hc : c ≠ '\n') :
    InsideBlanked (c :: cs) := by
  rw [InsideBlanked, inside_cons hc]
  rintro (- | i)
  · exact blankedAt_of_covered (inOpened_zero _) (congrArg some (if_neg hc).symm)
  · exact (h i).cons (inOpened_blank_iff hc) fun p q hpq => hpq.advance (by decide) hc

theorem blanked_at (cs : List Char) : OutsideBlanked cs ∧ InsideBlanked cs := by
  match cs with
  | [] => exact ⟨outsideBlanked_nil, insideBlanked_nil⟩
  | c :: cs =>
    obtain ⟨hout, hin⟩ := blanked_at cs
    constructor
    · by_cases hc : c = '/' ∧ cs[0]? = some '/'
      · obtain ⟨rfl, hcs⟩ := hc
        rw [← List.head?_eq_getElem?] at hcs
        obtain ⟨ds, rfl⟩ := List.head?_eq_some_iff.mp hcs
        -- inside of the comment the text goes on two characters further
        exact (blanked_at ds).2.slashes
      · exact hout.kept hc
    · by_cases hc : c = '\n'
      · rw [hc]
        exact hout.newline
      · exact hin.blank hc

/-! ### Slashes and newlines -/

/-- What is neither a space nor a newline has not been blanked. -/
theorem getElem?_of_outside {d : Char} (h : (outside cs)[i]? = some d) (hspace : d ≠ ' ')
    (hline : d ≠ '\n') : ¬InComment cs i ∧ cs[i]? = some d := by
  have hat := (blanked_at cs).1 i
  have hnot : ¬InComment cs i := by
    intro hin
    rw [hat.blanked hin, Option.map_eq_some_iff] at h
    obtain ⟨c, -, hblank⟩ := h
    by_cases hc : c = '\n'
    · exact hline (hblank.symm.trans ((if_pos hc).trans hc))
    · exact hspace (hblank.symm.trans (if_neg hc))
  exact ⟨hnot, (hat.kept hnot).symm.trans h⟩

theorem outside_newline_iff : (outside cs)[i]? = some '\n' ↔ cs[i]? = some '\n' := by
  have hblank (c : Char) : blankChar c = '\n' ↔ c = '\n' := by
    by_cases hc : c = '\n'
    · rw [blankChar, if_pos hc]
    · rw [blankChar, if_neg hc]
      exact iff_of_false (by decide) hc
  have hat := (blanked_at cs).1 i
  by_cases hin : InComment cs i
  · rw [hat.blanked hin]
    cases cs[i]? with
    | none => rfl
    | some c => exact Option.some_inj.trans ((hblank c).trans Option.some_inj.symm)
  · rw [hat.kept hin]

theorem not_slashes_infix (cs : List Char) : ¬['/', '/'] <:+: outside cs := by
  rintro ⟨us, vs, h⟩
  have hfirst : (outside cs)[us.length]? = some '/' := by
    rw [← h]
    simp
  have hsecond : (outside cs)[us.length + 1]? = some '/' := by
    rw [← h]
    simp
  obtain ⟨hnot, hfirst⟩ := getElem?_of_outside hfirst (by decide) (by decide)
  obtain ⟨-, hsecond⟩ := getElem?_of_outside hsecond (by decide) (by decide)
  exact hnot ⟨us.length, Nat.le_refl _, hfirst, hsecond,
    fun k hle hlt => absurd hle (Nat.not_le_of_lt hlt)⟩

/-- A text without two slashes in a row has no comments. -/
theorem outside_of_not_infix (h : ¬['/', '/'] <:+: cs) : outside cs = cs := by
  induction cs with
  | nil => rw [outside]
  | cons c cs ih =>
    have hslash : c = '/' → ∀ d ∈ cs.head?, d ≠ '/' := by
      rintro rfl d hd rfl
      obtain ⟨ds, rfl⟩ := List.head?_eq_some_iff.mp hd
      exact h ⟨[], ds, rfl⟩
    rw [outside_cons hslash, ih fun h' => h (h'.trans (List.suffix_cons c cs).isInfix)]

theorem forall₂_newline (cs : List Char) :
    List.Forall₂ (fun c d => c = '\n' ↔ d = '\n') cs (outside cs) := by
  refine List.forall₂_iff_get.mpr ⟨(forall₂_blank cs).1.length_eq, fun k h h' => ?_⟩
  have hat : (outside cs)[k]? = some '\n' ↔ cs[k]? = some '\n' := outside_newline_iff
  rw [List.getElem?_eq_getElem h, List.getElem?_eq_getElem h', Option.some_inj,
    Option.some_inj] at hat
  exact hat.symm

/-- A word in the blanked text is in the text, and at the same place. -/
theorem append_of_outside {us word vs : List Char} (hne : word ≠ [])
    (hword : ∀ c ∈ word, isGap c = false) (h : outside cs = us ++ (word ++ vs)) :
    ∃ us' vs', cs = us' ++ (word ++ vs') ∧ ∀ p : Position, p.after us' = p.after us := by
  have hchar (k : Nat) (hk : k < word.length) :
      ¬InComment cs (us.length + k) ∧ cs[us.length + k]? = some word[k] := by
    have hgap := hword _ (List.getElem_mem hk)
    refine getElem?_of_outside ?_ ?_ ?_
    · rw [h, List.getElem?_append_right (Nat.le_add_right _ _), Nat.add_sub_cancel_left,
        List.getElem?_append_left hk, List.getElem?_eq_getElem hk]
    · intro heq
      rw [heq] at hgap
      cases hgap
    · intro heq
      rw [heq] at hgap
      cases hgap
  -- none of the characters was blanked, so they were there one after the other
  have hprefix : word <+: cs.drop us.length := by
    refine List.prefix_iff_getElem?.mpr fun k hk => ?_
    rw [List.getElem?_drop]
    exact (hchar k hk).2
  obtain ⟨vs', hvs'⟩ := hprefix
  refine ⟨cs.take us.length, vs', by rw [hvs', List.take_append_drop], fun p => ?_⟩
  have hfirst := (hchar 0 (List.length_pos_iff.mpr hne)).1
  have hplace := ((blanked_at cs).1 us.length).place hfirst p p rfl
  rw [h, List.take_left] at hplace
  exact hplace.symm

end Comment

/-! ### Lines -/

/-- Texts with newlines at the same places have the same number of lines. -/
theorem length_linesFrom {cs ds : List Char}
    (h : List.Forall₂ (fun c d => c = '\n' ↔ d = '\n') cs ds) {line line' : List Char}
    (hline : line.isEmpty = line'.isEmpty) :
    (linesFrom line cs).length = (linesFrom line' ds).length := by
  induction h generalizing line line' with
  | nil =>
    rw [linesFrom, linesFrom, hline]
    split <;> rfl
  | @cons c d cs ds hcd _ ih =>
    by_cases hc : c = '\n'
    · obtain ⟨text, htext⟩ := linesFrom_newline line cs
      obtain ⟨text', htext'⟩ := linesFrom_newline line' ds
      rw [hc, hcd.mp hc, htext, htext', List.length_cons, List.length_cons, ih rfl]
    · rw [linesFrom_cons hc, linesFrom_cons fun hd => hc (hcd.mpr hd)]
      exact ih rfl

/-! ### What a span delimits -/

/-- In the text, the span begins where `word` begins and stops where it stops. -/
def Span.Delimits (s : Span) (text word : String) : Prop :=
  ∃ before after, Entry.CutsAt text word s.start before after ∧ s.stop = s.start.after word.toList

theorem Span.delimits_iff {s : Span} {text word : String} : s.Delimits text word ↔
    ∃ us vs, text.toList = us ++ (word.toList ++ vs) ∧ s.start = Position.start.after us ∧
      s.stop = s.start.after word.toList := by
  constructor
  · rintro ⟨before, after, ⟨rfl, hplace⟩, hstop⟩
    exact ⟨before.toList, after.toList, by simp, hplace, hstop⟩
  · rintro ⟨us, vs, htext, hstart, hstop⟩
    refine ⟨.ofList us, .ofList vs, ⟨?_, by rw [hstart, String.toList_ofList]⟩, hstop⟩
    rw [← String.toList_inj, htext]
    simp

/-- A span delimits no more than one word of a text. -/
theorem Span.Delimits.unique {s : Span} {text word word' : String}
    (h : s.Delimits text word) (h' : s.Delimits text word') : word = word' := by
  obtain ⟨us, vs, htext, hstart, hstop⟩ := Span.delimits_iff.mp h
  obtain ⟨us', vs', htext', hstart', hstop'⟩ := Span.delimits_iff.mp h'
  have hus : us = us' :=
    Position.eq_of_after_eq ⟨_, htext.symm⟩ ⟨_, htext'.symm⟩ (hstart.symm.trans hstart')
  subst hus
  have hcut := List.append_cancel_left (htext.symm.trans htext')
  exact String.toList_injective (Position.eq_of_after_eq ⟨vs, rfl⟩ ⟨vs', hcut.symm⟩
    (hstop.symm.trans hstop'))

/-- The span of a token delimits it in the text, and in the text without its
comments. -/
theorem Entry.delimits_of_tokens {text : String} {ts : List Token}
    (h : tokens text = .ok ts) :
    ∀ t ∈ ts, t.span.Delimits (blankComments text) t.lexeme.text ∧
      t.span.Delimits text t.lexeme.text := by
  intro t ht
  obtain ⟨us, vs, hcut, hread, hspan⟩ := Token.read_of_scan (tokens_eq_ok_iff.mp h) t ht
  refine ⟨Span.delimits_iff.mpr ⟨us, vs, hcut, by rw [hspan], by rw [hspan]⟩, ?_⟩
  rw [toList_blankComments] at hcut
  obtain ⟨us', vs', hcut', hplace⟩ := Comment.append_of_outside (Lexeme.read?_eq_some hread).1
    (Lexeme.isGap_of_mem hread) hcut
  exact Span.delimits_iff.mpr ⟨us', vs', hcut', by rw [hspan, hplace], by rw [hspan]⟩

/-! ### Texts -/

/-- Blanking keeps the number of characters and of lines.  What is not in a
comment is kept, at the same line and the same byte of it; what is in a comment
becomes a space, but for the newline that ends it.  No comment is left, and
blanking once more changes nothing.  The span of a token delimits the token, and
nothing else, in the text and in the blanked one. -/
theorem blankComments_keeps (text : String) :
    (blankComments text).length = text.length ∧
    (lines (blankComments text)).length = (lines text).length ∧
    (∀ i, ¬Comment.InComment text.toList i →
      (blankComments text).toList[i]? = text.toList[i]? ∧
      Position.start.after ((blankComments text).toList.take i) =
        Position.start.after (text.toList.take i)) ∧
    (∀ i, Comment.InComment text.toList i →
      (blankComments text).toList[i]? = text.toList[i]?.map fun c => if c = '\n' then c else ' ') ∧
    ¬['/', '/'] <:+: (blankComments text).toList ∧
    blankComments (blankComments text) = blankComments text ∧
    ∀ ts, Entry.tokens text = .ok ts → ∀ t ∈ ts, ∀ word,
      (t.span.Delimits (blankComments text) word ↔ word = t.lexeme.text) ∧
        (t.span.Delimits text word ↔ word = t.lexeme.text) := by
  have hat := (Comment.blanked_at text.toList).1
  rw [toList_blankComments]
  refine ⟨?_, ?_, fun i hi => ⟨(hat i).kept hi, (hat i).place hi _ _ rfl⟩, fun i => (hat i).blanked,
    Comment.not_slashes_infix _, ?_, ?_⟩
  · rw [← String.length_toList, ← String.length_toList, toList_blankComments]
    exact (Comment.forall₂_blank text.toList).1.length_eq.symm
  · rw [lines, lines, toList_blankComments]
    exact (length_linesFrom (Comment.forall₂_newline text.toList) rfl).symm
  · rw [← String.toList_inj, toList_blankComments, toList_blankComments]
    exact Comment.outside_of_not_infix (Comment.not_slashes_infix _)
  · intro ts hts t ht word
    obtain ⟨hblanked, htext⟩ := Entry.delimits_of_tokens hts t ht
    constructor
    · exact ⟨fun h => h.unique hblanked, fun h => h ▸ hblanked⟩
    · exact ⟨fun h => h.unique htext, fun h => h ▸ htext⟩

/-- A comment that is wider than what is left of it, and a slash on the line
after it. -/
def wideComment : String := "x // é/\n/ y"

theorem blankComments_keeps_wideComment :
    ∃ t ts, Entry.tokens wideComment = .ok ts ∧ t ∈ ts ∧
    t.span.start = ⟨1, 0⟩ ∧ (∀ word, t.span.Delimits wideComment word ↔ word = "/") ∧
    (blankComments wideComment).toList[5]? = some ' ' ∧
    Position.start.after ((blankComments wideComment).toList.take 8) =
      Position.start.after (wideComment.toList.take 8) := by
  let slash : Token := ⟨.fixed .slash, ⟨1, 0⟩, ⟨1, 1⟩, blankComments wideComment⟩
  obtain ⟨-, -, houtside, hinside, -, -, hspans⟩ := blankComments_keeps wideComment
  have hlex : decide (slash ∈ (Entry.tokens wideComment).toOption.getD []) = true := by
    decide +kernel
  cases ht : Entry.tokens wideComment with
  | error e =>
    rw [ht] at hlex
    cases hlex
  | ok ts =>
    rw [ht] at hlex
    have hmem : slash ∈ ts := of_decide_eq_true hlex
    exact ⟨slash, ts, rfl, hmem, rfl, fun word => (hspans ts ht slash hmem word).2,
      hinside 5 (by decide), (houtside 8 (by decide)).2⟩

end Implet
