/-
Implet/Proofs/LineEnds.lean

How lines end does not matter.  When the lines of a text are put together again,
each with a newline behind it, carriage returns before newlines are gone and the
last line is ended (`gathered`).  The two texts have the same words at the same
places (`Mended.tokens`), so what is read of them is alike, and so is all that a
session answers but for what is quoted (`Session.answer_of_mended`).

What is quoted can be another.  In a comment a carriage return is blanked and
stays behind as a space at the end of the line, and the error of a text without
tokens quotes the whole of it.  These cases are told apart by `PlainEnds`.
-/
import Mathlib.Data.List.Find
import Implet.Console.Basic
import Implet.Proofs.ReadLikeness
import Implet.Proofs.RunLikeness
import Implet.Proofs.Scanning

namespace Implet

/-! ### Lines -/

/-- A newline ends a line. -/
theorem linesFrom_newline (line cs : List Char) :
    ∃ text, linesFrom line ('\n' :: cs) = text :: linesFrom [] cs := by
  rw [linesFrom.eq_def]
  exact ⟨_, rfl⟩

theorem linesFrom_cons {c : Char} (hc : c ≠ '\n') (line cs : List Char) :
    linesFrom line (c :: cs) = linesFrom (c :: line) cs := by
  rw [linesFrom]
  exact hc

theorem linesFrom_eq_nil_iff {line cs : List Char} :
    linesFrom line cs = [] ↔ line = [] ∧ cs = [] := by
  induction cs generalizing line with
  | nil => cases line <;> simp [linesFrom]
  | cons c cs ih =>
    by_cases hc : c = '\n'
    · obtain ⟨text, htext⟩ := linesFrom_newline line cs
      simp [hc, htext]
    · simp [linesFrom_cons hc, ih]

theorem lines_eq_nil_iff {text : String} : lines text = [] ↔ text = "" := by
  rw [lines, linesFrom_eq_nil_iff, String.toList_eq_nil_iff, and_iff_right rfl]

/-! ### Texts with mended line ends -/

/-- Lines with a newline behind each of them. -/
def gathered (ls : List String) : String := String.join (ls.map (· ++ "\n"))

/-- The second text is the first one with its line ends mended: white space
before a newline may be left out, and a newline may be added at the end. -/
inductive Mended : List Char → List Char → Prop
  | nil : Mended [] []
  | newline : Mended [] ['\n']
  | blank {c : Char} {cs cs' : List Char} : isGap c = true → c ≠ '\n' → Mended cs cs' →
    Mended (c :: '\n' :: cs) ('\n' :: cs')
  | cons (c : Char) {cs cs' : List Char} : Mended cs cs' → Mended (c :: cs) (c :: cs')

theorem gathered_cons (l : String) (ls : List String) :
    gathered (l :: ls) = l ++ "\n" ++ gathered ls := by
  simp [gathered]

theorem toList_gathered_cons (l : String) (ls : List String) :
    (gathered (l :: ls)).toList = l.toList ++ '\n' :: (gathered ls).toList := by
  simp [gathered_cons]

namespace Mended

variable {cs cs' : List Char}

theorem append (w : List Char) (h : Mended cs cs') : Mended (w ++ cs) (w ++ cs') := by
  induction w with
  | nil => exact h
  | cons c w ih => exact .cons c ih

/-- The lines of a text are the text with its line ends mended. -/
theorem gathered_linesFrom (line cs : List Char) :
    Mended (line.reverse ++ cs) (gathered (linesFrom line cs)).toList := by
  induction cs generalizing line with
  | nil =>
    cases line with
    | nil => exact .nil
    | cons c line =>
      rw [linesFrom, List.isEmpty_cons, if_neg Bool.false_ne_true, toList_gathered_cons,
        String.toList_ofList]
      exact append _ .newline
  | cons c cs ih =>
    by_cases hc : c = '\n'
    · subst hc
      have hcs := ih []
      by_cases hr : ∃ rest, line = '\r' :: rest
      · obtain ⟨rest, rfl⟩ := hr
        rw [linesFrom, toList_gathered_cons, String.toList_ofList, List.reverse_cons,
          List.append_assoc]
        exact append _ (.blank (by decide) (by decide) hcs)
      · rw [linesFrom, toList_gathered_cons, String.toList_ofList]
        · exact append _ (.cons _ hcs)
        · exact fun rest hrest => hr ⟨rest, hrest⟩
    · have hcs := ih (c :: line)
      rw [List.reverse_cons, List.append_assoc] at hcs
      rw [linesFrom]
      · exact hcs
      · exact hc

theorem gathered_lines (text : String) :
    Mended text.toList (gathered (lines text)).toList :=
  gathered_linesFrom [] text.toList

/-! ### Words of a mended text -/

theorem isPrefixOf_gap {c d : Char} (hc : isGap c = true) (hd : isGap d = false)
    (w cs : List Char) : (d :: w).isPrefixOf (c :: cs) = false := by
  have hne : d ≠ c := by
    rintro rfl
    rw [hc] at hd
    cases hd
  rw [List.isPrefixOf, beq_eq_false_iff_ne.mpr hne, Bool.false_and]

/-- Words are the same at the front of both texts. -/
theorem isPrefixOf (h : Mended cs cs') {w : List Char} (hw : ∀ c ∈ w, isGap c = false) :
    w.isPrefixOf cs' = w.isPrefixOf cs := by
  induction h generalizing w with
  | nil => rfl
  | newline | blank hc | cons c h ih => ?_
  all_goals
    cases w with
    | nil => rfl
    | cons d w => ?_
    obtain ⟨hd, hw⟩ := List.forall_mem_cons.mp hw
  · rw [isPrefixOf_gap (by decide) hd]
    rfl
  · rw [isPrefixOf_gap (by decide) hd, isPrefixOf_gap hc hd]
  · rw [List.isPrefixOf, List.isPrefixOf, ih hw]

/-- The same characters are taken from both texts, if no white space is. -/
theorem takeWhile (h : Mended cs cs') {p : Char → Bool}
    (hp : ∀ c, isGap c = true → p c = false) :
    cs'.takeWhile p = cs.takeWhile p := by
  have hnewline := hp '\n' (by decide)
  induction h with
  | nil => rfl
  | newline => rw [List.takeWhile_cons_of_neg (by simp [hnewline]), List.takeWhile_nil]
  | blank hc _ _ _ =>
    rw [List.takeWhile_cons_of_neg (by simp [hnewline]),
      List.takeWhile_cons_of_neg (by simp [hp _ hc])]
  | cons c _ ih => rw [List.takeWhile_cons, List.takeWhile_cons, ih]

/-- The same lexeme is at the front of both texts. -/
theorem read? (h : Mended cs cs') : Lexeme.read? cs' = Lexeme.read? cs := by
  have hgap {c : Char} (hc : isGap c = true) (cs : List Char) : Lexeme.read? (c :: cs) = none := by
    cases hl : Lexeme.read? (c :: cs) with
    | none => rfl
    | some l =>
      rw [Lexeme.isGap_of_read? hl] at hc
      cases hc
  cases h with
  | nil => rfl
  | newline => exact hgap (by decide) []
  | blank hc _ _ => rw [hgap hc, hgap (by decide)]
  | @cons c cs cs' h =>
    have hcons := Mended.cons c h
    have hdigit : ∀ d, isGap d = true → isDigit d = false :=
      fun d hd => (Bool.or_eq_false_iff.mp (isWordChar_of_isGap hd)).2
    have hmark : Terminal.readMark? (c :: cs') = Terminal.readMark? (c :: cs) :=
      List.find?_congr fun t _ => hcons.isPrefixOf fun _ => t.isGap_of_mem_text
    rw [Lexeme.read?, Lexeme.read?, hcons.takeWhile fun _ => isWordChar_of_isGap,
      hcons.takeWhile hdigit, hmark]

/-- A word is followed by the rest of the text with its line ends mended. -/
theorem rest_of_append {w : List Char} (hw : ∀ c ∈ w, isGap c = false)
    (h : Mended (w ++ cs) cs') :
    ∃ rest, cs' = w ++ rest ∧ Mended cs rest := by
  induction w generalizing cs' with
  | nil => exact ⟨cs', rfl, h⟩
  | cons d w ih =>
    obtain ⟨hd, hw⟩ := List.forall_mem_cons.mp hw
    generalize hds : d :: w ++ cs = ds at h
    cases h with
    | nil | newline => cases hds
    | blank hc _ _ =>
      obtain ⟨rfl, -⟩ := List.cons.inj hds
      rw [hc] at hd
      cases hd
    | cons c h =>
      obtain ⟨rfl, rfl⟩ := List.cons.inj hds
      obtain ⟨rest, rfl, hrest⟩ := ih hw h
      exact ⟨rest, rfl, hrest⟩

/-! ### Comments of a mended text -/

/-- Where a comment begins all that follows it is read from inside. -/
theorem outside_cons (c : Char) (cs : List Char) : Comment.outside (c :: cs) =
    if c = '/' ∧ ['/'].isPrefixOf cs = true then ' ' :: Comment.inside cs
    else c :: Comment.outside cs := by
  by_cases h : c = '/' ∧ ['/'].isPrefixOf cs = true
  · obtain ⟨rfl, hcs⟩ := h
    obtain ⟨ds, rfl⟩ := List.isPrefixOf_iff_prefix.mp hcs
    rfl
  · rw [if_neg h, Comment.outside]
    rintro ds rfl rfl
    exact h ⟨rfl, rfl⟩

/-- Line ends are mended in the text without its comments too, if it begins
outside a comment and if it begins inside one. -/
theorem comments (h : Mended cs cs') : Mended (Comment.outside cs) (Comment.outside cs') ∧
    Mended (Comment.inside cs) (Comment.inside cs') := by
  induction h with
  | nil => exact ⟨.nil, .nil⟩
  | newline => exact ⟨.newline, .newline⟩
  | @blank c cs cs' hc hne _ ih =>
    have hslash : ¬ (c = '/' ∧ ['/'].isPrefixOf ('\n' :: cs) = true) := fun h => nomatch h.2
    refine ⟨?_, ?_⟩
    · rw [outside_cons, if_neg hslash]
      exact .blank hc hne ih.1
    · have hinside : Comment.inside (c :: '\n' :: cs) = ' ' :: '\n' :: Comment.outside cs := by
        rw [Comment.inside]
        · rfl
        · exact hne
      rw [hinside]
      exact .blank (by decide) (by decide) ih.1
  | @cons c cs cs' h ih =>
    refine ⟨?_, ?_⟩
    · have hslash : isGap '/' = false := rfl
      rw [outside_cons, outside_cons, h.isPrefixOf (List.forall_mem_singleton.mpr hslash)]
      split
      · exact .cons _ ih.2
      · exact .cons _ ih.1
    · by_cases hc : c = '\n'
      · subst hc
        exact .cons _ ih.1
      · rw [Comment.inside, Comment.inside]
        · exact .cons _ ih.2
        · exact hc
        · exact hc

end Mended

/-! ### Tokens of a mended text -/

/-- The same place in two texts, or in one. -/
structure Span.Moved (source source' : String) (s s' : Span) : Prop where
  start : s'.start = s.start
  stop : s'.stop = s.stop
  sources : s.source = source ∧ s'.source = source' ∨ s'.source = s.source

theorem Position.advance_newline (p : Position) {c : Char} (hc : c ≠ '\n') :
    (p.advance c).advance '\n' = p.advance '\n' := by
  rw [advance, advance, advance, if_pos rfl, if_pos rfl, if_neg hc]

/-- Both texts are scanned, with the same lexemes at the same places, or neither is. -/
theorem Mended.scanFrom {source source' : String} {cs cs' : List Char} (h : Mended cs cs')
    (p : Position) :
    (∃ ts ts', Token.scanFrom source p cs = .ok ts ∧ Token.scanFrom source' p cs' = .ok ts' ∧
        List.Forall₂ (Token.Like (Span.Moved source source')) ts ts') ∨
      ∃ e e', Token.scanFrom source p cs = .error e ∧ Token.scanFrom source' p cs' = .error e' := by
  -- a word can be longer than one character, so this goes by length and not
  -- along the mending
  induction hn : cs.length using Nat.strongRecOn generalizing p cs cs' with
  | _ n ih =>
    subst hn
    cases h with
    | nil =>
      rw [Token.scanFrom, Token.scanFrom]
      exact .inl ⟨[], [], rfl, rfl, .nil⟩
    | newline =>
      rw [Token.scanFrom_gap (by decide), Token.scanFrom, Token.scanFrom]
      exact .inl ⟨[], [], rfl, rfl, .nil⟩
    | @blank c cs cs' hc hne h =>
      rw [Token.scanFrom_gap hc, Token.scanFrom_gap (by decide), Token.scanFrom_gap (by decide),
        Position.advance_newline p hne]
      exact ih _ (Nat.lt_succ_of_lt (Nat.lt_succ_self _)) h _ rfl
    | @cons c cs cs' h =>
      cases hc : isGap c with
      | true =>
        rw [Token.scanFrom_gap hc, Token.scanFrom_gap hc]
        exact ih _ (Nat.lt_succ_self _) h _ rfl
      | false =>
        have hcons := Mended.cons c h
        cases hl : Lexeme.read? (c :: cs) with
        | none =>
          rw [Token.scanFrom_of_none hc hl, Token.scanFrom_of_none hc (hcons.read?.trans hl)]
          exact .inr ⟨_, _, rfl, rfl⟩
        | some l =>
          have hl' := hcons.read?.trans hl
          have hpos := Lexeme.length_pos_of_read? hl
          obtain ⟨-, hcut⟩ := Lexeme.read?_eq_some hl
          generalize (c :: cs).drop l.text.toList.length = rest at hcut
          rw [hcut] at hcons hl
          obtain ⟨rest', hcut', hrest⟩ := hcons.rest_of_append (Lexeme.isGap_of_mem hl)
          rw [hcut'] at hl'
          have hlt : rest.length < (c :: cs).length := by
            rw [hcut, List.length_append]
            omega
          rw [hcut, hcut', Token.scanFrom_word hl, Token.scanFrom_word hl']
          rcases ih _ hlt hrest (p.after l.text.toList) rfl with
            ⟨ts, ts', hts, hts', hlike⟩ | ⟨e, e', he, he'⟩
          · rw [hts, hts']
            exact .inl ⟨_, _, rfl, rfl, .cons ⟨rfl, rfl, rfl, .inl ⟨rfl, rfl⟩⟩ hlike⟩
          · rw [he, he']
            exact .inr ⟨e, e', rfl, rfl⟩

/-- Line ends are mended in the text without its comments. -/
theorem Mended.blankComments {text text' : String} (h : Mended text.toList text'.toList) :
    Mended (blankComments text).toList (blankComments text').toList := by
  rw [toList_blankComments, toList_blankComments]
  exact h.comments.1

/-- Both texts have tokens, with the same lexemes at the same places, or neither has. -/
theorem Mended.tokens {text text' : String} (h : Mended text.toList text'.toList) :
    (∃ ts ts', Entry.tokens text = .ok ts ∧ Entry.tokens text' = .ok ts' ∧
        List.Forall₂ (Token.Like (Span.Moved (Implet.blankComments text)
          (Implet.blankComments text'))) ts ts') ∨
      ∃ e e', Entry.tokens text = .error e ∧ Entry.tokens text' = .error e' := by
  rw [Entry.tokens, Entry.tokens, Token.scan, Token.scan]
  rcases h.blankComments.scanFrom .start with ⟨ts, ts', hts, hts', hlike⟩ | ⟨e, e', he, he'⟩
  · rw [hts, hts']
    exact .inl ⟨ts, ts', rfl, rfl, hlike⟩
  · rw [he, he']
    exact .inr ⟨_, _, rfl, rfl⟩

/-! ### What is shown of things that are alike -/

/-- Spans that are related are quoted in the same way. -/
abbrev Quotes (R : Span → Span → Prop) : Prop :=
  ∀ s s', R s s' → ∀ heading message,
    report heading (some s') message = report heading (some s) message

/-- If two texts have the same lines, the same is quoted from them. -/
theorem Span.quotes_moved {source source' : String}
    (hlines : lines source = lines source') :
    Quotes (Span.Moved source source') := by
  have hempty : source'.isEmpty = source.isEmpty := by
    rw [Bool.eq_iff_iff, String.isEmpty_iff, String.isEmpty_iff, ← lines_eq_nil_iff,
      ← lines_eq_nil_iff, hlines]
  rintro ⟨_, _, text⟩ ⟨start, stop, text'⟩ ⟨rfl, rfl, hsources⟩ heading message
  rcases hsources with ⟨htext, htext'⟩ | htext
  · obtain rfl : text = source := htext
    obtain rfl : text' = source' := htext'
    have hexcerpt : excerpt ⟨start, stop, text'⟩ message = excerpt ⟨start, stop, text⟩ message := by
      unfold excerpt
      dsimp only
      rw [hlines]
    rw [report, report, hexcerpt]
    dsimp only
    rw [hempty]
  · obtain rfl : text' = text := htext
    rfl

variable {R : Span → Span → Prop}

theorem Outcome.Like.text {o o' : Outcome} (h : o.Like R o') : o'.text = o.text := by
  obtain ⟨type, value⟩ := o
  obtain ⟨type', value'⟩ := o'
  obtain ⟨htype, hvalue⟩ := h
  obtain rfl : type' = type := htype
  cases hvalue with
  | none => rfl
  | some hv =>
    unfold Outcome.text
    dsimp only
    rw [hv.text]

section

variable (hquotes : Quotes R)
include hquotes

theorem ParseError.Like.report {e e' : ParseError} (h : e.Like R e') :
    e'.report = e.report := by
  rw [ParseError.report, ParseError.report, h.message]
  have hspan := h.span
  generalize e.span = s, e'.span = s' at hspan
  cases hspan with
  | none => rfl
  | some hs => exact hquotes _ _ hs _ _

theorem TypeError.Like.report {e e' : TypeError} (h : e.Like R e') :
    e'.report = e.report := by
  rw [TypeError.report, TypeError.report, h.message]
  exact hquotes _ _ h.span _ _

theorem RuntimeError.Like.report {e e' : RuntimeError} (h : e.Like R e') :
    e'.report = e.report := by
  rw [RuntimeError.report, RuntimeError.report, h.message]
  exact hquotes _ _ h.span _ _

end

namespace Session

/-- Both answers are missing, or they are the same but for what an error quotes. -/
inductive AnswersAlike (R : Span → Span → Prop) :
    Option ((Bool × String) × Session) → Option ((Bool × String) × Session) → Prop
  | none : AnswersAlike R none none
  | succeeded (printed : String) (t t' : Session) :
    AnswersAlike R (some ((true, printed), t)) (some ((true, printed), t'))
  | failed {printed printed' : String} (t t' : Session) : (Quotes R → printed' = printed) →
    AnswersAlike R (some ((false, printed), t)) (some ((false, printed'), t'))

/-- What is printed is the same, if spans that are related are quoted in the
same way, or nothing is quoted at all. -/
theorem AnswersAlike.printed {a a' : Option ((Bool × String) × Session)}
    (h : AnswersAlike R a a')
    (hquotes : Quotes R ∨ a.any (·.1.1) = true) : a'.map Prod.fst = a.map Prod.fst := by
  cases h with
  | none => rfl
  | succeeded => rfl
  | failed _ _ hprinted =>
    rcases hquotes with hquotes | hsucceeded
    · rw [hprinted hquotes]
      rfl
    · cases hsucceeded

/-- Sessions that are alike give answers that are alike to texts that have the
same tokens. -/
theorem answer_of_like (hempty : R .empty .empty) (hmerge : Merges R) {s s' : Session}
    (hs : s.Like R s') {text text' : String} {ts ts' : List Token}
    (hts : Entry.tokens text = .ok ts) (hts' : Entry.tokens text' = .ok ts')
    (hlike : List.Forall₂ (Token.Like R) ts ts') (fuel : Nat) (showOutline : Bool) :
    AnswersAlike R (s.answer fuel showOutline text) (s'.answer fuel showOutline text') := by
  have hparse : Entry.parse text = Entry.ofTokens ts ∧ Entry.parse text' = Entry.ofTokens ts' := by
    rw [Entry.parse, Entry.parse, hts, hts']
    exact ⟨rfl, rfl⟩
  rw [answer, answer, hparse.1, hparse.2]
  rcases Entry.ofTokens_of_like hmerge hlike with
    ⟨e, e', he, he', helike⟩ | ⟨err, err', herr, herr', herrlike⟩
  · rw [he, he']
    dsimp only
    rw [helike.outline]
    rcases runEntry_of_like hempty hs helike fuel with
      ⟨hrun, hrun'⟩ | ⟨res, res', t, t', hrun, hrun', hsays, -⟩
    · rw [hrun, hrun']
      exact .none
    · rw [hrun, hrun']
      cases hsays with
      | outcome ho =>
        dsimp only
        rw [ho.text]
        exact .succeeded _ t t'
      | type he =>
        refine .failed t t' fun hquotes => ?_
        rw [SessionError.report, SessionError.report, he.report hquotes]
      | runtime he =>
        refine .failed t t' fun hquotes => ?_
        rw [SessionError.report, SessionError.report, he.report hquotes]
  · rw [herr, herr']
    exact .failed s s' fun hquotes => by rw [herrlike.report hquotes]

/-- If a text has tokens, how its lines end is seen in an answer only where the
text is quoted. -/
theorem answer_of_mended {text text' : String} (h : Mended text.toList text'.toList)
    (htokens : ∃ ts, Entry.tokens text = .ok ts) {s s' : Session}
    (hs : s.Like (Span.Moved (blankComments text) (blankComments text')) s') (fuel : Nat)
    (showOutline : Bool) : AnswersAlike (Span.Moved (blankComments text) (blankComments text'))
      (s.answer fuel showOutline text) (s'.answer fuel showOutline text') := by
  obtain ⟨us, hus⟩ := htokens
  rcases h.tokens with ⟨ts, ts', hts, hts', hlike⟩ | ⟨e, e', he, -⟩
  · refine answer_of_like ⟨rfl, rfl, .inr rfl⟩ ?_ hs hts hts' hlike fuel showOutline
    exact fun _ _ _ _ hs hu => ⟨hs.start, hu.stop, hs.sources⟩
  · rw [hus] at he
    cases he

/-- A text that is answered without an error has tokens. -/
theorem tokens_of_answer {s : Session} {fuel : Nat} {showOutline : Bool} {text : String}
    (h : (s.answer fuel showOutline text).any (·.1.1) = true) :
    ∃ ts, Entry.tokens text = .ok ts := by
  cases hts : Entry.tokens text with
  | ok ts => exact ⟨ts, rfl⟩
  | error e =>
    rw [answer, Entry.parse, hts] at h
    cases h

end Session

/-- Mending the line ends of a text does not change what is quoted from it: each
line is ended by a newline alone, or the text has tokens, and without its
comments it keeps its lines. -/
def PlainEnds (text : String) : Prop :=
  text = gathered (lines text) ∨ (∃ ts, Entry.tokens text = .ok ts) ∧
    lines (blankComments text) = lines (blankComments (gathered (lines text)))

/-- The lines of a text are answered like the text, if that is answered without
an error or has nothing to mend in what is quoted. -/
theorem Session.answer_gathered {text : String} {fuel : Nat} {showOutline : Bool}
    (h : PlainEnds text ∨ (initial.answer fuel showOutline text).any (·.1.1) = true) :
    (initial.answer fuel showOutline (gathered (lines text))).map Prod.fst =
      (initial.answer fuel showOutline text).map Prod.fst := by
  have hmended := Mended.gathered_lines text
  rcases h with (htext | ⟨htokens, hlines⟩) | hsucceeded
  · rw [← htext]
  · exact (answer_of_mended hmended htokens .initial fuel showOutline).printed
      (.inl (Span.quotes_moved hlines))
  · exact (answer_of_mended hmended (tokens_of_answer hsucceeded) .initial fuel showOutline).printed
      (.inr hsucceeded)

end Implet
