/-
Implet/Proofs/Replacing.lean

Writing another literal in the place of one.  If an integer literal in a text is
written with other digits, the text has the same tokens but for that literal
(`Entry.tokens_replace`).

The literal is known by its place.  A word that is scanned begins at the end of
some beginning of the text (`Entry.exists_cutsAt`), and no two beginnings end at
the same place; that the place is told in the text with its comments blanked
does not matter, as blanking moves nothing that is not blanked
(`Comment.clear_of_digit`).  That a word is read depends on no more than the
kind of the character behind it, and digits are all of one kind
(`Lexeme.read?_of_head`).
-/
import Mathlib.Data.List.Forall2
import Implet.Proofs.Scanning

namespace Implet

/-! ### Beginnings of a text -/

/-- No two beginnings of a text end at the same place. -/
theorem Position.eq_of_after_eq {p : Position} {us vs cs : List Char} (hus : us <+: cs)
    (hvs : vs <+: cs) (h : p.after us = p.after vs) : us = vs := by
  have key : ∀ {us vs : List Char}, p.after us = p.after vs → us <+: vs → us = vs := by
    rintro us _ h ⟨ws, rfl⟩
    rcases ws with - | ⟨c, ws⟩
    · rw [List.append_nil]
    · have hbefore := Position.Before.after (List.cons_ne_nil c ws) (p.after us)
      rw [← Position.after_append, ← h] at hbefore
      exact absurd hbefore (Position.Before.irrefl _)
  rcases List.prefix_or_prefix_of_prefix hus hvs with h' | h'
  · exact key h h'
  · exact (key h.symm h').symm

/-! ### What a word depends on -/

/-- A run of characters of a kind ends where one of another kind follows. -/
theorem takeWhile_append_eq_iff {p : Char → Bool} {cs ds : List Char} :
    (cs ++ ds).takeWhile p = cs ↔ (∀ c ∈ cs, p c = true) ∧ ∀ d ∈ ds.head?, p d = false := by
  refine ⟨fun h => ?_, fun h => takeWhile_append_stop h.1 h.2⟩
  have hcs : ∀ c ∈ cs, p c = true := by
    rw [← h]
    exact List.all_eq_true.mp List.all_takeWhile
  refine ⟨hcs, fun d hd => Bool.eq_false_iff.mpr fun hp => ?_⟩
  obtain ⟨ds, rfl⟩ : ∃ es, ds = d :: es := List.head?_eq_some_iff.mp hd
  rw [List.takeWhile_append_of_pos hcs, List.takeWhile_cons_of_pos hp] at h
  simpa using congrArg List.length h

namespace Lexeme

/-- A word is read, whatever comes behind it, if that begins with a character of
the same kind. -/
theorem read?_of_head {l : Lexeme} {c d : Char} {cs ds : List Char}
    (h : read? (l.text.toList ++ c :: cs) = some l) (hword : isWordChar d = isWordChar c)
    (hdigit : isDigit d = isDigit c) : read? (l.text.toList ++ d :: ds) = some l := by
  obtain ⟨hne, -⟩ := read?_eq_some h
  have hrun {p : Char → Bool} (hp : p d = p c)
      (htake : (l.text.toList ++ c :: cs).takeWhile p = l.text.toList) :
      (l.text.toList ++ d :: ds).takeWhile p = l.text.toList := by
    obtain ⟨hall, hstop⟩ := takeWhile_append_eq_iff.mp htake
    refine takeWhile_append_eq_iff.mpr ⟨hall, ?_⟩
    rintro _ ⟨⟩
    rw [hp]
    exact hstop c rfl
  obtain ⟨a, w, haw⟩ := List.exists_cons_of_ne_nil hne
  simp only [haw, List.cons_append] at h hrun ⊢
  rw [read?] at h ⊢
  by_cases hstart : isWordStart a = true
  · rw [if_pos hstart] at h ⊢
    have htake := congrArg (fun o => (o.map fun l => l.text.toList)) h
    rw [Option.map_some, text_ofWord, String.toList_ofList, Option.map_some, haw] at htake
    rw [hrun hword (Option.some.inj htake), ← Option.some.inj htake]
    exact h
  · rw [if_neg hstart] at h ⊢
    by_cases hdigits : isDigit a = true
    · rw [if_pos hdigits] at h ⊢
      have htake := congrArg (fun o => (o.map fun l => l.text.toList)) h
      rw [Option.map_some, text, String.toList_ofList, Option.map_some, haw] at htake
      rw [hrun hdigit (Option.some.inj htake), ← Option.some.inj htake]
      exact h
    · rw [if_neg hdigits] at h
      obtain ⟨t, ht, rfl⟩ := Option.map_eq_some_iff.mp h
      have hread := read?_mark (d :: ds) t (List.mem_of_find?_eq_some ht)
      rw [show t.text.toList = a :: w from haw, List.cons_append, read?, if_neg hstart] at hread
      exact hread

/-- A literal that is read is made of digits, and no digit follows it. -/
theorem run_of_read? {digits : String} {rest : List Char}
    (h : read? (digits.toList ++ rest) = some (.integer digits)) :
    digits.toList ≠ [] ∧ (∀ c ∈ digits.toList, isDigit c = true) ∧
      ∀ c ∈ rest.head?, isDigit c = false := by
  refine ⟨(read?_eq_some h).1, takeWhile_append_eq_iff.mp ?_⟩
  unfold read? at h
  split at h
  · cases h
  · split at h
    · have hword := Option.some.inj h
      unfold ofWord at hword
      split at hword <;> cases hword
    · split at h
      · have := congrArg String.toList (Lexeme.integer.inj (Option.some.inj h))
        rwa [String.toList_ofList] at this
      · obtain ⟨_, -, hfixed⟩ := Option.map_eq_some_iff.mp h
        cases hfixed

end Lexeme

/-! ### Where a literal stands -/

namespace Token

variable {source : String} {p : Position} {cs : List Char} {ts : List Token}

/-- The words of some characters do not depend on where these stand. -/
theorem scanFrom_lexemes (h : scanFrom source p cs = .ok ts) (source' : String)
    (p' : Position) :
    ∃ us, scanFrom source' p' cs = .ok us ∧ us.map lexeme = ts.map lexeme := by
  refine scanFrom_induction (P := fun _ cs ts => ∀ p', ∃ us,
    scanFrom source' p' cs = .ok us ∧ us.map lexeme = ts.map lexeme) ?_ ?_ ?_ h p'
  · exact fun _ _ => ⟨[], scanFrom.eq_def .., rfl⟩
  · intro p c cs ts hc ih p'
    rw [scanFrom_gap hc]
    exact ih _
  · intro p cs l ts hread ih p'
    obtain ⟨us, hus, hls⟩ := ih (p'.after l.text.toList)
    exact ⟨_, scanFrom_append hread hus, congrArg (l :: ·) hls⟩

/-- The characters before a literal and those after it, and what is scanned if
it has other digits. -/
structure Placed (p : Position) (cs : List Char) (digits : String) (span : Span)
    (us vs : List Token) (before after : List Char) : Prop where
  text : cs = before ++ (digits.toList ++ after)
  place : span.start = p.after before
  read : Lexeme.read? (digits.toList ++ after) = some (.integer digits)
  replace {digits' : String} (hne : digits'.toList ≠ [])
    (hall : ∀ c ∈ digits'.toList, isDigit c = true) (source' : String) (p' : Position) :
    ∃ ts, scanFrom source' p' (before ++ (digits'.toList ++ after)) = .ok ts ∧
      ts.map lexeme = us.map lexeme ++ .integer digits' :: vs.map lexeme

variable {us vs : List Token} {digits : String} {span : Span} {before after : List Char}

theorem Placed.gap (h : Placed (p.advance c) cs digits span us vs before after)
    (hc : isGap c = true) : Placed p (c :: cs) digits span us vs (c :: before) after where
  text := by rw [h.text, List.cons_append]
  place := h.place
  read := h.read
  replace hne hall source' p' := by
    rw [List.cons_append, scanFrom_gap hc]
    exact h.replace hne hall source' _

/-- The first word of the characters is another one. -/
theorem Placed.word {l : Lexeme} {s : Span} (h : Placed (p.after l.text.toList) cs digits span us vs
    before after) (hread : Lexeme.read? (l.text.toList ++ cs) = some l) :
    Placed p (l.text.toList ++ cs) digits span (⟨l, s⟩ :: us) vs (l.text.toList ++ before)
      after where
  text := by rw [h.text, List.append_assoc]
  place := by rw [h.place, Position.after_append]
  read := h.read
  replace {digits'} hne hall source' p' := by
    obtain ⟨ts, hts, hls⟩ := h.replace hne hall source' (p'.after l.text.toList)
    rw [List.append_assoc]
    refine ⟨_, scanFrom_append ?_ hts, congrArg (l :: ·) hls⟩
    -- behind the word comes what came before, or else one digit in the place of another
    rw [h.text] at hread
    cases before with
    | cons c before => exact Lexeme.read?_of_head hread rfl rfl
    | nil =>
      obtain ⟨hne', hall', -⟩ := Lexeme.run_of_read? h.read
      obtain ⟨c, cs, hc⟩ := List.exists_cons_of_ne_nil hne'
      obtain ⟨d, ds, hd⟩ := List.exists_cons_of_ne_nil hne
      have hcd : isDigit d = true ∧ isDigit c = true :=
        ⟨hall d (hd ▸ List.mem_cons_self), hall' c (hc ▸ List.mem_cons_self)⟩
      rw [List.nil_append, hc, List.cons_append] at hread
      rw [List.nil_append, hd, List.cons_append]
      refine Lexeme.read?_of_head hread ?_ ?_
      · rw [isWordChar, isWordChar, hcd.1, hcd.2, Bool.or_true, Bool.or_true]
      · rw [hcd.1, hcd.2]

/-- The first word of the characters is the literal. -/
theorem placed_first (hread : Lexeme.read? (digits.toList ++ cs) = some (.integer digits))
    (h : scanFrom source (p.after digits.toList) cs = .ok ts) (stop : Position) :
    Placed p (digits.toList ++ cs) digits ⟨p, stop, source⟩ [] ts [] cs where
  text := rfl
  place := rfl
  read := hread
  replace {digits'} hne hall source' p' := by
    obtain ⟨us, hus, hls⟩ := scanFrom_lexemes h source' (p'.after digits'.toList)
    exact ⟨_, scanFrom_append (l := .integer digits')
      (Lexeme.read?_run hne hall (Lexeme.run_of_read? hread).2.2) hus, congrArg (_ :: ·) hls⟩

/-- A literal among the tokens stands somewhere in the characters. -/
theorem exists_placed
    (h : scanFrom source p cs = .ok (us ++ ⟨.integer digits, span⟩ :: vs)) :
    ∃ before after, Placed p cs digits span us vs before after := by
  generalize hts : us ++ ⟨.integer digits, span⟩ :: vs = ts at h
  refine (scanFrom_induction (P := fun p cs ts =>
    scanFrom source p cs = .ok ts ∧ ∀ us, us ++ ⟨.integer digits, span⟩ :: vs = ts →
      ∃ before after, Placed p cs digits span us vs before after) ?_ ?_ ?_ h).2 us hts
  · refine fun p => ⟨scanFrom.eq_def .., fun us h => ?_⟩
    cases us <;> cases h
  · rintro p c cs ts hc ⟨hscan, ih⟩
    refine ⟨(scanFrom_gap hc cs).trans hscan, fun us hts => ?_⟩
    obtain ⟨before, after, h⟩ := ih us hts
    exact ⟨_, _, h.gap hc⟩
  · rintro p cs l ts hread ⟨hscan, ih⟩
    refine ⟨scanFrom_append hread hscan, fun us hts => ?_⟩
    rcases us with - | ⟨u, us⟩
    · obtain ⟨hl, rfl⟩ := List.cons.inj hts
      cases hl
      exact ⟨_, _, placed_first hread hscan _⟩
    · obtain ⟨rfl, hrest⟩ := List.cons.inj hts
      obtain ⟨before, after, h⟩ := ih us hrest
      exact ⟨_, _, h.word hread⟩

end Token

/-! ### Comments before a literal -/

namespace Comment

theorem outside_cons {c : Char} {cs : List Char} (h : c = '/' → ∀ d ∈ cs.head?, d ≠ '/') :
    outside (c :: cs) = c :: outside cs := by
  rw [outside]
  rintro ds rfl rfl
  exact h rfl '/' rfl rfl

theorem inside_cons {c : Char} (hc : c ≠ '\n') (cs : List Char) :
    inside (c :: cs) = ' ' :: inside cs := by
  rw [inside]
  exact hc

/-- Blanking by `f` goes over `us` as `blanked` and is outside of comments then. -/
def Clear (f : List Char → List Char) (us blanked : List Char) : Prop :=
  ∀ rest, (∀ c ∈ rest.head?, c ≠ '/') → f (us ++ rest) = blanked ++ outside rest

/-- Blanking by `f` goes over `us` as `blanked` and is inside of a comment then. -/
def Covered (f : List Char → List Char) (us blanked : List Char) : Prop :=
  ∀ rest, f (us ++ rest) = blanked ++ inside rest

/-- Blanking goes over characters one by one, and where it is outside of
comments after them, the place is the same. -/
def BlanksOutside (us : List Char) : Prop :=
  ∃ bs : List Char, bs.length = us.length ∧ (Covered outside us bs ∨
    Clear outside us bs ∧ ∀ p : Position, p.after bs = p.after us)

/-- From inside of a comment on, the place depends on no more than the line. -/
def BlanksInside (us : List Char) : Prop :=
  ∃ bs : List Char, bs.length = us.length ∧ (Covered inside us bs ∨
    Clear inside us bs ∧ ∀ p q : Position, p.line = q.line → p.after bs = q.after us)

variable {c : Char} {us : List Char}

/-- A newline ends a comment. -/
theorem BlanksOutside.newline (h : BlanksOutside us) : BlanksInside ('\n' :: us) := by
  obtain ⟨bs, hbs, h⟩ := h
  refine ⟨'\n' :: bs, congrArg (· + 1) hbs, h.imp (fun h rest => ?_) ?_⟩
  · rw [List.cons_append, inside, h, List.cons_append]
  · rintro ⟨h, hplace⟩
    refine ⟨fun rest hr => ?_, fun p q hpq => ?_⟩
    · rw [List.cons_append, inside, h rest hr, List.cons_append]
    · rw [Position.after_cons, Position.after_cons, hplace, Position.advance, Position.advance,
        if_pos rfl, if_pos rfl, hpq]

/-- Other characters are blanked inside of a comment. -/
theorem BlanksInside.blank (hc : c ≠ '\n') (h : BlanksInside us) :
    BlanksInside (c :: us) := by
  obtain ⟨bs, hbs, h⟩ := h
  refine ⟨' ' :: bs, congrArg (· + 1) hbs, h.imp (fun h rest => ?_) ?_⟩
  · rw [List.cons_append, inside_cons hc, h, List.cons_append]
  · rintro ⟨h, hplace⟩
    refine ⟨fun rest hr => ?_, fun p q hpq => hplace _ _ ?_⟩
    · rw [List.cons_append, inside_cons hc, h rest hr, List.cons_append]
    · rw [Position.advance, Position.advance, if_neg (by decide), if_neg hc]
      exact hpq

/-- Two slashes begin a comment. -/
theorem BlanksInside.slashes (h : BlanksInside us) :
    BlanksOutside ('/' :: '/' :: us) := by
  obtain ⟨bs, hbs, h⟩ := h
  refine ⟨' ' :: ' ' :: bs, congrArg (· + 2) hbs, h.imp (fun h rest => ?_) ?_⟩
  · rw [List.cons_append, List.cons_append, outside, h]
    rfl
  · rintro ⟨h, hplace⟩
    refine ⟨fun rest hr => ?_, fun p => hplace _ _ rfl⟩
    rw [List.cons_append, List.cons_append, outside, h rest hr]
    rfl

/-- All else is left alone outside of comments. -/
theorem BlanksOutside.kept (hslash : c = '/' → us ≠ [] ∧ ∀ d ∈ us.head?, d ≠ '/')
    (h : BlanksOutside us) : BlanksOutside (c :: us) := by
  have hcons (rest : List Char) : outside (c :: (us ++ rest)) = c :: outside (us ++ rest) := by
    refine outside_cons fun hc d hd => ?_
    obtain ⟨hne, hhead⟩ := hslash hc
    rw [List.head?_append_of_ne_nil _ hne] at hd
    exact hhead d hd
  obtain ⟨bs, hbs, h⟩ := h
  refine ⟨c :: bs, congrArg (· + 1) hbs, h.imp (fun h rest => ?_) ?_⟩
  · rw [List.cons_append, hcons, h, List.cons_append]
  · rintro ⟨h, hplace⟩
    refine ⟨fun rest hr => ?_, fun p => hplace _⟩
    rw [List.cons_append, hcons, h rest hr, List.cons_append]

theorem blanks (us : List Char) : BlanksOutside us ∧ BlanksInside us := by
  match us with
  | [] =>
    exact ⟨⟨[], rfl, .inr ⟨fun _ _ => rfl, fun _ => rfl⟩⟩, [], rfl, .inl fun _ => rfl⟩
  | c :: us =>
    obtain ⟨hout, hin⟩ := blanks us
    constructor
    · by_cases hc : c = '/'
      · subst hc
        match us with
        | [] =>
          -- a slash at the end, which no other one follows
          exact ⟨['/'], rfl, .inr ⟨fun _ hr => outside_cons fun _ => hr, fun _ => rfl⟩⟩
        | d :: us =>
          by_cases hd : d = '/'
          · subst hd
            exact (blanks us).2.slashes
          · refine hout.kept fun _ => ⟨List.cons_ne_nil d us, ?_⟩
            rintro _ ⟨⟩
            exact hd
      · exact hout.kept fun h => absurd h hc
    · by_cases hc : c = '\n'
      · subst hc
        exact hout.newline
      · exact hin.blank hc

/-- A character is left alone or becomes a space. -/
theorem forall₂_blank (cs : List Char) :
    List.Forall₂ (fun c d => d = c ∨ d = ' ') cs (outside cs) ∧
      List.Forall₂ (fun c d => d = c ∨ d = ' ') cs (inside cs) := by
  match cs with
  | [] => exact ⟨by rw [outside]; exact .nil, by rw [inside]; exact .nil⟩
  | c :: cs =>
    obtain ⟨hout, hin⟩ := forall₂_blank cs
    constructor
    · by_cases hc : c = '/' ∧ cs.head? = some '/'
      · obtain ⟨rfl, hcs⟩ := hc
        obtain ⟨ds, rfl⟩ := List.head?_eq_some_iff.mp hcs
        rw [outside]
        exact .cons (.inr rfl) (.cons (.inr rfl) (forall₂_blank ds).2)
      · rw [outside_cons fun h d hd hslash => hc ⟨h, hslash ▸ hd⟩]
        exact .cons (.inl rfl) hout
    · by_cases hc : c = '\n'
      · rw [hc, inside]
        exact .cons (.inl rfl) hout
      · rw [inside_cons hc]
        exact .cons (.inr rfl) hin

/-- Where there is a digit with the comments blanked, it was there before, and
the place is that of the characters before it. -/
theorem clear_of_digit {cs bs ds : List Char} {d : Char} (h : outside cs = bs ++ d :: ds)
    (hd : isDigit d = true) : ∃ us rest, cs = us ++ d :: rest ∧ Clear outside us bs ∧
      ∀ p : Position, p.after bs = p.after us := by
  have hblank := (forall₂_blank cs).1
  rw [h] at hblank
  have hlength := (List.forall₂_take_append _ _ _ hblank).length_eq
  have hdrop := List.forall₂_drop_append _ _ _ hblank
  have hcs := List.take_append_drop bs.length cs
  generalize cs.take bs.length = us at hlength hcs
  generalize cs.drop bs.length = vs at hdrop hcs
  obtain _ | ⟨hc, -⟩ := hdrop
  next c rest =>
  obtain rfl : d = c := by
    refine hc.resolve_right ?_
    rintro rfl
    cases hd
  refine ⟨us, rest, hcs.symm, ?_⟩
  have hspace : d ≠ ' ' ∧ d ≠ '\n' ∧ d ≠ '/' := by
    refine ⟨?_, ?_, ?_⟩ <;> rintro rfl <;> cases hd
  obtain ⟨bs', hbs', hcovered | ⟨hclear, hplace⟩⟩ := (blanks us).1
  · -- inside of a comment the digit would have been blanked
    have hin := hcovered (d :: rest)
    rw [hcs, h, inside_cons hspace.2.1] at hin
    obtain ⟨-, hin⟩ := List.append_inj hin (by rw [hbs', hlength])
    exact absurd (List.cons.inj hin).1 hspace.1
  · have hout := hclear (d :: rest) (by rintro _ ⟨⟩; exact hspace.2.2)
    rw [hcs, h] at hout
    obtain ⟨rfl, -⟩ := List.append_inj hout (by rw [hbs', hlength])
    exact ⟨hclear, hplace⟩

/-- Digits that there are outside of comments were there before. -/
theorem outside_eq_digits {cs ds bs : List Char} (hd : ∀ c ∈ ds, isDigit c = true)
    (h : outside cs = ds ++ bs) : ∃ rest, cs = ds ++ rest ∧ outside rest = bs := by
  induction ds generalizing cs with
  | nil => exact ⟨cs, rfl, h⟩
  | cons d ds ih =>
    obtain ⟨hdigit, hds⟩ := List.forall_mem_cons.mp hd
    cases cs with
    | nil =>
      rw [outside] at h
      cases h
    | cons c cs =>
      by_cases hc : c = '/' ∧ cs.head? = some '/'
      · -- a comment begins with a space
        obtain ⟨rfl, hcs⟩ := hc
        obtain ⟨rest, rfl⟩ := List.head?_eq_some_iff.mp hcs
        rw [outside] at h
        obtain ⟨rfl, -⟩ := List.cons.inj h
        cases hdigit
      · rw [outside_cons fun h d hd hslash => hc ⟨h, hslash ▸ hd⟩] at h
        obtain ⟨rfl, htail⟩ := List.cons.inj h
        obtain ⟨rest, rfl, hrest⟩ := ih hds htail
        exact ⟨rest, rfl, hrest⟩

end Comment

/-! ### Another literal in a text -/

namespace Entry

theorem tokens_ok_iff {source : String} {ts : List Token} : tokens source = .ok ts ↔
    Token.scanFrom (blankComments source) .start (Comment.outside source.toList) = .ok ts := by
  rw [tokens_eq_ok_iff, Token.scan, toList_blankComments]

/-- The text is cut in three: some digits, which begin at `start`, and what is
before and after them. -/
structure CutsAt (text digits : String) (start : Position) (before after : String) :
    Prop where
  text : text = before ++ digits ++ after
  place : start = Position.start.after before.toList

variable {text before digits after : String} {ts us vs : List Token} {span : Span}

/-- A literal among the tokens of a text stands in the text outside of comments,
where blanking leaves all as it is. -/
theorem placed_of_tokens
    (hlex : tokens text = .ok (us ++ ⟨.integer digits, span⟩ :: vs)) :
    ∃ bs as, Token.Placed .start (Comment.outside text.toList) digits span us vs bs as ∧
      ∃ us' rest, text.toList = us' ++ (digits.toList ++ rest) ∧
        Comment.Clear Comment.outside us' bs ∧ Comment.outside rest = as ∧
        span.start = Position.start.after us' := by
  obtain ⟨bs, as, h⟩ := Token.exists_placed (tokens_ok_iff.mp hlex)
  obtain ⟨hne, hall, -⟩ := Lexeme.run_of_read? h.read
  obtain ⟨d, ds, hd⟩ := List.exists_cons_of_ne_nil hne
  have hdigit : isDigit d = true := hall d (hd ▸ List.mem_cons_self)
  have hcut := h.text
  rw [hd, List.cons_append] at hcut
  obtain ⟨us', cs, hus', hclear, hsame⟩ := Comment.clear_of_digit hcut hdigit
  -- a digit is no slash, so that blanking is outside of comments there
  have hslash : ∀ c ∈ (d :: cs).head?, c ≠ '/' := by
    rintro _ ⟨⟩ rfl
    cases hdigit
  have hout := h.text
  rw [hus', hclear _ hslash] at hout
  obtain ⟨rest, hcs, hrest⟩ := Comment.outside_eq_digits hall (List.append_cancel_left hout)
  exact ⟨bs, as, h, us', rest, by rw [hus', hcs], hclear, hrest, by rw [h.place, hsame]⟩

/-- Every literal among the tokens of a text has its place in the text. -/
theorem exists_cutsAt (hlex : tokens text = .ok ts)
    (hliteral : ⟨.integer digits, span⟩ ∈ ts) :
    ∃ before after, CutsAt text digits span.start before after := by
  obtain ⟨us, vs, rfl⟩ := List.append_of_mem hliteral
  obtain ⟨-, -, -, us', rest, htext, -, -, hplace⟩ := placed_of_tokens hlex
  refine ⟨String.ofList us', String.ofList rest, ?_, ?_⟩
  · rw [← String.toList_inj, htext]
    simp
  · rw [hplace, String.toList_ofList]

/-- If a literal in a text is written with other digits, the text has the same
tokens but for that one. -/
theorem tokens_replace (hlex : tokens text = .ok ts)
    (hliteral : ⟨.integer digits, span⟩ ∈ ts)
    (hcut : CutsAt text digits span.start before after) {digits' : String}
    (hne : digits'.toList ≠ []) (hall : ∀ c ∈ digits'.toList, isDigit c = true) :
    ∃ us vs ts', ts = us ++ ⟨.integer digits, span⟩ :: vs ∧
      tokens (before ++ digits' ++ after) = .ok ts' ∧
      ts'.map Token.lexeme =
        us.map Token.lexeme ++ .integer digits' :: vs.map Token.lexeme := by
  obtain ⟨us, vs, rfl⟩ := List.append_of_mem hliteral
  obtain ⟨bs, as, h, us', rest, htext, hclear, hrest, hplace⟩ := placed_of_tokens hlex
  have hchars (ds : String) :
      (before ++ ds ++ after).toList = before.toList ++ (ds.toList ++ after.toList) := by simp
  rw [hcut.text, hchars] at htext
  -- the literal stands where its digits stand in the text
  obtain rfl : us' = before.toList := by
    refine Position.eq_of_after_eq (p := .start) ⟨_, htext.symm⟩ (List.prefix_append _ _) ?_
    rw [← hplace, hcut.place]
  obtain rfl : after.toList = rest := List.append_cancel_left (List.append_cancel_left htext)
  have hslash : ∀ c ∈ digits'.toList, c ≠ '/' := by
    rintro c hc rfl
    exact absurd (hall _ hc) (by decide)
  have hhead : ∀ c ∈ (digits'.toList ++ after.toList).head?, c ≠ '/' := by
    rw [List.head?_append_of_ne_nil _ hne]
    exact fun c hc => hslash c (List.mem_of_mem_head? hc)
  obtain ⟨ts', hts', hls⟩ := h.replace hne hall (blankComments (before ++ digits' ++ after)) .start
  refine ⟨us, vs, ts', rfl, tokens_ok_iff.mpr ?_, hls⟩
  rw [hchars, hclear _ hhead, Comment.outside_append hslash, hrest]
  exact hts'

end Entry

end Implet
