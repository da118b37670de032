/-
Implet/Proofs/Scanning.lean

How texts fall into words.  A name, a number, a keyword and a mark are each read
up to their end, if what follows does not go on with them (`Lexeme.read?_name`
and the lemmas after it), and what is scanned is one word after the other
(`Token.scanFrom_word`).  In turn all that is scanned is read in this way, so
what holds of single words holds of the tokens of a text
(`Token.scanFrom_induction`).  The tokens of a text are all different, as they
have different places (`Token.nodup_of_scan`).
-/
import Mathlib.Data.List.Basic
import Implet.Reading.Entry

namespace Implet

/-! ### Words and what follows them -/

/-- A run of word characters that does not begin with a digit. -/
def IsWord (word : String) : Prop :=
  word.toList.head?.any isWordStart = true ∧ word.toList.all isWordChar = true

/-- A word that is read as a name, as it is no keyword. -/
def IsName (name : String) : Prop := IsWord name ∧ ∀ t ∈ Terminal.keywords, t.text ≠ name

instance (word : String) : Decidable (IsWord word) := inferInstanceAs (Decidable (_ ∧ _))

instance (name : String) : Decidable (IsName name) := inferInstanceAs (Decidable (_ ∧ _))

/-- What can follow a word, a number or a mark without becoming a part of it or
of a comment. -/
def Apart (cs : List Char) : Prop := ∀ c ∈ cs.head?, isWordChar c = false ∧ c ≠ '/'

theorem apart_nil : Apart [] := fun _ hc => nomatch hc

theorem apart_cons {c : Char} (hc : isWordChar c = false) (hslash : c ≠ '/')
    (cs : List Char) :
    Apart (c :: cs) := by
  rintro d ⟨⟩
  exact ⟨hc, hslash⟩

theorem Apart.append {cs ds : List Char} (h : Apart cs) (h' : Apart ds) :
    Apart (cs ++ ds) := by
  cases cs with
  | nil => exact h'
  | cons c cs => exact h

/-- The characters up to the first one of another kind. -/
theorem takeWhile_append_stop {p : Char → Bool} {cs ds : List Char}
    (hcs : ∀ c ∈ cs, p c = true)
    (hds : ∀ c ∈ ds.head?, p c = false) : (cs ++ ds).takeWhile p = cs := by
  rw [List.takeWhile_append_of_pos hcs]
  cases ds with
  | nil => exact List.append_nil cs
  | cons d ds => rw [List.takeWhile_cons_of_neg (by simp [hds d rfl]), List.append_nil]

/-- Characters that are no slashes are no comment, whatever follows them. -/
theorem Comment.outside_append {cs : List Char} (h : ∀ c ∈ cs, c ≠ '/')
    (rest : List Char) :
    outside (cs ++ rest) = cs ++ outside rest := by
  induction cs with
  | nil => rfl
  | cons c cs ih =>
    obtain ⟨hc, hcs⟩ := List.forall_mem_cons.mp h
    rw [List.cons_append, List.cons_append, ← ih hcs, outside]
    rintro ds rfl
    exact absurd rfl hc

/-- A terminal is no comment and no part of one, unless a slash follows it. -/
theorem Comment.outside_terminal (t : Terminal) {rest : List Char}
    (hrest : ∀ c ∈ rest.head?, c ≠ '/') :
    outside (t.text.toList ++ rest) = t.text.toList ++ outside rest := by
  by_cases ht : t = .slash
  · subst ht
    show outside ('/' :: rest) = '/' :: outside rest
    rw [outside]
    rintro cs - rfl
    exact hrest '/' rfl rfl
  · have hslash : '/' ∉ t.text.toList := by
      revert ht
      cases t <;> decide
    refine outside_append ?_ rest
    rintro c hc rfl
    exact hslash hc

/-! ### Scanning one word -/

theorem isWordStart_of_isDigit {c : Char} (h : isDigit c = true) :
    isWordStart c = false := by
  refine Bool.eq_false_iff.mpr fun hc => ?_
  simp only [isDigit, isWordStart, Bool.and_eq_true, Bool.or_eq_true, decide_eq_true_eq, beq_iff_eq,
    Char.le_def, UInt32.le_iff_toNat_le] at h hc
  have hle : c.val.toNat ≤ 57 := h.2
  rcases hc with (hc | hc) | rfl
  · have : 97 ≤ c.val.toNat := hc.1
    omega
  · have : 65 ≤ c.val.toNat := hc.1
    omega
  · exact absurd hle (by decide)

/-- White space is no part of a word. -/
theorem isWordChar_of_isGap {c : Char} (h : isGap c = true) : isWordChar c = false := by
  simp only [isGap, Bool.or_eq_true, beq_iff_eq] at h
  rcases h with (((rfl | rfl) | rfl) | rfl) | rfl <;> rfl

theorem ne_slash_of_isGap {c : Char} (h : isGap c = true) : c ≠ '/' := by
  rintro rfl
  exact absurd h (by decide)

theorem isDigit_of_mem_toString {n : Nat} {c : Char} (h : c ∈ (toString n).toList) :
    isDigit c = true := by
  rw [Nat.toString_eq_repr, Nat.toList_repr] at h
  have hc := Nat.isDigit_of_mem_toDigits (by decide) (by decide) h
  simpa [Char.isDigit, isDigit, Char.le_def] using hc

theorem Terminal.isGap_of_mem_text (t : Terminal) {c : Char} (h : c ∈ t.text.toList) :
    isGap c = false := by
  have hall : t.text.toList.all (fun c => !isGap c) = true := by cases t <;> rfl
  simpa using List.all_eq_true.mp hall c h

/-- The digits of a number stand for it. -/
theorem Expr.digitsValue_toString (n : Nat) : digitsValue (toString n).toList = n := by
  rw [Nat.toString_eq_repr, Nat.toList_repr, digitsValue, ← Nat.ofDigitChars_eq_foldl]
  exact Nat.ofDigitChars_toDigits (by decide) (by decide)

namespace Lexeme

/-- There is no lexeme where there is white space. -/
theorem isGap_of_read? {c : Char} {cs : List Char} {l : Lexeme}
    (h : read? (c :: cs) = some l) :
    isGap c = false := by
  refine Bool.eq_false_iff.mpr fun hc => ?_
  simp only [isGap, Bool.or_eq_true, beq_iff_eq] at hc
  rcases hc with (((rfl | rfl) | rfl) | rfl) | rfl <;> cases h

/-- No lexeme has white space in it. -/
theorem isGap_of_mem {cs : List Char} {l : Lexeme} (h : read? cs = some l) :
    ∀ c ∈ l.text.toList, isGap c = false := by
  have hword : ∀ c ∈ cs.takeWhile isWordChar, isGap c = false := fun c hc =>
    Bool.eq_false_iff.mpr fun hgap => by
      have := List.all_eq_true.mp List.all_takeWhile c hc
      rw [isWordChar_of_isGap hgap] at this
      cases this
  unfold read? at h
  split at h
  · cases h
  · split at h
    · cases h
      rwa [text_ofWord, String.toList_ofList]
    · split at h
      · cases h
        rw [text, String.toList_ofList]
        intro c hc
        refine Bool.eq_false_iff.mpr fun hgap => ?_
        have hdigit := List.all_eq_true.mp List.all_takeWhile c hc
        rw [(Bool.or_eq_false_iff.mp (isWordChar_of_isGap hgap)).2] at hdigit
        cases hdigit
      · obtain ⟨t, -, rfl⟩ := Option.map_eq_some_iff.mp h
        exact fun c hc => t.isGap_of_mem_text hc

/-- A word is read up to its end. -/
theorem read?_word {word : String} (h : IsWord word) {rest : List Char}
    (hrest : Apart rest) :
    read? (word.toList ++ rest) = some (ofWord word) := by
  obtain ⟨hstart, hall⟩ := h
  have htake : (word.toList ++ rest).takeWhile isWordChar = word.toList :=
    takeWhile_append_stop (List.all_eq_true.mp hall) fun c hc => (hrest c hc).1
  rcases hn : word.toList with - | ⟨c, cs⟩ <;> rw [hn] at hstart htake
  · cases hstart
  · have hc : isWordStart c = true := hstart
    rw [List.cons_append] at htake ⊢
    rw [read?, if_pos hc, htake, ← hn, String.ofList_toList]

theorem read?_name {name : String} (h : IsName name) {rest : List Char}
    (hrest : Apart rest) :
    read? (name.toList ++ rest) = some (.ident name) := by
  rw [read?_word h.1 hrest, ofWord, List.find?_eq_none.mpr]
  simpa using h.2

/-- Digits are read up to where there is no digit. -/
theorem read?_run {digits : String} (hne : digits.toList ≠ [])
    (hall : ∀ c ∈ digits.toList, isDigit c = true) {rest : List Char}
    (hrest : ∀ c ∈ rest.head?, isDigit c = false) :
    read? (digits.toList ++ rest) = some (.integer digits) := by
  have htake : (digits.toList ++ rest).takeWhile isDigit = digits.toList :=
    takeWhile_append_stop hall hrest
  rcases hn : digits.toList with - | ⟨c, cs⟩
  · exact absurd hn hne
  · have hc : isDigit c = true := hall c (hn ▸ List.mem_cons_self)
    rw [hn, List.cons_append] at htake
    rw [List.cons_append, read?, if_neg (by simp [isWordStart_of_isDigit hc]), if_pos hc, htake,
      ← hn, String.ofList_toList]

/-- Digits are read up to their end. -/
theorem read?_integer {digits : String} (hne : digits.toList ≠ [])
    (hall : ∀ c ∈ digits.toList, isDigit c = true) {rest : List Char} (hrest : Apart rest) :
    read? (digits.toList ++ rest) = some (.integer digits) :=
  read?_run hne hall fun c hc => (Bool.or_eq_false_iff.mp (hrest c hc).1).2

/-- A number is read up to its end. -/
theorem read?_digits (n : Nat) {rest : List Char} (hrest : Apart rest) :
    read? ((toString n).toList ++ rest) = some (.integer (toString n)) := by
  refine read?_integer ?_ (fun c hc => isDigit_of_mem_toString hc) hrest
  rw [Nat.toString_eq_repr, Nat.toList_repr]
  exact Nat.toDigits_ne_nil

/-- Marks are read whatever follows them, as none is the beginning of another. -/
theorem read?_mark (rest : List Char) :
    ∀ t ∈ Terminal.marks, read? (t.text.toList ++ rest) = some (.fixed t) := by
  simp only [Terminal.marks, List.forall_mem_cons]
  exact ⟨rfl, rfl, rfl, rfl, rfl, rfl, rfl, rfl, rfl, rfl, rfl, rfl, rfl, rfl,
    List.forall_mem_nil _⟩

theorem read?_terminal (t : Terminal) {rest : List Char} (hrest : Apart rest) :
    read? (t.text.toList ++ rest) = some (.fixed t) := by
  rcases List.mem_append.mp t.mem_all with ht | ht
  · have hword : ∀ t ∈ Terminal.keywords, IsWord t.text ∧ ofWord t.text = .fixed t := by decide
    obtain ⟨hw, ho⟩ := hword t ht
    rw [read?_word hw hrest, ho]
  · exact read?_mark rest t ht

end Lexeme

/-- A word is scanned, and then what follows it, if that can be scanned. -/
theorem Token.scanFrom_word {source : String} {p : Position} {rest : List Char}
    {l : Lexeme} (hread : Lexeme.read? (l.text.toList ++ rest) = some l) :
    scanFrom source p (l.text.toList ++ rest) =
      (scanFrom source (p.after l.text.toList) rest).map
        (⟨l, ⟨p, p.after l.text.toList, source⟩⟩ :: ·) := by
  obtain ⟨hne, -⟩ := Lexeme.read?_eq_some hread
  have hdrop : (l.text.toList ++ rest).drop l.text.toList.length = rest := List.drop_left
  rcases hc : l.text.toList ++ rest with - | ⟨c, cs⟩
  · exact absurd (List.append_eq_nil_iff.mp hc).1 hne
  · rw [hc] at hread hdrop
    rw [scanFrom, if_neg (by simp [Lexeme.isGap_of_read? hread])]
    split
    · next hnone =>
      rw [hread] at hnone
      cases hnone
    · next l' hl' =>
      obtain rfl := Option.some.inj (hread.symm.trans hl')
      dsimp only
      rw [hdrop]
      cases scanFrom source (p.after l.text.toList) rest <;> rfl

theorem Token.scanFrom_append {source : String} {p : Position} {rest : List Char}
    {l : Lexeme} (hread : Lexeme.read? (l.text.toList ++ rest) = some l) {ts : List Token}
    (hrest : scanFrom source (p.after l.text.toList) rest = .ok ts) :
    scanFrom source p (l.text.toList ++ rest) =
      .ok (⟨l, ⟨p, p.after l.text.toList, source⟩⟩ :: ts) := by
  rw [scanFrom_word hread, hrest]
  rfl

/-- Nothing is scanned where there is neither a word nor white space. -/
theorem Token.scanFrom_of_none {source : String} {p : Position} {c : Char}
    {rest : List Char} (hc : isGap c = false) (hread : Lexeme.read? (c :: rest) = none) :
    scanFrom source p (c :: rest) = .error ⟨source, c :: rest⟩ := by
  rw [scanFrom, if_neg (by simp [hc])]
  split
  · rfl
  · next l hl =>
    rw [hread] at hl
    cases hl

/-- White space is skipped. -/
theorem Token.scanFrom_gap {source : String} {p : Position} {c : Char}
    (hc : isGap c = true)
    (rest : List Char) : scanFrom source p (c :: rest) = scanFrom source (p.advance c) rest := by
  rw [scanFrom, if_pos hc]

/-! ### Induction along the tokens of a text -/

/-- What holds of no tokens, and is kept by white space and by words, holds of
all tokens that are scanned, their place and the characters that they are
scanned from. -/
theorem Token.scanFrom_induction {source : String}
    {P : Position → List Char → List Token → Prop} (nil : ∀ p, P p [] [])
    (gap : ∀ {p c cs ts}, isGap c = true → P (Position.advance p c) cs ts → P p (c :: cs) ts)
    (word : ∀ {p cs l ts}, Lexeme.read? (l.text.toList ++ cs) = some l →
      P (Position.after p l.text.toList) cs ts →
      P p (l.text.toList ++ cs) (⟨l, ⟨p, p.after l.text.toList, source⟩⟩ :: ts))
    {p : Position} {cs : List Char} {ts : List Token} (h : scanFrom source p cs = .ok ts) :
    P p cs ts := by
  induction hn : cs.length using Nat.strongRecOn generalizing p cs ts with
  | _ n ih =>
    subst hn
    rw [scanFrom.eq_def] at h
    split at h
    · cases h
      exact nil p
    · next c rest =>
      split at h
      · next hc => exact gap hc (ih _ (Nat.lt_succ_self _) h rfl)
      · split at h
        · cases h
        · next l hl =>
          dsimp only at h
          split at h
          · next us hus =>
            cases h
            have hpos := Lexeme.length_pos_of_read? hl
            obtain ⟨-, hcut⟩ := Lexeme.read?_eq_some hl
            rw [hcut]
            refine word (hcut ▸ hl) (ih _ ?_ hus rfl)
            simp only [List.length_drop, List.length_cons]
            omega
          · cases h

/-- The first place is before the second one in a text. -/
def Position.Before (p q : Position) : Prop :=
  p.line < q.line ∨ p.line = q.line ∧ p.column < q.column

namespace Position.Before

variable {p q r : Position}

theorem trans (h : p.Before q) (h' : q.Before r) : p.Before r := by
  unfold Before at *
  omega

theorem irrefl (p : Position) : ¬ p.Before p := by
  unfold Before
  omega

theorem advance (p : Position) (c : Char) : p.Before (p.advance c) := by
  unfold Position.advance
  split
  · exact .inl (Nat.lt_succ_self _)
  · exact .inr ⟨rfl, Nat.lt_add_of_pos_right c.utf8Size_pos⟩

theorem after {cs : List Char} (h : cs ≠ []) (p : Position) : p.Before (p.after cs) := by
  induction cs generalizing p with
  | nil => exact absurd rfl h
  | cons c cs ih =>
    rw [Position.after_cons]
    rcases cs with - | ⟨d, ds⟩
    · exact advance p c
    · exact (advance p c).trans (ih (List.cons_ne_nil d ds) _)

end Position.Before

/-! ### The tokens of a text -/

theorem toList_blankComments (text : String) :
    (blankComments text).toList = Comment.outside text.toList := by
  rw [blankComments, String.toList_ofList]

theorem Entry.tokens_eq_ok_iff {source : String} {ts : List Token} :
    tokens source = .ok ts ↔ Token.scan (blankComments source) = .ok ts := by
  rw [tokens]
  cases Token.scan (blankComments source) with
  | ok us => constructor <;> (rintro ⟨⟩; rfl)
  | error e => exact ⟨nofun, nofun⟩

/-- No two tokens of a text are the same, as each begins after the one before it. -/
theorem Token.nodup_of_scan {source : String} {ts : List Token}
    (h : scan source = .ok ts) :
    ts.Nodup := by
  refine (scanFrom_induction
    (P := fun p _ ts => (∀ t ∈ ts, p = t.span.start ∨ p.Before t.span.start) ∧ ts.Nodup)
    (fun _ => ⟨nofun, .nil⟩) ?_ ?_ h).2
  · rintro p c _ ts - ⟨hts, hnodup⟩
    refine ⟨fun t ht => .inr ?_, hnodup⟩
    rcases hts t ht with heq | hbefore
    · exact heq ▸ Position.Before.advance p c
    · exact (Position.Before.advance p c).trans hbefore
  · rintro p cs l ts hread ⟨hts, hnodup⟩
    have hlater (t : Token) (ht : t ∈ ts) : p.Before t.span.start := by
      have hword := Position.Before.after (Lexeme.read?_eq_some hread).1 p
      rcases hts t ht with heq | hbefore
      · exact heq ▸ hword
      · exact hword.trans hbefore
    refine ⟨List.forall_mem_cons.mpr ⟨.inl rfl, fun t ht => .inr (hlater t ht)⟩,
      List.nodup_cons.mpr ⟨fun hmem => ?_, hnodup⟩⟩
    exact Position.Before.irrefl p (hlater _ hmem)

/-- What is read as a name is one. -/
theorem Lexeme.isName_of_read? {cs : List Char} {name : String}
    (h : read? cs = some (.ident name)) :
    IsName name := by
  unfold read? at h
  split at h
  · cases h
  · next c rest =>
    split at h
    · next hc =>
      have hw := Option.some.inj h
      unfold ofWord at hw
      split at hw
      · cases hw
      · next hkey =>
        obtain rfl := Lexeme.ident.inj hw
        refine ⟨⟨?_, ?_⟩, ?_⟩
        · simp [isWordChar, hc]
        · simp
        · simpa using hkey
    · split at h
      · cases h
      · obtain ⟨t, -, ht⟩ := Option.map_eq_some_iff.mp h
        cases ht

/-- Each token was read from somewhere in the text, and its span says from where. -/
theorem Token.read_of_scan {source : String} {ts : List Token}
    (h : scan source = .ok ts) :
    ∀ t ∈ ts, ∃ before after, source.toList = before ++ (t.lexeme.text.toList ++ after) ∧
      Lexeme.read? (t.lexeme.text.toList ++ after) = some t.lexeme ∧
      t.span = ⟨Position.start.after before,
        (Position.start.after before).after t.lexeme.text.toList, source⟩ := by
  refine scanFrom_induction (P := fun p cs ts => ∀ before, source.toList = before ++ cs →
    p = Position.start.after before → ∀ t ∈ ts, ∃ before after,
      source.toList = before ++ (t.lexeme.text.toList ++ after) ∧
      Lexeme.read? (t.lexeme.text.toList ++ after) = some t.lexeme ∧
      t.span = ⟨Position.start.after before,
        (Position.start.after before).after t.lexeme.text.toList, source⟩)
    (fun _ _ _ _ => nofun) ?_ ?_ h [] rfl rfl
  · rintro p c cs ts - ih before hsource rfl
    refine ih (before ++ [c]) (by simp [hsource]) ?_
    rw [Position.after_append]
    rfl
  · rintro p cs l ts hread ih before hsource rfl
    refine List.forall_mem_cons.mpr ⟨⟨before, cs, hsource, hread, rfl⟩,
      ih (before ++ l.text.toList) ?_ ?_⟩
    · rw [hsource, List.append_assoc]
    · rw [Position.after_append]

theorem Token.isName_of_scan {source : String} {ts : List Token}
    (h : scan source = .ok ts)
    {t : Token} (ht : t ∈ ts) {name : String} (hname : t.lexeme = .ident name) : IsName name := by
  obtain ⟨-, after, -, hread, -⟩ := read_of_scan h t ht
  rw [hname] at hread
  exact Lexeme.isName_of_read? hread

end Implet
