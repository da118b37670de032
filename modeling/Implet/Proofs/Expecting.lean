/-
Implet/Proofs/Expecting.lean

What an error says was expected, and whether that can stand where the error was
raised.

`Expectation.Fits x e us` says that it can: after `us`, something of the kind
that `x` names goes on as the beginning of a phrase of `e`.  There is one way to
miss this, `AwaitsClosing`: an expression after an opening parenthesis is over,
so that it is a closing parenthesis that is missing, and the error has been
labelled with what was looked for before the opening one.  `Expectation.Apt` is
one or the other.

`Parser.Expects S p e` refines `Parser.Reports`: all errors that the reader
raises or remembers name one expectation each, which is apt where the error was
raised, and what it fails with is one of `S`.  `Parser.Recounts` is the same
without the error that it fails with, which is enough for a reader that is tried
before another one.  There is one rule for each way of putting readers together,
except that a label is a matter of where exactly the reader below it fails.
-/
import Implet.Proofs.Reporting

namespace Implet

open Grammar

/-! ### What can stand in a place -/

namespace Expectation

/-- The right side that yields what is looked for.  A text of its own names nothing. -/
def kind : Expectation → Option Ebnf
  | terminal t => some (.terminal t)
  | identifier | functionName => some .ident
  | integer => some .integer
  | boolean => some (.alt [.terminal .kwTrue, .terminal .kwFalse])
  | expression => some (.nonterminal .expression)
  | statement => some (.nonterminal .statement)
  | type => some (.nonterminal .type)
  | named _ => none

/-- After `us`, something of the kind that is looked for goes on as the
beginning of a phrase of `e`. -/
def Fits (x : Expectation) (e : Ebnf) (us : List Token) : Prop :=
  ∃ k ∈ x.kind, ∃ ws, Yields k ws ∧ Starts e (us ++ ws)

/-- No restriction on what is looked for. -/
abbrev Any (_ : Expectation) : Prop := True

end Expectation

/-- The tokens end with an opening parenthesis and an expression after it, the
last word of which is no name, so that no arguments can come. -/
def AwaitsClosing (ts : List Token) : Prop :=
  ∃ us s es, ts = us ++ ⟨.fixed .leftParen, s⟩ :: es ∧ Yields (.nonterminal .expression) es ∧
    ∀ name s', es.getLast? ≠ some ⟨.ident name, s'⟩

/-- What was expected fits, or it is an expression where one is over. -/
def Expectation.Apt (x : Expectation) (e : Ebnf) (us : List Token) : Prop :=
  x.Fits e us ∨ x = .expression ∧ AwaitsClosing us

variable {e e₁ e₂ k : Ebnf} {x : Expectation} {ts us vs : List Token}
  {f f' f'' : Option (Nat × ParseError)} {err : ParseError}

/-- At the beginning of a phrase. -/
theorem Expectation.Fits.first (hk : x.kind = some k) (h : Productive k)
    (he : ∀ ⦃ws⦄, Yields k ws → Yields e ws) : x.Fits e [] := by
  obtain ⟨ws, hw⟩ := h
  exact ⟨k, hk, ws, hw, .of_yields (he hw)⟩

namespace Expectation.Apt

/-- More tokens before the place. -/
theorem prepend (h : x.Apt e us) (vs : List Token)
    (he : ∀ ⦃ws⦄, Starts e ws → Starts e₁ (vs ++ ws)) : x.Apt e₁ (vs ++ us) := by
  rcases h with ⟨k, hk, ws, hw, hs⟩ | ⟨hx, us', s, es, rfl, h⟩
  · exact .inl ⟨k, hk, ws, hw, by rw [List.append_assoc]; exact he hs⟩
  · exact .inr ⟨hx, vs ++ us', s, es, (List.append_assoc ..).symm, h⟩

theorem mono (h : x.Apt e us) (he : ∀ ⦃ws⦄, Starts e ws → Starts e₁ ws) : x.Apt e₁ us :=
  h.prepend [] he

end Expectation.Apt

theorem Cursor.expected_complaint (c : Cursor) (x : Expectation) :
    (c.complaint x).expected = [x] := by
  unfold complaint
  split <;> rfl

namespace Parser

/-! ### Errors that are remembered -/

/-- From the tokens `ts` on, what is remembered stays the same, or it becomes an
error with one expectation that is apt at its place in a phrase of `e`. -/
inductive Recalls (e : Ebnf) (ts : List Token) (f : Option (Nat × ParseError)) :
    Option (Nat × ParseError) → Prop
  | same : Recalls e ts f f
  | new {us vs : List Token} {x : Expectation} {fault : ParseFault} (hts : ts = us ++ vs)
      (hx : x.Apt e us) : Recalls e ts f (some (vs.length, ⟨fault, [x]⟩))

namespace Recalls

/-- One run after another, where the second goes on after `us`. -/
theorem trans (h : Recalls e ts f f') (hts : ts = us ++ vs) (h' : Recalls e₂ vs f' f'')
    (he : ∀ ⦃ws⦄, Starts e₂ ws → Starts e (us ++ ws)) : Recalls e ts f f'' := by
  cases h' with
  | same => exact h
  | new hvs hx => exact .new (by rw [hts, hvs, List.append_assoc]) (hx.prepend us he)

/-- Two runs from the same place. -/
theorem again (h : Recalls e ts f f') (h' : Recalls e ts f' f'') : Recalls e ts f f'' :=
  h.trans (List.nil_append ts).symm h' fun _ hs => hs

theorem mono (h : Recalls e ts f f') (he : ∀ ⦃us⦄, Starts e us → Starts e₁ us) :
    Recalls e₁ ts f f' :=
  same.trans (List.nil_append ts).symm h he

theorem record {c : Cursor} (hts : ts = us ++ c.rest) (hx : x.Apt e us)
    (herr : err.expected = [x]) : Recalls e ts c.furthest (c.record err).furthest := by
  obtain ⟨fault, _⟩ := err
  obtain rfl := herr
  unfold Cursor.record
  split
  · split
    · exact .same
    · exact .new hts hx
  · exact .new hts hx

/-- What an error that is remembered says, if nothing was remembered before. -/
theorem place {n : Nat} (h : Recalls e ts none (some (n, err))) :
    ∃ us vs x, ts = us ++ vs ∧ vs.length = n ∧ err.expected = [x] ∧ x.Apt e us := by
  cases h with
  | new hts hx => exact ⟨_, _, _, hts, rfl, rfl, hx⟩

end Recalls

/-! ### The judgements -/

variable {α β : Type} {p q : Parser α} {g : α → Parser β} {S S' : Expectation → Prop}

/-- All errors that the reader of phrases of `e` remembers say what is apt. -/
structure Recounts (p : Parser α) (e : Ebnf) : Prop extends Tracks 0 p p e where
  recalls (c : Cursor) : Recalls e c.rest c.furthest (p c).2.furthest

/-- A reader of phrases of `e` that also fails with an error that says what is
apt, which is one of `S`. -/
structure Expects (S : Expectation → Prop) (p : Parser α) (e : Ebnf) : Prop
    extends Reports 0 p p e where
  recalls (c : Cursor) : Recalls e c.rest c.furthest (p c).2.furthest
  error {c c' : Cursor} {err : ParseError} (h : p c = (.error err, c')) :
    ∃ us, c.rest = us ++ c'.rest ∧ ∃ x, S x ∧ err.expected = [x] ∧ x.Apt e us

theorem Recounts.mono (h : Recounts p e) (he : ∀ ⦃us⦄, Yields e us → Yields e₁ us) :
    Recounts p e₁ where
  toTracks := h.toTracks.mono (Nat.le_refl 0) he
  recalls c := (h.recalls c).mono fun _ hs => hs.mono he

namespace Expects

theorem recounts (h : Expects S p e) : Recounts p e := ⟨h.toTracks, h.recalls⟩

theorem weaken (h : Expects S p e) (he : ∀ ⦃us⦄, Yields e us → Yields e₁ us) :
    Expects S p e₁ where
  toReports := h.toReports.weaken he
  recalls c := (h.recalls c).mono fun _ hs => hs.mono he
  error hc := by
    obtain ⟨us, hus, x, hx, herr, hapt⟩ := h.error hc
    exact ⟨us, hus, x, hx, herr, hapt.mono fun _ hs => hs.mono he⟩

/-- More expectations. -/
theorem among (h : Expects S p e) (hS : ∀ x, S x → S' x) : Expects S' p e where
  toReports := h.toReports
  recalls := h.recalls
  error hc := by
    obtain ⟨us, hus, x, hx, h⟩ := h.error hc
    exact ⟨us, hus, x, hS x hx, h⟩

theorem any (h : Expects S p e) : Expects Expectation.Any p e :=
  h.among fun _ _ => trivial

theorem rule {n : Nonterminal} (h : Expects S p n.rule) : Expects S p (.nonterminal n) :=
  h.weaken fun _ hus => hus.rule

theorem alt {es : List Ebnf} (h : Expects S p e) (he : e ∈ es) : Expects S p (.alt es) :=
  h.weaken fun _ hus => hus.alt he

/-- A sequence of one. -/
theorem alone (h : Expects S p e) : Expects S p (.seq [e]) :=
  h.weaken fun _ hus => hus.imp fun _ hd => Derives.seq_singleton_iff.mpr hd

end Expects

/-! ### One reader after another -/

theorem Expects.pure {a : α} (he : Yields e []) : Expects S (Pure.pure a) e where
  toReports := .pure he
  recalls c := .same
  error := by rintro c _ _ ⟨⟩

section After

variable {r : Parser β} {c c' c'' : Cursor} {a : α}

theorem Recounts.recalls_after (hp : Recounts p e₁) (hr : Expects S r e₂)
    (he : Joins e₁ e₂ e) (h₂ : Productive e₂) (hc : p c = (.ok a, c')) :
    Recalls e c.rest c.furthest (r c').2.furthest := by
  have hn := hp.recalls c
  rw [hc] at hn
  obtain ⟨us, hus, hy⟩ := hp.explains.ok hc
  exact (hn.mono fun _ hs => hs.join_left he h₂).trans hus (hr.recalls c') fun _ hs =>
    .join_right hy hs he

theorem Recounts.error_after (hp : Recounts p e₁) (hr : Expects S r e₂)
    (he : Joins e₁ e₂ e) (hc : p c = (.ok a, c')) (hc' : r c' = (.error err, c'')) :
    ∃ us, c.rest = us ++ c''.rest ∧ ∃ x, S x ∧ err.expected = [x] ∧ x.Apt e us := by
  obtain ⟨us, hus, hy⟩ := hp.explains.ok hc
  obtain ⟨vs, hvs, x, hx, herr, hapt⟩ := hr.error hc'
  exact ⟨us ++ vs, by rw [hus, hvs, List.append_assoc], x, hx, herr,
    hapt.prepend us fun _ hs => .join_right hy hs he⟩

end After

theorem Expects.bind (hp : Expects S p e₁) (hg : ∀ a, Expects S (g a) e₂)
    (he : Joins e₁ e₂ e) (h₂ : Productive e₂) : Expects S (p >>= g) e where
  toReports := hp.toReports.bind (fun a => (hg a).toReports) he h₂ fun _ _ => Nat.zero_le _
  recalls c := by
    have hn := hp.recalls c
    change Recalls e c.rest c.furthest (Parser.bind p g c).2.furthest
    unfold Parser.bind
    rcases hc : p c with ⟨err | a, c'⟩
    · rw [hc] at hn
      exact hn.mono fun _ hs => hs.join_left he h₂
    · exact hp.recounts.recalls_after (hg a) he h₂ hc
  error := by
    intro c c'' err h
    rcases bind_error_iff.mp h with hc | ⟨a, c', hc, hc'⟩
    · obtain ⟨us, hus, x, hx, herr, hapt⟩ := hp.error hc
      exact ⟨us, hus, x, hx, herr, hapt.mono fun _ hs => hs.join_left he h₂⟩
    · exact hp.recounts.error_after (hg a) he hc hc'

/-- One sequence after the other. -/
theorem Expects.append {es fs : List Ebnf} (hp : Expects S p (.seq es))
    (hg : ∀ a, Expects S (g a) (.seq fs)) (hfs : Productive (.seq fs)) :
    Expects S (p >>= g) (.seq (es ++ fs)) := hp.bind hg .append hfs

/-- One more at the front of a sequence. -/
theorem Expects.next {es : List Ebnf} (hp : Expects S p e)
    (hg : ∀ a, Expects S (g a) (.seq es))
    (hes : Productive (.seq es)) : Expects S (p >>= g) (.seq (e :: es)) := hp.bind hg .seq hes

/-- Another value for the same tokens. -/
theorem Expects.map {v : α → β} (hp : Expects S p e) : Expects S (v <$> p) e :=
  hp.bind (fun _ => .pure .seq_nil) .done (by simp)

/-! ### Trying one reader before another -/

theorem Expects.attempt {q : Parser β} (hp : Recounts p e₁) (hg : ∀ a, Expects S (g a) e₂)
    (hq : Expects S q e) (he : Joins e₁ e₂ e) (h₂ : Productive e₂) :
    Expects S (Parser.attempt p g q) e where
  toReports := .attempt hp.toTracks (fun a => (hg a).toReports) hq.toReports he h₂
    fun _ _ => Nat.zero_le _
  recalls c := by
    have hn : Recalls e c.rest c.furthest (p c).2.furthest :=
      (hp.recalls c).mono fun _ hs => hs.join_left he h₂
    unfold Parser.attempt
    rcases hc : p c with ⟨err | a, c'⟩
    · rw [hc] at hn
      exact hn.again (hq.recalls ⟨c.rest, c'.furthest⟩)
    · exact hp.recalls_after (hg a) he h₂ hc
  error := by
    intro c c'' err h
    unfold Parser.attempt at h
    split at h
    · next a c' hc => exact hp.error_after (hg a) he hc h
    · next c' _ => exact hq.error (c := ⟨c.rest, c'.furthest⟩) h

theorem Expects.or (hp : Recounts p e) (hq : Expects S q e) : Expects S (p.or q) e := by
  rw [or_eq_attempt]
  exact .attempt hp (fun _ => .pure .seq_nil) hq .done (by simp)

theorem Expects.optional (hp : Recounts p e) : Expects S p.optional (.opt e) := by
  rw [optional_eq_attempt]
  have he : Joins e (.seq []) (.opt e) := fun _ _ h h' => (Joins.done h h').opt
  exact .attempt hp (fun _ => .pure .seq_nil) (.pure .opt_nil) he (by simp)

/-- The error of a choice is that of the second reader. -/
theorem or_error {c c'' : Cursor} (h : p.or q c = (.error err, c'')) :
    ∃ f, q ⟨c.rest, f⟩ = (.error err, c'') := by
  unfold Parser.or at h
  split at h
  · cases h
  · next c' _ => exact ⟨c'.furthest, h⟩

/-! ### Labels -/

/-- A label is apt if it is wherever the reader fails. -/
theorem Expects.label (hx : S x) (hp : Expects S' p e)
    (h : ∀ {c c' err us}, p c = (.error err, c') → c.rest = us ++ c'.rest → x.Apt e us) :
    Expects S (p.label x) e where
  toReports := hp.toReports.label
  recalls c := by
    have hn := hp.recalls c
    unfold Parser.label
    rcases hc : p c with ⟨err | a, c'⟩ <;> rw [hc] at hn
    · obtain ⟨us, hus, -⟩ := hp.error hc
      exact hn.again (.record hus (h hc hus) rfl)
    · exact hn
  error := by
    intro c c'' err hc
    unfold Parser.label at hc
    split at hc
    · cases hc
    · next err' c' hc' =>
      cases hc
      obtain ⟨us, hus, -⟩ := hp.error hc'
      exact ⟨us, by rw [rest_record, hus], x, hx, rfl, h hc' hus⟩

/-- The reader takes nothing when it fails. -/
def Declines (p : Parser α) : Prop :=
  ∀ ⦃c c' err⦄, p c = (.error err, c') → c'.rest = c.rest

/-- The label of a reader that takes nothing when it fails. -/
theorem Expects.label_first (hx : S x) (hp : Expects S' p e) (hd : Declines p)
    (h : x.Fits e []) : Expects S (p.label x) e := by
  refine .label hx hp fun hc hus => ?_
  rw [hd hc, List.self_eq_append_left] at hus
  exact hus ▸ .inl h

theorem Declines.expected : Declines (Parser.expected (α := α) x) := by
  rintro c _ _ ⟨⟩
  exact rest_record c _

theorem Declines.single {accept : Token → Option α} (h : Declines p) :
    Declines (single accept p) := by
  intro c c' err hc
  unfold Parser.single at hc
  split at hc
  · cases hc
  · exact h hc

theorem Declines.terminal {t : Terminal} : Declines (Parser.terminal t) := by
  rw [terminal_eq_single]
  exact .single .expected

theorem Declines.map {v : α → β} (h : Declines p) : Declines (v <$> p) := by
  intro c c' err hc
  rcases bind_error_iff.mp hc with hc | ⟨a, d, -, ⟨⟩⟩
  exact h hc

theorem Declines.or (h : Declines q) : Declines (p.or q) := by
  intro c c' err hc
  obtain ⟨f, hc⟩ := or_error hc
  exact (h hc :)

/-! ### Looking ahead and counting -/

theorem Expects.peek {F : Option Token → Parser β} (h : ∀ o, Expects S (F o) e) :
    Expects S (Parser.peek >>= F) e where
  toReports := .peek fun o => (h o).toReports
  recalls c := (h c.rest.head?).recalls c
  error {c _ _} hc := (h c.rest.head?).error hc

theorem Expects.remaining {F : Nat → Parser β} (h : ∀ n, Expects S (F n) e) :
    Expects S (Parser.remaining >>= F) e where
  toReports := .remaining fun m _ j hj _ _ => by
    obtain rfl := Nat.le_zero.mp hj
    exact (h m).toReports.zero
  recalls c := (h c.rest.length).recalls c
  error {c _ _} hc := (h c.rest.length).error hc

/-! ### Single tokens -/

theorem Expects.expected (hx : S x) (he : Productive e) (h : x.Fits e []) :
    Expects S (Parser.expected (α := α) x) e where
  toReports := .expected he
  recalls c := .record (List.nil_append _).symm (.inl h) (c.expected_complaint x)
  error := by
    rintro c _ _ ⟨⟩
    exact ⟨[], by simp, x, hx, c.expected_complaint x, .inl h⟩

/-- A reader of one token says what the one says that it leaves the other tokens to. -/
theorem Recounts.single {accept : Token → Option α}
    (ht : Tracks 0 (Parser.single accept p) (Parser.single accept p) e)
    (h : ∀ c, Recalls e c.rest c.furthest (p c).2.furthest) :
    Recounts (Parser.single accept p) e where
  toTracks := ht
  recalls c := by
    unfold Parser.single
    split
    · exact .same
    · exact h c

theorem Expects.single {accept : Token → Option α}
    (hr : Reports 0 (Parser.single accept p) (Parser.single accept p) e) (h : Expects S p e) :
    Expects S (Parser.single accept p) e where
  toReports := hr
  recalls := (Recounts.single hr.toTracks h.recalls).recalls
  error := by
    intro c c' err hc
    unfold Parser.single at hc
    split at hc
    · cases hc
    · exact h.error hc

theorem Expects.terminal {t : Terminal} (ht : S (.terminal t)) :
    Expects S (Parser.terminal t) (.terminal t) := by
  have hr := Reports.terminal (k := 0) (t := t)
  rw [terminal_eq_single] at hr ⊢
  exact .single hr (.expected ht (by simp) (.first rfl (by simp) fun _ h => h))

/-! ### Repetitions -/

theorem Expects.manyWithin (hp : Recounts p e) (rounds : Nat) :
    Expects S (Parser.manyWithin rounds p) (.many e) := by
  induction rounds with
  | zero =>
    unfold Parser.manyWithin
    rw [optional_bind_eq_attempt]
    exact .attempt hp (fun _ => .pure .many_nil) (.pure .many_nil) .many (by simp)
  | succ rounds ih =>
    unfold Parser.manyWithin
    rw [optional_bind_eq_attempt]
    exact .attempt hp (fun _ => ih.map) (.pure .many_nil) .many (by simp)

theorem Expects.many (hp : Recounts p e) : Expects S p.many (.many e) :=
  .remaining fun _ => .manyWithin hp _

theorem Expects.separatedWithin {r : Parser β} {e' : Ebnf} (hp : Expects S p e)
    (hr : Recounts r e') (he : Productive e) (rounds : Nat) :
    Expects S (Parser.separatedWithin rounds p r) (.many (.seq [e', e])) := by
  induction rounds with
  | zero =>
    unfold Parser.separatedWithin
    rw [optional_bind_eq_attempt]
    refine .attempt hr (fun _ => ?_) (.pure .many_nil) .many_seq (by simp [he])
    exact hp.next (fun _ => .pure (Joins.seq .many_nil .seq_nil)) (by simp)
  | succ rounds ih =>
    unfold Parser.separatedWithin
    rw [optional_bind_eq_attempt]
    refine .attempt hr (fun _ => ?_) (.pure .many_nil) .many_seq (by simp [he])
    exact hp.next (fun _ => ih.map.alone) (by simp)

theorem Expects.separated (hp : Expects S p e) (he : Productive e) :
    Expects S (p.separated (Parser.terminal .comma)) (.commaList e) := by
  unfold Parser.separated
  rw [optional_bind_eq_attempt]
  have hjoin : Joins e (.seq [.many (.seq [.terminal .comma, e])]) (.commaList e) :=
    fun _ _ h h' => (Joins.seq h h').opt
  refine .attempt hp.recounts (fun _ => ?_) (.pure .opt_nil) hjoin (by simp)
  refine .alone (.remaining fun rounds => .map ?_)
  exact hp.separatedWithin (Expects.terminal (S := Expectation.Any) trivial).recounts he rounds

end Parser

end Implet
