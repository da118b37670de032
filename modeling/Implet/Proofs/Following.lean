/-
Implet/Proofs/Following.lean

What a reader remembers of the errors that it meets, and how far it looks.

`Parser.Explains p e` is about one run of `p`: the tokens that it takes derive
from `e`, and each error that it raises or remembers is at a place where the
tokens before it begin a phrase of `e`.

`Parser.InStep k p q` compares two runs, on tokens that begin with the same `P`,
of which there are at most `k`.  The reader decides on one token at a time, so
what comes after `P` makes a difference only to a run that has all of `P` behind
it: it took `P`, or it remembers an error after `P`.  Two readers are compared
since the bounds on rounds and nestings depend on how many tokens there are; `k`
of them are enough as long as it is `P` that is read.

`Parser.Tracks` is both, and `Parser.Reports` adds that no failure goes
unnoticed: a run that fails leaves an error remembered at least as far on as
where it began.  There is one rule for each way of putting readers together.
-/
import Implet.Proofs.ReadingSound

namespace Implet

/-! ### Phrases and their beginnings -/

namespace Grammar

/-- The tokens derive from `e`. -/
def Yields (e : Ebnf) (ts : List Token) : Prop := ∃ ps, Derives e ts ps

/-- The tokens are the beginning of some that derive from `e`. -/
def Starts (e : Ebnf) (ts : List Token) : Prop := ∃ us, Yields e (ts ++ us)

/-- Some tokens derive from `e`. -/
def Productive (e : Ebnf) : Prop := ∃ ts, Yields e ts

/-- What derives from `e₁`, and what derives from `e₂` after it, derive from `e`
together. -/
def Joins (e₁ e₂ e : Ebnf) : Prop :=
  ∀ ⦃ts us⦄, Yields e₁ ts → Yields e₂ us → Yields e (ts ++ us)

variable {e e₁ e₂ : Ebnf} {es fs : List Ebnf} {ts us : List Token}

theorem Yields.rule {n : Nonterminal} (h : Yields n.rule ts) :
    Yields (.nonterminal n) ts := by
  obtain ⟨ps, h⟩ := h
  exact ⟨_, Derives.nonterminal_iff.mpr ⟨ps, h, rfl⟩⟩

theorem Yields.alt (h : Yields e ts) (he : e ∈ es) : Yields (.alt es) ts := by
  obtain ⟨ps, h⟩ := h
  exact ⟨ps, Derives.alt_iff.mpr ⟨e, he, h⟩⟩

theorem Yields.alt_mono (h : Yields (.alt es) ts) (hs : es ⊆ fs) :
    Yields (.alt fs) ts := by
  obtain ⟨ps, h⟩ := h
  obtain ⟨e, he, h⟩ := Derives.alt_iff.mp h
  exact ⟨ps, Derives.alt_iff.mpr ⟨e, hs he, h⟩⟩

theorem Yields.opt (h : Yields e ts) : Yields (.opt e) ts := by
  obtain ⟨ps, h⟩ := h
  exact ⟨ps, Derives.opt_iff.mpr (.inr h)⟩

theorem Yields.many_nil : Yields (.many e) [] := ⟨_, Derives.many_nil⟩

theorem Yields.opt_nil : Yields (.opt e) [] := ⟨_, Derives.opt_iff.mpr (.inl ⟨rfl, rfl⟩)⟩

theorem Yields.seq_nil : Yields (.seq []) [] := ⟨_, Derives.seq_nil⟩

theorem Joins.seq : Joins e (.seq es) (.seq (e :: es)) := by
  rintro ts us ⟨ps, h⟩ ⟨qs, h'⟩
  exact ⟨_, h.seq_cons h'⟩

theorem Joins.append : Joins (.seq es) (.seq fs) (.seq (es ++ fs)) := by
  rintro ts us ⟨ps, h⟩ ⟨qs, h'⟩
  exact ⟨_, h.seq_append h'⟩

theorem Joins.many : Joins e (.many e) (.many e) := by
  rintro ts us ⟨ps, h⟩ ⟨qs, h'⟩
  exact ⟨_, h.many_cons h'⟩

/-- One more round of two phrases. -/
theorem Joins.many_seq :
    Joins e₁ (.seq [e₂, .many (.seq [e₁, e₂])]) (.many (.seq [e₁, e₂])) := by
  rintro ts us h ⟨qs, h'⟩
  obtain ⟨vs, ws, _, _, rfl, rfl, h₂, h'⟩ := Derives.seq_cons_iff.mp h'
  rw [← List.append_assoc]
  refine Joins.many (Joins.seq h ?_) ⟨_, Derives.seq_singleton_iff.mp h'⟩
  exact ⟨_, Derives.seq_singleton_iff.mpr h₂⟩

/-- Nothing more after a phrase. -/
theorem Joins.done : Joins e (.seq []) e := by
  rintro ts us h ⟨qs, h'⟩
  obtain ⟨rfl, -⟩ := Derives.seq_nil_iff.mp h'
  rwa [List.append_nil]

theorem Starts.mono (h : Starts e ts) (he : ∀ ⦃us⦄, Yields e us → Yields e₁ us) :
    Starts e₁ ts :=
  h.imp fun _ h => he h

theorem Starts.of_yields (h : Yields e ts) : Starts e ts := ⟨[], by rwa [List.append_nil]⟩

/-- A beginning of a beginning. -/
theorem Starts.of_append (h : Starts e (ts ++ us)) : Starts e ts := by
  obtain ⟨vs, h⟩ := h
  exact ⟨us ++ vs, by rwa [← List.append_assoc]⟩

/-- A beginning of the first part begins the whole, as something can come after it. -/
theorem Starts.join_left (h : Starts e₁ ts) (he : Joins e₁ e₂ e) (h₂ : Productive e₂) :
    Starts e ts := by
  obtain ⟨us, h⟩ := h
  obtain ⟨vs, h₂⟩ := h₂
  exact ⟨us ++ vs, by rw [← List.append_assoc]; exact he h h₂⟩

theorem Starts.join_right (h : Yields e₁ ts) (h' : Starts e₂ us) (he : Joins e₁ e₂ e) :
    Starts e (ts ++ us) := by
  obtain ⟨vs, h'⟩ := h'
  exact ⟨vs, by rw [List.append_assoc]; exact he h h'⟩

/-! ### All right sides are productive -/

@[simp] theorem productive_terminal (t : Terminal) : Productive (.terminal t) :=
  ⟨[⟨.fixed t, .empty⟩], _, Derives.terminal_iff.mpr ⟨.empty, rfl, rfl⟩⟩

@[simp] theorem productive_ident : Productive .ident :=
  ⟨[⟨.ident "", .empty⟩], _, Derives.ident_iff.mpr ⟨"", .empty, rfl, rfl⟩⟩

@[simp] theorem productive_integer : Productive .integer := by
  have fits : (Lexeme.integer "0").Fits := by
    show Expr.digitsValue "0".toList < Nat.pow 2 63
    decide
  exact ⟨[⟨.integer "0", .empty⟩], _, Derives.integer_iff.mpr ⟨"0", .empty, rfl, rfl, fits⟩⟩

@[simp] theorem productive_opt (e : Ebnf) : Productive (.opt e) := ⟨[], .opt_nil⟩

@[simp] theorem productive_many (e : Ebnf) : Productive (.many e) := ⟨[], .many_nil⟩

@[simp] theorem productive_commaList (e : Ebnf) : Productive (.commaList e) :=
  productive_opt _

@[simp] theorem productive_seq_nil : Productive (.seq []) := ⟨[], .seq_nil⟩

@[simp] theorem productive_seq_cons :
    Productive (.seq (e :: es)) ↔ Productive e ∧ Productive (.seq es) := by
  constructor
  · rintro ⟨_, _, h⟩
    obtain ⟨ts, us, ps, qs, rfl, rfl, he, hes⟩ := Derives.seq_cons_iff.mp h
    exact ⟨⟨ts, ps, he⟩, us, qs, hes⟩
  · rintro ⟨⟨ts, h⟩, us, h'⟩
    exact ⟨ts ++ us, Joins.seq h h'⟩

theorem Productive.alt (h : Productive e) (he : e ∈ es) : Productive (.alt es) :=
  h.imp fun _ h => h.alt he

theorem Productive.rule {n : Nonterminal} (h : Productive n.rule) :
    Productive (.nonterminal n) :=
  h.imp fun _ h => h.rule

theorem Productive.operated {n m : Nonterminal} {ops : List Terminal}
    (hn : n.rule = .operated m ops)
    (h : Productive (.nonterminal m)) : Productive (.nonterminal n) :=
  .rule (by simp [hn, Ebnf.operated, h])

@[simp] theorem productive_nonterminal (n : Nonterminal) :
    Productive (.nonterminal n) := by
  have primary : Productive (.nonterminal .primary) :=
    .rule (productive_ident.alt (by simp))
  have term : Productive (.nonterminal .term) := primary.operated rfl
  have additive : Productive (.nonterminal .additive) := term.operated rfl
  have comparison : Productive (.nonterminal .comparison) := additive.operated rfl
  have equality : Productive (.nonterminal .equality) := comparison.operated rfl
  have and : Productive (.nonterminal .and) := equality.operated rfl
  have or : Productive (.nonterminal .or) := and.operated rfl
  have expression : Productive (.nonterminal .expression) := .rule or
  have assignment : Productive (.nonterminal .assignment) :=
    .rule (by simp [Nonterminal.rule, expression])
  have statement : Productive (.nonterminal .statement) :=
    .rule (assignment.alt (by simp))
  have type : Productive (.nonterminal .type) :=
    .rule ((productive_terminal .kwInt).alt (by simp))
  have block : Productive (.nonterminal .block) := .rule (by simp [Nonterminal.rule])
  cases n with
  | unit => exact .rule ((productive_many (.nonterminal .item)).alt (by simp))
  | item => exact .rule (statement.alt (by simp))
  | function | param | declaration | cond | loop | ret | call =>
    exact .rule (by simp [Nonterminal.rule, type, block, expression, statement])
  | type | block | statement | assignment | expression | or | and | equality | comparison
    | additive | term | primary => assumption

end Grammar

open Grammar

/-! ### Errors and their places -/

/-- The error was raised at the token of this index, or at the end for the index
after the last. -/
def ParseError.RaisedAt (err : ParseError) (ts : List Token) (i : Nat) : Prop :=
  match err.fault with
  | .unexpected token => ts[i]? = some token
  | .endOfInput => i = ts.length
  | .literalOutOfRange digits span => ts[i]? = some ⟨.integer digits, span⟩
  | .lexing _ => False

theorem ParseError.RaisedAt.append {err : ParseError} {us : List Token}
    (h : err.RaisedAt us 0) (ts : List Token) : err.RaisedAt (ts ++ us) ts.length := by
  unfold RaisedAt at h ⊢
  split at h
  · rwa [List.getElem?_append_right (Nat.le_refl _), Nat.sub_self]
  · rw [List.length_append, ← h, Nat.add_zero]
  · rwa [List.getElem?_append_right (Nat.le_refl _), Nat.sub_self]
  · exact h

theorem Cursor.raisedAt_complaint (c : Cursor) (x : Expectation) :
    (c.complaint x).RaisedAt c.rest 0 := by
  unfold complaint
  split
  · next h => simp [ParseError.RaisedAt, h]
  · next h => simp [ParseError.RaisedAt, h]

namespace Parser

variable {e e₁ e₂ : Ebnf} {ts us : List Token} {f f' f'' : Option (Nat × ParseError)}
  {left left' : Nat} {err : ParseError}

/-- The error that is remembered was raised where at most `left` tokens were left. -/
def Reached (f : Option (Nat × ParseError)) (left : Nat) : Prop := ∃ m ∈ f, m.1 ≤ left

theorem Reached.mono (h : Reached f left) (hle : left ≤ left') : Reached f left' :=
  h.imp fun _ h => ⟨h.1, Nat.le_trans h.2 hle⟩

/-- From the tokens `ts` on, what is remembered stays the same, or it becomes an
error at least as far on, at a place where the tokens from `ts` on begin a
phrase of `e`. -/
inductive Notes (e : Ebnf) (ts : List Token) (f : Option (Nat × ParseError)) :
    Option (Nat × ParseError) → Prop
  | same : Notes e ts f f
  | further (us : List Token) {vs : List Token} {err : ParseError} (hts : ts = us ++ vs)
      (hstarts : Starts e us) (hraised : err.RaisedAt vs 0) (hle : ∀ m ∈ f, vs.length ≤ m.1) :
      Notes e ts f (some (vs.length, err))

namespace Notes

theorem mono (h : Notes e ts f f') (he : ∀ ⦃us⦄, Starts e us → Starts e₁ us) :
    Notes e₁ ts f f' := by
  cases h with
  | same => exact .same
  | further us hts hstarts hraised hle => exact .further us hts (he hstarts) hraised hle

theorem reached (h : Notes e ts f f') (hf : Reached f left) : Reached f' left := by
  obtain ⟨m, hm, hleft⟩ := hf
  cases h with
  | same => exact ⟨m, hm, hleft⟩
  | further us hts hstarts hraised hle => exact ⟨_, rfl, Nat.le_trans (hle m hm) hleft⟩

/-- Where an error that is remembered was raised, if it was not remembered before. -/
theorem place {n : Nat} (h : Notes e ts f f') (hf' : f' = some (n, err)) :
    f = f' ∨ ∃ us vs, ts = us ++ vs ∧ Starts e us ∧ vs.length = n := by
  cases h with
  | same => exact .inl rfl
  | further us hts hstarts =>
    cases hf'
    exact .inr ⟨us, _, hts, hstarts, rfl⟩

/-- One run after another, where the second goes on after `us`. -/
theorem trans {vs : List Token} (h : Notes e ts f f') (hts : ts = us ++ vs)
    (h' : Notes e₂ vs f' f'') (he : ∀ ⦃ws⦄, Starts e₂ ws → Starts e (us ++ ws)) :
    Notes e ts f f'' := by
  cases h' with
  | same => exact h
  | further ws hvs hstarts hraised hle =>
    refine .further (us ++ ws) (by rw [hts, hvs, List.append_assoc]) (he hstarts) hraised
      fun m hm => ?_
    cases h with
    | same => exact hle m hm
    | further _ _ _ _ hle' => exact Nat.le_trans (hle _ rfl) (hle' m hm)

/-- Two runs from the same place. -/
theorem again (h : Notes e ts f f') (h' : Notes e ts f' f'') : Notes e ts f f'' :=
  h.trans (List.nil_append ts).symm h' fun _ hs => hs

theorem record {c : Cursor} (hts : ts = us ++ c.rest) (hstarts : Starts e us)
    (hraised : err.RaisedAt c.rest 0) : Notes e ts c.furthest (c.record err).furthest := by
  unfold Cursor.record
  split
  · next left _ hc =>
    split
    · exact .same
    · next hleft =>
      refine .further us hts hstarts hraised fun m hm => ?_
      obtain rfl := Option.mem_unique hm hc
      exact Nat.le_of_not_lt hleft
  · next hc => exact .further us hts hstarts hraised (by simp [hc])

end Notes

theorem reached_record (c : Cursor) (err : ParseError) :
    Reached (c.record err).furthest c.rest.length := by
  unfold Cursor.record
  split
  · next left _ hc =>
    split
    · next hleft => exact ⟨_, hc, Nat.le_of_lt hleft⟩
    · exact ⟨_, rfl, Nat.le_refl _⟩
  · exact ⟨_, rfl, Nat.le_refl _⟩

@[simp] theorem rest_record (c : Cursor) (err : ParseError) :
    (c.record err).rest = c.rest := by
  unfold Cursor.record
  split
  · split <;> rfl
  · rfl

/-! ### The judgements -/

section

variable {α β : Type} {p q p' q' : Parser α} {g g' : α → Parser β} {k j : Nat}

/-- What a run of the reader takes derives from `e`, and all errors that it
meets are at places where what it has taken begins a phrase of `e`. -/
structure Explains (p : Parser α) (e : Ebnf) : Prop where
  ok {c c' : Cursor} {a : α} (h : p c = (.ok a, c')) : ∃ us, c.rest = us ++ c'.rest ∧ Yields e us
  error {c c' : Cursor} {err : ParseError} (h : p c = (.error err, c')) :
    ∃ us, c.rest = us ++ c'.rest ∧ Starts e us ∧ err.RaisedAt c'.rest 0
  notes (c : Cursor) : Notes e c.rest c.furthest (p c).2.furthest

/-- How two runs end that begin with the same tokens, before `T` and before `U`. -/
inductive Together (T U : List Token) :
    Except ParseError α × Cursor → Except ParseError α × Cursor → Prop
  /-- The first one remembers an error in `T`. -/
  | reached {r : Except ParseError α} {c : Cursor} {s : Except ParseError α × Cursor}
      (h : Reached c.furthest T.length) : Together T U (r, c) s
  /-- The first one has gone on to `T`. -/
  | passed {a : α} {c : Cursor} {s : Except ParseError α × Cursor} (h : c.rest.length ≤ T.length) :
      Together T U (.ok a, c) s
  | failed {err err' : ParseError} {c c' : Cursor} : Together T U (.error err, c) (.error err', c')
  /-- Both have read the same, and stand before `T` and `U`. -/
  | read {a : α} {P : List Token} {f f' : Option (Nat × ParseError)} (hP : P ≠ []) :
      Together T U (.ok a, ⟨P ++ T, f⟩) (.ok a, ⟨P ++ U, f'⟩)

/-- As long as they read the same tokens, of which there are at most `k`, the
two readers do the same. -/
def InStep (k : Nat) (p q : Parser α) : Prop :=
  ∀ ⦃P : List Token⦄ (T U : List Token) f f', P ≠ [] → P.length ≤ k →
    Together T U (p ⟨P ++ T, f⟩) (q ⟨P ++ U, f'⟩)

/-- A reader of phrases of `e`, and one that does the same on the first `k` tokens. -/
structure Tracks (k : Nat) (p q : Parser α) (e : Ebnf) : Prop where
  explains : Explains p e
  inStep : InStep k p q

/-- A reader that also remembers an error when it fails. -/
structure Reports (k : Nat) (p q : Parser α) (e : Ebnf) :
    Prop extends Tracks k p q e where
  reports {c c' : Cursor} {err : ParseError} (h : p c = (.error err, c')) :
    Reached c'.furthest c.rest.length

theorem Explains.mono (h : Explains p e) (he : ∀ ⦃us⦄, Yields e us → Yields e₁ us) :
    Explains p e₁ where
  ok hc := (h.ok hc).imp fun _ hus => ⟨hus.1, he hus.2⟩
  error hc := (h.error hc).imp fun _ hus => ⟨hus.1, hus.2.1.mono he, hus.2.2⟩
  notes c := (h.notes c).mono fun _ hs => hs.mono he

theorem InStep.mono (h : InStep k p q) (hj : j ≤ k) : InStep j p q :=
  fun _ T U f f' hP hk => h T U f f' hP (Nat.le_trans hk hj)

/-- Before no tokens there is nothing to compare. -/
theorem InStep.zero : InStep 0 p q :=
  fun _ _ _ _ _ hP hk => absurd (List.length_eq_zero_iff.mp (Nat.le_zero.mp hk)) hP

theorem Tracks.mono (h : Tracks k p q e) (hj : j ≤ k)
    (he : ∀ ⦃us⦄, Yields e us → Yields e₁ us) :
    Tracks j p q e₁ := ⟨h.explains.mono he, h.inStep.mono hj⟩

theorem Tracks.le (h : Tracks k p q e) (hj : j ≤ k) : Tracks j p q e :=
  h.mono hj fun _ hus => hus

namespace Reports

theorem mono (h : Reports k p q e) (hj : j ≤ k)
    (he : ∀ ⦃us⦄, Yields e us → Yields e₁ us) :
    Reports j p q e₁ :=
  ⟨h.toTracks.mono hj he, h.reports⟩

theorem le (h : Reports k p q e) (hj : j ≤ k) : Reports j p q e :=
  h.mono hj fun _ hus => hus

theorem weaken (h : Reports k p q e) (he : ∀ ⦃us⦄, Yields e us → Yields e₁ us) :
    Reports k p q e₁ :=
  h.mono (Nat.le_refl k) he

/-- Before no tokens the second reader does not matter. -/
theorem zero (h : Reports k p q e) : Reports 0 p q' e := ⟨⟨h.explains, .zero⟩, h.reports⟩

theorem rule {n : Nonterminal} (h : Reports k p q n.rule) :
    Reports k p q (.nonterminal n) :=
  h.weaken fun _ hus => hus.rule

theorem alt {es : List Ebnf} (h : Reports k p q e) (he : e ∈ es) :
    Reports k p q (.alt es) :=
  h.weaken fun _ hus => hus.alt he

/-- A sequence of one. -/
theorem alone (h : Reports k p q e) : Reports k p q (.seq [e]) :=
  h.weaken fun _ hus => hus.imp fun _ hd => Derives.seq_singleton_iff.mpr hd

end Reports

/-! ### Rules -/

theorem Reports.pure {a : α} (he : Yields e []) :
    Reports k (Pure.pure a) (Pure.pure a) e where
  explains.ok := by
    rintro c _ _ ⟨⟩
    exact ⟨[], rfl, he⟩
  explains.error := by rintro c _ _ ⟨⟩
  explains.notes c := .same
  inStep := fun P T U f f' hP _ => .read hP
  reports := by rintro c _ _ ⟨⟩

/-- A sequence that fails does so in one of its parts. -/
theorem bind_error_iff {c c'' : Cursor} :
    (p >>= g) c = (.error err, c'') ↔
      p c = (.error err, c'') ∨ ∃ a c', p c = (.ok a, c') ∧ g a c' = (.error err, c'') := by
  change Parser.bind p g c = _ ↔ _
  unfold Parser.bind
  rcases p c with ⟨_ | a, c'⟩
  · simp
  · simp [and_assoc]

/-! ### One reader after another -/

section After

variable {r : Parser β} {c c' c'' : Cursor} {a : α}

theorem Explains.ok_after (hp : Explains p e₁) (hr : Explains r e₂) (he : Joins e₁ e₂ e)
    {b : β} (hc : p c = (.ok a, c')) (hc' : r c' = (.ok b, c'')) :
    ∃ us, c.rest = us ++ c''.rest ∧ Yields e us := by
  obtain ⟨us, hus, hy⟩ := hp.ok hc
  obtain ⟨vs, hvs, hy'⟩ := hr.ok hc'
  exact ⟨us ++ vs, by rw [hus, hvs, List.append_assoc], he hy hy'⟩

theorem Explains.error_after (hp : Explains p e₁) (hr : Explains r e₂)
    (he : Joins e₁ e₂ e) (hc : p c = (.ok a, c')) (hc' : r c' = (.error err, c'')) :
    ∃ us, c.rest = us ++ c''.rest ∧ Starts e us ∧ err.RaisedAt c''.rest 0 := by
  obtain ⟨us, hus, hy⟩ := hp.ok hc
  obtain ⟨vs, hvs, hs, hraised⟩ := hr.error hc'
  exact ⟨us ++ vs, by rw [hus, hvs, List.append_assoc], .join_right hy hs he, hraised⟩

theorem Explains.notes_after (hp : Explains p e₁) (hr : Explains r e₂)
    (he : Joins e₁ e₂ e) (h₂ : Productive e₂) (hc : p c = (.ok a, c')) :
    Notes e c.rest c.furthest (r c').2.furthest := by
  have hn := hp.notes c
  rw [hc] at hn
  obtain ⟨us, hus, hy⟩ := hp.ok hc
  exact (hn.mono fun _ hs => hs.join_left he h₂).trans hus (hr.notes c') fun _ hs =>
    .join_right hy hs he

theorem Reports.reports_after (hp : Explains p e₁) {r' : Parser β}
    (hr : Reports k r r' e₂) (hc : p c = (.ok a, c')) (hc' : r c' = (.error err, c'')) :
    Reached c''.furthest c.rest.length := by
  obtain ⟨us, hus, -⟩ := hp.ok hc
  refine (hr.reports hc').mono ?_
  rw [hus, List.length_append]
  omega

end After

theorem Explains.bind (hp : Explains p e₁) (hg : ∀ a, Explains (g a) e₂)
    (he : Joins e₁ e₂ e) (h₂ : Productive e₂) : Explains (p >>= g) e where
  ok := by
    intro c c'' b h
    obtain ⟨a, c', hc, hc'⟩ := bind_ok_iff.mp h
    exact hp.ok_after (hg a) he hc hc'
  error := by
    intro c c'' err h
    rcases bind_error_iff.mp h with hc | ⟨a, c', hc, hc'⟩
    · obtain ⟨us, hus, hs, hraised⟩ := hp.error hc
      exact ⟨us, hus, hs.join_left he h₂, hraised⟩
    · exact hp.error_after (hg a) he hc hc'
  notes c := by
    have hn := hp.notes c
    change Notes e c.rest c.furthest (Parser.bind p g c).2.furthest
    unfold Parser.bind
    rcases hc : p c with ⟨err | a, c'⟩
    · rw [hc] at hn
      exact hn.mono fun _ hs => hs.join_left he h₂
    · exact hp.notes_after (hg a) he h₂ hc

/-- Once a run is behind the first tokens it stays there. -/
theorem Reports.together {T U : List Token} {c : Cursor}
    {s : Except ParseError α × Cursor}
    (hp : Reports k p q e) (h : Reached c.furthest T.length ∨ c.rest.length ≤ T.length) :
    Together T U (p c) s := by
  have hn := hp.explains.notes c
  rcases hc : p c with ⟨err | a, c'⟩ <;> rw [hc] at hn
  · rcases h with h | h
    · exact .reached (hn.reached h)
    · exact .reached ((hp.reports hc).mono h)
  · rcases h with h | h
    · exact .reached (hn.reached h)
    · obtain ⟨us, hus, -⟩ := hp.explains.ok hc
      have hlen := congrArg List.length hus
      rw [List.length_append] at hlen
      exact .passed (by omega)

/-- What is left of the first tokens when the reader has taken some of them. -/
theorem Explains.length_le (hp : Explains p e₁)
    (hk : ∀ ⦃us⦄, Yields e₁ us → k ≤ j + us.length)
    {P P' T : List Token} {a : α} (h : p ⟨P ++ T, f⟩ = (.ok a, ⟨P' ++ T, f'⟩)) (hP : P.length ≤ k) :
    P'.length ≤ j := by
  obtain ⟨us, hus, hy⟩ := hp.ok h
  have hlen := congrArg List.length hus
  simp only [List.length_append] at hlen
  have := hk hy
  omega

theorem InStep.bind (hp : Tracks k p p' e₁) (hg : ∀ a, Reports j (g a) (g' a) e₂)
    (hk : ∀ ⦃us⦄, Yields e₁ us → k ≤ j + us.length) : InStep k (p >>= g) (p' >>= g') := by
  intro P T U f f' hP hPk
  have hpp := hp.inStep T U f f' hP hPk
  change Together T U (Parser.bind p g _) (Parser.bind p' g' _)
  unfold Parser.bind
  generalize p' ⟨P ++ U, f'⟩ = s at hpp
  rcases hc : p ⟨P ++ T, f⟩ with ⟨err | a, c⟩ <;> rw [hc] at hpp
  · cases hpp with
    | reached h => exact .reached h
    | failed => exact .failed
  · cases hpp with
    -- once the first run is past `P`, what the second one does makes no difference
    | reached h => exact (hg a).together (.inl h)
    | passed h => exact (hg a).together (.inr h)
    | read hP' => exact (hg a).inStep T U _ _ hP' (hp.explains.length_le hk hc hPk)

theorem Reports.bind (hp : Reports k p p' e₁) (hg : ∀ a, Reports j (g a) (g' a) e₂)
    (he : Joins e₁ e₂ e) (h₂ : Productive e₂) (hk : ∀ ⦃us⦄, Yields e₁ us → k ≤ j + us.length) :
    Reports k (p >>= g) (p' >>= g') e where
  explains := hp.explains.bind (fun a => (hg a).explains) he h₂
  inStep := .bind hp.toTracks hg hk
  reports := by
    intro c c'' err h
    rcases bind_error_iff.mp h with hc | ⟨a, c', hc, hc'⟩
    · exact hp.reports hc
    · exact (hg a).reports_after hp.explains hc hc'

/-- One sequence after the other. -/
theorem Reports.append {es fs : List Ebnf} (hp : Reports k p p' (.seq es))
    (hg : ∀ a, Reports k (g a) (g' a) (.seq fs)) (hfs : Productive (.seq fs)) :
    Reports k (p >>= g) (p' >>= g') (.seq (es ++ fs)) :=
  hp.bind hg .append hfs fun _ _ => Nat.le_add_right k _

/-- One more at the front of a sequence. -/
theorem Reports.next {es : List Ebnf} (hp : Reports k p p' e)
    (hg : ∀ a, Reports k (g a) (g' a) (.seq es)) (hes : Productive (.seq es)) :
    Reports k (p >>= g) (p' >>= g') (.seq (e :: es)) :=
  hp.bind hg .seq hes fun _ _ => Nat.le_add_right ..

/-- One more at the front of a sequence, which takes at least one of the first
tokens. -/
theorem Reports.first {es : List Ebnf} (hp : Reports k p p' e)
    (hg : ∀ a, Reports (k - 1) (g a) (g' a) (.seq es)) (hes : Productive (.seq es))
    (hpos : ∀ ⦃us⦄, Yields e us → 0 < us.length) :
    Reports k (p >>= g) (p' >>= g') (.seq (e :: es)) :=
  hp.bind hg .seq hes fun _ hus => by
    have := hpos hus
    omega

/-- Another value for the same tokens. -/
theorem Reports.map {v : α → β} (hp : Reports k p q e) :
    Reports k (v <$> p) (v <$> q) e :=
  hp.bind (fun _ => .pure .seq_nil) .done (by simp) fun _ _ => Nat.le_add_right k _

/-! ### Trying one reader before another -/

/-- Go on with `g` after `p`, or do `q` from the same place if `p` fails. -/
def attempt (p : Parser α) (g : α → Parser β) (q : Parser β) : Parser β := fun c =>
  match p c with
  | (.ok a, c') => g a c'
  | (.error _, c') => q ⟨c.rest, c'.furthest⟩

theorem or_eq_attempt (p q : Parser α) : p.or q = attempt p Pure.pure q := by
  funext c
  unfold Parser.or attempt
  rcases p c with ⟨_ | a, c'⟩ <;> rfl

theorem optional_eq_attempt (p : Parser α) :
    p.optional = attempt p (fun a => Pure.pure (some a)) (Pure.pure none) := by
  funext c
  unfold Parser.optional attempt
  rcases p c with ⟨_ | a, c'⟩ <;> rfl

theorem optional_bind_eq_attempt (p : Parser α) (g : Option α → Parser β) :
    p.optional >>= g = attempt p (fun a => g (some a)) (g none) := by
  funext c
  change Parser.bind p.optional g c = _
  unfold Parser.bind Parser.optional attempt
  rcases p c with ⟨_ | a, c'⟩ <;> rfl

theorem Reports.attempt {q q' : Parser β} (hp : Tracks k p p' e₁)
    (hg : ∀ a, Reports j (g a) (g' a) e₂) (hq : Reports k q q' e) (he : Joins e₁ e₂ e)
    (h₂ : Productive e₂) (hk : ∀ ⦃us⦄, Yields e₁ us → k ≤ j + us.length) :
    Reports k (attempt p g q) (attempt p' g' q') e where
  explains.ok := by
    intro c c'' b h
    unfold Parser.attempt at h
    split at h
    · next a c' hc => exact hp.explains.ok_after (hg a).explains he hc h
    · next c' _ => exact hq.explains.ok (c := ⟨c.rest, c'.furthest⟩) h
  explains.error := by
    intro c c'' err h
    unfold Parser.attempt at h
    split at h
    · next a c' hc => exact hp.explains.error_after (hg a).explains he hc h
    · next c' _ => exact hq.explains.error (c := ⟨c.rest, c'.furthest⟩) h
  explains.notes c := by
    have hn : Notes e c.rest c.furthest (p c).2.furthest :=
      (hp.explains.notes c).mono fun _ hs => hs.join_left he h₂
    unfold Parser.attempt
    rcases hc : p c with ⟨err | a, c'⟩
    · rw [hc] at hn
      exact hn.again (hq.explains.notes ⟨c.rest, c'.furthest⟩)
    · exact hp.explains.notes_after (hg a).explains he h₂ hc
  inStep := by
    intro P T U f f' hP hPk
    have hpp := hp.inStep T U f f' hP hPk
    unfold Parser.attempt
    generalize p' ⟨P ++ U, f'⟩ = s at hpp
    rcases hc : p ⟨P ++ T, f⟩ with ⟨err | a, c⟩ <;> rw [hc] at hpp
    · cases hpp with
      | reached h => exact hq.together (.inl h)
      | failed => exact hq.inStep T U _ _ hP hPk
    · cases hpp with
      | reached h => exact (hg a).together (.inl h)
      | passed h => exact (hg a).together (.inr h)
      | read hP' => exact (hg a).inStep T U _ _ hP' (hp.explains.length_le hk hc hPk)
  reports := by
    intro c c'' err h
    unfold Parser.attempt at h
    split at h
    · next a c' hc => exact (hg a).reports_after hp.explains hc h
    · next c' _ => exact hq.reports (c := ⟨c.rest, c'.furthest⟩) h

theorem Reports.or {q q' : Parser α} (hp : Tracks k p p' e) (hq : Reports k q q' e) :
    Reports k (p.or q) (p'.or q') e := by
  rw [or_eq_attempt, or_eq_attempt]
  exact .attempt hp (fun _ => .pure .seq_nil) hq .done (by simp) fun _ _ => Nat.le_add_right k _

theorem Reports.optional (hp : Tracks k p p' e) :
    Reports k p.optional p'.optional (.opt e) := by
  rw [optional_eq_attempt, optional_eq_attempt]
  have he : Joins e (.seq []) (.opt e) := fun _ _ h h' => (Joins.done h h').opt
  exact .attempt hp (fun _ => .pure .seq_nil) (.pure .opt_nil) he (by simp)
    fun _ _ => Nat.le_add_right k _

/-- A failure is remembered where it happened. -/
theorem Reports.label {x : Expectation} (hp : Reports k p q e) :
    Reports k (p.label x) (q.label x) e where
  explains.ok := by
    intro c c'' a h
    unfold Parser.label at h
    split at h
    · next b c' hc =>
      cases h
      exact hp.explains.ok hc
    · cases h
  explains.error := by
    intro c c'' err h
    unfold Parser.label at h
    split at h
    · cases h
    · next err' c' hc =>
      cases h
      rw [rest_record]
      obtain ⟨us, hus, hs, hraised⟩ := hp.explains.error hc
      exact ⟨us, hus, hs, hraised⟩
  explains.notes c := by
    have hn := hp.explains.notes c
    unfold Parser.label
    rcases hc : p c with ⟨err | a, c'⟩ <;> rw [hc] at hn
    · obtain ⟨us, hus, hs, hraised⟩ := hp.explains.error hc
      exact hn.again (.record hus hs hraised)
    · exact hn
  inStep := by
    intro P T U f f' hP hPk
    have hpp := hp.inStep T U f f' hP hPk
    unfold Parser.label
    generalize q ⟨P ++ U, f'⟩ = s at hpp
    rcases hc : p ⟨P ++ T, f⟩ with ⟨err | a, c⟩ <;> rw [hc] at hpp
    · cases hpp with
      | reached h =>
        obtain ⟨us, hus, hs, hraised⟩ := hp.explains.error hc
        have hn : Notes e _ c.furthest (c.record { err with expected := [x] }).furthest :=
          .record hus hs hraised
        exact .reached (hn.reached h)
      | failed => exact .failed
    · cases hpp with
      | reached h => exact .reached h
      | passed h => exact .passed h
      | read hP' => exact .read hP'
  reports := by
    intro c c'' err h
    unfold Parser.label at h
    split at h
    · cases h
    · next err' c' hc =>
      cases h
      obtain ⟨us, hus, -⟩ := hp.explains.error hc
      refine (reached_record c' _).mono ?_
      rw [hus, List.length_append]
      omega

/-! ### Looking ahead and counting -/

theorem Reports.peek {F F' : Option Token → Parser β}
    (h : ∀ o, Reports k (F o) (F' o) e) :
    Reports k (Parser.peek >>= F) (Parser.peek >>= F') e where
  explains.ok {c _ _} hc := (h c.rest.head?).explains.ok hc
  explains.error {c _ _} hc := (h c.rest.head?).explains.error hc
  explains.notes c := (h c.rest.head?).explains.notes c
  inStep := by
    intro P T U f f' hP hPk
    cases P with
    | nil => exact absurd rfl hP
    | cons t P => exact (h (some t)).inStep T U f f' hP hPk
  reports {c _ _} hc := (h c.rest.head?).reports hc

/-- Readers with a bound that report, and do the same on as many tokens as the
bounds allow. -/
def ReportsWithin (k : Nat) (F F' : Nat → Parser α) (e : Ebnf) : Prop :=
  ∀ m n j, j ≤ k → j ≤ m → j ≤ n → Reports j (F m) (F' n) e

theorem ReportsWithin.alone {F F' : Nat → Parser α} (h : ReportsWithin k F F' e)
    (m : Nat) :
    Reports 0 (F m) (F' 0) e := h m 0 0 k.zero_le m.zero_le (Nat.le_refl 0)

/-- Bounds that are at least the number of the first tokens make no difference. -/
theorem Reports.remaining {F F' : Nat → Parser β} (h : ReportsWithin k F F' e) :
    Reports k (Parser.remaining >>= F) (Parser.remaining >>= F') e where
  explains.ok {c _ _} hc := (h.alone c.rest.length).explains.ok hc
  explains.error {c _ _} hc := (h.alone c.rest.length).explains.error hc
  explains.notes c := (h.alone c.rest.length).explains.notes c
  inStep P T U f f' hP hPk :=
    (h (P ++ T).length (P ++ U).length P.length hPk (by simp) (by simp)).inStep T U f f' hP
      (Nat.le_refl _)
  reports {c _ _} hc := (h.alone c.rest.length).reports hc

/-- Readers with a bound that take a token before they use the one with the next
lower bound, each in a state that they may change. -/
theorem ReportsWithin.of_steps {σ : Type} {F G : Nat → σ → Parser α}
    (zero : ∀ x, Reports 0 (F 0 x) (G 0 x) e)
    (succ : ∀ m n j, j ≤ k → (∀ x, Reports (j - 1) (F m x) (G n x) e) →
      ∀ x, Reports j (F (m + 1) x) (G (n + 1) x) e) (x : σ) :
    ReportsWithin k (fun m => F m x) (fun n => G n x) e := by
  intro m
  induction m generalizing x with
  | zero =>
    intro n j _ hm _
    obtain rfl := Nat.le_zero.mp hm
    exact (zero x).zero
  | succ m ih =>
    intro n j hjk _ hn
    cases n with
    | zero =>
      -- no tokens are compared, so another second reader does as well
      obtain rfl := Nat.le_zero.mp hn
      exact (succ m 0 0 hjk (fun x => ih x 0 0 hjk (Nat.zero_le m) (Nat.le_refl 0)) x).zero
    | succ n =>
      exact succ m n j hjk (fun x => ih x n (j - 1) (by omega) (by omega) (by omega)) x

/-- Readers with a bound that take a token before they use the one with the next
lower bound. -/
theorem ReportsWithin.of_step {F G : Nat → Parser α} (zero : Reports 0 (F 0) (G 0) e)
    (succ : ∀ m n j, j ≤ k → Reports (j - 1) (F m) (G n) e →
      Reports j (F (m + 1)) (G (n + 1)) e) : ReportsWithin k F G e :=
  of_steps (F := fun m (_ : Unit) => F m) (G := fun n _ => G n) (fun _ => zero)
    (fun m n j hj ih _ => succ m n j hj (ih ())) ()

/-! ### Single tokens -/

/-- A token that `accept` gives a value to; where there is none, what `miss` does. -/
def single (accept : Token → Option α) (miss : Parser α) : Parser α := fun c =>
  match c.rest.head?.bind accept with
  | some a => (.ok a, ⟨c.rest.tail, c.furthest⟩)
  | none => miss c

/-- A reader that fails where it stands. -/
theorem Tracks.misses (he : Productive e) (h : ∀ c, ∃ err, err.RaisedAt c.rest 0 ∧
    (p c = (.error err, c) ∨ p c = (.error err, c.record err))) : Tracks k p p e where
  explains.ok := by
    intro c c' a hc
    obtain ⟨err, -, h | h⟩ := h c <;> cases hc.symm.trans h
  explains.error := by
    intro c c' err hc
    obtain ⟨err, hraised, h | h⟩ := h c <;> cases hc.symm.trans h
    · exact ⟨[], rfl, he, hraised⟩
    · exact ⟨[], by simp, he, by simpa using hraised⟩
  explains.notes c := by
    obtain ⟨err, hraised, h | h⟩ := h c <;> rw [h]
    · exact .same
    · exact .record (List.nil_append c.rest).symm he hraised
  inStep := by
    intro P T U f f' _ _
    obtain ⟨err, -, h₁⟩ := h ⟨P ++ T, f⟩
    obtain ⟨err', -, h₂⟩ := h ⟨P ++ U, f'⟩
    rcases h₁ with h₁ | h₁ <;> rcases h₂ with h₂ | h₂ <;> rw [h₁, h₂] <;> exact .failed

theorem Reports.expected {x : Expectation} (he : Productive e) :
    Reports k (Parser.expected (α := α) x) (Parser.expected x) e where
  toTracks := .misses he fun c => ⟨_, c.raisedAt_complaint x, .inr rfl⟩
  reports := by
    rintro c _ _ ⟨⟩
    exact reached_record c _

theorem Tracks.single {accept : Token → Option α} (h : Tracks k p p e)
    (hy : ∀ t a, accept t = some a → Yields e [t]) :
    Tracks k (single accept p) (single accept p) e where
  explains.ok := by
    intro c c' a hc
    unfold Parser.single at hc
    split at hc
    · next b hb =>
      cases hc
      obtain ⟨t, ht, hb⟩ := Option.bind_eq_some_iff.mp hb
      obtain ⟨ts, hts⟩ := List.head?_eq_some_iff.mp ht
      exact ⟨[t], by rw [hts]; rfl, hy t _ hb⟩
    · exact h.explains.ok hc
  explains.error := by
    intro c c' err hc
    unfold Parser.single at hc
    split at hc
    · cases hc
    · exact h.explains.error hc
  explains.notes c := by
    unfold Parser.single
    split
    · exact .same
    · exact h.explains.notes c
  inStep := by
    intro P T U f f' hP hk
    cases P with
    | nil => exact absurd rfl hP
    | cons t P =>
      unfold Parser.single
      simp only [List.cons_append, List.head?_cons, Option.bind_some, List.tail_cons]
      cases accept t with
      | none => exact h.inStep T U f f' hP hk
      | some a =>
        rcases P with - | ⟨t, P⟩
        · exact .passed (Nat.le_refl _)
        · exact .read (List.cons_ne_nil t P)

theorem Reports.single {accept : Token → Option α} (h : Reports k p p e)
    (hy : ∀ t a, accept t = some a → Yields e [t]) :
    Reports k (single accept p) (single accept p) e where
  toTracks := h.toTracks.single hy
  reports := by
    intro c c' err hc
    unfold Parser.single at hc
    split at hc
    · cases hc
    · exact h.reports hc

theorem terminal_eq_single (t : Terminal) :
    Parser.terminal t = Parser.single
      (fun token => if token.lexeme = .fixed t then some token else none)
      (Parser.expected (.terminal t)) := by
  funext ⟨ts, f⟩
  rcases ts with - | ⟨token, ts⟩
  · rfl
  · unfold Parser.terminal Parser.single
    by_cases h : token.lexeme = .fixed t <;> simp [h]

theorem Reports.terminal {t : Terminal} :
    Reports k (Parser.terminal t) (Parser.terminal t) (.terminal t) := by
  rw [terminal_eq_single]
  refine .single (.expected (by simp)) fun token a h => ?_
  obtain ⟨hl, -⟩ := Option.ite_none_right_eq_some.mp h
  exact ⟨_, Derives.terminal_iff.mpr ⟨token.span, by rw [← hl], rfl⟩⟩

theorem length_of_yields_terminal {t : Terminal} (h : Yields (.terminal t) ts) :
    0 < ts.length := by
  obtain ⟨ps, h⟩ := h
  obtain ⟨s, rfl, -⟩ := Derives.terminal_iff.mp h
  exact Nat.one_pos

theorem length_of_yields_ident (h : Yields .ident ts) : 0 < ts.length := by
  obtain ⟨ps, h⟩ := h
  obtain ⟨name, s, rfl, -⟩ := Derives.ident_iff.mp h
  exact Nat.one_pos

/-! ### Repetitions -/

theorem Reports.manyWithin (hp : Reports k p q e)
    (hpos : ∀ ⦃us⦄, Yields e us → 0 < us.length) :
    ReportsWithin k (Parser.manyWithin · p) (Parser.manyWithin · q) (.many e) := by
  refine .of_step ?_ fun m n j hj ih => ?_
  · unfold Parser.manyWithin
    rw [optional_bind_eq_attempt, optional_bind_eq_attempt]
    exact .attempt (j := 0) (hp.le (Nat.zero_le k)).toTracks (fun _ => .pure .many_nil)
      (.pure .many_nil) .many (by simp) fun _ _ => Nat.zero_le _
  · unfold Parser.manyWithin
    rw [optional_bind_eq_attempt, optional_bind_eq_attempt]
    refine .attempt (hp.le hj).toTracks (fun _ => ih.map) (.pure .many_nil) .many (by simp)
      fun us hus => ?_
    have := hpos hus
    omega

theorem Reports.many (hp : Reports k p q e) (hpos : ∀ ⦃us⦄, Yields e us → 0 < us.length) :
    Reports k p.many q.many (.many e) := .remaining (hp.manyWithin hpos)

/-- Separators and items after them, with as many rounds as there are separators
to read. -/
theorem Reports.separatedWithin {r r' : Parser β} {e' : Ebnf} (hp : Reports k p q e)
    (hr : Tracks k r r' e') (hpos : ∀ ⦃us⦄, Yields e' us → 0 < us.length) (he : Productive e) :
    ReportsWithin k (Parser.separatedWithin · p r) (Parser.separatedWithin · q r')
      (.many (.seq [e', e])) := by
  refine .of_step ?_ fun m n j hj ih => ?_
  · unfold Parser.separatedWithin
    rw [optional_bind_eq_attempt, optional_bind_eq_attempt]
    refine .attempt (j := 0) (hr.le (Nat.zero_le k)) (fun _ => ?_) (.pure .many_nil) .many_seq
      (by simp [he]) fun _ _ => Nat.zero_le _
    exact (hp.le (Nat.zero_le k)).next (fun _ => .pure (Joins.seq .many_nil .seq_nil)) (by simp)
  · unfold Parser.separatedWithin
    rw [optional_bind_eq_attempt, optional_bind_eq_attempt]
    refine .attempt (j := j - 1) (hr.le hj) (fun _ => ?_) (.pure .many_nil) .many_seq (by simp [he])
      fun us hus => ?_
    · exact (hp.le (by omega)).next (fun _ => ih.map.alone) (by simp)
    · have := hpos hus
      omega

theorem Reports.separated (hp : Reports k p q e) (he : Productive e) :
    Reports k (p.separated (Parser.terminal .comma)) (q.separated (Parser.terminal .comma))
      (.commaList e) := by
  unfold Parser.separated
  rw [optional_bind_eq_attempt, optional_bind_eq_attempt]
  have hjoin : Joins e (.seq [.many (.seq [.terminal .comma, e])]) (.commaList e) :=
    fun _ _ h h' => (Joins.seq h h').opt
  refine .attempt hp.toTracks (fun _ => ?_) (.pure .opt_nil) hjoin (by simp)
    fun _ _ => Nat.le_add_right k _
  refine .alone (.remaining fun m n j hj hm hn => .map ?_)
  exact hp.separatedWithin Reports.terminal.toTracks (fun _ => length_of_yields_terminal) he m n j
    hj hm hn

end

end Parser

end Implet
