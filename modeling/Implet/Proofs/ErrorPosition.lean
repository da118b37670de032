/-
Implet/Proofs/ErrorPosition.lean

Where the error of a text that is not read is placed.  It is raised at one
token, or at the end, and the tokens before that place always begin some entry
(`Entry.parse_error_position`): all errors that are remembered are at such
places.  So the error is right when its token cannot come next.

That can fail for one reason only.  An expression with a semicolon may be an
entry, and then nothing can come after it; if something does, this is noticed,
but no error is raised there.  What is reported then is the furthest error from
within the expression, or from the attempt to read it as a list of items,
neither of which lies after the expression.  In all other cases the error is at
the first token that cannot come next: were the tokens up to it the beginning of
some entry, the run on the tokens of that entry would do the same up to there,
and would fail as well.
-/
import Implet.Proofs.Parsing
import Implet.Proofs.Reporting
import Implet.Proofs.Scanning

namespace Implet

open Grammar

open Implet.Parser (Reached Notes Reports Together Stops)

theorem ParseError.RaisedAt.unique {err : ParseError} {ts : List Token} {i j : Nat}
    (h : err.RaisedAt ts i) (hts : ts.Nodup) (h' : err.RaisedAt ts j) : i = j := by
  have hindex {t : Token} (hi : ts[i]? = some t) (hj : ts[j]? = some t) : i = j := by
    obtain ⟨hlt, -⟩ := List.getElem?_eq_some_iff.mp hi
    exact (List.getElem?_inj hlt hts).mp (hi.trans hj.symm)
  obtain ⟨fault, _⟩ := err
  cases fault with
  | unexpected t => exact hindex h h'
  | endOfInput => exact h.trans h'.symm
  | literalOutOfRange digits span => exact hindex h h'
  | lexing err => exact h.elim

/-! ### One way to read expressions and entries -/

theorem Expr.parser_takes_of_yields {ts us : List Token}
    (h : Yields (.nonterminal .expression) ts)
    (hstop : Stops continuations us) : Parser.Takes Expr.parser (ts ++ us) us fun _ => True := by
  obtain ⟨ps, hd⟩ := h
  obtain ⟨_, -, rfl⟩ := Derives.nonterminal_iff.mp hd
  exact (Expr.parser_takes hd hstop).imp fun _ _ => trivial

/-- Tokens begin with at most one expression that can end there. -/
theorem Expr.phrase_unique {ts us ts' us' : List Token}
    (h : Yields (.nonterminal .expression) ts)
    (h' : Yields (.nonterminal .expression) ts') (heq : ts ++ us = ts' ++ us')
    (hstop : Stops continuations us) (hstop' : Stops continuations us') : us = us' := by
  obtain ⟨a, f, hrun, -⟩ := Expr.parser_takes_of_yields h hstop none
  obtain ⟨a', f', hrun', -⟩ := Expr.parser_takes_of_yields h' hstop' none
  rw [heq, hrun'] at hrun
  cases hrun
  rfl

namespace Entry

theorem parser_takes_of_yields {ts : List Token} (h : Yields (.nonterminal .unit) ts) :
    Parser.Takes parser ts [] fun _ => True := by
  obtain ⟨ps, hd⟩ := h
  obtain ⟨_, hr, rfl⟩ := Derives.nonterminal_iff.mp hd
  obtain ⟨v, hd, hnearest⟩ := exists_nearest (Derives.nonterminal_iff.mpr ⟨_, hr, rfl⟩)
  exact (parser_takes hd hnearest).imp fun _ _ => trivial

theorem yields_iff {ts : List Token} :
    Yields (.nonterminal .unit) ts ↔ ∃ u, ofTokens ts = .ok u := by
  constructor
  · intro h
    obtain ⟨u, _, hu, -⟩ := parser_takes_of_yields h none
    exact ⟨u, ofTokens_ok_iff.mpr ⟨_, hu⟩⟩
  · rintro ⟨u, hu⟩
    obtain ⟨c, hc⟩ := ofTokens_ok_iff.mp hu
    exact ⟨_, derives_of_parser_ok hc⟩

/-! ### The attempt at a bare expression -/

/-- An expression and a semicolon, if there is one. -/
def loneExpression : Parser Expr :=
  Parser.skip Expr.parser (Parser.optional (Parser.terminal .semicolon))

theorem loneExpression_reports {k : Nat} : Reports k loneExpression loneExpression
    (.seq [.nonterminal .expression, .opt (.terminal .semicolon)]) :=
  .next Expr.parser_reports (fun _ =>
    .next (.optional Reports.terminal.toTracks) (fun _ => .pure .seq_nil) (by simp)) (by simp)

theorem furthest_bareExpression (c : Cursor) :
    (bareExpression c).2.furthest = (loneExpression c).2.furthest := by
  unfold bareExpression loneExpression
  split
  · next h =>
    rw [h]
    split <;> rfl
  · next h => rw [h]

theorem bareExpression_of_ok {c c' : Cursor} {a : Expr}
    (h : loneExpression c = (.ok a, c'))
    (hrest : c'.rest ≠ []) : bareExpression c = (.ok none, ⟨c.rest, c'.furthest⟩) := by
  unfold loneExpression at h
  unfold bareExpression
  rw [h]
  simp [hrest]

theorem bareExpression_of_ok_nil {c c' : Cursor} {a : Expr}
    (h : loneExpression c = (.ok a, c'))
    (hrest : c'.rest = []) : bareExpression c = (.ok (some a), c') := by
  unfold loneExpression at h
  unfold bareExpression
  rw [h]
  simp [hrest]

theorem bareExpression_of_error {c c' : Cursor} {err : ParseError}
    (h : loneExpression c = (.error err, c')) :
    bareExpression c = (.ok none, ⟨c.rest, c'.furthest⟩) := by
  unfold loneExpression at h
  unfold bareExpression
  rw [h]

/-- The attempt takes an expression, and it takes the semicolon after it or
remembers that there is none. -/
theorem loneExpression_ok {c c' : Cursor} {a : Expr}
    (h : loneExpression c = (.ok a, c')) :
    ∃ us, Yields (.nonterminal .expression) us ∧
      (c.rest = us ++ c'.rest ∧ Reached c'.furthest c'.rest.length ∨
        ∃ s, c.rest = us ++ ⟨.fixed .semicolon, s⟩ :: c'.rest) := by
  unfold loneExpression Parser.skip at h
  obtain ⟨e, d, he, h⟩ := Parser.bind_ok_iff.mp h
  obtain ⟨o, _, ho, h⟩ := Parser.bind_ok_iff.mp h
  cases h
  obtain ⟨us, hus, hy⟩ := (Expr.parser_reports (k := 0)).explains.ok he
  refine ⟨us, hy, ?_⟩
  have hterminal : Reports 0 (Parser.terminal .semicolon) (Parser.terminal .semicolon) _ :=
    .terminal
  unfold Parser.optional at ho
  split at ho
  · next token d' ht =>
    cases ho
    obtain ⟨_, hd, _, hs⟩ := hterminal.explains.ok ht
    obtain ⟨s, rfl, -⟩ := Derives.terminal_iff.mp hs
    exact .inr ⟨s, by rw [hus, hd]; rfl⟩
  · next err d' ht =>
    have hr := hterminal.reports ht
    cases ho
    exact .inl ⟨hus, hr⟩

/-- Tokens that are not read as an entry are neither read as a bare expression
nor as items. -/
theorem parser_error {c c'' : Cursor} {err : ParseError}
    (h : parser c = (.error err, c'')) :
    ∃ c', bareExpression c = (.ok none, c') ∧ c'.rest = c.rest ∧
      Item.listWithin c'.rest.length c' = (.error err, c'') := by
  unfold parser at h
  rcases Parser.bind_error_iff.mp h with hbare | ⟨o, c', hbare, h⟩
  · unfold bareExpression at hbare
    split at hbare
    · split at hbare <;> cases hbare
    · cases hbare
  · rcases bareExpression_ok hbare with ⟨rfl, hrest⟩ | ⟨e, rfl, -, -⟩
    · refine ⟨c', hbare, hrest, ?_⟩
      rcases Parser.bind_error_iff.mp h with h | ⟨_, _, ⟨⟩, h⟩
      · cases h
      · rcases Parser.bind_error_iff.mp h with h | ⟨_, _, -, h⟩
        · exact h
        · cases h
    · cases h

/-- Tokens that are read as an entry, but not as a bare expression, are read as
items. -/
theorem listWithin_of_parser_ok {c c' c'' : Cursor} {u : Entry}
    (hbare : bareExpression c = (.ok none, c')) (h : parser c = (.ok u, c'')) :
    ∃ is, Item.listWithin c'.rest.length c' = (.ok is, c'') := by
  unfold parser at h
  obtain ⟨o, _, ho, h⟩ := Parser.bind_ok_iff.mp h
  cases hbare.symm.trans ho
  obtain ⟨_, _, ⟨⟩, h⟩ := Parser.bind_ok_iff.mp h
  obtain ⟨is, _, his, h⟩ := Parser.bind_ok_iff.mp h
  cases h
  exact ⟨is, his⟩

/-! ### What is right and what is wrong about a place -/

/-- The tokens can be an entry as far as index `i`: with the token there they
begin one, or, where there is no token any more, they are one. -/
def Acceptable (ts : List Token) (i : Nat) : Prop :=
  if i < ts.length then Starts (.nonterminal .unit) (ts.take (i + 1))
  else Yields (.nonterminal .unit) ts

/-- The tokens are an expression, a semicolon and something more. -/
def GoesOnAfterExpression (ts : List Token) : Prop :=
  ∃ us s rest, Yields (.nonterminal .expression) us ∧ rest ≠ [] ∧
    ts = us ++ ⟨.fixed .semicolon, s⟩ :: rest

variable {ts us vs : List Token} {c : Cursor} {err err' : ParseError}

theorem yields_of_loneExpression
    (h : Yields (.seq [.nonterminal .expression, .opt (.terminal .semicolon)]) ts) :
    Yields (.nonterminal .unit) ts :=
  .rule (show Yields (Nonterminal.rule .unit) ts from h.alt (by simp))

theorem yields_of_items (h : Yields (.many (.nonterminal .item)) ts) :
    Yields (.nonterminal .unit) ts :=
  .rule (show Yields (Nonterminal.rule .unit) ts from h.alt (by simp))

/-- Errors that are remembered are where the tokens before them begin an entry. -/
theorem notes_of_parser_error (h : parser ⟨ts, none⟩ = (.error err, c)) :
    ∃ us vs err', ts = us ++ vs ∧ Starts (.nonterminal .unit) us ∧ err'.RaisedAt vs 0 ∧
      c.furthest = some (vs.length, err') := by
  obtain ⟨c', hbare, hrest, hlist⟩ := parser_error h
  have hitems := (Item.listWithin_reports (k := 0)).alone c'.rest.length
  have hn : Notes (.nonterminal .unit) ts none c'.furthest := by
    have hn := (loneExpression_reports (k := 0)).explains.notes ⟨ts, none⟩
    rw [← furthest_bareExpression, hbare] at hn
    exact hn.mono fun _ hs => hs.mono fun _ => yields_of_loneExpression
  have hn' : Notes (.nonterminal .unit) ts c'.furthest c.furthest := by
    have hn' := hitems.explains.notes c'
    rw [hlist, hrest] at hn'
    exact hn'.mono fun _ hs => hs.mono fun _ => yields_of_items
  -- the attempt at items has failed, so that some error is remembered
  obtain ⟨m, hm, -⟩ := hitems.reports hlist
  generalize c.furthest = f at hm hn'
  obtain rfl : f = some m := hm
  cases hn.again hn' with
  | further us hts hstarts hraised => exact ⟨us, _, _, hts, hstarts, hraised, rfl⟩

/-- If the tokens begin an entry including the one at which the error is placed,
then they are an expression, a semicolon and something more. -/
theorem goesOn_of_starts {t : Token} (h : parser ⟨us ++ t :: vs, none⟩ = (.error err, c))
    (hc : c.furthest = some (vs.length + 1, err'))
    (hstarts : Starts (.nonterminal .unit) (us ++ [t])) :
    GoesOnAfterExpression (us ++ t :: vs) := by
  obtain ⟨ws, hy⟩ := hstarts
  obtain ⟨u, f', hU, -⟩ := parser_takes_of_yields hy none
  have hP : us ++ [t] ≠ [] := by simp
  rw [← List.singleton_append, ← List.append_assoc] at h ⊢
  generalize us ++ [t] = P at h hy hU hP ⊢
  obtain ⟨c', hbare, hrest, hlist⟩ := parser_error h
  -- no error lies in the tokens after the one at which it is placed
  have hnot : ¬ Reached c.furthest vs.length := by
    rintro ⟨m, hm, hle⟩
    obtain rfl : (vs.length + 1, err') = m := Option.some.inj (hc.symm.trans hm)
    exact Nat.not_succ_le_self _ hle
  have hnot' : ¬ Reached c'.furthest vs.length := by
    intro hr
    have hn := ((Item.listWithin_reports (k := 0)).alone c'.rest.length).explains.notes c'
    rw [hlist] at hn
    exact hnot (hn.reached hr)
  -- so a run on the tokens of the entry that they begin reads items as well,
  -- and would fail
  have hitems {f : Option (Nat × ParseError)}
      (hbareU : bareExpression ⟨P ++ ws, none⟩ = (.ok none, ⟨P ++ ws, f⟩)) : False := by
    obtain ⟨is, hlistU⟩ := listWithin_of_parser_ok hbareU hU
    obtain ⟨rest, f'⟩ := c'
    obtain rfl : rest = P ++ vs := hrest
    exact hnot (Item.reached_of_error hP hlist hlistU)
  have hfurthest := furthest_bareExpression ⟨P ++ vs, none⟩
  rw [hbare] at hfurthest
  -- the two attempts at a bare expression go the same way, unless the first one
  -- gets past `P`
  have htogether := loneExpression_reports.inStep vs ws none none hP (Nat.le_refl P.length)
  rcases hlone : loneExpression ⟨P ++ vs, none⟩ with ⟨r, d⟩
  rcases hloneU : loneExpression ⟨P ++ ws, none⟩ with ⟨r', d'⟩
  rw [hlone] at hfurthest
  rw [hlone, hloneU] at htogether
  cases htogether with
  | reached h => exact (hnot' (hfurthest ▸ h)).elim
  | failed => exact (hitems (bareExpression_of_error hloneU)).elim
  | read hP' => exact (hitems (bareExpression_of_ok hloneU (by simp [hP']))).elim
  | passed hle =>
    obtain ⟨es, he, ⟨-, hr⟩ | ⟨s, hs⟩⟩ := loneExpression_ok hlone
    · exact (hnot' (hfurthest ▸ hr.mono hle)).elim
    · refine ⟨es, s, d.rest, he, fun hnil => ?_, hs⟩
      rw [bareExpression_of_ok_nil hlone hnil] at hbare
      cases hbare

/-- What begins an expression does not reach past the semicolon after one. -/
theorem length_le_of_starts_expression {es rest : List Token} {s : Span}
    (he : Yields (.nonterminal .expression) es) (hstarts : Starts (.nonterminal .expression) us)
    (heq : es ++ ⟨.fixed .semicolon, s⟩ :: rest = us ++ vs) : us.length ≤ es.length := by
  rcases List.append_eq_append_iff.mp heq with ⟨ws, rfl, hws⟩ | ⟨ws, rfl, -⟩
  · rcases ws with - | ⟨t, ws⟩
    · simp
    · obtain ⟨rfl, -⟩ := List.cons.inj hws
      obtain ⟨xs, hy⟩ := hstarts
      have hlong : ⟨.fixed .semicolon, s⟩ :: (ws ++ xs) = [] :=
        Expr.phrase_unique he hy (by simp) (.fixed (by decide)) .nil
      cases hlong
  · simp

/-- Items that begin like an expression begin with an assignment. -/
theorem assigns_of_starts_items {t t' : Token}
    (h : Starts (.many (.nonterminal .item)) (t :: t' :: us)) (ht : t.lexeme.OpensExpr) :
    ∃ name s s', t = ⟨.ident name, s⟩ ∧ t' = ⟨.fixed .assign, s'⟩ := by
  obtain ⟨ws, ps, hd⟩ := h
  generalize hts : t :: t' :: us ++ ws = ts at hd
  revert hts
  refine Derives.many_induction hd nofun fun {vs vs' _ _} hitem _ _ hts => ?_
  rcases Derives.item_begins_or_assigns hitem with hbegins | ⟨name, s, s', vs, rfl⟩
  · have hnot := hbegins.append vs'
    rw [← hts] at hnot
    exact (hnot ht).elim
  · obtain ⟨rfl, hvs⟩ := List.cons.inj hts
    obtain ⟨rfl, -⟩ := List.cons.inj hvs
    exact ⟨name, s, s', rfl, rfl⟩

/-- Of an expression before a semicolon, at most the first token begins a list
of items. -/
theorem length_le_of_starts_items {es rest : List Token} {s : Span}
    (he : Yields (.nonterminal .expression) es) (hstarts : Starts (.many (.nonterminal .item)) us)
    (heq : es ++ ⟨.fixed .semicolon, s⟩ :: rest = us ++ vs) : us.length ≤ es.length := by
  have hopens : Begins Lexeme.OpensExpr es :=
    he.elim fun _ hd => Derives.begins_expression hd
  rcases es with - | ⟨e, es⟩
  · exact hopens.elim
  rcases us with - | ⟨t, _ | ⟨t', us⟩⟩
  · simp
  · simp
  · obtain ⟨rfl, -⟩ := List.cons.inj heq
    obtain ⟨name, w, w', rfl, rfl⟩ := assigns_of_starts_items hstarts hopens
    -- the name is an expression itself, and ends before the sign
    have hshort : ⟨.fixed .semicolon, s⟩ :: rest = ⟨.fixed .assign, w'⟩ :: (us ++ vs) :=
      Expr.phrase_unique he ⟨_, Derives.expression_ident name w⟩ heq (.fixed (by decide))
        (.fixed (by decide))
    cases hshort

/-- After an expression and a semicolon, what goes on is not where the error is
placed. -/
theorem length_le_of_goesOn {es rest : List Token} {s : Span}
    (he : Yields (.nonterminal .expression) es) (hrest : rest ≠ [])
    (h : parser ⟨es ++ ⟨.fixed .semicolon, s⟩ :: rest, none⟩ = (.error err, c))
    (heq : es ++ ⟨.fixed .semicolon, s⟩ :: rest = us ++ vs)
    (hc : c.furthest = some (vs.length, err')) : us.length ≤ es.length := by
  obtain ⟨c', hbare, -, hlist⟩ := parser_error h
  -- the expression is read up to the semicolon, which is read without an error
  have hstop : Stops Expr.continuations (⟨.fixed .semicolon, s⟩ :: rest) :=
    .fixed (by decide)
  obtain ⟨a, f, hexpr, -⟩ := Expr.parser_takes_of_yields he hstop none
  have hlone :
      loneExpression ⟨es ++ ⟨.fixed .semicolon, s⟩ :: rest, none⟩ = (.ok a, ⟨rest, f⟩) := by
    refine Parser.bind_ok_iff.mpr ⟨a, _, hexpr, Parser.bind_ok_iff.mpr
      ⟨some ⟨.fixed .semicolon, s⟩, ⟨rest, f⟩, ?_, rfl⟩⟩
    simp [Parser.optional, Parser.terminal]
  cases hbare.symm.trans (bareExpression_of_ok hlone hrest)
  have hn := (Expr.parser_reports (k := 0)).explains.notes
    ⟨es ++ ⟨.fixed .semicolon, s⟩ :: rest, none⟩
  have hn' := ((Item.listWithin_reports (k := 0)).alone
    (es ++ ⟨.fixed .semicolon, s⟩ :: rest).length).explains.notes
      ⟨es ++ ⟨.fixed .semicolon, s⟩ :: rest, f⟩
  rw [hexpr] at hn
  change Item.listWithin (es ++ ⟨.fixed .semicolon, s⟩ :: rest).length _ = _ at hlist
  rw [hlist] at hn'
  rcases hn'.place hc with rfl | ⟨us', vs', heq', hstarts, hlen⟩
  · rcases hn.place hc with hnone | ⟨us', vs', heq', hstarts, hlen⟩
    · rw [← hnone] at hc
      cases hc
    · obtain rfl := (List.append_inj' (heq.symm.trans heq') hlen.symm).1
      exact length_le_of_starts_expression he hstarts heq
  · obtain rfl := (List.append_inj' (heq.symm.trans heq') hlen.symm).1
    exact length_le_of_starts_items he hstarts heq

/-- Tokens up to the semicolon after an expression begin an entry, whatever
comes after it. -/
theorem acceptable_of_le {es rest : List Token} {s : Span} {i : Nat}
    (he : Yields (.nonterminal .expression) es) (hi : i ≤ es.length) :
    Acceptable (es ++ ⟨.fixed .semicolon, s⟩ :: rest) i := by
  have hsemicolon : Yields (.terminal .semicolon) [⟨.fixed .semicolon, s⟩] :=
    ⟨_, Derives.terminal_iff.mpr ⟨s, rfl, rfl⟩⟩
  have hentry := yields_of_loneExpression (Joins.seq he (Joins.seq hsemicolon.opt .seq_nil))
  rw [List.append_nil] at hentry
  rw [Acceptable, if_pos (by simp; omega), ← List.singleton_append, ← List.append_assoc,
    List.take_append_of_le_length (by simp; omega)]
  rw [← List.take_append_drop (i + 1) (es ++ [Token.mk (.fixed .semicolon) s])] at hentry
  exact (Starts.of_yields hentry).of_append

/-! ### The place of the error -/

theorem ofTokens_error {e : ParseError} (h : ofTokens ts = .error e) :
    ∃ us vs, ts = us ++ vs ∧ Starts (.nonterminal .unit) us ∧ e.RaisedAt vs 0 ∧
      ∃ err c, parser ⟨ts, none⟩ = (.error err, c) ∧ c.furthest = some (vs.length, e) := by
  unfold ofTokens at h
  split at h
  · cases h
  · next err c hrun =>
    obtain ⟨us, vs, err', hts, hstarts, hraised, hc⟩ := notes_of_parser_error hrun
    simp only [hc, Except.error.injEq] at h
    subst h
    exact ⟨us, vs, hts, hstarts, hraised, err, c, hrun, hc⟩

/-- The error of tokens that are all different is raised at one place.  The
tokens before it begin an entry.  It can go on there exactly if an expression
and a semicolon have more after them. -/
theorem ofTokens_error_position {e : ParseError} (hts : ts.Nodup)
    (h : ofTokens ts = .error e) :
    ∃ i, (∀ j, e.RaisedAt ts j ↔ j = i) ∧ Starts (.nonterminal .unit) (ts.take i) ∧
      (Acceptable ts i ↔ GoesOnAfterExpression ts) := by
  obtain ⟨us, vs, rfl, hstarts, hraised, err, c, hrun, hc⟩ := ofTokens_error h
  refine ⟨us.length, fun j => ⟨fun hj => hj.unique hts (hraised.append us), ?_⟩, ?_, ?_, ?_⟩
  · rintro rfl
    exact hraised.append us
  · rwa [List.take_left]
  · intro hacc
    unfold Acceptable at hacc
    cases vs with
    | nil =>
      rw [List.append_nil] at hacc h
      obtain ⟨u, hu⟩ := yields_iff.mp (by simpa using hacc)
      cases hu.symm.trans h
    | cons t vs =>
      rw [if_pos (by simp), List.take_length_add_append] at hacc
      exact goesOn_of_starts hrun hc hacc
  · rintro ⟨es, s, rest, he, hrest, heq⟩
    rw [heq]
    exact acceptable_of_le he (length_le_of_goesOn he hrest (heq ▸ hrun) heq.symm hc)

/-- The tokens of a text are all different, as their spans are. -/
theorem nodup_of_tokens {source : String} (hlex : tokens source = .ok ts) : ts.Nodup := by
  unfold tokens at hlex
  split at hlex
  · next us hus =>
    cases hlex
    exact Token.nodup_of_scan hus
  · cases hlex

/-- The error of a text that is not read is raised at one token, or at the end.
The tokens before that place begin an entry.  With the token there they begin
one too, or are one where there is none, exactly if the text is an expression
and a semicolon with more after them. -/
theorem parse_error_position {source : String} {ts : List Token} {e : ParseError}
    (hlex : tokens source = .ok ts) (hparse : parse source = .error e) :
    ∃ i, (∀ j, e.RaisedAt ts j ↔ j = i) ∧ Starts (.nonterminal .unit) (ts.take i) ∧
      (Acceptable ts i ↔ GoesOnAfterExpression ts) := by
  refine ofTokens_error_position (nodup_of_tokens hlex) ?_
  rw [parse, hlex] at hparse
  exact hparse

/-- What can be told of an error from its tokens and its text. -/
theorem exists_error (source : String) (ts : List Token) (e : ParseError)
    (hlex : (tokens source).toOption = some ts)
    (hparse : (match parse source with
      | .error e => some e
      | .ok _ => none) = some e) : tokens source = .ok ts ∧ parse source = .error e := by
  constructor
  · cases ht : tokens source with
    | error e => rw [ht] at hlex; cases hlex
    | ok us => rw [ht] at hlex; cases hlex; rfl
  · cases hp : parse source with
    | error e' => rw [hp] at hparse; cases hparse; rfl
    | ok u => rw [hp] at hparse; cases hparse

/-- An argument is missing after the comma. -/
def openArguments : String := "f(1, )"

theorem parse_error_position_openArguments : ∃ ts e, tokens openArguments = .ok ts ∧
    parse openArguments = .error e ∧
    ∃ i, (∀ j, e.RaisedAt ts j ↔ j = i) ∧ Starts (.nonterminal .unit) (ts.take i) ∧
      (Acceptable ts i ↔ GoesOnAfterExpression ts) := by
  obtain ⟨hlex, hparse⟩ := exists_error openArguments
    [⟨.ident "f", ⟨⟨0, 0⟩, ⟨0, 1⟩, openArguments⟩⟩,
      ⟨.fixed .leftParen, ⟨⟨0, 1⟩, ⟨0, 2⟩, openArguments⟩⟩,
      ⟨.integer "1", ⟨⟨0, 2⟩, ⟨0, 3⟩, openArguments⟩⟩,
      ⟨.fixed .comma, ⟨⟨0, 3⟩, ⟨0, 4⟩, openArguments⟩⟩,
      ⟨.fixed .rightParen, ⟨⟨0, 5⟩, ⟨0, 6⟩, openArguments⟩⟩]
    ⟨.unexpected ⟨.fixed .rightParen, ⟨⟨0, 5⟩, ⟨0, 6⟩, openArguments⟩⟩, [.expression]⟩
    (by decide +kernel) (by decide +kernel)
  exact ⟨_, _, hlex, hparse, parse_error_position hlex hparse⟩

/-- An expression, a semicolon and another expression. -/
def twoExpressions : String := "1; 2"

/-- The error is placed at the first expression, though that is an entry by itself. -/
theorem acceptable_twoExpressions : ∃ ts e, tokens twoExpressions = .ok ts ∧
    parse twoExpressions = .error e ∧ e.RaisedAt ts 0 ∧ Acceptable ts 0 := by
  obtain ⟨hlex, hparse⟩ := exists_error twoExpressions
    [⟨.integer "1", ⟨⟨0, 0⟩, ⟨0, 1⟩, twoExpressions⟩⟩,
      ⟨.fixed .semicolon, ⟨⟨0, 1⟩, ⟨0, 2⟩, twoExpressions⟩⟩,
      ⟨.integer "2", ⟨⟨0, 3⟩, ⟨0, 4⟩, twoExpressions⟩⟩]
    ⟨.unexpected ⟨.integer "1", ⟨⟨0, 0⟩, ⟨0, 1⟩, twoExpressions⟩⟩, [.statement]⟩
    (by decide +kernel) (by decide +kernel)
  refine ⟨_, _, hlex, hparse, rfl, ?_⟩
  have hone : Yields (.nonterminal .unit) [⟨.integer "1", ⟨⟨0, 0⟩, ⟨0, 1⟩, twoExpressions⟩⟩] :=
    yields_iff.mpr ⟨_, rfl⟩
  exact Starts.of_yields hone

end Entry

end Implet
