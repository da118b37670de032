/-
Implet/Proofs/LiteralRange.lean

Literals that are out of range.  A text whose only flaw is an integer literal
without a 64-bit value is refused with an error at that literal, wherever the
literal stands (`Entry.parse_literal_out_of_range`).  The tokens before it begin
an entry, and the tokens up to it do not, so it is where the error is placed.

But the error does not say what is wrong.  The reader of literals, and it alone,
refuses what it finds without a trace, and it is the first of several
alternatives: when the others have failed too, what is remembered is that a
literal was found where something else was expected (`Reader.run_silent`).
-/
import Implet.Proofs.ErrorExpectation
import Implet.Proofs.Layout
import Implet.Proofs.Replacing
import Implet.Proofs.Termination

namespace Implet

open Grammar

/-! ### Errors about the range of literals -/

/-- The error says that a literal is out of range. -/
def ParseError.NamesRange (e : ParseError) : Prop :=
  ∃ digits span, e.fault = .literalOutOfRange digits span

/-- No error is remembered that says that a literal is out of range. -/
def Cursor.Silent (c : Cursor) : Prop := ∀ m ∈ c.furthest, ¬m.2.NamesRange

namespace Cursor

theorem not_namesRange_complaint (c : Cursor) (x : Expectation) :
    ¬(c.complaint x).NamesRange := by
  unfold complaint
  split <;> rintro ⟨_, _, ⟨⟩⟩

theorem Silent.record {c : Cursor} (h : c.Silent) {e : ParseError} (he : ¬e.NamesRange) :
    (c.record e).Silent := by
  have hnew {ts : List Token} {n : Nat} : (Cursor.mk ts (some (n, e))).Silent := by
    rintro _ ⟨⟩
    exact he
  unfold Cursor.record
  split
  · split
    · exact h
    · exact hnew
  · exact hnew

end Cursor

/-! ### What is silent about it -/

/-- The glance does not fail with such an error. -/
def Glance.Silent {α : Type} : Glance α → Prop
  | fail e => ¬e.NamesRange
  | integer => False
  | _ => True

namespace Parser

variable {α : Type}

/-- The parser remembers no such error. -/
def Keeps (p : Parser α) : Prop := ∀ c : Cursor, c.Silent → (p c).2.Silent

/-- The parser fails with no such error. -/
def Spares (p : Parser α) : Prop := ∀ ⦃c c' e⦄, p c = (.error e, c') → ¬e.NamesRange

theorem keeps_expected (x : Expectation) : Keeps (expected (α := α) x) :=
  fun c hc => hc.record (c.not_namesRange_complaint x)

theorem spares_expected (x : Expectation) : Spares (expected (α := α) x) := by
  rintro c _ _ ⟨⟩
  exact c.not_namesRange_complaint x

theorem Keeps.single {accept : Token → Option α} {p : Parser α} (h : Keeps p) :
    Keeps (single accept p) := by
  intro c hc
  unfold Parser.single
  split
  · exact hc
  · exact h c hc

theorem Spares.single {accept : Token → Option α} {p : Parser α} (h : Spares p) :
    Spares (single accept p) := by
  intro c c' e hc
  unfold Parser.single at hc
  split at hc
  · cases hc
  · exact h hc

end Parser

namespace Glance

variable {α : Type}

theorem keeps (g : Glance α) : g.parser.Keeps := by
  cases g with
  | pure | fail | peek | advance => exact fun _ hc => hc
  | expected x => exact Parser.keeps_expected x
  | terminal t =>
    rw [parser, Parser.terminal_eq_single]
    exact (Parser.keeps_expected _).single
  | ident =>
    rw [parser, Ident.parser_eq_single]
    exact (Parser.keeps_expected _).single
  | integer =>
    rw [parser, Expr.integerLiteral_eq_single]
    refine Parser.Keeps.single fun c hc => ?_
    split
    · exact hc
    · exact hc.record (c.not_namesRange_complaint _)
  | boolean =>
    rw [parser, Expr.booleanLiteral_eq_single]
    exact (Parser.keeps_expected _).single

theorem Silent.spares {g : Glance α} (h : g.Silent) : g.parser.Spares := by
  cases g with
  | pure | peek | advance => rintro c _ _ ⟨⟩
  | fail e =>
    rintro c _ _ ⟨⟩
    exact h
  | expected x => exact Parser.spares_expected x
  | terminal t =>
    rw [parser, Parser.terminal_eq_single]
    exact (Parser.spares_expected _).single
  | ident =>
    rw [parser, Ident.parser_eq_single]
    exact (Parser.spares_expected _).single
  | integer => exact h.elim
  | boolean =>
    rw [parser, Expr.booleanLiteral_eq_single]
    exact (Parser.spares_expected _).single

end Glance

namespace Reader

/-- The reader remembers no such error, and if `fails` is set, it does not fail
with one either.  What a label is put on must not fail with one, as that is
remembered. -/
def Silent (fails : Bool) : {α : Type} → Reader α → Prop
  | _, .glance g => fails = true → g.Silent
  | _, .bind m f => m.Silent fails ∧ ∀ a, (f a).Silent fails
  | _, .or m m' => m.Silent false ∧ m'.Silent fails
  | _, .label m _ => m.Silent true
  | _, .optional m => m.Silent false
  | _, .loop _ body => ∀ s, (body s).Silent fails
  | _, .expression => True
  | _, .statement => True

variable {α β : Type} {m : Reader α} {fails : Bool}

/-- What is run after a part. -/
theorem after_eq_some {q : Result α} {ok : α → Cursor → Result β}
    {error : ParseError → Cursor → Result β} {r : Except ParseError β × Cursor}
    (h : after q ok error = some r) : (∃ a c, q = some (.ok a, c) ∧ ok a c = some r) ∨
      ∃ e c, q = some (.error e, c) ∧ error e c = some r := by
  rcases q with - | ⟨e | a, c⟩
  · cases h
  · exact .inr ⟨e, c, rfl, h⟩
  · exact .inl ⟨a, c, rfl, h⟩

/-- How a silent reader ends: nothing is remembered about ranges, nor is it what
a failure says if `fails` is set. -/
structure EndsSilent (fails : Bool) (r : Except ParseError α × Cursor) : Prop where
  keeps : r.2.Silent
  spares : fails = true → ∀ e, r.1 = .error e → ¬e.NamesRange

theorem EndsSilent.ok {a : α} {c : Cursor} (h : c.Silent) : EndsSilent fails (.ok a, c) :=
  ⟨h, fun _ _ h => nomatch h⟩

theorem EndsSilent.error {e : ParseError} {c : Cursor}
    (h : EndsSilent fails ((.error e, c) : Except ParseError α × Cursor)) :
    EndsSilent fails ((.error e, c) : Except ParseError β × Cursor) := by
  refine ⟨h.keeps, fun hf e' he => h.spares hf e' ?_⟩
  cases he
  rfl

/-- One step of a reader keeps silent if its parts do; so does a run of any length. -/
theorem run_silent (hexpression : expressionBody.Silent true)
    (hstatement : statementBody.Silent true) {fuel : Nat} {c : Cursor}
    {r : Except ParseError α × Cursor} (hm : m.Silent fails) (hc : c.Silent)
    (h : m.run fuel c = some r) : EndsSilent fails r := by
  induction fuel generalizing α fails c with
  | zero => cases h
  | succ fuel ih =>
    cases m with
    | glance g =>
      cases h
      exact ⟨g.keeps c hc, fun hf e he => (hm hf).spares (Prod.ext he rfl)⟩
    | bind m f =>
      rcases after_eq_some h with ⟨a, c', hrun, h⟩ | ⟨e, c', hrun, h⟩
      · exact ih (hm.2 a) (ih hm.1 hc hrun).keeps h
      · cases h
        exact (ih hm.1 hc hrun).error
    | or m m' =>
      rcases after_eq_some h with ⟨a, c', hrun, h⟩ | ⟨e, c', hrun, h⟩
      · cases h
        exact .ok (ih hm.1 hc hrun).keeps
      · -- what the first one fails with is forgotten, so it may be about ranges
        exact ih (c := ⟨c.rest, c'.furthest⟩) hm.2 (ih hm.1 hc hrun).keeps h
    | label m x =>
      rcases after_eq_some h with ⟨a, c', hrun, h⟩ | ⟨e, c', hrun, h⟩
      · cases h
        exact .ok (ih (m := m) hm hc hrun).keeps
      · cases h
        have hm := ih (m := m) hm hc hrun
        -- the label changes what was expected, and leaves the fault
        have he : ¬ParseError.NamesRange { e with expected := [x] } := hm.spares rfl e rfl
        refine ⟨hm.keeps.record he, fun _ e' he' => ?_⟩
        cases he'
        exact he
    | optional m =>
      rcases after_eq_some h with ⟨a, c', hrun, h⟩ | ⟨e, c', hrun, h⟩
      · cases h
        exact .ok (ih (m := m) hm hc hrun).keeps
      · cases h
        exact .ok (ih (m := m) hm hc hrun).keeps
    | loop s body =>
      rcases after_eq_some h with ⟨s' | a, c', hrun, h⟩ | ⟨e, c', hrun, h⟩
      · exact ih (m := .loop s' body) hm (ih (hm s) hc hrun).keeps h
      · cases h
        exact .ok (ih (hm s) hc hrun).keeps
      · cases h
        exact (ih (hm s) hc hrun).error
    | expression =>
      have := ih hexpression hc h
      exact ⟨this.keeps, fun _ => this.spares rfl⟩
    | statement =>
      have := ih hstatement hc h
      exact ⟨this.keeps, fun _ => this.spares rfl⟩

/-! ### The readers of the grammar -/

/-- What does not even fail with such an error may be tried before something else. -/
theorem Silent.weaken (h : m.Silent true) : m.Silent fails := by
  cases fails with
  | true => exact h
  | false =>
    induction m with
    | glance g => exact nofun
    | bind m f ihm ihf => exact ⟨ihm h.1, fun a => ihf a (h.2 a)⟩
    | or m m' _ ih => exact ⟨h.1, ih h.2⟩
    | label m x => exact h
    | optional m => exact h
    | loop s body ih => exact fun s => ih s (h s)
    | expression | statement => trivial

theorem silent_pure (a : α) : (pure a : Reader α).Silent fails := fun _ => trivial

theorem silent_peek : peek.Silent fails := fun _ => trivial

theorem silent_terminal (t : Terminal) : (terminal t).Silent fails := fun _ => trivial

theorem silent_ident : ident.Silent fails := fun _ => trivial

theorem silent_expression : Reader.expression.Silent fails := trivial

theorem silent_statement : Reader.statement.Silent fails := trivial

theorem Silent.bind {f : α → Reader β} (hm : m.Silent fails)
    (hf : ∀ a, (f a).Silent fails) : (m >>= f).Silent fails := ⟨hm, hf⟩

theorem Silent.map (hm : m.Silent fails) (f : α → β) : (f <$> m).Silent fails :=
  hm.bind fun _ => silent_pure _

theorem silent_collect {step : Reader (Option α)} (h : step.Silent true) :
    (collect step).Silent true := by
  refine fun as => h.bind fun o => ?_
  cases o <;> exact silent_pure _

theorem silent_many (h : m.Silent true) : (many m).Silent true := silent_collect h.weaken

theorem silent_separated {separator : Reader β} (h : m.Silent true)
    (hs : separator.Silent true) : (separated m separator).Silent true := by
  have hfollowing : (following m separator).Silent true := by
    refine Silent.bind hs.weaken fun o => ?_
    cases o with
    | none => exact silent_pure _
    | some _ => exact h.bind fun _ => silent_pure _
  refine Silent.bind h.weaken fun o => ?_
  cases o with
  | none => exact silent_pure _
  | some first => exact (silent_collect hfollowing).bind fun _ => silent_pure _

theorem silent_element {stop : Token → Bool} (h : m.Silent true) :
    (element stop m).Silent true := by
  refine silent_peek.bind fun o => ?_
  cases o with
  | none => exact silent_pure _
  | some token =>
    dsimp only
    split
    · exact silent_pure _
    · exact h.bind fun _ => silent_pure _

theorem silent_call : call.Silent true :=
  silent_ident.bind fun _ => (silent_terminal _).bind fun _ =>
    (silent_separated silent_expression (silent_terminal _)).bind fun _ =>
      (silent_terminal _).bind fun _ => silent_pure _

theorem silent_skip {m' : Reader β} (h : m.Silent true) (h' : m'.Silent true) :
    (skip m m').Silent true := h.bind fun _ => h'.bind fun _ => silent_pure _

theorem silent_skipLeft {m' : Reader β} (h : m.Silent true) (h' : m'.Silent true) :
    (skipLeft m m').Silent true := h.bind fun _ => h'

theorem silent_parenthesized : parenthesized.Silent true :=
  silent_skip (silent_skipLeft (silent_terminal _) silent_expression) (silent_terminal _)

/-- The reader of literals is tried before others, so what is labelled is not
its error. -/
theorem silent_primary : primary.Silent true := by
  have hboolean : (Reader.or (.glance .integer) (.glance .boolean)).Silent false :=
    ⟨nofun, nofun⟩
  exact ⟨⟨⟨hboolean, silent_call.weaken⟩, silent_ident.map _⟩, silent_parenthesized⟩

theorem silent_chain (ops : List BinOp) {operand : Reader Expr}
    (h : operand.Silent true) : (chain ops operand).Silent true := by
  refine h.bind fun first left => silent_peek.bind fun o => ?_
  split
  · exact silent_pure _
  · exact Silent.bind (fun _ => trivial) fun _ => h.bind fun _ => silent_pure _

theorem silent_expressionBody : expressionBody.Silent true := by
  unfold expressionBody
  induction BinOp.levels with
  | nil => exact silent_primary
  | cons ops levels ih => exact silent_chain ops ih

theorem silent_parameter : parameter.Silent true := by
  have htype : typeName.Silent true :=
    ⟨⟨(silent_terminal _).map _, (silent_terminal _).map _⟩, (silent_terminal _).map _⟩
  exact htype.bind fun _ => silent_ident.bind fun _ => silent_pure _

theorem silent_declaration : declaration.Silent true :=
  silent_parameter.bind fun _ => (silent_terminal _).bind fun _ => silent_pure _

theorem silent_block : block.Silent true :=
  (silent_terminal _).bind fun _ => (silent_many silent_declaration).bind fun _ =>
    (silent_collect (silent_element silent_statement)).bind fun _ =>
      (silent_terminal _).bind fun _ => silent_pure _

theorem silent_statementBody : statementBody.Silent true := by
  refine silent_peek.bind fun o => ?_
  -- a block, a conditional, a loop, a return, an assignment, or nothing that
  -- begins a statement
  split
  · exact silent_block.map _
  · refine (silent_terminal _).bind fun _ => silent_expression.bind fun _ =>
      silent_statement.bind fun _ => Silent.bind ?_ fun _ => silent_pure _
    exact (silent_skipLeft (silent_terminal _) silent_statement).weaken
  · exact (silent_terminal _).bind fun _ => silent_expression.bind fun _ =>
      silent_statement.bind fun _ => silent_pure _
  · exact (silent_terminal _).bind fun _ => silent_expression.bind fun _ =>
      (silent_terminal _).bind fun _ => silent_pure _
  · exact silent_ident.bind fun _ => (silent_terminal _).bind fun _ =>
      silent_expression.bind fun _ => (silent_terminal _).bind fun _ => silent_pure _
  · exact fun _ => trivial

theorem silent_function : function.Silent true := by
  refine (silent_terminal _).bind fun _ => Silent.bind ?_ fun _ => (silent_terminal _).bind fun _ =>
    (silent_separated silent_parameter (silent_terminal _)).bind fun _ =>
      (silent_terminal _).bind fun _ => silent_block.bind fun _ => silent_pure _
  exact (silent_ident : ident.Silent true)

theorem silent_item : item.Silent true := by
  refine silent_peek.bind fun o => ?_
  split
  · exact silent_function.map _
  · exact silent_declaration.map _
  · exact silent_declaration.map _
  · exact silent_declaration.map _
  · exact silent_statement.map _

theorem silent_bareExpression : bareExpression.Silent true := by
  have hsemicolon : (terminal .semicolon).optional.Silent true :=
    (silent_terminal .semicolon : (terminal .semicolon).Silent false)
  have hcomplete (e : Expr) : (complete e).Silent true := by
    refine silent_peek.bind fun o => ?_
    cases o with
    | none => exact silent_pure _
    | some token =>
      rintro - ⟨_, _, ⟨⟩⟩
  have hlone := (silent_skip silent_expression hsemicolon).bind hcomplete
  exact (hlone.weaken : Silent false _)

theorem silent_unit : unit.Silent true := by
  refine silent_bareExpression.bind fun o => ?_
  cases o with
  | some e => exact silent_pure _
  | none =>
    exact (silent_collect (silent_element silent_item)).bind fun _ => silent_pure _

end Reader

namespace Entry

variable {ts us vs : List Token}

/-! ### The place of the literal -/

theorem fits_of_starts (h : Starts (.nonterminal .unit) ts) {t : Token} (ht : t ∈ ts) :
    t.lexeme.Fits := by
  obtain ⟨ws, ps, hfits, -⟩ := h
  exact hfits t (List.mem_append_left ws ht)

/-- An entry does not go on after an expression and a semicolon. -/
theorem not_goesOn_of_yields (h : Yields (.nonterminal .unit) ts) :
    ¬GoesOnAfterExpression ts := by
  rintro ⟨es, s, rest, he, hrest, heq⟩
  have hpos := List.length_pos_iff.mpr hrest
  have hlen := congrArg List.length heq
  rw [List.length_append, List.length_cons] at hlen
  obtain ⟨ps, hd⟩ := h
  obtain ⟨_, -, rfl⟩ := Derives.nonterminal_iff.mp hd
  rcases Derives.unit_iff.mp hd with ⟨us, e, hus, hts, -⟩ | ⟨items, hitems, -⟩
  · -- the whole is an expression, with a semicolon or without one, which would end sooner
    obtain ⟨vs, rfl, hvs⟩ : ∃ vs, ts = us ++ vs ∧ vs.length ≤ 1 := by
      rcases hts with rfl | ⟨sp, rfl⟩
      · exact ⟨[], (List.append_nil _).symm, Nat.zero_le 1⟩
      · exact ⟨_, rfl, Nat.le_refl 1⟩
    have hle := length_le_of_starts_expression he (Starts.of_yields ⟨_, hus⟩) heq.symm
    rw [List.length_append] at hlen
    omega
  · have hle := length_le_of_starts_items he (Starts.of_yields ⟨_, hitems⟩)
      (heq.symm.trans (List.append_nil ts).symm)
    omega

variable {digits : String} {span : Span}

/-- Tokens with a literal that is out of range go on after an expression and a
semicolon only if they do so before the literal, and then it can be any other
token. -/
theorem goesOn_replace (hrange : ¬(Lexeme.integer digits).Fits)
    (h : GoesOnAfterExpression (us ++ ⟨.integer digits, span⟩ :: vs)) (t : Token) :
    GoesOnAfterExpression (us ++ t :: vs) := by
  obtain ⟨es, s, rest, he, -, heq⟩ := h
  rcases List.append_eq_append_iff.mp heq with ⟨ws, rfl, hws⟩ | ⟨ws, rfl, hws⟩
  · -- the literal is neither in the expression nor is it the semicolon
    rcases ws with - | ⟨w, ws⟩
    · cases hws
    · obtain ⟨rfl, -⟩ := List.cons.inj hws
      obtain ⟨ps, hfits, -⟩ := he
      exact (hrange (hfits ⟨.integer digits, span⟩ (by simp))).elim
  · rcases ws with - | ⟨w, ws⟩
    · cases hws
    · obtain ⟨rfl, rfl⟩ := List.cons.inj hws
      exact ⟨es, s, ws ++ t :: vs, he, by simp, by simp⟩

/-- No error of tokens names the range of a literal. -/
theorem not_namesRange_of_error {e : ParseError} (h : ofTokens ts = .error e) :
    ¬e.NamesRange := by
  obtain ⟨us, vs, -, -, -, err, c, hrun, hc⟩ := ofTokens_error h
  obtain ⟨fuel, hends⟩ := (Reader.settles_unit _ ⟨ts, none⟩ (Nat.lt_succ_self _)).ends
  rw [hrun] at hends
  have hstart : (Cursor.mk ts none).Silent := by rintro _ ⟨⟩
  exact (Reader.run_silent Reader.silent_expressionBody Reader.silent_statementBody
    Reader.silent_unit hstart hends).keeps _ hc

/-- The error of tokens that would be an entry with another token in the place
of a literal that is out of range. -/
theorem ofTokens_literal_out_of_range (hrange : ¬(Lexeme.integer digits).Fits) {t : Token}
    (h : Yields (.nonterminal .unit) (us ++ t :: vs)) :
    ∃ x, ofTokens (us ++ ⟨.integer digits, span⟩ :: vs) =
      .error ⟨.unexpected ⟨.integer digits, span⟩, [x]⟩ := by
  cases hread : ofTokens (us ++ ⟨.integer digits, span⟩ :: vs) with
  | ok u =>
    obtain ⟨ps, hfits, -⟩ := yields_iff.mpr ⟨u, hread⟩
    exact (hrange (hfits ⟨.integer digits, span⟩ (by simp))).elim
  | error e =>
    obtain ⟨bs, as, heq, hstarts, hraised, err, c, hrun, hc⟩ := ofTokens_error hread
    obtain ⟨-, -, x, -, -, hx, -⟩ := ofTokens_expected hread
    have hplace : bs = us ∧ as = ⟨.integer digits, span⟩ :: vs := by
      rcases List.append_eq_append_iff.mp heq with ⟨ws, rfl, hws⟩ | ⟨ws, rfl, hws⟩
      · rcases ws with - | ⟨w, ws⟩
        · exact ⟨List.append_nil us, hws.symm⟩
        · -- the tokens before the error begin an entry, so the literal is not one of them
          obtain ⟨rfl, -⟩ := List.cons.inj hws
          exact (hrange (fits_of_starts hstarts (t := ⟨.integer digits, span⟩) (by simp))).elim
      · rcases ws with - | ⟨w, ws⟩
        · exact ⟨(List.append_nil bs).symm, hws⟩
        · -- nor is the error before the literal, where the entry with the other token goes on
          subst hws
          have hgoes : Starts (.nonterminal .unit) (bs ++ [w]) := by
            refine ⟨ws ++ t :: vs, ?_⟩
            simpa using h
          rw [List.append_assoc, List.cons_append] at hrun
          have hafter := goesOn_of_starts hrun hc hgoes
          rw [← List.cons_append, ← List.append_assoc] at hafter
          exact (not_goesOn_of_yields h (goesOn_replace hrange hafter t)).elim
    obtain ⟨rfl, rfl⟩ := hplace
    refine ⟨x, congrArg Except.error ?_⟩
    -- of the faults at the literal, the one that fits is the one that is never remembered
    obtain ⟨fault, expected⟩ := e
    obtain rfl : expected = [x] := hx
    have hsilent := not_namesRange_of_error hread
    cases fault with
    | unexpected token =>
      obtain rfl : ⟨.integer digits, span⟩ = token := Option.some.inj hraised
      rfl
    | endOfInput => cases hraised
    | literalOutOfRange digits span => exact (hsilent ⟨digits, span, rfl⟩).elim
    | lexing error => exact hraised.elim

/-! ### Texts -/

/-- A literal that is out of range has its place in the text.  If the text is
read with a zero there, it is refused as it is, with an error that has the span
of the literal; but what the error says is that the literal was not expected. -/
theorem parse_literal_out_of_range {text digits : String} {ts : List Token} {span : Span}
    (hlex : tokens text = .ok ts) (hliteral : ⟨.integer digits, span⟩ ∈ ts)
    (hrange : ¬(Lexeme.integer digits).Fits) :
    (∃ before after, CutsAt text digits span.start before after) ∧
      ∀ before after u, CutsAt text digits span.start before after →
        parse (before ++ "0" ++ after) = .ok u →
          ∃ e x, parse text = .error e ∧ e.span = some span ∧ e.what = "unexpected token" ∧
            e = ⟨.unexpected ⟨.integer digits, span⟩, [x]⟩ := by
  refine ⟨exists_cutsAt hlex hliteral, fun before after u hcut hzero => ?_⟩
  have hdigit : ∀ c ∈ "0".toList, isDigit c = true := List.all_eq_true.mp (by decide)
  obtain ⟨us, vs, ts', rfl, hlex', hlexemes⟩ :=
    tokens_replace hlex hliteral hcut (by decide) hdigit
  -- with a zero in the place of the literal the tokens are like those of the other text
  have hlike : List.Forall₂ (Token.Like fun _ _ => True) ts'
      (us ++ ⟨.integer "0", span⟩ :: vs) := by
    refine tokens_like_of_lexemes ?_
    rw [hlexemes, List.map_append, List.map_cons]
  have hentry : Yields (.nonterminal .unit) (us ++ ⟨.integer "0", span⟩ :: vs) := by
    rw [parse, hlex'] at hzero
    rcases ofTokens_of_like (fun _ _ _ _ _ _ => trivial) hlike with
      ⟨_, u', -, hu', -⟩ | ⟨err, -, herr, -, -⟩
    · exact yields_iff.mpr ⟨u', hu'⟩
    · cases hzero.symm.trans herr
  obtain ⟨x, hx⟩ := ofTokens_literal_out_of_range hrange hentry
  refine ⟨_, x, ?_, rfl, rfl, rfl⟩
  rw [parse, hlex]
  exact hx

/-- Digits of a number that has no 64-bit value. -/
def tooManyDigits : String := "99999999999999999999"

theorem not_fits_tooManyDigits : ¬(Lexeme.integer tooManyDigits).Fits := by
  show ¬Expr.digitsValue tooManyDigits.toList < Nat.pow 2 63
  decide

/-- They are an argument of a call, which is a condition. -/
def digitsInCondition : String := "while f(" ++ tooManyDigits ++ ") return 1;"

theorem parse_literal_out_of_range_digitsInCondition :
    ∃ ts span, tokens digitsInCondition = .ok ts ∧ ⟨.integer tooManyDigits, span⟩ ∈ ts ∧
      ¬(Lexeme.integer tooManyDigits).Fits ∧
      CutsAt digitsInCondition tooManyDigits span.start "while f(" ") return 1;" ∧
      (∃ u, parse ("while f(" ++ "0" ++ ") return 1;") = .ok u) ∧
      ∃ e x, parse digitsInCondition = .error e ∧ e.span = some span ∧
        e.what = "unexpected token" ∧ e = ⟨.unexpected ⟨.integer tooManyDigits, span⟩, [x]⟩ := by
  have hlex : ((tokens digitsInCondition).toOption.any fun ts => decide
      (⟨.integer tooManyDigits, ⟨⟨0, 8⟩, ⟨0, 28⟩, digitsInCondition⟩⟩ ∈ ts)) = true := by
    decide +kernel
  have hzero : (parse ("while f(" ++ "0" ++ ") return 1;")).toOption.isSome = true := by
    decide +kernel
  have hcut : CutsAt digitsInCondition tooManyDigits ⟨0, 8⟩ "while f(" ") return 1;" :=
    ⟨rfl, by decide⟩
  cases ht : tokens digitsInCondition with
  | error e =>
    rw [ht] at hlex
    cases hlex
  | ok ts =>
    cases hu : parse ("while f(" ++ "0" ++ ") return 1;") with
    | error e =>
      rw [hu] at hzero
      cases hzero
    | ok u =>
      rw [ht] at hlex
      have hliteral := of_decide_eq_true hlex
      have hresult := parse_literal_out_of_range ht hliteral not_fits_tooManyDigits
      exact ⟨_, _, rfl, hliteral, not_fits_tooManyDigits, hcut, ⟨u, rfl⟩,
        hresult.2 _ _ u hcut hu⟩

/-- The error of a text that is nothing but a literal out of range does not say
so, though with a zero in its place the text is read. -/
theorem what_tooManyDigits : ∃ t e u, tokens tooManyDigits = .ok [t] ∧
    t.lexeme = .integer tooManyDigits ∧ ¬t.lexeme.Fits ∧ parse "0" = .ok u ∧
    parse tooManyDigits = .error e ∧ e.span = some t.span ∧
    e.what ≠ "integer literal out of range" := by
  obtain ⟨hlex, hparse⟩ := exists_error tooManyDigits
    [⟨.integer tooManyDigits, ⟨⟨0, 0⟩, ⟨0, 20⟩, tooManyDigits⟩⟩]
    ⟨.unexpected ⟨.integer tooManyDigits, ⟨⟨0, 0⟩, ⟨0, 20⟩, tooManyDigits⟩⟩, [.statement]⟩
    (by decide +kernel) (by decide +kernel)
  have hzero : (parse "0").toOption.isSome = true := by decide +kernel
  cases hu : parse "0" with
  | error e =>
    rw [hu] at hzero
    cases hzero
  | ok u => exact ⟨_, _, u, hlex, rfl, not_fits_tooManyDigits, rfl, hparse, rfl, by decide⟩

end Entry

end Implet
