/-
Implet/Proofs/ErrorExpectation.lean

What the error of a text that is not read says was expected
(`Entry.parse_error_expected`).  It names one thing, and something of that kind,
in the place of the error, goes on as the beginning of some entry: all errors
that are remembered are like that, whichever of them comes last.

There is one exception, and it is always wrong: an expression, where one in
parentheses is over and only an operator or the closing parenthesis can come.
No entry has an operand there (`AwaitsClosing.not_fits`), as inside of
parentheses operands do not follow one another.
-/
import Implet.Proofs.ErrorPosition
import Implet.Proofs.Expectations
import Implet.Proofs.Spacing

namespace Implet

open Grammar

open Implet.Parser (Recalls Expects)

/-- Where a closing parenthesis is missing, no expression can come. -/
theorem AwaitsClosing.not_fits {ts : List Token} (h : AwaitsClosing ts) :
    ¬ Expectation.Fits .expression (.nonterminal .unit) ts := by
  rintro ⟨_, ⟨⟩, ws, ⟨ps, hw⟩, vs, hy⟩
  obtain ⟨us, s, es, rfl, hes, hlast⟩ := h
  -- the walk along the entry goes past the parenthesis, the expression after
  -- it, and another one
  have hstart : Spot.Ready 0 ⟨0, none⟩ := ⟨rfl, rfl⟩
  obtain ⟨_, hwalk, -⟩ := Carries.unit (Nat.le_refl _) hy hstart
  rw [← List.singleton_append] at hwalk
  simp only [Spot.walk_append] at hwalk
  obtain ⟨st₄, ⟨st₃, ⟨st₁, -, st₂, hopen, hexpr⟩, hws⟩, -⟩ := hwalk
  obtain ⟨-, rfl⟩ := Spot.of_walk_word hopen
  -- the first of them is over, and does not end with a name
  have hready : Spot.Ready (st₁.depth + 1) ⟨st₁.depth + 1, some (.fixed .leftParen)⟩ :=
    ⟨rfl, rfl⟩
  obtain ⟨st, hst, hdone⟩ := Carries.expression es.length _ (Nat.le_refl _) hes hready
  obtain rfl : st₃ = st := Option.some.inj (hexpr.symm.trans hst)
  have hclosed : st₃.closed = true := by
    refine hdone.closed fun name hname => ?_
    rcases he : es.getLast? with - | e
    · obtain ⟨qs, hd⟩ := hes
      rw [List.getLast?_eq_none_iff.mp he] at hd
      exact (Derives.begins_expression hd).elim
    · rw [Spot.last_of_walk hst he, Option.some.injEq] at hname
      exact hlast name e.span (by rw [he, ← hname])
  -- so the other one cannot begin
  rcases ws with - | ⟨w, ws⟩
  · exact (Derives.begins_expression hw).elim
  · rw [← List.singleton_append, Spot.walk_append] at hws
    obtain ⟨_, hword, -⟩ := hws
    have hblocks := (Spot.of_walk_word hword).1
    have hdepth : st₃.depth = st₁.depth + 1 := hdone.inside
    have hopens := Lexeme.OpensExpr.opensOperand (Derives.begins_expression hw)
    simp [Spot.blocks, hdepth, hclosed, hopens] at hblocks

namespace Entry

theorem loneExpression_expects : Expects Expectation.Any loneExpression
    (.seq [.nonterminal .expression, .opt (.terminal .semicolon)]) :=
  .next Expr.parser_expects.any (fun _ => .next
    (.optional (Expects.terminal (S := Expectation.Any) trivial).recounts) (fun _ => .pure .seq_nil)
    (by simp)) (by simp)

variable {ts : List Token} {c : Cursor} {err e : ParseError}

/-- Errors that are remembered say what is apt for an entry. -/
theorem recalls_of_parser_error (h : parser ⟨ts, none⟩ = (.error err, c)) :
    Recalls (.nonterminal .unit) ts none c.furthest := by
  obtain ⟨c', hbare, hrest, hlist⟩ := parser_error h
  have hn := loneExpression_expects.recalls ⟨ts, none⟩
  have hn' := (Item.listWithin_expects c'.rest.length).recalls c'
  rw [← furthest_bareExpression, hbare] at hn
  rw [hlist, hrest] at hn'
  exact (hn.mono fun _ hs => hs.mono fun _ => yields_of_loneExpression).again
    (hn'.mono fun _ hs => hs.mono fun _ => yields_of_items)

theorem ofTokens_expected (h : ofTokens ts = .error e) :
    ∃ us vs x, ts = us ++ vs ∧ e.RaisedAt vs 0 ∧ e.expected = [x] ∧
      x.Apt (.nonterminal .unit) us := by
  obtain ⟨us, vs, hts, -, hraised, err, c, hrun, hc⟩ := ofTokens_error h
  have hn := recalls_of_parser_error hrun
  rw [hc] at hn
  obtain ⟨us', vs', x, hts', hlen, hx, hapt⟩ := hn.place
  obtain ⟨rfl, rfl⟩ := List.append_inj' (hts.symm.trans hts') hlen.symm
  exact ⟨us, vs, x, hts, hraised, hx, hapt⟩

/-- The error of a text that is not read is raised at one token, or at the end,
and says that one thing was expected there.  After the tokens before that place,
something of the kind that it names goes on as the beginning of an entry,
exactly if it is not an expression where the tokens await a closing
parenthesis. -/
theorem parse_error_expected {source : String} (hlex : tokens source = .ok ts)
    (hparse : parse source = .error e) :
    ∃ i x, (∀ j, e.RaisedAt ts j ↔ j = i) ∧ e.expected = [x] ∧
      (x.Fits (.nonterminal .unit) (ts.take i) ↔
        ¬ (x = .expression ∧ AwaitsClosing (ts.take i))) := by
  have hts := nodup_of_tokens hlex
  rw [parse, hlex] at hparse
  obtain ⟨us, vs, x, rfl, hraised, hx, hapt⟩ := ofTokens_expected hparse
  refine ⟨us.length, x, fun j => ⟨fun hj => hj.unique hts (hraised.append us), ?_⟩, hx, ?_⟩
  · rintro rfl
    exact hraised.append us
  · rw [List.take_left]
    constructor
    · rintro hfits ⟨rfl, hclosing⟩
      exact hclosing.not_fits hfits
    · exact hapt.resolve_right

/-- An assignment without its semicolon. -/
def openAssignment : String := "x := 1"

theorem parse_error_expected_openAssignment : ∃ ts e, tokens openAssignment = .ok ts ∧
    parse openAssignment = .error e ∧
    ∃ i x, (∀ j, e.RaisedAt ts j ↔ j = i) ∧ e.expected = [x] ∧
      (x.Fits (.nonterminal .unit) (ts.take i) ↔
        ¬ (x = .expression ∧ AwaitsClosing (ts.take i))) := by
  obtain ⟨hlex, hparse⟩ := exists_error openAssignment
    [⟨.ident "x", ⟨⟨0, 0⟩, ⟨0, 1⟩, openAssignment⟩⟩,
      ⟨.fixed .assign, ⟨⟨0, 2⟩, ⟨0, 4⟩, openAssignment⟩⟩,
      ⟨.integer "1", ⟨⟨0, 5⟩, ⟨0, 6⟩, openAssignment⟩⟩]
    ⟨.endOfInput, [.terminal .semicolon]⟩ (by decide +kernel) (by decide +kernel)
  exact ⟨_, _, hlex, hparse, parse_error_expected hlex hparse⟩

/-- A parenthesis that is not closed before another operand. -/
def openParenthesis : String := "(1 2"

/-- The error says that an expression was expected, though none can come there. -/
theorem expected_openParenthesis : ∃ ts e, tokens openParenthesis = .ok ts ∧
    parse openParenthesis = .error e ∧ e.RaisedAt ts 2 ∧ .expression ∈ e.expected ∧
    ¬ Expectation.Fits .expression (.nonterminal .unit) (ts.take 2) := by
  obtain ⟨hlex, hparse⟩ := exists_error openParenthesis
    [⟨.fixed .leftParen, ⟨⟨0, 0⟩, ⟨0, 1⟩, openParenthesis⟩⟩,
      ⟨.integer "1", ⟨⟨0, 1⟩, ⟨0, 2⟩, openParenthesis⟩⟩,
      ⟨.integer "2", ⟨⟨0, 3⟩, ⟨0, 4⟩, openParenthesis⟩⟩]
    ⟨.unexpected ⟨.integer "2", ⟨⟨0, 3⟩, ⟨0, 4⟩, openParenthesis⟩⟩, [.expression]⟩
    (by decide +kernel) (by decide +kernel)
  refine ⟨_, _, hlex, hparse, rfl, by simp, AwaitsClosing.not_fits ?_⟩
  have fits : (Lexeme.integer "1").Fits := by
    show Expr.digitsValue "1".toList < Nat.pow 2 63
    decide
  refine ⟨[], _, [⟨.integer "1", ⟨⟨0, 1⟩, ⟨0, 2⟩, openParenthesis⟩⟩], rfl, ?_, nofun⟩
  exact Expr.yields_of_primary (.rule (Yields.alt (e := .integer)
    ⟨_, Derives.integer_iff.mpr ⟨"1", _, rfl, rfl, fits⟩⟩ (by simp)))

end Entry

end Implet
