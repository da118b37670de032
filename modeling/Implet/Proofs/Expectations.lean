/-
Implet/Proofs/Expectations.lean

Each reader of the grammar says of its errors what is apt: the lemmas
`Expr.parser_expects`, `Stmt.parser_expects` and their kind, one for each
reader.

All but one are put together by the rules.  The exception is
`Expr.primary_expects`: the label on a primary expression also covers what goes
wrong inside of parentheses.  If something is missing there before the
expression is over, it is an expression anyway.  If the closing parenthesis is
missing after a name, an expression in parentheses can come, as an argument
(`Callable`).  Otherwise the label is wrong.
-/
import Implet.Proofs.Expecting

namespace Implet

open Grammar

open Implet.Parser (Recounts Expects Declines)

/-! ### Phrases that end with a name -/

namespace Grammar

/-- Where a phrase of `e` ends with a name, `args` can come after it. -/
def Callable (args : List Token) (e : Ebnf) : Prop :=
  ∀ ⦃ts name s⦄, Yields e ts → ts.getLast? = some ⟨.ident name, s⟩ → Yields e (ts ++ args)

namespace Callable

variable {args : List Token} {e : Ebnf} {es : List Ebnf} {n m : Nonterminal}

theorem terminal {t : Terminal} : Callable args (.terminal t) := by
  rintro ts name s ⟨ps, h⟩ hlast
  obtain ⟨s', rfl, -⟩ := Derives.terminal_iff.mp h
  cases hlast

theorem alt (h : ∀ e ∈ es, Callable args e) : Callable args (.alt es) := by
  rintro ts name s ⟨ps, hd⟩ hlast
  obtain ⟨e, he, hd⟩ := Derives.alt_iff.mp hd
  exact (h e he ⟨ps, hd⟩ hlast).alt he

theorem seq_nil : Callable args (.seq []) := by
  rintro ts name s ⟨ps, h⟩ hlast
  obtain ⟨rfl, -⟩ := Derives.seq_nil_iff.mp h
  cases hlast

/-- Of two phrases, the second ends with the name, or it is empty and the first
one does. -/
theorem join {e₁ e₂ : Ebnf} {us vs : List Token} {name : String} {s : Span}
    (h : Callable args e₁) (hu : Yields e₁ us) (hv : Yields e₂ vs) (he : Joins e₁ e₂ e)
    (h' : vs.getLast? = some ⟨.ident name, s⟩ → Yields e₂ (vs ++ args))
    (hlast : (us ++ vs).getLast? = some ⟨.ident name, s⟩) : Yields e (us ++ vs ++ args) := by
  rcases List.eq_nil_or_concat vs with rfl | ⟨ws, t, rfl⟩
  · rw [List.append_nil] at hlast ⊢
    rw [← List.append_nil (us ++ args)]
    exact he (h hu hlast) hv
  · rw [List.append_assoc]
    refine he hu (h' ?_)
    rwa [List.concat_eq_append, ← List.append_assoc, List.getLast?_concat,
      ← List.getLast?_concat (l := ws), ← List.concat_eq_append] at hlast

theorem seq_cons (h : Callable args e) (h' : Callable args (.seq es)) :
    Callable args (.seq (e :: es)) := by
  rintro ts name s ⟨ps, hd⟩ hlast
  obtain ⟨us, vs, _, _, rfl, -, hu, hv⟩ := Derives.seq_cons_iff.mp hd
  exact join h ⟨_, hu⟩ ⟨_, hv⟩ .seq (h' ⟨_, hv⟩) hlast

theorem many (h : Callable args e) : Callable args (.many e) := by
  rintro ts name s ⟨ps, hd⟩
  refine Derives.many_induction hd nofun fun hu hv ih hlast => ?_
  exact join h ⟨_, hu⟩ ⟨_, hv⟩ .many ih hlast

theorem rule (h : Callable args n.rule) : Callable args (.nonterminal n) := by
  rintro ts name s ⟨ps, hd⟩ hlast
  obtain ⟨qs, hd, -⟩ := Derives.nonterminal_iff.mp hd
  exact (h ⟨qs, hd⟩ hlast).rule

theorem operated {ops : List Terminal} (hn : n.rule = .operated m ops)
    (h : Callable args (.nonterminal m)) : Callable args (.nonterminal n) := by
  refine .rule ?_
  rw [hn, Ebnf.operated]
  refine .seq_cons h (.seq_cons (.many (.seq_cons (.alt fun e he => ?_) (.seq_cons h .seq_nil)))
    .seq_nil)
  obtain ⟨t, -, rfl⟩ := List.mem_map.mp he
  exact .terminal

/-- A name is a primary expression, and so is a call with that name. -/
theorem primary
    (hargs : ∀ name s, Yields (.nonterminal .call) (⟨.ident name, s⟩ :: args)) :
    Callable args (.nonterminal .primary) := by
  rintro ts name s ⟨ps, hd⟩ hlast
  obtain ⟨qs, -, rfl⟩ := Derives.nonterminal_iff.mp hd
  rcases Derives.primary_cases hd with ⟨_, _, -, rfl, -⟩ | ⟨_, rfl, -⟩ | ⟨_, rfl, -⟩ | hcall |
    ⟨name', s', rfl, -⟩ | ⟨_, _, _, -, rfl⟩
  · cases hlast
  · cases hlast
  · cases hlast
  · obtain ⟨_, _, _, _, _, _, -, rfl, -⟩ := Derives.call_cases hcall
    rw [← List.cons_append, ← List.cons_append, List.getLast?_concat] at hlast
    cases hlast
  · exact .rule ((hargs name' s').alt (by simp))
  · rw [← List.cons_append, List.getLast?_concat] at hlast
    cases hlast

theorem expression
    (hargs : ∀ name s, Yields (.nonterminal .call) (⟨.ident name, s⟩ :: args)) :
    Callable args (.nonterminal .expression) := by
  have term : Callable args (.nonterminal .term) := (primary hargs).operated rfl
  have additive : Callable args (.nonterminal .additive) := term.operated rfl
  have comparison : Callable args (.nonterminal .comparison) := additive.operated rfl
  have equality : Callable args (.nonterminal .equality) := comparison.operated rfl
  have and : Callable args (.nonterminal .and) := equality.operated rfl
  exact .rule (and.operated (n := .or) rfl)

end Callable

end Grammar

variable {S : Expectation → Prop}

/-! ### Words -/

theorem Ident.parser_expects (h : S .identifier) : Expects S Ident.parser .ident := by
  have hr := Ident.parser_reports (k := 0)
  rw [parser_eq_single] at hr ⊢
  exact .single hr (.expected h productive_ident (.first rfl (by simp) fun _ h => h))

theorem Ident.parser_declines : Declines Ident.parser := by
  rw [parser_eq_single]
  exact .single .expected

namespace Expr

/-- A literal that is out of range leaves nothing to remember. -/
theorem integerLiteral_recounts : Recounts integerLiteral .integer := by
  have ht := integerLiteral_tracks (k := 0)
  rw [integerLiteral_eq_single] at ht ⊢
  refine .single ht fun c => ?_
  split
  · exact .same
  · exact .record (List.nil_append _).symm (.inl (.first rfl (by simp) fun _ h => h))
      (c.expected_complaint .integer)

theorem booleanLiteral_expects : Expects (· = .boolean) booleanLiteral
    (.alt [.terminal .kwTrue, .terminal .kwFalse]) := by
  have hr := booleanLiteral_reports (k := 0)
  have he : Productive (.alt [.terminal .kwTrue, .terminal .kwFalse]) :=
    (productive_terminal .kwTrue).alt (by simp)
  rw [booleanLiteral_eq_single] at hr ⊢
  exact .single hr (.expected rfl he (.first rfl he fun _ h => h))

/-! ### Expressions -/

variable {inner : Parser Expr}

theorem callParser_expects (h : Expects S inner (.nonterminal .expression)) :
    Expects Expectation.Any (callParser inner) (.nonterminal .call) := by
  refine .rule (.next (Ident.parser_expects trivial) (fun func => ?_) (by simp))
  refine .next (.terminal trivial) (fun _ => ?_) (by simp)
  refine .next (h.any.separated (by simp)) (fun args => ?_) (by simp)
  exact .next (.terminal trivial) (fun close => .pure .seq_nil) (by simp)

theorem parenthesized_expects (h : Expects S inner (.nonterminal .expression)) :
    Expects Expectation.Any (parenthesized inner)
      (.seq [.terminal .leftParen, .nonterminal .expression, .terminal .rightParen]) := by
  have hopen : Expects Expectation.Any (Parser.skipLeft (Parser.terminal .leftParen) inner)
      (.seq [.terminal .leftParen, .nonterminal .expression]) :=
    .next (.terminal trivial) (fun _ => h.any.alone) (by simp)
  exact hopen.append (fun e => .next (.terminal trivial) (fun _ => .pure .seq_nil) (by simp))
    (by simp)

/-- An expression in parentheses. -/
theorem yields_parenthesized {es : List Token} (s s' : Span)
    (h : Yields (.nonterminal .expression) es) : Yields (.nonterminal .primary)
      (⟨.fixed .leftParen, s⟩ :: (es ++ [⟨.fixed .rightParen, s'⟩])) := by
  obtain ⟨ps, hd⟩ := h
  have hparen := Derives.seq_terminal (t := .leftParen) (s := s)
    (hd.seq_cons (Derives.seq_terminal (t := .rightParen) (s := s') Derives.seq_nil))
  exact .rule (Yields.alt ⟨_, hparen⟩ (by simp))

theorem yields_of_primary {ts : List Token} (h : Yields (.nonterminal .primary) ts) :
    Yields (.nonterminal .expression) ts := by
  obtain ⟨ps, hd⟩ := h
  obtain ⟨qs, -, rfl⟩ := Derives.nonterminal_iff.mp hd
  exact ⟨_, Derives.expression_of_primary hd⟩

/-- A call with one argument. -/
theorem yields_call {es : List Token} (name : String) (s s' s'' : Span)
    (h : Yields (.nonterminal .expression) es) : Yields (.nonterminal .call)
      (⟨.ident name, s⟩ :: ⟨.fixed .leftParen, s'⟩ :: (es ++ [⟨.fixed .rightParen, s''⟩])) := by
  have hargs : Yields (.commaList (.nonterminal .expression)) (es ++ ([] ++ [])) :=
    (Joins.seq h (Joins.seq .many_nil .seq_nil)).opt
  rw [List.append_nil, List.append_nil] at hargs
  obtain ⟨ps, hd⟩ := hargs
  exact .rule ⟨_, Derives.seq_ident (Derives.seq_terminal (hd.seq_cons (Derives.seq_terminal
    Derives.seq_nil)))⟩

theorem starts_parenthesized {ts : List Token} (s : Span)
    (h : Starts (.nonterminal .expression) ts) :
    Starts (.nonterminal .primary) (⟨.fixed .leftParen, s⟩ :: ts) := by
  obtain ⟨us, h⟩ := h
  refine ⟨us ++ [⟨.fixed .rightParen, s⟩], ?_⟩
  rw [List.cons_append, ← List.append_assoc]
  exact yields_parenthesized s s h

/-- Where an expression in parentheses is over, it ends with a name, or it is
the closing parenthesis that is missing. -/
theorem apt_of_yields {es : List Token} (s : Span)
    (h : Yields (.nonterminal .expression) es) :
    Expectation.Apt .expression (.nonterminal .primary) (⟨.fixed .leftParen, s⟩ :: es) := by
  by_cases hlast : ∃ name s', es.getLast? = some ⟨.ident name, s'⟩
  · obtain ⟨name, s', hlast⟩ := hlast
    have hcalled := Callable.expression (fun name s' => yields_call name s' s s h) h hlast
    exact .inl ⟨_, rfl, _, yields_of_primary (yields_parenthesized s s h),
      starts_parenthesized s (.of_yields hcalled)⟩
  · exact .inr ⟨rfl, [], s, es, rfl, h, fun name s' hl => hlast ⟨name, s', hl⟩⟩

theorem parenthesized_apt (h : Expects (· = .expression) inner (.nonterminal .expression))
    {c c' : Cursor} {err : ParseError} {us : List Token}
    (hc : parenthesized inner c = (.error err, c')) (hus : c.rest = us ++ c'.rest) :
    Expectation.Apt .expression (.nonterminal .primary) us := by
  have hopen {t : Token} {d : Cursor} (ht : Parser.terminal .leftParen c = (.ok t, d)) :
      ∃ s, c.rest = ⟨.fixed .leftParen, s⟩ :: d.rest := by
    obtain ⟨_, hd, ps, hy⟩ := (Parser.Reports.terminal (k := 0)).explains.ok ht
    obtain ⟨s, rfl, -⟩ := Derives.terminal_iff.mp hy
    exact ⟨s, hd⟩
  rcases Parser.bind_error_iff.mp hc with hc | ⟨a, d, hok, hc⟩
  · rcases Parser.bind_error_iff.mp hc with hc | ⟨t, d, ht, hc⟩
    · -- there is no opening parenthesis
      rw [Declines.terminal hc, List.self_eq_append_left] at hus
      obtain ⟨ws, hw⟩ := productive_nonterminal .primary
      rw [hus]
      exact .inl ⟨_, rfl, ws, yields_of_primary hw, .of_yields hw⟩
    · obtain ⟨s, hs⟩ := hopen ht
      obtain ⟨vs, hvs, _, rfl, -, hapt⟩ := h.error hc
      rw [hs, hvs, ← List.cons_append] at hus
      rw [← List.append_cancel_right hus]
      exact hapt.prepend [⟨.fixed .leftParen, s⟩] fun _ hs => starts_parenthesized s hs
  · obtain ⟨t, d', ht, hok⟩ := Parser.bind_ok_iff.mp hok
    obtain ⟨s, hs⟩ := hopen ht
    obtain ⟨es, hes, hy⟩ := h.explains.ok hok
    rcases Parser.bind_error_iff.mp hc with hc | ⟨_, _, -, ⟨⟩⟩
    -- the closing parenthesis is missing
    rw [Declines.terminal hc, hs, hes, ← List.cons_append] at hus
    rw [← List.append_cancel_right hus]
    exact apt_of_yields s hy

/-- The label is apt, as the only reader that fails after it has taken something
is the one of parentheses, and that is the last one to be tried. -/
theorem primary_expects (h : Expects (· = .expression) inner (.nonterminal .expression)) :
    Expects (· = .expression) (primary inner) (.nonterminal .primary) := by
  have hint : Recounts integerLiteral (Nonterminal.rule .primary) :=
    integerLiteral_recounts.mono fun _ hus => hus.alt (by simp)
  have hboolean : Expects _ booleanLiteral (Nonterminal.rule .primary) :=
    booleanLiteral_expects.weaken fun _ hus => hus.alt_mono (by simp)
  have hcall : Expects _ (callParser inner) (Nonterminal.rule .primary) :=
    (callParser_expects h).alt (by simp)
  have hident : Expects Expectation.Any (Expr.ident <$> Ident.parser) (Nonterminal.rule .primary) :=
    Expects.alt (.map (Ident.parser_expects trivial)) (by simp)
  have hparen : Expects _ (parenthesized inner) (Nonterminal.rule .primary) :=
    (parenthesized_expects h).alt (by simp)
  refine .label rfl (.rule (.or (Expects.or (Expects.or (Expects.or hint hboolean).recounts
    hcall).recounts hident).recounts hparen)) fun hc hus => ?_
  obtain ⟨f, hc⟩ := Parser.or_error hc
  exact parenthesized_apt h hc hus

theorem operator_recounts {ops : List BinOp} (hops : ops ≠ []) :
    Recounts (operator ops) (.alt ((ops.map BinOp.terminal).map .terminal)) :=
  .single (operator_tracks hops) fun _ => .same

theorem chainWithin_expects {n : Nonterminal} {ops : List BinOp} (hops : ops ≠ [])
    {operand : Parser Expr} (h : Expects S operand (.nonterminal n)) (rounds : Nat) (left : Expr) :
    Expects S (chainWithin rounds ops operand left)
      (.many (.seq [.alt ((ops.map BinOp.terminal).map .terminal), .nonterminal n])) := by
  induction rounds generalizing left with
  | zero => exact .pure .many_nil
  | succ rounds ih =>
    rw [chainWithin_succ]
    exact .attempt (operator_recounts hops) (fun op => h.next (fun right => (ih _).alone) (by simp))
      (.pure .many_nil) .many_seq (by simp)

theorem chain_expects {n m : Nonterminal} (ops : List BinOp) {operand : Parser Expr}
    (hn : n.rule = .operated m (ops.map BinOp.terminal)) (hops : ops ≠ [])
    (h : Expects S operand (.nonterminal m)) : Expects S (chain ops operand) (.nonterminal n) := by
  refine .rule ?_
  rw [hn]
  refine h.next (fun first => .alone (.remaining fun rounds => ?_)) (by simp)
  exact chainWithin_expects hops h rounds first

theorem operators_expects {operand : Parser Expr}
    (h : Expects S operand (.nonterminal .primary)) :
    Expects S (operators operand) (.nonterminal .or) := by
  have term := chain_expects (n := .term) [.mul, .div] rfl nofun h
  have additive := chain_expects (n := .additive) [.add, .sub] rfl nofun term
  have comparison := chain_expects (n := .comparison) [.lt, .gt] rfl nofun additive
  have equality := chain_expects (n := .equality) [.eq] rfl nofun comparison
  have and := chain_expects (n := .and) [.and] rfl nofun equality
  exact chain_expects (n := .or) [.or] rfl nofun and

theorem parserWithin_expects (depth : Nat) :
    Expects (· = .expression) (parserWithin depth) (.nonterminal .expression) := by
  induction depth with
  | zero => exact .expected rfl (by simp) (.first rfl (by simp) fun _ h => h)
  | succ depth ih => exact .rule (operators_expects (primary_expects ih))

theorem parser_expects :
    Expects (· = .expression) Expr.parser (.nonterminal .expression) :=
  .remaining parserWithin_expects

end Expr

/-! ### Declarations -/

namespace Decl

theorem typeWord_expects {t : Terminal} {type : Option BaseType} :
    Expects Expectation.Any (typeWord t type) (.terminal t) :=
  Expects.map (p := Parser.terminal t) (.terminal trivial)

theorem typeWord_declines {t : Terminal} {type : Option BaseType} :
    Declines (typeWord t type) :=
  Declines.map (p := Parser.terminal t) .terminal

theorem typeParser_expects (h : S .type) : Expects S typeParser (.nonterminal .type) := by
  have hword {t : Terminal} {type : Option BaseType}
      (ht : Ebnf.terminal t ∈ [.terminal .kwInt, .terminal .kwBool, .terminal .kwVar]) :
      Expects Expectation.Any (typeWord t type) (Nonterminal.rule .type) := typeWord_expects.alt ht
  refine .label_first h (.rule (.or (Expects.or (hword (by simp)).recounts
    (hword (by simp))).recounts (hword (by simp)))) (.or typeWord_declines) ?_
  exact .first rfl (by simp) fun _ h => h

theorem typed_expects :
    Expects Expectation.Any parameterParser (.seq [.nonterminal .type, .ident]) :=
  .next (typeParser_expects trivial)
    (fun _ => .next (Ident.parser_expects trivial) (fun _ => .pure .seq_nil) (by simp)) (by simp)

theorem parameterParser_expects :
    Expects Expectation.Any parameterParser (.nonterminal .param) := .rule typed_expects

theorem parser_expects :
    Expects Expectation.Any Decl.parser (.nonterminal .declaration) := by
  refine .rule (typed_expects.append (fun _ => ?_) ?_)
  · exact .next (.terminal trivial) (fun _ => .pure .seq_nil) (by simp)
  · simp

end Decl

/-! ### Statements -/

variable {inner : Parser Stmt}

theorem Block.statementsWithin_expects (h : Expects S inner (.nonterminal .statement))
    (rounds : Nat) :
    Expects S (statementsWithin rounds inner) (.many (.nonterminal .statement)) := by
  induction rounds with
  | zero => exact .pure .many_nil
  | succ rounds ih =>
    refine .peek fun o => ?_
    cases o with
    | none => exact .pure .many_nil
    | some token =>
      dsimp only
      split
      · exact .pure .many_nil
      · exact .bind h (fun s => .map ih) .many (by simp)

theorem Block.parserOf_expects
    (h : Expects Expectation.Any inner (.nonterminal .statement)) :
    Expects Expectation.Any (parserOf inner) (.nonterminal .block) := by
  refine .rule (.next (.terminal trivial) (fun _ => ?_) (by simp))
  refine .next (.many Decl.parser_expects.recounts) (fun _ => ?_) (by simp)
  refine .remaining fun rounds => ?_
  refine .next (Block.statementsWithin_expects h rounds) (fun _ => ?_) (by simp)
  exact .next (.terminal trivial) (fun _ => .pure .seq_nil) (by simp)

namespace Stmt

theorem condParser_expects (h : Expects Expectation.Any inner (.nonterminal .statement)) :
    Expects Expectation.Any (condParser inner) (.nonterminal .cond) := by
  have helse : Expects Expectation.Any (Parser.skipLeft (Parser.terminal .kwElse) inner)
      (.seq [.terminal .kwElse, .nonterminal .statement]) :=
    .next (.terminal trivial) (fun _ => h.alone) (by simp)
  refine .rule (.next (.terminal trivial) (fun _ => ?_) (by simp))
  refine .next Expr.parser_expects.any (fun _ => ?_) (by simp)
  refine .next h (fun _ => ?_) (by simp)
  exact .next (.optional helse.recounts) (fun _ => .pure .seq_nil) (by simp)

theorem loopParser_expects (h : Expects Expectation.Any inner (.nonterminal .statement)) :
    Expects Expectation.Any (loopParser inner) (.nonterminal .loop) := by
  refine .rule (.next (.terminal trivial) (fun _ => ?_) (by simp))
  refine .next Expr.parser_expects.any (fun _ => ?_) (by simp)
  exact .next h (fun _ => .pure .seq_nil) (by simp)

theorem returnParser_expects :
    Expects Expectation.Any returnParser (.nonterminal .ret) := by
  refine .rule (.next (.terminal trivial) (fun _ => ?_) (by simp))
  refine .next Expr.parser_expects.any (fun _ => ?_) (by simp)
  exact .next (.terminal trivial) (fun _ => .pure .seq_nil) (by simp)

theorem assignParser_expects :
    Expects Expectation.Any assignParser (.nonterminal .assignment) := by
  refine .rule (.next (Ident.parser_expects trivial) (fun _ => ?_) (by simp))
  refine .next (.terminal trivial) (fun _ => ?_) (by simp)
  refine .next Expr.parser_expects.any (fun _ => ?_) (by simp)
  exact .next (.terminal trivial) (fun _ => .pure .seq_nil) (by simp)

theorem expected_expects {α : Type} : Expects Expectation.Any
    (Parser.expected (α := α) .statement) (.nonterminal .statement) :=
  .expected trivial (by simp) (.first rfl (by simp) fun _ h => h)

theorem parserOf_expects (h : Expects Expectation.Any inner (.nonterminal .statement)) :
    Expects Expectation.Any (parserOf inner) (.nonterminal .statement) := by
  refine .peek fun o => ?_
  split
  · exact .rule (Expects.alt (.map (Block.parserOf_expects h)) (by simp))
  · exact .rule ((condParser_expects h).alt (by simp))
  · exact .rule ((loopParser_expects h).alt (by simp))
  · exact .rule (returnParser_expects.alt (by simp))
  · exact .rule (assignParser_expects.alt (by simp))
  · exact expected_expects

theorem parserWithin_expects (depth : Nat) :
    Expects Expectation.Any (parserWithin depth) (.nonterminal .statement) := by
  induction depth with
  | zero => exact expected_expects
  | succ depth ih => exact parserOf_expects ih

theorem parser_expects : Expects Expectation.Any Stmt.parser (.nonterminal .statement) :=
  .remaining parserWithin_expects

end Stmt

/-! ### Functions and items -/

theorem FunDef.parser_expects :
    Expects Expectation.Any FunDef.parser (.nonterminal .function) := by
  refine .rule (.next (.terminal trivial) (fun _ => ?_) (by simp))
  refine .next (.label_first trivial (Ident.parser_expects (S := Expectation.Any) trivial)
    Ident.parser_declines (.first rfl (by simp) fun _ h => h)) (fun _ => ?_) (by simp)
  refine .next (.terminal trivial) (fun _ => ?_) (by simp)
  refine .next (.separated Decl.parameterParser_expects (by simp)) (fun _ => ?_) (by simp)
  refine .next (.terminal trivial) (fun _ => ?_) (by simp)
  exact .next (Block.parserOf_expects Stmt.parser_expects) (fun _ => .pure .seq_nil) (by simp)

namespace Item

theorem parser_expects : Expects Expectation.Any Item.parser (.nonterminal .item) := by
  refine .rule (.peek fun o => ?_)
  split
  · exact Expects.alt (.map FunDef.parser_expects) (by simp)
  · exact Expects.alt (.map Decl.parser_expects) (by simp)
  · exact Expects.alt (.map Decl.parser_expects) (by simp)
  · exact Expects.alt (.map Decl.parser_expects) (by simp)
  · exact Expects.alt (.map Stmt.parser_expects) (by simp)

theorem listWithin_expects (rounds : Nat) :
    Expects Expectation.Any (listWithin rounds) (.many (.nonterminal .item)) := by
  induction rounds with
  | zero => exact .pure .many_nil
  | succ rounds ih =>
    refine .peek fun o => ?_
    cases o with
    | none => exact .pure .many_nil
    | some token => exact .bind parser_expects (fun _ => .map ih) .many (by simp)

end Item

end Implet
