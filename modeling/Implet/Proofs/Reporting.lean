/-
Implet/Proofs/Reporting.lean

Each reader of the grammar reports its failures and does not look ahead: the
lemmas `Expr.parser_reports`, `Stmt.parser_reports` and their kind, one for each
reader.  A compound statement and an expression in parentheses take a token
before they read their parts, which is why the bounds on nestings suffice.
-/
import Implet.Proofs.Following

namespace Implet

open Grammar

open Implet.Parser (Tracks Reports ReportsWithin)

variable {k : Nat}

/-! ### Words -/

theorem Ident.parser_eq_single : Ident.parser = Parser.single
    (fun token => match token.lexeme with
      | .ident name => some ⟨name, token.span⟩
      | _ => none) (Parser.expected .identifier) := by
  funext ⟨ts, f⟩
  rcases ts with - | ⟨⟨l, span⟩, ts⟩
  · rfl
  · cases l <;> rfl

theorem Ident.parser_reports : Reports k Ident.parser Ident.parser .ident := by
  rw [parser_eq_single]
  refine .single (.expected productive_ident) fun token id h => ?_
  obtain ⟨l, span⟩ := token
  cases l with
  | ident name => exact ⟨_, Derives.ident_iff.mpr ⟨name, span, rfl, rfl⟩⟩
  | fixed t => cases h
  | integer digits => cases h

namespace Expr

theorem integerLiteral_eq_single : integerLiteral = Parser.single
    (fun token => match token.lexeme with
      | .integer digits =>
        if digitsValue digits.toList < literalLimit then
          some (.integer (Int64.ofNat (digitsValue digits.toList)) token.span)
        else none
      | _ => none)
    (fun c => match c.rest with
      | ⟨.integer digits, span⟩ :: _ => Parser.fail ⟨.literalOutOfRange digits span, []⟩ c
      | _ => Parser.expected .integer c) := by
  funext ⟨ts, f⟩
  rcases ts with - | ⟨⟨l, span⟩, ts⟩
  · rfl
  · cases l with
    | integer digits =>
      by_cases hv : digitsValue digits.toList < literalLimit <;>
        simp [integerLiteral, Parser.single, hv]
    | fixed t => rfl
    | ident name => rfl

/-- A literal that is out of range is refused without a trace. -/
theorem integerLiteral_tracks : Tracks k integerLiteral integerLiteral .integer := by
  rw [integerLiteral_eq_single]
  refine .single (.misses productive_integer fun c => ?_) fun token e h => ?_
  · split
    · next digits span _ hc => exact ⟨_, by rw [ParseError.RaisedAt, hc]; rfl, .inl rfl⟩
    · exact ⟨_, c.raisedAt_complaint .integer, .inr rfl⟩
  · obtain ⟨l, span⟩ := token
    cases l with
    | integer digits =>
      obtain ⟨hv, -⟩ := Option.ite_none_right_eq_some.mp h
      exact ⟨_, Derives.integer_iff.mpr ⟨digits, span, rfl, rfl, hv⟩⟩
    | fixed t => cases h
    | ident name => cases h

theorem booleanLiteral_eq_single : booleanLiteral = Parser.single
    (fun token => match token.lexeme with
      | .fixed .kwTrue => some (.boolean true token.span)
      | .fixed .kwFalse => some (.boolean false token.span)
      | _ => none) (Parser.expected .boolean) := by
  funext ⟨ts, f⟩
  rcases ts with - | ⟨⟨l, span⟩, ts⟩
  · rfl
  · cases l with
    | fixed t => cases t <;> rfl
    | ident name => rfl
    | integer digits => rfl

theorem booleanLiteral_reports : Reports k booleanLiteral booleanLiteral
    (.alt [.terminal .kwTrue, .terminal .kwFalse]) := by
  rw [booleanLiteral_eq_single]
  refine .single (.expected ((productive_terminal .kwTrue).alt (by simp))) fun token e h => ?_
  obtain ⟨l, span⟩ := token
  dsimp only at h
  split at h
  · exact .alt (e := .terminal .kwTrue) ⟨_, Derives.terminal_iff.mpr ⟨span, rfl, rfl⟩⟩ (by simp)
  · exact .alt (e := .terminal .kwFalse) ⟨_, Derives.terminal_iff.mpr ⟨span, rfl, rfl⟩⟩ (by simp)
  · cases h

/-! ### Expressions -/

variable {inner inner' : Parser Expr}

theorem callParser_reports (h : Reports (k - 1) inner inner' (.nonterminal .expression)) :
    Reports k (callParser inner) (callParser inner') (.nonterminal .call) := by
  refine .rule (.first Ident.parser_reports (fun func => ?_) (by simp) fun _ =>
    Parser.length_of_yields_ident)
  refine .next .terminal (fun _ => ?_) (by simp)
  refine .next (h.separated (by simp)) (fun args => ?_) (by simp)
  exact .next .terminal (fun close => .pure .seq_nil) (by simp)

theorem parenthesized_reports
    (h : Reports (k - 1) inner inner' (.nonterminal .expression)) :
    Reports k (parenthesized inner) (parenthesized inner')
      (.seq [.terminal .leftParen, .nonterminal .expression, .terminal .rightParen]) := by
  have hopen : Reports k (Parser.skipLeft (Parser.terminal .leftParen) inner)
      (Parser.skipLeft (Parser.terminal .leftParen) inner')
      (.seq [.terminal .leftParen, .nonterminal .expression]) :=
    .first .terminal (fun _ => h.alone) (by simp) fun _ => Parser.length_of_yields_terminal
  exact hopen.append (fun e => .next .terminal (fun _ => .pure .seq_nil) (by simp)) (by simp)

theorem primary_reports (h : Reports (k - 1) inner inner' (.nonterminal .expression)) :
    Reports k (primary inner) (primary inner') (.nonterminal .primary) := by
  have hint : Tracks k integerLiteral integerLiteral (Nonterminal.rule .primary) :=
    integerLiteral_tracks.mono (Nat.le_refl k) fun _ hus => hus.alt (by simp)
  refine .rule (.label (.or (Reports.toTracks (.or (Reports.toTracks (.or (Reports.toTracks
    (.or hint ?_)) ?_)) ?_)) ?_))
  · exact booleanLiteral_reports.weaken fun _ hus => hus.alt_mono (by simp)
  · exact (callParser_reports h).alt (by simp)
  · exact Reports.alt (.map Ident.parser_reports) (by simp)
  · exact (parenthesized_reports h).alt (by simp)

/-- An operator, which is missed without a trace. -/
def operator (ops : List BinOp) : Parser BinOp :=
  Parser.single (BinOp.ofToken? ops) fun c => Parser.fail (c.complaint .expression) c

theorem operator_tracks {ops : List BinOp} (hops : ops ≠ []) :
    Tracks k (operator ops) (operator ops)
    (.alt ((ops.map BinOp.terminal).map .terminal)) := by
  obtain ⟨op, hop⟩ := List.exists_mem_of_ne_nil ops hops
  have hmem {op : BinOp} (hop : op ∈ ops) :
      Ebnf.terminal op.terminal ∈ (ops.map BinOp.terminal).map .terminal :=
    List.mem_map_of_mem (List.mem_map_of_mem hop)
  refine .single (.misses ((productive_terminal op.terminal).alt (hmem hop)) fun c =>
    ⟨_, c.raisedAt_complaint .expression, .inl rfl⟩) fun token op hop => ?_
  have hhead : [token].head?.bind (BinOp.ofToken? ops) = some op := hop
  obtain ⟨_, _, ⟨⟩, hop, hl⟩ := BinOp.head_of_bind_ofToken? hhead
  exact .alt ⟨_, Derives.terminal_iff.mpr ⟨token.span, by rw [← hl], rfl⟩⟩ (hmem hop)

theorem chainWithin_succ (rounds : Nat) (ops : List BinOp) (operand : Parser Expr)
    (left : Expr) :
    chainWithin (rounds + 1) ops operand left = Parser.attempt (operator ops)
      (fun op => operand >>= fun right =>
        chainWithin rounds ops operand (.binary op left right (left.span.merge right.span)))
      (pure left) := by
  funext c
  rw [chainWithin]
  unfold Parser.attempt operator Parser.single
  change Parser.bind Parser.peek _ c = _
  unfold Parser.bind Parser.peek
  dsimp only
  cases c.rest.head?.bind (BinOp.ofToken? ops) <;> rfl

theorem chainWithin_reports {n : Nonterminal} {ops : List BinOp} (hops : ops ≠ [])
    {operand operand' : Parser Expr} (h : Reports k operand operand' (.nonterminal n))
    (left : Expr) : ReportsWithin k (chainWithin · ops operand left)
      (chainWithin · ops operand' left)
      (.many (.seq [.alt ((ops.map BinOp.terminal).map .terminal), .nonterminal n])) := by
  refine ReportsWithin.of_steps (F := fun m => chainWithin m ops operand) (fun left => ?_)
    (fun m m' j hj ih left => ?_) left
  · exact .pure .many_nil
  · rw [chainWithin_succ, chainWithin_succ]
    refine .attempt (j := j - 1) (operator_tracks hops) (fun op => ?_) (.pure .many_nil) .many_seq
      (by simp) fun us hus => ?_
    · exact (h.le (by omega)).next (fun right => (ih _).alone) (by simp)
    · obtain ⟨ps, hd⟩ := hus
      obtain ⟨_, he, hd⟩ := Derives.alt_iff.mp hd
      obtain ⟨t, -, rfl⟩ := List.mem_map.mp he
      have := Parser.length_of_yields_terminal ⟨ps, hd⟩
      omega

theorem chain_reports {n m : Nonterminal} (ops : List BinOp)
    {operand operand' : Parser Expr}
    (hn : n.rule = .operated m (ops.map BinOp.terminal)) (hops : ops ≠ [])
    (h : Reports k operand operand' (.nonterminal m)) :
    Reports k (chain ops operand) (chain ops operand') (.nonterminal n) := by
  refine .rule ?_
  rw [hn]
  exact h.next (fun first => .alone (.remaining (chainWithin_reports hops h first))) (by simp)

theorem operators_reports {operand operand' : Parser Expr}
    (h : Reports k operand operand' (.nonterminal .primary)) :
    Reports k (operators operand) (operators operand') (.nonterminal .or) := by
  have term := chain_reports (n := .term) [.mul, .div] rfl nofun h
  have additive := chain_reports (n := .additive) [.add, .sub] rfl nofun term
  have comparison := chain_reports (n := .comparison) [.lt, .gt] rfl nofun additive
  have equality := chain_reports (n := .equality) [.eq] rfl nofun comparison
  have and := chain_reports (n := .and) [.and] rfl nofun equality
  exact chain_reports (n := .or) [.or] rfl nofun and

theorem parserWithin_reports :
    ReportsWithin k parserWithin parserWithin (.nonterminal .expression) :=
  .of_step (.expected (by simp)) fun _ _ _ _ ih => .rule (operators_reports (primary_reports ih))

theorem parser_reports : Reports k Expr.parser Expr.parser (.nonterminal .expression) :=
  .remaining parserWithin_reports

end Expr

/-! ### Declarations -/

namespace Decl

theorem typeWord_reports {t : Terminal} {type : Option BaseType} :
    Reports k (typeWord t type) (typeWord t type) (.terminal t) :=
  Reports.map (p := Parser.terminal t) .terminal

theorem typeParser_reports : Reports k typeParser typeParser (.nonterminal .type) := by
  refine .rule (.label (.or (Reports.toTracks (.or (Reports.toTracks ?_) ?_)) ?_))
  · exact typeWord_reports.alt (by simp)
  · exact typeWord_reports.alt (by simp)
  · exact typeWord_reports.alt (by simp)

theorem typed_reports :
    Reports k parameterParser parameterParser (.seq [.nonterminal .type, .ident]) :=
  .next typeParser_reports (fun _ => .next Ident.parser_reports (fun _ => .pure .seq_nil) (by simp))
    (by simp)

theorem parameterParser_reports :
    Reports k parameterParser parameterParser (.nonterminal .param) :=
  .rule typed_reports

theorem parser_reports :
    Reports k Decl.parser Decl.parser (.nonterminal .declaration) := by
  refine .rule (typed_reports.append (fun _ => ?_) ?_)
  · exact .next .terminal (fun _ => .pure .seq_nil) (by simp)
  · simp

end Decl

/-! ### Statements -/

theorem length_of_yields_declaration {ts : List Token}
    (h : Yields (.nonterminal .declaration) ts) :
    0 < ts.length := h.elim fun _ hd => (Derives.begins_declaration hd).length_pos

theorem length_of_yields_statement {ts : List Token}
    (h : Yields (.nonterminal .statement) ts) :
    0 < ts.length := h.elim fun _ hd => (Derives.begins_statement hd).length_pos

theorem length_of_yields_item {ts : List Token} (h : Yields (.nonterminal .item) ts) :
    0 < ts.length := h.elim fun _ hd => (Derives.begins_item hd).length_pos

variable {inner inner' : Parser Stmt}

theorem Block.statementsWithin_reports
    (h : Reports k inner inner' (.nonterminal .statement)) :
    ReportsWithin k (statementsWithin · inner) (statementsWithin · inner')
      (.many (.nonterminal .statement)) := by
  refine .of_step (.pure .many_nil) fun m n j hj ih => ?_
  refine .peek fun o => ?_
  cases o with
  | none => exact .pure .many_nil
  | some token =>
    dsimp only
    split
    · exact .pure .many_nil
    · refine .bind (j := j - 1) (h.le hj) (fun s => .map ih) .many (by simp) fun us hus => ?_
      have := length_of_yields_statement hus
      omega

theorem Block.parserOf_reports
    (h : Reports (k - 1) inner inner' (.nonterminal .statement)) :
    Reports k (parserOf inner) (parserOf inner') (.nonterminal .block) := by
  refine .rule (.first .terminal (fun _ => ?_) (by simp) fun _ => Parser.length_of_yields_terminal)
  refine .next (.many Decl.parser_reports fun _ => length_of_yields_declaration) (fun _ => ?_)
    (by simp)
  refine .remaining fun m n j hj hm hn => ?_
  refine .next (Block.statementsWithin_reports h m n j hj hm hn) (fun _ => ?_) (by simp)
  exact .next .terminal (fun _ => .pure .seq_nil) (by simp)

namespace Stmt

theorem condParser_reports (h : Reports (k - 1) inner inner' (.nonterminal .statement)) :
    Reports k (condParser inner) (condParser inner') (.nonterminal .cond) := by
  have helse : Reports (k - 1) (Parser.skipLeft (Parser.terminal .kwElse) inner)
      (Parser.skipLeft (Parser.terminal .kwElse) inner')
      (.seq [.terminal .kwElse, .nonterminal .statement]) :=
    .next .terminal (fun _ => h.alone) (by simp)
  refine .rule (.first .terminal (fun _ => ?_) (by simp) fun _ => Parser.length_of_yields_terminal)
  refine .next Expr.parser_reports (fun _ => ?_) (by simp)
  refine .next h (fun _ => ?_) (by simp)
  exact .next (.optional helse.toTracks) (fun _ => .pure .seq_nil) (by simp)

theorem loopParser_reports (h : Reports (k - 1) inner inner' (.nonterminal .statement)) :
    Reports k (loopParser inner) (loopParser inner') (.nonterminal .loop) := by
  refine .rule (.first .terminal (fun _ => ?_) (by simp) fun _ => Parser.length_of_yields_terminal)
  refine .next Expr.parser_reports (fun _ => ?_) (by simp)
  exact .next h (fun _ => .pure .seq_nil) (by simp)

theorem returnParser_reports :
    Reports k returnParser returnParser (.nonterminal .ret) := by
  refine .rule (.next .terminal (fun _ => ?_) (by simp))
  refine .next Expr.parser_reports (fun _ => ?_) (by simp)
  exact .next .terminal (fun _ => .pure .seq_nil) (by simp)

theorem assignParser_reports :
    Reports k assignParser assignParser (.nonterminal .assignment) := by
  refine .rule (.next Ident.parser_reports (fun _ => ?_) (by simp))
  refine .next .terminal (fun _ => ?_) (by simp)
  refine .next Expr.parser_reports (fun _ => ?_) (by simp)
  exact .next .terminal (fun _ => .pure .seq_nil) (by simp)

theorem parserOf_reports (h : Reports (k - 1) inner inner' (.nonterminal .statement)) :
    Reports k (parserOf inner) (parserOf inner') (.nonterminal .statement) := by
  refine .rule (.peek fun o => ?_)
  split
  · exact Reports.alt (.map (Block.parserOf_reports h)) (by simp)
  · exact (condParser_reports h).alt (by simp)
  · exact (loopParser_reports h).alt (by simp)
  · exact returnParser_reports.alt (by simp)
  · exact assignParser_reports.alt (by simp)
  · exact .expected ((productive_nonterminal .ret).alt (by simp))

theorem parserWithin_reports :
    ReportsWithin k parserWithin parserWithin (.nonterminal .statement) :=
  .of_step (.expected (by simp)) fun _ _ _ _ ih => parserOf_reports ih

theorem parser_reports : Reports k Stmt.parser Stmt.parser (.nonterminal .statement) :=
  .remaining parserWithin_reports

end Stmt

/-! ### Functions and items -/

theorem FunDef.parser_reports :
    Reports k FunDef.parser FunDef.parser (.nonterminal .function) := by
  refine .rule (.next .terminal (fun _ => ?_) (by simp))
  refine .next (.label Ident.parser_reports) (fun _ => ?_) (by simp)
  refine .next .terminal (fun _ => ?_) (by simp)
  refine .next (.separated Decl.parameterParser_reports (by simp)) (fun _ => ?_) (by simp)
  refine .next .terminal (fun _ => ?_) (by simp)
  exact .next (Block.parserOf_reports Stmt.parser_reports) (fun _ => .pure .seq_nil) (by simp)

namespace Item

theorem parser_reports : Reports k Item.parser Item.parser (.nonterminal .item) := by
  refine .rule (.peek fun o => ?_)
  split
  · exact Reports.alt (.map FunDef.parser_reports) (by simp)
  · exact Reports.alt (.map Decl.parser_reports) (by simp)
  · exact Reports.alt (.map Decl.parser_reports) (by simp)
  · exact Reports.alt (.map Decl.parser_reports) (by simp)
  · exact Reports.alt (.map Stmt.parser_reports) (by simp)

theorem listWithin_reports :
    ReportsWithin k listWithin listWithin (.many (.nonterminal .item)) := by
  refine .of_step (.pure .many_nil) fun m n j _ ih => ?_
  refine .peek fun o => ?_
  cases o with
  | none => exact .pure .many_nil
  | some token =>
    refine .bind (j := j - 1) parser_reports (fun _ => .map ih) .many (by simp) fun us hus => ?_
    have := length_of_yields_item hus
    omega

/-- Where tokens that begin in the same way are read as items, but these are
not, an error lies after that beginning. -/
theorem reached_of_error {P T U : List Token} {f f' : Option (Nat × ParseError)}
    {c c' : Cursor} {err : ParseError} {is : List Item} (hP : P ≠ [])
    (herror : listWithin (P ++ T).length ⟨P ++ T, f⟩ = (.error err, c))
    (hok : listWithin (P ++ U).length ⟨P ++ U, f'⟩ = (.ok is, c')) :
    Parser.Reached c.furthest T.length := by
  have hread := (listWithin_reports (k := P.length) (P ++ T).length (P ++ U).length P.length
    (Nat.le_refl _) (by simp) (by simp)).inStep T U f f' hP (Nat.le_refl _)
  rw [herror, hok] at hread
  cases hread with
  | reached h => exact h

end Item

end Implet
