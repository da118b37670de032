/-
Implet/Proofs/ReadingSound.lean

What is read derives from the grammar.  `Parser.Reads p e A` says that whatever
`p` reads derives from the right side `e`, and that the parts that it stands for
and the value of `p` are related by `A`.  There is one rule for each way of
putting readers together, which adds to the right side what the reader adds, and
one lemma for each reader, named after it.

Nothing is assumed of the bounds on rounds and nestings: a reader that runs out
of them reads less, or nothing.
-/
import Implet.Proofs.Phrases

namespace Implet

open Grammar

namespace Parser

variable {α β : Type} {p : Parser α} {f : α → Parser β} {e : Ebnf} {es fs : List Ebnf}
  {A : α → List Part → Prop} {B : β → List Part → Prop} {w : α → List Part}

/-- What `p` reads derives from `e`, and stands for parts that go with its value. -/
def Reads (p : Parser α) (e : Ebnf) (A : α → List Part → Prop) : Prop :=
  ∀ c a c', p c = (.ok a, c') → ∃ ts ps, c.rest = ts ++ c'.rest ∧ Derives e ts ps ∧ A a ps

/-- A sequence that succeeds is two readers that succeed. -/
theorem bind_ok_iff {c c'' : Cursor} {b : β} :
    (p >>= f) c = (.ok b, c'') ↔ ∃ a c', p c = (.ok a, c') ∧ f a c' = (.ok b, c'') := by
  change Parser.bind p f c = _ ↔ _
  unfold Parser.bind
  rcases p c with ⟨_ | a, c'⟩
  · simp
  · simp [and_assoc]

theorem bind_of_ok {c c' : Cursor} {a : α} (h : p c = (.ok a, c')) :
    (p >>= f) c = f a c' := by
  change Parser.bind p f c = _
  rw [Parser.bind, h]

theorem bind_of_error {c c' : Cursor} {err : ParseError} (h : p c = (.error err, c')) :
    (p >>= f) c = (.error err, c') := by
  change Parser.bind p f c = _
  rw [Parser.bind, h]

/-- Nothing is done after `p`. -/
theorem bind_return (p : Parser α) : (p >>= fun a => pure a) = p := by
  funext c
  rcases h : p c with ⟨err | a, c'⟩
  · exact bind_of_error h
  · exact bind_of_ok h

theorem optional_of_ok {c c' : Cursor} {a : α} (h : p c = (.ok a, c')) :
    p.optional c = (.ok (some a), c') := by
  rw [Parser.optional, h]

theorem optional_of_error {c c' : Cursor} {err : ParseError}
    (h : p c = (.error err, c')) :
    p.optional c = (.ok none, { c' with rest := c.rest }) := by
  rw [Parser.optional, h]

/-- An option that succeeds took nothing, or what its reader takes. -/
theorem optional_ok {c c' : Cursor} {o : Option α} (h : p.optional c = (.ok o, c')) :
    o = none ∧ c.rest = c'.rest ∨ ∃ a, o = some a ∧ p c = (.ok a, c') := by
  unfold Parser.optional at h
  rcases hp : p c with ⟨_ | a, c₁⟩
  · rw [hp] at h
    cases h
    exact .inl ⟨rfl, rfl⟩
  · rw [hp] at h
    cases h
    exact .inr ⟨a, rfl, rfl⟩

namespace Reads

/-! ### Rules -/

theorem imp {A' : α → List Part → Prop} (h : Reads p e A)
    (hA : ∀ a ps, A a ps → A' a ps) :
    Reads p e A' := by
  intro c a c' hc
  obtain ⟨ts, ps, hts, hd, ha⟩ := h c a c' hc
  exact ⟨ts, ps, hts, hd, hA a ps ha⟩

theorem pure {a : α} (h : A a []) : Reads (Pure.pure a) (.seq []) A := by
  rintro c _ _ ⟨⟩
  exact ⟨[], [], rfl, Derives.seq_nil_iff.mpr ⟨rfl, rfl⟩, h⟩

/-- One sequence after the other. -/
theorem append (hp : Reads p (.seq es) fun a ps => ps = w a)
    (hf : ∀ a, Reads (f a) (.seq fs) fun b ps => B b (w a ++ ps)) :
    Reads (p >>= f) (.seq (es ++ fs)) B := by
  intro c b c'' h
  obtain ⟨a, c', hc, hc'⟩ := bind_ok_iff.mp h
  obtain ⟨ts, _, hts, hd, rfl⟩ := hp c a c' hc
  obtain ⟨us, qs, hus, hd', hb⟩ := hf a c' b c'' hc'
  exact ⟨ts ++ us, _, by rw [hts, hus, List.append_assoc], hd.seq_append hd', hb⟩

/-- A sequence of one. -/
theorem single (h : Reads p e A) : Reads p (.seq [e]) A := by
  intro c a c' hc
  obtain ⟨ts, ps, hts, hd, ha⟩ := h c a c' hc
  exact ⟨ts, ps, hts, Derives.seq_singleton_iff.mpr hd, ha⟩

/-- One more at the front of a sequence. -/
theorem bind (hp : Reads p e fun a ps => ps = w a)
    (hf : ∀ a, Reads (f a) (.seq es) fun b ps => B b (w a ++ ps)) :
    Reads (p >>= f) (.seq (e :: es)) B := append hp.single hf

/-- The rule of a nonterminal. -/
theorem rule {n : Nonterminal} {v : α → Part} (h : Reads p n.rule A)
    (hA : ∀ a ps, A a ps → n.build ps = v a) :
    Reads p (.nonterminal n) fun a ps => ps = [v a] := by
  intro c a c' hc
  obtain ⟨ts, ps, hts, hd, ha⟩ := h c a c' hc
  exact ⟨ts, _, hts, Derives.nonterminal_iff.mpr ⟨ps, hd, rfl⟩, by rw [hA a ps ha]⟩

theorem alt (h : Reads p e A) (he : e ∈ es) : Reads p (.alt es) A := by
  intro c a c' hc
  obtain ⟨ts, ps, hts, hd, ha⟩ := h c a c' hc
  exact ⟨ts, ps, hts, Derives.alt_iff.mpr ⟨e, he, hd⟩, ha⟩

theorem alt_mono (h : Reads p (.alt es) A) (he : es ⊆ fs) : Reads p (.alt fs) A := by
  intro c a c' hc
  obtain ⟨ts, ps, hts, hd, ha⟩ := h c a c' hc
  obtain ⟨e, hmem, hd⟩ := Derives.alt_iff.mp hd
  exact ⟨ts, ps, hts, Derives.alt_iff.mpr ⟨e, he hmem, hd⟩, ha⟩

/-- Another value for the same tokens. -/
theorem ret {g : α → β} (h : Reads p e A) (hB : ∀ a ps, A a ps → B (g a) ps) :
    Reads (p >>= fun a => Pure.pure (g a)) e B := by
  intro c b c' hc
  obtain ⟨a, c₁, hc, hp⟩ := bind_ok_iff.mp hc
  cases hp
  obtain ⟨ts, ps, hts, hd, ha⟩ := h c a c' hc
  exact ⟨ts, ps, hts, hd, hB a ps ha⟩

theorem map {g : α → β} (h : Reads p e A) (hB : ∀ a ps, A a ps → B (g a) ps) :
    Reads (g <$> p) e B := h.ret hB

theorem many_nil {a : α} (h : A a []) : Reads (Pure.pure a) (.many e) A := by
  rintro c _ _ ⟨⟩
  exact ⟨[], [], rfl, Derives.many_nil, h⟩

theorem many_cons (hp : Reads p e fun a ps => ps = w a)
    (hf : ∀ a, Reads (f a) (.many e) fun b ps => B b (w a ++ ps)) :
    Reads (p >>= f) (.many e) B := by
  intro c b c'' h
  obtain ⟨a, c', hc, hc'⟩ := bind_ok_iff.mp h
  obtain ⟨ts, _, hts, hd, rfl⟩ := hp c a c' hc
  obtain ⟨us, qs, hus, hd', hb⟩ := hf a c' b c'' hc'
  exact ⟨ts ++ us, _, by rw [hts, hus, List.append_assoc], hd.many_cons hd', hb⟩

theorem or {q : Parser α} (hp : Reads p e A) (hq : Reads q e A) : Reads (p.or q) e A := by
  intro c a c'' h
  unfold Parser.or at h
  rcases hc : p c with ⟨_ | a', c'⟩
  · rw [hc] at h
    exact hq ⟨c.rest, c'.furthest⟩ a c'' h
  · rw [hc] at h
    cases h
    exact hp _ _ _ hc

theorem label {x : Expectation} (h : Reads p e A) : Reads (p.label x) e A := by
  intro c a c'' hc
  unfold Parser.label at hc
  rcases hp : p c with ⟨_ | a', c'⟩
  · rw [hp] at hc
    cases hc
  · rw [hp] at hc
    cases hc
    exact h _ _ _ hp

/-- What comes after a look at what is left. -/
theorem remaining {f : Nat → Parser α} (h : ∀ n, Reads (f n) e A) :
    Reads (Parser.remaining >>= f) e A := fun c => h c.rest.length c

theorem peek {f : Option Token → Parser α} (h : ∀ o, Reads (f o) e A) :
    Reads (Parser.peek >>= f) e A := fun c => h c.rest.head? c

theorem expected {x : Expectation} : Reads (Parser.expected x) e A := by
  rintro c a c' ⟨⟩

theorem terminal {t : Terminal} :
    Reads (Parser.terminal t) (.terminal t) fun _ ps => ps = [.word (.fixed t)] := by
  rintro ⟨rest, furthest⟩ a c' h
  rcases rest with _ | ⟨token, rest⟩
  · cases h
  · by_cases ht : token.lexeme = .fixed t
    · simp only [Parser.terminal, ht, if_true, Prod.mk.injEq, Except.ok.injEq] at h
      obtain ⟨rfl, rfl⟩ := h
      exact ⟨[token], _, rfl, Derives.terminal_iff.mpr ⟨token.span, by rw [← ht], rfl⟩, rfl⟩
    · simp [Parser.terminal, ht, Parser.expected] at h

/-- Two in a row, of which the first has a fixed meaning. -/
theorem skipLeft {q : Parser β} {e' : Ebnf} {us : List Part} {v : β → List Part}
    (hp : Reads p e fun _ ps => ps = us) (hq : Reads q e' fun b ps => ps = v b) :
    Reads (p.skipLeft q) (.seq [e, e']) fun b ps => ps = us ++ v b :=
  bind hp fun _ => hq.single.imp fun _ _ h => h ▸ rfl

/-- A sequence and one with a fixed meaning. -/
theorem skip {q : Parser β} {e' : Ebnf} {us : List Part}
    (hp : Reads p (.seq es) fun a ps => ps = w a) (hq : Reads q e' fun _ ps => ps = us) :
    Reads (p.skip q) (.seq (es ++ [e'])) fun a ps => ps = w a ++ us :=
  append hp fun _ => bind hq fun _ => pure (by rw [List.append_nil])

theorem optional (hp : Reads p e fun a ps => ps = w a) :
    Reads p.optional (.opt e) fun o ps => ps = o.elim [] w := by
  intro c o c' h
  rcases optional_ok h with ⟨rfl, hc⟩ | ⟨a, rfl, ha⟩
  · exact ⟨[], _, hc, Derives.opt_iff.mpr (.inl ⟨rfl, rfl⟩), rfl⟩
  · obtain ⟨ts, _, hts, hd, rfl⟩ := hp c a c' ha
    exact ⟨ts, _, hts, Derives.opt_iff.mpr (.inr hd), rfl⟩

theorem manyWithin {v : α → Part} (hp : Reads p e fun a ps => ps = [v a]) (rounds : Nat) :
    Reads (p.manyWithin rounds) (.many e) fun as ps => ps = as.map v := by
  induction rounds with
  | zero | succ rounds ih => ?_
  all_goals
    intro c as c'' h
    unfold Parser.manyWithin at h
    obtain ⟨o, c', ho, h⟩ := bind_ok_iff.mp h
    rcases optional_ok ho with ⟨rfl, hc⟩ | ⟨a, rfl, ha⟩
    · cases h
      exact ⟨[], _, hc, Derives.many_nil, rfl⟩
    obtain ⟨ts, _, hts, hd, rfl⟩ := hp c a c' ha
  · cases h
    exact ⟨ts ++ [], _, by rw [hts, List.append_nil], hd.many_cons Derives.many_nil, rfl⟩
  · obtain ⟨as, c₂, has, h⟩ := bind_ok_iff.mp h
    cases h
    obtain ⟨us, _, hus, hd', rfl⟩ := ih c' as _ has
    exact ⟨ts ++ us, _, by rw [hts, hus, List.append_assoc], hd.many_cons hd', rfl⟩

theorem many {v : α → Part} (hp : Reads p e fun a ps => ps = [v a]) :
    Reads p.many (.many e) fun as ps => ps = as.map v := remaining fun n => hp.manyWithin n

/-- Separators and items, as what follows the first item of a list. -/
theorem separatedWithin {q : Parser β} {e' : Ebnf} {us : List Part}
    (hp : Reads p e fun a ps => ps = w a) (hq : Reads q e' fun _ ps => ps = us) (rounds : Nat) :
    Reads (p.separatedWithin rounds q) (.many (.seq [e', e]))
      fun as ps => ps = as.flatMap fun a => us ++ w a := by
  induction rounds with
  | zero | succ rounds ih => ?_
  all_goals
    intro c as c'' h
    unfold Parser.separatedWithin at h
    obtain ⟨o, c', ho, h⟩ := bind_ok_iff.mp h
    rcases optional_ok ho with ⟨rfl, hc⟩ | ⟨b, rfl, hb⟩
    · cases h
      exact ⟨[], _, hc, Derives.many_nil, rfl⟩
    obtain ⟨a, c₁, ha, h⟩ := bind_ok_iff.mp h
    obtain ⟨ts, _, hts, hd, rfl⟩ : ∃ ts ps, c.rest = ts ++ c₁.rest ∧ Derives (.seq [e', e]) ts ps ∧
        ps = us ++ w a :=
      skipLeft hq hp c a c₁ (bind_ok_iff.mpr ⟨b, c', hb, ha⟩)
  · cases h
    exact ⟨ts ++ [], _, by rw [hts, List.append_nil], hd.many_cons Derives.many_nil, by simp⟩
  · obtain ⟨as, c₂, has, h⟩ := bind_ok_iff.mp h
    cases h
    obtain ⟨us, _, hus, hd', rfl⟩ := ih c₁ as _ has
    exact ⟨ts ++ us, _, by rw [hts, hus, List.append_assoc], hd.many_cons hd', by simp⟩

theorem separated {n : Nonterminal} {v : α → Part}
    (hp : Reads p (.nonterminal n) fun a ps => ps = [v a]) :
    Reads (p.separated (Parser.terminal .comma)) (.commaList (.nonterminal n))
      fun as ps => ps = Part.commaList (as.map v) := by
  intro c as c'' h
  unfold Parser.separated at h
  obtain ⟨o, c', ho, h⟩ := bind_ok_iff.mp h
  rcases optional_ok ho with ⟨rfl, hc⟩ | ⟨a, rfl, ha⟩
  · cases h
    exact ⟨[], _, hc, Derives.opt_iff.mpr (.inl ⟨rfl, rfl⟩), rfl⟩
  · have hs : Reads (do
          let first ← p
          return first :: (← p.separatedWithin (← Parser.remaining) (Parser.terminal .comma)))
        (.seq [.nonterminal n, .many (.seq [.terminal .comma, .nonterminal n])])
        fun as ps => ps = Part.commaList (as.map v) :=
      bind hp fun first => remaining fun rounds =>
        bind (separatedWithin hp terminal rounds) fun as =>
        pure (by simp [Part.commaList, List.flatMap_map])
    obtain ⟨ts, ps, hts, hd, hps⟩ := hs c as c'' (bind_ok_iff.mpr ⟨a, c', ha, h⟩)
    exact ⟨ts, ps, hts, Derives.opt_iff.mpr (.inr hd), hps⟩

end Reads

end Parser

/-! ### Lists without their spans -/

theorem bareExprs_eq (es : List Expr) : bareExprs es = es.map Expr.bare := by
  induction es with
  | nil => rfl
  | cons e es ih => simp [bareExprs, ih]

theorem bareStmts_eq (ss : List Stmt) : bareStmts ss = ss.map Stmt.bare := by
  induction ss with
  | nil => rfl
  | cons s ss ih => simp [bareStmts, ih]

/-! ### Operators -/

/-- The operator that the next token is, if it is one. -/
theorem BinOp.head_of_bind_ofToken? {ops : List BinOp} {ts : List Token} {op : BinOp}
    (h : ts.head?.bind (BinOp.ofToken? ops) = some op) :
    ∃ t us, ts = t :: us ∧ op ∈ ops ∧ t.lexeme = .fixed op.terminal := by
  cases ts with
  | nil => cases h
  | cons t us =>
    change BinOp.ofToken? ops t = some op at h
    refine ⟨t, us, rfl, List.mem_of_find?_eq_some h, ?_⟩
    simpa using List.find?_some h

/-- An operator and its right operand join what stands to their left. -/
theorem Grammar.Part.grouped_operator (op : BinOp) (left right : Expr) (ps : List Part) :
    Part.grouped left (.word (.fixed op.terminal) :: .expr right :: ps) =
      Part.grouped (.binary op left right .empty) ps := by
  cases op <;> rfl

/-! ### Words -/

theorem Ident.parser_reads :
    Parser.Reads Ident.parser .ident fun id ps => ps = [.word (.ident id.name)] := by
  rintro ⟨rest, furthest⟩ a c' h
  rcases rest with _ | ⟨⟨_ | name | _, span⟩, rest⟩
  all_goals cases h
  exact ⟨[⟨.ident name, span⟩], _, rfl, Derives.ident_iff.mpr ⟨name, span, rfl, rfl⟩, rfl⟩

namespace Expr

open Implet.Parser (Reads bind_ok_iff)

theorem integerLiteral_reads :
    Reads integerLiteral .integer fun e ps => Part.toExpr ps = e.bare := by
  rintro ⟨rest, furthest⟩ a c' h
  rcases rest with _ | ⟨⟨_ | _ | digits, span⟩, rest⟩
  · cases h
  · cases h
  · cases h
  · by_cases hv : digitsValue digits.toList < literalLimit
    · simp only [integerLiteral, hv, if_true, Prod.mk.injEq, Except.ok.injEq] at h
      obtain ⟨rfl, rfl⟩ := h
      exact ⟨[⟨.integer digits, span⟩], _, rfl,
        Derives.integer_iff.mpr ⟨digits, span, rfl, rfl, hv⟩, rfl⟩
    · simp [integerLiteral, hv, Parser.fail] at h

theorem booleanLiteral_reads :
    Reads booleanLiteral (.alt [.terminal .kwTrue, .terminal .kwFalse])
      fun e ps => Part.toExpr ps = e.bare := by
  rintro ⟨rest, furthest⟩ a c' h
  unfold booleanLiteral at h
  split at h
  next span rest hrest =>
    cases h
    exact ⟨[⟨.fixed .kwTrue, span⟩], _, hrest, Derives.alt_iff.mpr ⟨_, List.mem_cons_self,
      Derives.terminal_iff.mpr ⟨span, rfl, rfl⟩⟩, rfl⟩
  next span rest hrest =>
    cases h
    exact ⟨[⟨.fixed .kwFalse, span⟩], _, hrest, Derives.alt_iff.mpr ⟨_, List.mem_cons_of_mem _
      List.mem_cons_self, Derives.terminal_iff.mpr ⟨span, rfl, rfl⟩⟩, rfl⟩
  next => cases h

/-! ### Expressions -/

variable {inner : Parser Expr}

theorem callParser_reads
    (h : Reads inner (.nonterminal .expression) fun e ps => ps = [.expr e.bare]) :
    Reads (callParser inner) (.nonterminal .call) fun e ps => ps = [.expr e.bare] := by
  refine .rule (A := fun e ps => Part.toExpr ps = e.bare) ?_ fun e ps he => congrArg Part.expr he
  refine .bind Ident.parser_reads fun func => .bind .terminal fun _ => .bind h.separated fun args =>
    .bind .terminal fun close => .pure ?_
  show Part.toExpr (.word (.ident func.name) :: .word (.fixed .leftParen) ::
    (Part.commaList (args.map fun e => .expr e.bare) ++ [.word (.fixed .rightParen)])) = _
  rw [Part.toExpr_call, Part.exprs_commaList, Expr.bare, bareExprs_eq]
  rfl

theorem parenthesized_reads
    (h : Reads inner (.nonterminal .expression) fun e ps => ps = [.expr e.bare]) :
    Reads (parenthesized inner)
      (.seq [.terminal .leftParen, .nonterminal .expression, .terminal .rightParen])
      fun e ps => Part.toExpr ps = e.bare :=
  (Reads.skip (.skipLeft .terminal h) .terminal).imp fun _ _ h => h ▸ rfl

theorem primary_reads
    (h : Reads inner (.nonterminal .expression) fun e ps => ps = [.expr e.bare]) :
    Reads (primary inner) (.nonterminal .primary) fun e ps => ps = [.expr e.bare] := by
  refine .rule (A := fun e ps => Part.toExpr ps = e.bare) ?_ fun e ps he => congrArg Part.expr he
  refine .label (.or (.or (.or (.or ?_ ?_) ?_) ?_) ?_)
  · exact integerLiteral_reads.alt (by simp)
  · exact booleanLiteral_reads.alt_mono (by simp)
  · refine ((callParser_reads h).imp ?_).alt (by simp)
    rintro e _ rfl
    rfl
  · refine (Ident.parser_reads.map ?_).alt (by simp)
    rintro id _ rfl
    rfl
  · exact (parenthesized_reads h).alt (by simp)

theorem chainWithin_reads {m : Nonterminal} {ops : List BinOp} {operand : Parser Expr}
    (h : Reads operand (.nonterminal m) fun e ps => ps = [.expr e.bare]) (rounds : Nat)
    (left : Expr) :
    Reads (chainWithin rounds ops operand left)
      (.many (.seq [.alt ((ops.map BinOp.terminal).map .terminal), .nonterminal m]))
      fun e ps => e.bare = Part.grouped left.bare ps := by
  induction rounds generalizing left with
  | zero =>
    rintro c _ _ ⟨⟩
    exact ⟨[], [], rfl, Derives.many_nil, rfl⟩
  | succ rounds ih =>
    intro c e c' hc
    unfold chainWithin at hc
    obtain ⟨_, _, ⟨⟩, hc⟩ := bind_ok_iff.mp hc
    cases ho : c.rest.head?.bind (BinOp.ofToken? ops) with
    | none =>
      rw [ho] at hc
      cases hc
      exact ⟨[], [], rfl, Derives.many_nil, rfl⟩
    | some op =>
      rw [ho] at hc
      obtain ⟨_, _, ⟨⟩, hc⟩ := bind_ok_iff.mp hc
      obtain ⟨right, c₁, hright, hc⟩ := bind_ok_iff.mp hc
      obtain ⟨token, rest, hrest, hop, hlexeme⟩ := BinOp.head_of_bind_ofToken? ho
      obtain ⟨ts, _, hts, hd, rfl⟩ := h _ right c₁ hright
      obtain ⟨us, ps, hus, hd', he⟩ := ih _ c₁ e c' hc
      refine ⟨token :: (ts ++ us), _ :: .expr right.bare :: ps, ?_,
        Derives.many_cons (Derives.seq_cons_iff.mpr ⟨[token], ts, _, _, rfl, rfl,
          Derives.alt_iff.mpr ⟨.terminal op.terminal, ?_,
            Derives.terminal_iff.mpr ⟨token.span, by rw [← hlexeme], rfl⟩⟩,
          Derives.seq_singleton_iff.mpr hd⟩) hd', ?_⟩
      · rw [hrest] at hts ⊢
        rw [List.cons_append, List.append_assoc, ← hus]
        exact congrArg _ hts
      · exact List.mem_map_of_mem (List.mem_map_of_mem hop)
      · show e.bare = _
        rw [he, Part.grouped_operator]
        rfl

/-- A level of operators over a level that binds tighter. -/
theorem chain_reads {n m : Nonterminal} (ops : List BinOp) {operand : Parser Expr}
    (hn : n.rule = .operated m (ops.map BinOp.terminal))
    (hb : ∀ ps, n.build ps = .expr (Part.toExpr ps))
    (h : Reads operand (.nonterminal m) fun e ps => ps = [.expr e.bare]) :
    Reads (chain ops operand) (.nonterminal n) fun e ps => ps = [.expr e.bare] := by
  refine .rule (A := fun e ps => Part.toExpr ps = e.bare) ?_ fun e ps he => by rw [hb, he]
  rw [hn]
  refine .bind h fun first => .remaining fun rounds => ?_
  exact (chainWithin_reads h rounds first).single.imp fun e ps he => he.symm

theorem operators_reads {operand : Parser Expr}
    (h : Reads operand (.nonterminal .primary) fun e ps => ps = [.expr e.bare]) :
    Reads (operators operand) (.nonterminal .or) fun e ps => ps = [.expr e.bare] := by
  have term := chain_reads (n := .term) [.mul, .div] rfl (fun _ => rfl) h
  have additive := chain_reads (n := .additive) [.add, .sub] rfl (fun _ => rfl) term
  have comparison := chain_reads (n := .comparison) [.lt, .gt] rfl (fun _ => rfl) additive
  have equality := chain_reads (n := .equality) [.eq] rfl (fun _ => rfl) comparison
  have and := chain_reads (n := .and) [.and] rfl (fun _ => rfl) equality
  exact chain_reads (n := .or) [.or] rfl (fun _ => rfl) and

theorem parserWithin_reads (depth : Nat) :
    Reads (parserWithin depth) (.nonterminal .expression) fun e ps => ps = [.expr e.bare] := by
  induction depth with
  | zero => exact .expected
  | succ depth ih =>
    exact .rule (operators_reads (primary_reads ih)) fun e ps h => h ▸ rfl

theorem parser_reads :
    Reads Expr.parser (.nonterminal .expression) fun e ps => ps = [.expr e.bare] :=
  .remaining parserWithin_reads

end Expr

/-! ### Declarations -/

namespace Decl

open Implet.Parser (Reads)

theorem typeWord_reads {t : Terminal} {type : Option BaseType}
    (ht : Part.toType [.word (.fixed t)] = type) :
    Reads (typeWord t type) (.terminal t) fun a ps => Part.toType ps = a.1 := by
  refine Reads.map (p := Parser.terminal t) (g := fun token => (type, token.span)) .terminal ?_
  rintro _ _ rfl
  exact ht

theorem typeParser_reads :
    Reads typeParser (.nonterminal .type) fun a ps => ps = [.type a.1] := by
  refine .rule (A := fun a ps => Part.toType ps = a.1) ?_ fun a ps h => congrArg Part.type h
  refine .label (.or (.or ?_ ?_) ?_)
  · exact (typeWord_reads rfl).alt (by simp)
  · exact (typeWord_reads rfl).alt (by simp)
  · exact (typeWord_reads rfl).alt (by simp)

/-- A type and a name, as in parameters and in declarations. -/
theorem typed_reads :
    Reads parameterParser (.seq [.nonterminal .type, .ident])
      fun d ps => ps = [.type d.type, .word (.ident d.name.name)] :=
  .bind typeParser_reads fun _ => .bind Ident.parser_reads fun _ => .pure rfl

theorem parameterParser_reads :
    Reads parameterParser (.nonterminal .param) fun d ps => ps = [.decl d.bare] :=
  .rule typed_reads fun _ _ h => h ▸ rfl

theorem parser_reads :
    Reads Decl.parser (.nonterminal .declaration) fun d ps => ps = [.decl d.bare] := by
  refine .rule (A := fun d ps => Part.toDecl ps = d.bare) ?_ fun d ps h => congrArg Part.decl h
  exact .append typed_reads fun d => .bind .terminal fun _ => .pure rfl

end Decl

/-! ### Statements -/

open Implet.Parser (Reads)

variable {inner : Parser Stmt}

theorem Block.statementsWithin_reads
    (h : Reads inner (.nonterminal .statement) fun s ps => ps = [.stmt s.bare]) (rounds : Nat) :
    Reads (statementsWithin rounds inner) (.many (.nonterminal .statement))
      fun ss ps => ps = ss.map fun s => .stmt s.bare := by
  induction rounds with
  | zero => exact .many_nil rfl
  | succ rounds ih =>
    refine .peek fun o => ?_
    cases o with
    | none => exact .many_nil rfl
    | some token =>
      dsimp only
      split
      · exact .many_nil rfl
      · exact .many_cons h fun s => ih.ret fun ss ps hss => hss ▸ rfl

theorem Block.parserOf_reads
    (h : Reads inner (.nonterminal .statement) fun s ps => ps = [.stmt s.bare]) :
    Reads (parserOf inner) (.nonterminal .block) fun b ps => ps = [.block b.bare] := by
  refine .rule (A := fun b ps => Part.toBlock ps = b.bare) ?_ fun b ps hb => congrArg Part.block hb
  refine .bind .terminal fun brace => .bind (Reads.many Decl.parser_reads) fun ds =>
    .remaining fun rounds => .bind (Block.statementsWithin_reads h rounds) fun ss =>
      .bind .terminal fun close => .pure ?_
  rw [Block.bare, bareStmts_eq, ← Part.toBlock_parts, List.map_map, List.map_map]
  rfl

namespace Stmt

theorem ofBlock_bare (b : Block) : Stmt.ofBlock b.bare = (Stmt.ofBlock b).bare := rfl

theorem condParser_reads
    (h : Reads inner (.nonterminal .statement) fun s ps => ps = [.stmt s.bare]) :
    Reads (condParser inner) (.nonterminal .cond) fun s ps => ps = [.stmt s.bare] := by
  refine .rule (A := fun s ps => Part.toStmt ps = s.bare) ?_ fun s ps hs => congrArg Part.stmt hs
  refine .bind .terminal fun word => .bind Expr.parser_reads fun c => .bind h fun t =>
    .bind (Reads.optional (.skipLeft .terminal h)) fun o => .pure ?_
  cases o <;> rfl

theorem loopParser_reads
    (h : Reads inner (.nonterminal .statement) fun s ps => ps = [.stmt s.bare]) :
    Reads (loopParser inner) (.nonterminal .loop) fun s ps => ps = [.stmt s.bare] := by
  refine .rule (A := fun s ps => Part.toStmt ps = s.bare) ?_ fun s ps hs => congrArg Part.stmt hs
  exact .bind .terminal fun word => .bind Expr.parser_reads fun c => .bind h fun t => .pure rfl

theorem returnParser_reads :
    Reads returnParser (.nonterminal .ret) fun s ps => ps = [.stmt s.bare] := by
  refine .rule (A := fun s ps => Part.toStmt ps = s.bare) ?_ fun s ps hs => congrArg Part.stmt hs
  exact .bind .terminal fun word => .bind Expr.parser_reads fun e => .bind .terminal fun _ =>
    .pure rfl

theorem assignParser_reads :
    Reads assignParser (.nonterminal .assignment) fun s ps => ps = [.stmt s.bare] := by
  refine .rule (A := fun s ps => Part.toStmt ps = s.bare) ?_ fun s ps hs => congrArg Part.stmt hs
  exact .bind Ident.parser_reads fun target => .bind .terminal fun _ => .bind Expr.parser_reads
    fun e => .bind .terminal fun _ => .pure rfl

theorem parserOf_reads
    (h : Reads inner (.nonterminal .statement) fun s ps => ps = [.stmt s.bare]) :
    Reads (parserOf inner) (.nonterminal .statement) fun s ps => ps = [.stmt s.bare] := by
  refine .rule (A := fun s ps => Part.toStmt ps = s.bare) ?_ fun s ps hs => congrArg Part.stmt hs
  have hstmt (s : Stmt) (ps : List Part) (hs : ps = [.stmt s.bare]) : Part.toStmt ps = s.bare :=
    hs ▸ rfl
  refine .peek fun o => ?_
  split
  · refine ((Block.parserOf_reads h).map ?_).alt (by simp)
    rintro b _ rfl
    exact ofBlock_bare b
  · exact ((condParser_reads h).imp hstmt).alt (by simp)
  · exact ((loopParser_reads h).imp hstmt).alt (by simp)
  · exact (returnParser_reads.imp hstmt).alt (by simp)
  · exact (assignParser_reads.imp hstmt).alt (by simp)
  · exact .expected

theorem parserWithin_reads (depth : Nat) :
    Reads (parserWithin depth) (.nonterminal .statement) fun s ps => ps = [.stmt s.bare] := by
  induction depth with
  | zero => exact .expected
  | succ depth ih => exact parserOf_reads ih

theorem parser_reads :
    Reads Stmt.parser (.nonterminal .statement) fun s ps => ps = [.stmt s.bare] :=
  .remaining parserWithin_reads

end Stmt

/-! ### Functions and entries -/

theorem Block.parser_reads :
    Reads Block.parser (.nonterminal .block) fun b ps => ps = [.block b.bare] :=
  Block.parserOf_reads Stmt.parser_reads

theorem FunDef.parser_reads :
    Reads FunDef.parser (.nonterminal .function) fun f ps => ps = [.func f.bare] := by
  refine .rule (A := fun f ps => Part.toFunc ps = f.bare) ?_ fun f ps h => congrArg Part.func h
  refine .bind .terminal fun word => .bind Ident.parser_reads.label fun name => .bind .terminal
    fun _ => .bind (Reads.separated Decl.parameterParser_reads) fun params =>
      .bind .terminal fun _ =>
      .bind Block.parser_reads fun body => .pure ?_
  show Part.toFunc (.word (.fixed .kwFunction) :: .word (.ident name.name) ::
    .word (.fixed .leftParen) :: (Part.commaList (params.map fun d => .decl d.bare) ++
      [.word (.fixed .rightParen), .block body.bare])) = _
  rw [Part.toFunc_parts, Part.decls_commaList]
  rfl

namespace Item

/-- An item without its spans. -/
def bare : Item → Item
  | function f => function f.bare
  | declaration d => declaration d.bare
  | statement s => statement s.bare

theorem parser_reads :
    Reads Item.parser (.nonterminal .item) fun i ps => ps = [.item i.bare] := by
  refine .rule (A := fun i ps => Part.toItem ps = i.bare) ?_ fun i ps h => congrArg Part.item h
  refine .peek fun o => ?_
  split
  · exact (FunDef.parser_reads.map fun f ps h => h ▸ rfl).alt (by simp)
  · exact (Decl.parser_reads.map fun d ps h => h ▸ rfl).alt (by simp)
  · exact (Decl.parser_reads.map fun d ps h => h ▸ rfl).alt (by simp)
  · exact (Decl.parser_reads.map fun d ps h => h ▸ rfl).alt (by simp)
  · exact (Stmt.parser_reads.map fun s ps h => h ▸ rfl).alt (by simp)

theorem listWithin_reads (rounds : Nat) :
    Reads (listWithin rounds) (.many (.nonterminal .item))
      fun is ps => ps = is.map fun i => .item i.bare := by
  induction rounds with
  | zero => exact .many_nil rfl
  | succ rounds ih =>
    refine .peek fun o => ?_
    cases o with
    | none => exact .many_nil rfl
    | some token => exact .many_cons parser_reads fun i => ih.ret fun is ps his => his ▸ rfl

/-- With as many rounds as there are tokens, items are read up to the end. -/
theorem rest_listWithin {rounds : Nat} {c c' : Cursor} {is : List Item}
    (h : listWithin rounds c = (.ok is, c')) (hrounds : c.rest.length ≤ rounds) : c'.rest = [] := by
  induction rounds generalizing c is with
  | zero =>
    cases h
    exact List.length_eq_zero_iff.mp (Nat.le_zero.mp hrounds)
  | succ rounds ih =>
    unfold listWithin at h
    obtain ⟨_, _, ⟨⟩, h⟩ := Parser.bind_ok_iff.mp h
    cases hc : c.rest.head? with
    | none =>
      rw [hc] at h
      cases h
      exact List.head?_eq_none_iff.mp hc
    | some token =>
      rw [hc] at h
      obtain ⟨i, c₁, hi, h⟩ := Parser.bind_ok_iff.mp h
      obtain ⟨is, c₂, his, h⟩ := Parser.bind_ok_iff.mp h
      cases h
      obtain ⟨ts, _, hts, hd, -⟩ := parser_reads c i c₁ hi
      have hlen := congrArg List.length hts
      have := (Derives.begins_item hd).length_pos
      rw [List.length_append] at hlen
      exact ih his (by omega)

/-! ### Items by their kind -/

@[simp] theorem function?_eq_some {i : Item} {f : FunDef} :
    i.function? = some f ↔ i = .function f := by
  cases i <;> simp [function?]

@[simp] theorem declaration?_eq_some {i : Item} {d : Decl} :
    i.declaration? = some d ↔ i = .declaration d := by
  cases i <;> simp [declaration?]

@[simp] theorem statement?_eq_some {i : Item} {s : Stmt} :
    i.statement? = some s ↔ i = .statement s := by
  cases i <;> simp [statement?]

variable {is : List Item}

theorem mem_functions {f : FunDef} : f ∈ is.filterMap function? ↔ .function f ∈ is := by
  simp [List.mem_filterMap]

theorem mem_declarations {d : Decl} :
    d ∈ is.filterMap declaration? ↔ .declaration d ∈ is := by
  simp [List.mem_filterMap]

theorem mem_statements {s : Stmt} : s ∈ is.filterMap statement? ↔ .statement s ∈ is := by
  simp [List.mem_filterMap]

end Item

namespace Entry

theorem ofItems_cons_cons (i j : Item) (is : List Item) :
    ofItems (i :: j :: is) = .program ⟨(i :: j :: is).filterMap Item.function?,
      (i :: j :: is).filterMap Item.declaration?, (i :: j :: is).filterMap Item.statement?⟩ := by
  cases i <;> rfl

/-- Items make the same entry with their spans as without them. -/
theorem ofItems_bare (is : List Item) :
    ofItems (is.map Item.bare) = (ofItems is).bare := by
  -- sorting by kind and dropping spans can be done in either order
  have sorted {α : Type} {f : Item → Option α} {g : α → α} (h : ∀ i, f i.bare = (f i).map g)
      (is : List Item) : (is.map Item.bare).filterMap f = (is.filterMap f).map g := by
    rw [List.filterMap_map, List.map_filterMap]
    exact congrArg (List.filterMap · is) (funext h)
  match is with
  | [] | [.function f] | [.declaration d] | [.statement s] => rfl
  | i :: j :: is =>
    rw [List.map_cons, List.map_cons, ofItems_cons_cons, ofItems_cons_cons, ← List.map_cons,
      ← List.map_cons, sorted (g := FunDef.bare), sorted (g := Decl.bare), sorted (g := Stmt.bare)]
    · rfl
    all_goals
      intro i
      cases i <;> rfl

/-- The attempt at a bare expression takes all tokens, or none. -/
theorem bareExpression_ok {c c' : Cursor} {o : Option Expr}
    (h : bareExpression c = (.ok o, c')) :
    o = none ∧ c'.rest = c.rest ∨ ∃ e, o = some e ∧ c'.rest = [] ∧
      Parser.skip Expr.parser (Parser.optional (Parser.terminal .semicolon)) c = (.ok e, c') := by
  unfold bareExpression at h
  rcases hs : Parser.skip Expr.parser (Parser.optional (Parser.terminal .semicolon)) c with
    ⟨_ | e, c₁⟩
  · rw [hs] at h
    cases h
    exact .inl ⟨rfl, rfl⟩
  · rw [hs] at h
    by_cases hc : c₁.rest.isEmpty
    · simp only [hc, if_true, Prod.mk.injEq, Except.ok.injEq] at h
      obtain ⟨rfl, rfl⟩ := h
      exact .inr ⟨e, rfl, List.isEmpty_iff.mp hc, rfl⟩
    · simp only [hc] at h
      cases h
      exact .inl ⟨rfl, rfl⟩

/-- An entry that is read derives from the grammar. -/
theorem derives_of_parser_ok {ts : List Token} {f : Option (Nat × ParseError)}
    {c' : Cursor} {u : Entry} (h : parser ⟨ts, f⟩ = (.ok u, c')) :
    Derives (.nonterminal .unit) ts [.entry u.bare] := by
  unfold parser at h
  obtain ⟨o, c, ho, h⟩ := Parser.bind_ok_iff.mp h
  rcases bareExpression_ok ho with ⟨rfl, hc⟩ | ⟨e, rfl, hrest, he⟩
  · obtain ⟨_, _, ⟨⟩, h⟩ := Parser.bind_ok_iff.mp h
    obtain ⟨is, c₁, his, h⟩ := Parser.bind_ok_iff.mp h
    cases h
    obtain ⟨us, _, hus, hd, rfl⟩ := Item.listWithin_reads _ c is _ his
    rw [Item.rest_listWithin his (Nat.le_refl _), List.append_nil, hc] at hus
    refine Derives.unit_iff.mpr (.inr ⟨is.map Item.bare, ?_, (ofItems_bare is).symm⟩)
    rw [List.map_map]
    change ts = us at hus
    exact hus ▸ hd
  · cases h
    have hread : Reads (Parser.skip Expr.parser (Parser.optional (Parser.terminal .semicolon)))
        (.seq [.nonterminal .expression, .opt (.terminal .semicolon)])
        fun e ps => Part.toEntry ps = .expression e.bare :=
      .bind Expr.parser_reads fun e => .bind (.optional .terminal) fun _ => .pure rfl
    obtain ⟨us, ps, hus, hd, hps⟩ := hread _ e _ he
    rw [hrest, List.append_nil] at hus
    cases hus
    exact Derives.nonterminal_iff.mpr ⟨ps, Derives.alt_iff.mpr ⟨_, List.mem_cons_self, hd⟩,
      by rw [Nonterminal.build, hps]; rfl⟩

end Entry

end Implet
