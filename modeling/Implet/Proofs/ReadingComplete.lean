/-
Implet/Proofs/ReadingComplete.lean

What derives from the grammar is read.  `Parser.Takes p ts us A` says that from
the tokens `ts` the reader `p` goes on to `us` with a value in `A`, whatever
errors were remembered before, and `Parser.Refuses p ts` that it fails there.
With both, an ordered choice can be followed to the alternative that fits.

A reader stops where the grammar does only if the next token does not carry on
what was read.  For expressions those tokens are `Expr.continuations`; after a
statement that ends in a conditional without an `else` it is the word `else`.
Tokens that begin what may come next (`Derives.begins_statement` and its kind)
are none of them, so no derivation is cut wrongly.

Rounds and nestings are bounded by the number of tokens, which is always enough.
-/
import Implet.Proofs.ReadingSound

namespace Implet

open Grammar

namespace Parser

variable {α β : Type} {p q : Parser α} {f : α → Parser β} {A A' : α → Prop} {B : β → Prop}
  {ts us vs : List Token}

/-- From `ts`, the reader goes on to `us` with a value in `A`. -/
def Takes (p : Parser α) (ts us : List Token) (A : α → Prop) : Prop :=
  ∀ furthest, ∃ a furthest', p ⟨ts, furthest⟩ = (.ok a, ⟨us, furthest'⟩) ∧ A a

/-- From `ts`, the reader fails. -/
def Refuses (p : Parser α) (ts : List Token) : Prop :=
  ∀ furthest, ∃ e c, p ⟨ts, furthest⟩ = (.error e, c)

/-- The next token, if there is one, is none of the terminals. -/
def Stops (ws : List Terminal) (ts : List Token) : Prop :=
  ∀ t ∈ ws, ¬ Begins (· = .fixed t) ts

namespace Stops

variable {ws : List Terminal}

theorem nil : Stops ws [] := fun _ _ h => h

theorem fixed {t : Terminal} {s : Span} (h : t ∉ ws) :
    Stops ws (⟨.fixed t, s⟩ :: ts) := by
  rintro w hw ⟨⟩
  exact h hw

theorem mono {ws' : List Terminal} (h : Stops ws ts) (hs : ws' ⊆ ws) : Stops ws' ts :=
  fun t ht => h t (hs ht)

/-- What begins with one of `P` stops at terminals that are none of `P`. -/
theorem of_begins {P : Lexeme → Prop} (h : Begins P ts) (hP : ∀ w ∈ ws, ¬ P (.fixed w)) :
    Stops ws ts := by
  intro w hw h'
  exact h.absurd h' fun l hl hlw => hP w hw (hlw ▸ hl)

end Stops

/-! ### Rules -/

namespace Takes

theorem imp (h : Takes p ts us A) (hA : ∀ a, A a → A' a) : Takes p ts us A' := by
  intro furthest
  obtain ⟨a, furthest', hp, ha⟩ := h furthest
  exact ⟨a, furthest', hp, hA a ha⟩

theorem pure {a : α} (h : A a) : Takes (Pure.pure a) ts ts A :=
  fun furthest => ⟨a, furthest, rfl, h⟩

theorem bind (hp : Takes p ts us A) (hf : ∀ a, A a → Takes (f a) us vs B) :
    Takes (p >>= f) ts vs B := by
  intro furthest
  obtain ⟨a, furthest', hp, ha⟩ := hp furthest
  obtain ⟨b, furthest'', hf, hb⟩ := hf a ha furthest'
  exact ⟨b, furthest'', bind_ok_iff.mpr ⟨a, _, hp, hf⟩, hb⟩

/-- Another value for the same tokens. -/
theorem map {g : α → β} (h : Takes p ts us A) (hB : ∀ a, A a → B (g a)) :
    Takes (g <$> p) ts us B :=
  h.bind fun a ha => pure (hB a ha)

theorem peek {f : Option Token → Parser α} (h : Takes (f ts.head?) ts us A) :
    Takes (Parser.peek >>= f) ts us A := h

theorem remaining {f : Nat → Parser α} (h : Takes (f ts.length) ts us A) :
    Takes (Parser.remaining >>= f) ts us A := h

theorem advance {t : Token} : Takes Parser.advance (t :: ts) ts fun _ => True :=
  fun furthest => ⟨(), furthest, rfl, trivial⟩

theorem or_left (h : Takes p ts us A) : Takes (p.or q) ts us A := by
  intro furthest
  obtain ⟨a, furthest', hp, ha⟩ := h furthest
  exact ⟨a, furthest', by rw [Parser.or, hp], ha⟩

theorem or_right (hp : Refuses p ts) (hq : Takes q ts us A) : Takes (p.or q) ts us A := by
  intro furthest
  obtain ⟨e, c, hp⟩ := hp furthest
  obtain ⟨a, furthest', hq, ha⟩ := hq c.furthest
  exact ⟨a, furthest', by rw [Parser.or, hp]; exact hq, ha⟩

theorem label {x : Expectation} (h : Takes p ts us A) : Takes (p.label x) ts us A := by
  intro furthest
  obtain ⟨a, furthest', hp, ha⟩ := h furthest
  exact ⟨a, furthest', by rw [Parser.label, hp], ha⟩

theorem optional_some (h : Takes p ts us A) :
    Takes p.optional ts us fun o => ∃ a, o = some a ∧ A a := by
  intro furthest
  obtain ⟨a, furthest', hp, ha⟩ := h furthest
  exact ⟨some a, furthest', by rw [Parser.optional, hp], a, rfl, ha⟩

theorem optional_none (h : Refuses p ts) : Takes p.optional ts ts fun o => o = none := by
  intro furthest
  obtain ⟨e, c, hp⟩ := h furthest
  exact ⟨none, c.furthest, by rw [Parser.optional, hp], rfl⟩

theorem terminal {t : Terminal} {s : Span} :
    Takes (Parser.terminal t) (⟨.fixed t, s⟩ :: ts) ts fun token => token = ⟨.fixed t, s⟩ :=
  fun furthest => ⟨_, furthest, by simp [Parser.terminal], rfl⟩

end Takes

namespace Refuses

theorem or (hp : Refuses p ts) (hq : Refuses q ts) : Refuses (p.or q) ts := by
  intro furthest
  obtain ⟨e, c, hp⟩ := hp furthest
  obtain ⟨e', c', hq⟩ := hq c.furthest
  exact ⟨e', c', by rw [Parser.or, hp]; exact hq⟩

/-- The first of a sequence fails. -/
theorem bind_left (hp : Refuses p ts) : Refuses (p >>= f) ts := by
  intro furthest
  obtain ⟨e, c, hp⟩ := hp furthest
  exact ⟨e, c, by change Parser.bind p f _ = _; rw [Parser.bind, hp]⟩

/-- What comes after the first of a sequence fails. -/
theorem bind_right (hp : Takes p ts us A) (hf : ∀ a, A a → Refuses (f a) us) :
    Refuses (p >>= f) ts := by
  intro furthest
  obtain ⟨a, furthest', hp, ha⟩ := hp furthest
  obtain ⟨e, c, hf⟩ := hf a ha furthest'
  exact ⟨e, c, by change Parser.bind p f _ = _; rw [Parser.bind, hp]; exact hf⟩

theorem terminal {t : Terminal} (h : Stops [t] ts) : Refuses (Parser.terminal t) ts := by
  intro furthest
  cases ts with
  | nil => exact ⟨_, _, rfl⟩
  | cons token ts =>
    have ht : token.lexeme ≠ .fixed t := h t List.mem_cons_self
    exact ⟨_, _, by simp only [Parser.terminal, ht, if_false]; rfl⟩

/-- A reader fails before a token that begins nothing that it can read. -/
theorem of_reads {e : Ebnf} {C : α → List Part → Prop} {P : Lexeme → Prop}
    (hp : Reads p e C)
    (hP : ∀ {us ps}, Derives e us ps → Begins P us) (h : ¬ Begins P ts) : Refuses p ts := by
  intro furthest
  rcases hc : p ⟨ts, furthest⟩ with ⟨err | a, c⟩
  · exact ⟨err, c, rfl⟩
  · obtain ⟨us, ps, hts, hd, -⟩ := hp _ a c hc
    change ts = us ++ c.rest at hts
    exact (h (hts ▸ (hP hd).append _)).elim

end Refuses

/-! ### Repetitions -/

/-- The reader takes every phrase of the nonterminal that has at most `limit`
tokens, in front of tokens that the phrase can end at. -/
def Covers (p : Parser α) (n : Nonterminal) (v : α → Part)
    (Ends : Part → List Token → Prop) (limit : Nat) : Prop :=
  ∀ ⦃ts part us⦄, Derives (.nonterminal n) ts [part] → ts.length ≤ limit → Ends part us →
    Takes p (ts ++ us) us fun a => v a = part

section

variable {n : Nonterminal} {v : α → Part} {Ends : Part → List Token → Prop} {limit : Nat}
  {rest : List Token} {ps : List Part}

theorem Covers.separatedWithin (hp : Covers p n v Ends limit)
    (hcomma : ∀ {part us}, Begins (· = .fixed .comma) us → Ends part us)
    (hrest : ∀ {part}, Ends part rest) (hstop : Stops [.comma] rest)
    (h : Derives (.many (.seq [.terminal .comma, .nonterminal n])) ts ps)
    (hlimit : ts.length ≤ limit)
    (rounds : Nat) (hrounds : ts.length ≤ rounds) :
    Takes (Parser.separatedWithin rounds p (Parser.terminal .comma)) (ts ++ rest) rest
      fun as => ps = (as.map v).flatMap fun q => [.word (.fixed .comma), q] := by
  revert hlimit rounds
  refine Derives.many_induction h ?_ ?_
  · intro hlimit rounds hrounds
    unfold Parser.separatedWithin
    refine Takes.bind (.optional_none (.terminal hstop)) ?_
    rintro _ rfl
    exact .pure rfl
  · intro us vs qs rs hd hd' ih hlimit rounds hrounds
    obtain ⟨s, ws, part, hpart, rfl, rfl⟩ := Derives.prefixed_cases hd
    rw [List.length_append, List.length_cons] at hlimit hrounds
    rw [List.append_assoc, List.cons_append]
    unfold Parser.separatedWithin
    refine Takes.bind (.optional_some .terminal) ?_
    rintro _ ⟨_, rfl, -⟩
    have hends : Ends part (vs ++ rest) := by
      rcases Derives.begins_many Derives.begins_seq_terminal hd' with rfl | hvs
      · exact hrest
      · exact hcomma (hvs.append rest)
    refine Takes.bind (hp hpart (by omega) hends) ?_
    rintro a rfl
    obtain ⟨rounds, rfl⟩ : ∃ r, rounds = r + 1 := Nat.exists_eq_succ_of_ne_zero (by omega)
    refine Takes.bind (ih (by omega) rounds (by omega)) ?_
    rintro as rfl
    exact .pure rfl

theorem Covers.separated (hp : Covers p n v Ends limit)
    (hcomma : ∀ {part us}, Begins (· = .fixed .comma) us → Ends part us)
    (hrest : ∀ {part}, Ends part rest) (hstop : Stops [.comma] rest) (hno : Refuses p rest)
    (h : Derives (.commaList (.nonterminal n)) ts ps) (hlimit : ts.length ≤ limit) :
    Takes (Parser.separated p (Parser.terminal .comma)) (ts ++ rest) rest
      fun as => ps = Part.commaList (as.map v) := by
  unfold Parser.separated
  rcases Derives.commaList_cases h with ⟨rfl, rfl⟩ | ⟨us, vs, part, qs, hd, hd', rfl, rfl⟩
  · refine Takes.bind (.optional_none hno) ?_
    rintro _ rfl
    exact .pure rfl
  · rw [List.length_append] at hlimit
    rw [List.append_assoc]
    have hends : Ends part (vs ++ rest) := by
      rcases Derives.begins_many Derives.begins_seq_terminal hd' with rfl | hvs
      · exact hrest
      · exact hcomma (hvs.append rest)
    refine Takes.bind (.optional_some (hp hd (by omega) hends)) ?_
    rintro _ ⟨a, rfl, rfl⟩
    refine Takes.remaining
      (Takes.bind (hp.separatedWithin hcomma hrest hstop hd' (by omega) _ ?_) ?_)
    · simp
    · rintro as rfl
      exact .pure rfl

theorem Covers.manyWithin (hp : Covers p n v Ends limit)
    (hends : ∀ {part us}, Ends part us)
    {P : Lexeme → Prop} (hn : ∀ {ts ps}, Derives (.nonterminal n) ts ps → Begins P ts)
    (hno : Refuses p rest) (h : Derives (.many (.nonterminal n)) ts ps) (hlimit : ts.length ≤ limit)
    (rounds : Nat) (hrounds : ts.length ≤ rounds) :
    Takes (Parser.manyWithin rounds p) (ts ++ rest) rest fun as => as.map v = ps := by
  revert hlimit rounds
  refine Derives.many_induction h ?_ ?_
  · intro _ rounds _
    unfold Parser.manyWithin
    refine Takes.bind (.optional_none hno) ?_
    rintro _ rfl
    exact .pure rfl
  · intro us vs qs rs hd hd' ih hlimit rounds hrounds
    obtain ⟨_, -, rfl⟩ := Derives.nonterminal_iff.mp hd
    have hpos := (hn hd).length_pos
    rw [List.length_append] at hlimit hrounds
    rw [List.append_assoc]
    unfold Parser.manyWithin
    refine Takes.bind (.optional_some (hp hd (by omega) hends)) ?_
    rintro _ ⟨a, rfl, ha⟩
    obtain ⟨rounds, rfl⟩ : ∃ r, rounds = r + 1 := Nat.exists_eq_succ_of_ne_zero (by omega)
    refine Takes.bind (ih (by omega) rounds (by omega)) ?_
    rintro as rfl
    exact .pure (congrArg (· :: as.map v) ha)

theorem Covers.many (hp : Covers p n v Ends limit) (hends : ∀ {part us}, Ends part us)
    {P : Lexeme → Prop} (hn : ∀ {ts ps}, Derives (.nonterminal n) ts ps → Begins P ts)
    (hno : Refuses p rest) (h : Derives (.many (.nonterminal n)) ts ps)
    (hlimit : ts.length ≤ limit) :
    Takes p.many (ts ++ rest) rest fun as => as.map v = ps :=
  Takes.remaining (hp.manyWithin hends hn hno h hlimit _ (by simp))

end

end Parser

/-! ### Expressions -/

open Implet.Parser (Reads Takes Refuses Stops Covers)

theorem Ident.parser_takes {name : String} {s : Span} {ts : List Token} :
    Takes Ident.parser (⟨.ident name, s⟩ :: ts) ts fun id => id = ⟨name, s⟩ :=
  fun furthest => ⟨_, furthest, rfl, rfl⟩

namespace BinOp

theorem terminal_injective {op op' : BinOp} (h : op.terminal = op'.terminal) :
    op = op' := by
  cases op <;> cases op' <;> first | rfl | cases h

/-- The word for an operator is that operator. -/
theorem ofToken?_terminal {ops : List BinOp} {op : BinOp} (hop : op ∈ ops) (s : Span) :
    ofToken? ops ⟨.fixed op.terminal, s⟩ = some op := by
  have hsome : (ofToken? ops ⟨.fixed op.terminal, s⟩).isSome :=
    List.find?_isSome.mpr ⟨op, hop, decide_eq_true rfl⟩
  obtain ⟨op', hop'⟩ := Option.isSome_iff_exists.mp hsome
  have hhead : [Token.mk (.fixed op.terminal) s].head?.bind (ofToken? ops) = some op' :=
    hop'
  obtain ⟨_, _, ⟨⟩, -, hlexeme⟩ := head_of_bind_ofToken? hhead
  rw [hop', terminal_injective (Lexeme.fixed.inj hlexeme)]

/-- Where no operator comes next, none is found. -/
theorem bind_ofToken?_of_stops {ops : List BinOp} {ts : List Token}
    (h : Stops (ops.map terminal) ts) : ts.head?.bind (ofToken? ops) = none := by
  refine Option.eq_none_iff_forall_ne_some.mpr fun op hop => ?_
  obtain ⟨t, us, rfl, hmem, hlexeme⟩ := head_of_bind_ofToken? hop
  exact h _ (List.mem_map_of_mem hmem) hlexeme

end BinOp

namespace Expr

/-- The tokens that carry on an expression. -/
def continuations : List Terminal :=
  [.kwOr, .kwAnd, .doubleEquals, .less, .greater, .plus, .minus, .star, .slash, .leftParen]

/-- A reader of expressions that finds all of a kind, in front of tokens that do
not carry them on. -/
def Finds (p : Parser Expr) (n : Nonterminal) (ws : List Terminal) (limit : Nat) : Prop :=
  Covers p n (fun e => .expr e.bare) (fun _ => Stops ws) limit

variable {inner : Parser Expr} {limit : Nat}

theorem integerLiteral_takes {digits : String} {s : Span} {ts : List Token}
    (fits : (Lexeme.integer digits).Fits) :
    Takes integerLiteral (⟨.integer digits, s⟩ :: ts) ts
      fun e => e = .integer (Int64.ofNat (digitsValue digits.toList)) s := by
  have hv : digitsValue digits.toList < literalLimit := fits
  exact fun furthest => ⟨_, furthest, by simp only [integerLiteral, hv, if_true], rfl⟩

theorem callParser_takes
    (hr : Reads inner (.nonterminal .expression) fun e ps => ps = [.expr e.bare])
    (h : Finds inner .expression continuations limit) {ts : List Token} {e : Expr}
    (hd : Derives (.nonterminal .call) ts [.expr e]) (hlimit : ts.length ≤ limit + 1)
    (us : List Token) :
    Takes (callParser inner) (ts ++ us) us fun a => a.bare = e := by
  obtain ⟨name, s, s', vs, ps, s'', hargs, rfl, rfl⟩ := Derives.call_cases hd
  simp only [List.length_cons, List.length_append] at hlimit
  simp only [List.cons_append, List.append_assoc, List.nil_append]
  unfold callParser
  refine Ident.parser_takes.bind ?_
  rintro _ rfl
  refine Takes.terminal.bind fun _ _ => ?_
  refine Takes.bind (h.separated (fun hts => .of_begins hts (by decide)) (.fixed (by decide))
    (.fixed (by decide)) (.of_reads hr Derives.begins_expression id) hargs (by omega)) ?_
  rintro args rfl
  refine Takes.terminal.bind fun _ _ => .pure ?_
  rw [Part.exprs_commaList, Expr.bare, bareExprs_eq]
  rfl

theorem parenthesized_takes (h : Finds inner .expression continuations limit)
    {s s' : Span}
    {vs us : List Token} {e : Expr} (hd : Derives (.nonterminal .expression) vs [.expr e])
    (hlimit : vs.length ≤ limit) :
    Takes (parenthesized inner)
      (⟨.fixed .leftParen, s⟩ :: (vs ++ ⟨.fixed .rightParen, s'⟩ :: us)) us
      fun a => a.bare = e := by
  refine Takes.bind (Takes.bind .terminal fun _ _ => h hd hlimit (.fixed (by decide))) ?_
  intro a ha
  exact Takes.terminal.bind fun _ _ => .pure (Part.expr.inj ha)

theorem literals_refuse_ident (name : String) (s : Span) (ts : List Token) :
    Refuses (integerLiteral.or booleanLiteral) (⟨.ident name, s⟩ :: ts) :=
  .or (fun _ => ⟨_, _, rfl⟩) fun _ => ⟨_, _, rfl⟩

/-- Of the alternatives, each refuses what begins the later ones, except that a
call and a name begin alike; there the opening parenthesis decides. -/
theorem primary_takes
    (hr : Reads inner (.nonterminal .expression) fun e ps => ps = [.expr e.bare])
    (h : Finds inner .expression continuations limit) :
    Finds (primary inner) .primary [.leftParen] (limit + 1) := by
  intro ts part us hd hlimit hstop
  obtain ⟨e, rfl⟩ : ∃ e, part = .expr e := Derives.part (fun _ => ⟨_, rfl⟩) hd
  refine Takes.label (Takes.imp (A := fun a => a.bare = e) ?_ fun a ha => congrArg Part.expr ha)
  rcases Derives.primary_cases hd with
    ⟨digits, s, fits, rfl, rfl⟩ | ⟨s, rfl, rfl⟩ | ⟨s, rfl, rfl⟩ | hd |
    ⟨name, s, rfl, rfl⟩ | ⟨s, vs, s', hvs, rfl⟩
  · refine .or_left (.or_left (.or_left (.or_left ((integerLiteral_takes fits).imp ?_))))
    rintro _ rfl
    rfl
  · exact .or_left (.or_left (.or_left (.or_right (fun _ => ⟨_, _, rfl⟩) fun furthest =>
      ⟨_, furthest, rfl, rfl⟩)))
  · exact .or_left (.or_left (.or_left (.or_right (fun _ => ⟨_, _, rfl⟩) fun furthest =>
      ⟨_, furthest, rfl, rfl⟩)))
  · have hcall := callParser_takes hr h hd hlimit us
    obtain ⟨_, _, _, _, _, _, -, rfl, -⟩ := Derives.call_cases hd
    exact .or_left (.or_left (.or_right (literals_refuse_ident _ _ _) hcall))
  · have hcall : Refuses (callParser inner) (⟨.ident name, s⟩ :: us) :=
      .bind_right Ident.parser_takes fun _ _ => .bind_left (.terminal hstop)
    refine .or_left (.or_right (.or (literals_refuse_ident _ _ _) hcall)
      (Ident.parser_takes.map ?_))
    rintro _ rfl
    rfl
  · rw [List.length_cons, List.length_append, List.length_singleton] at hlimit
    rw [List.cons_append, List.append_assoc]
    have hliteral : Refuses (integerLiteral.or booleanLiteral)
        (⟨.fixed .leftParen, s⟩ :: (vs ++ ([⟨.fixed .rightParen, s'⟩] ++ us))) :=
      .or (fun _ => ⟨_, _, rfl⟩) fun _ => ⟨_, _, rfl⟩
    exact .or_right (.or (.or hliteral (.bind_left fun _ => ⟨_, _, rfl⟩))
      (.bind_left fun _ => ⟨_, _, rfl⟩)) (parenthesized_takes h hvs (by omega))

/-- After an operand comes another operator, or what comes after all of them. -/
theorem stops_of_operators {m : Nonterminal} {ops : List BinOp} {ws : List Terminal}
    (hops : ∀ op ∈ ops, op.terminal ∉ ws) {ts us : List Token} {ps : List Part}
    (hd : Derives (.many (.seq [.alt ((ops.map BinOp.terminal).map .terminal), .nonterminal m]))
      ts ps) (hstop : Stops (ops.map BinOp.terminal ++ ws) us) : Stops ws (ts ++ us) := by
  rcases Derives.begins_many Derives.begins_operator hd with rfl | hts
  · exact hstop.mono (List.subset_append_right _ _)
  · refine .of_begins (hts.append us) ?_
    rintro w hw ⟨op, hop, ⟨⟩⟩
    exact hops op hop hw

/-- Operators and operands are taken as far as they go. -/
theorem chainWithin_takes {m : Nonterminal} {ops : List BinOp} {ws : List Terminal}
    {operand : Parser Expr} (h : Finds operand m ws limit) (hops : ∀ op ∈ ops, op.terminal ∉ ws)
    {ts us : List Token} {ps : List Part}
    (hd : Derives (.many (.seq [.alt ((ops.map BinOp.terminal).map .terminal), .nonterminal m]))
      ts ps) (hlimit : ts.length ≤ limit) (rounds : Nat) (hrounds : ts.length ≤ rounds)
    (hstop : Stops (ops.map BinOp.terminal ++ ws) us) (left : Expr) :
    Takes (chainWithin rounds ops operand left) (ts ++ us) us
      fun a => a.bare = Part.grouped left.bare ps := by
  revert hlimit rounds left
  refine Derives.many_induction hd ?_ ?_
  · intro _ rounds _ left
    cases rounds with
    | zero => exact .pure rfl
    | succ rounds =>
      unfold chainWithin
      refine Takes.peek ?_
      rw [List.nil_append, BinOp.bind_ofToken?_of_stops (hstop.mono (List.subset_append_left _ _))]
      exact .pure rfl
  · intro vs vs' qs rs hd hd' ih hlimit rounds hrounds left
    obtain ⟨op, hop, s, ws', part, hpart, rfl, rfl⟩ := Derives.operator_cases hd
    rw [List.length_append, List.length_cons] at hlimit hrounds
    rw [List.append_assoc, List.cons_append]
    obtain ⟨rounds, rfl⟩ : ∃ r, rounds = r + 1 := Nat.exists_eq_succ_of_ne_zero (by omega)
    unfold chainWithin
    refine Takes.peek ?_
    rw [List.head?_cons, Option.bind_some, BinOp.ofToken?_terminal hop]
    refine Takes.advance.bind fun _ _ => ?_
    refine Takes.bind (h hpart (by omega) (stops_of_operators hops hd' hstop)) ?_
    rintro right rfl
    refine (ih (by omega) rounds (by omega) _).imp fun a ha => ?_
    rw [ha]
    exact (Part.grouped_operator ..).symm

theorem chain_takes {n m : Nonterminal} (ops : List BinOp) {ws : List Terminal}
    {operand : Parser Expr} (hn : n.rule = .operated m (ops.map BinOp.terminal))
    (hb : ∀ ps, n.build ps = .expr (Part.toExpr ps)) (hops : ∀ op ∈ ops, op.terminal ∉ ws)
    (h : Finds operand m ws limit) :
    Finds (chain ops operand) n (ops.map BinOp.terminal ++ ws) limit := by
  intro ts part us hd hlimit hstop
  obtain ⟨vs, vs', p, qs, hp, hqs, rfl, hpart⟩ := Derives.operated_cases hn hd
  rw [List.length_append] at hlimit
  rw [List.append_assoc]
  refine Takes.bind (h hp (by omega) (stops_of_operators hops hqs hstop)) ?_
  rintro first rfl
  refine Takes.remaining ((chainWithin_takes h hops hqs (by omega) _ ?_ hstop first).imp ?_)
  · rw [List.length_append]
    omega
  · intro a ha
    rw [(List.cons.inj hpart).1, hb]
    exact congrArg Part.expr ha

/-- The levels of operators, from the one that binds tightest. -/
theorem operators_takes {operand : Parser Expr}
    (h : Finds operand .primary [.leftParen] limit) :
    Finds (operators operand) .or continuations limit := by
  have term := chain_takes (n := .term) [.mul, .div] rfl (fun _ => rfl) (by decide) h
  have additive :=
    chain_takes (n := .additive) [.add, .sub] rfl (fun _ => rfl) (by decide) term
  have comparison :=
    chain_takes (n := .comparison) [.lt, .gt] rfl (fun _ => rfl) (by decide) additive
  have equality :=
    chain_takes (n := .equality) [.eq] rfl (fun _ => rfl) (by decide) comparison
  have and := chain_takes (n := .and) [.and] rfl (fun _ => rfl) (by decide) equality
  exact chain_takes (n := .or) [.or] rfl (fun _ => rfl) (by decide) and

theorem parserWithin_takes (depth : Nat) :
    Finds (parserWithin depth) .expression continuations depth := by
  induction depth with
  | zero =>
    intro ts part us hd hlimit _
    have := (Derives.begins_expression hd).length_pos
    omega
  | succ depth ih =>
    intro ts part us hd hlimit hstop
    obtain ⟨_, hor, hpart⟩ := Derives.nonterminal_iff.mp hd
    obtain ⟨_, -, rfl⟩ := Derives.nonterminal_iff.mp hor
    cases hpart
    exact operators_takes (primary_takes (parserWithin_reads depth) ih) hor hlimit hstop

theorem parser_takes {ts us : List Token} {e : Expr}
    (hd : Derives (.nonterminal .expression) ts [.expr e]) (hstop : Stops continuations us) :
    Takes Expr.parser (ts ++ us) us fun a => a.bare = e := by
  refine Takes.remaining ((parserWithin_takes _ hd ?_ hstop).imp fun a ha => Part.expr.inj ha)
  rw [List.length_append]
  omega

end Expr

/-! ### Declarations -/

namespace Decl

theorem typeParser_takes {ts us : List Token} {t : Option BaseType}
    (hd : Derives (.nonterminal .type) ts [.type t]) :
    Takes typeParser (ts ++ us) us fun a => a.1 = t := by
  refine Takes.label ?_
  rcases Derives.type_cases hd with ⟨s, ⟨rfl, ht⟩ | ⟨rfl, ht⟩ | ⟨rfl, ht⟩⟩
  all_goals cases ht
  · exact .or_left (.or_left (Takes.terminal.bind fun _ _ => .pure rfl))
  · exact .or_left (.or_right (.bind_left fun _ => ⟨_, _, rfl⟩)
      (Takes.terminal.bind fun _ _ => .pure rfl))
  · exact .or_right (.or (.bind_left fun _ => ⟨_, _, rfl⟩) (.bind_left fun _ => ⟨_, _, rfl⟩))
      (Takes.terminal.bind fun _ _ => .pure rfl)

/-- A type and a name are taken whatever follows. -/
theorem typed_takes {ts us : List Token} {t : Option BaseType} {name : String} {s : Span}
    (hd : Derives (.nonterminal .type) ts [.type t]) :
    Takes parameterParser (ts ++ ⟨.ident name, s⟩ :: us) us
      fun d => d.bare = ⟨t, ⟨name, .empty⟩, .empty⟩ := by
  refine Takes.bind (typeParser_takes hd) ?_
  rintro ⟨_, _⟩ rfl
  refine Takes.bind Ident.parser_takes ?_
  rintro _ rfl
  exact .pure rfl

theorem parameterParser_takes (limit : Nat) :
    Covers parameterParser .param (fun d => .decl d.bare) (fun _ _ => True) limit := by
  intro ts part us hd _ _
  obtain ⟨vs, t, name, s, ht, rfl, hpart⟩ := Derives.param_cases hd
  cases hpart
  rw [List.append_assoc]
  exact (typed_takes ht).imp fun d hd => congrArg Part.decl hd

theorem parser_takes (limit : Nat) :
    Covers Decl.parser .declaration (fun d => .decl d.bare) (fun _ _ => True) limit := by
  intro ts part us hd _ _
  obtain ⟨vs, t, name, s, s', ht, rfl, hpart⟩ := Derives.declaration_cases hd
  cases hpart
  rw [List.append_assoc]
  refine Takes.bind (typed_takes ht) fun d hd => ?_
  exact Takes.terminal.bind fun _ _ => .pure (congrArg Part.decl hd)

end Decl

/-! ### Statements -/

theorem stmtsElseNearest_iff {ss : List Stmt} :
    stmtsElseNearest ss ↔ ∀ s ∈ ss, s.ElseNearest := by
  induction ss with
  | nil => simp [stmtsElseNearest]
  | cons s ss ih => simp [stmtsElseNearest, ih]

/-- The tokens do not carry on a statement, in which each `else` belongs to the
nearest conditional. -/
def Stmt.EndsAt (part : Part) (us : List Token) : Prop :=
  ∀ s, part = .stmt s → s.ElseNearest ∧ (s.EndsOpen → Stops [.kwElse] us)

/-- Statements end at what comes after them when it does not begin with `else`. -/
theorem Stmt.endsAt {s : Stmt} {us : List Token} (h : s.ElseNearest)
    (hstop : Stops [.kwElse] us) :
    Stmt.EndsAt (.stmt s) us := by
  rintro _ ⟨⟩
  exact ⟨h, fun _ => hstop⟩

/-- Before statements, and before what comes after them, there is no `else`. -/
theorem Grammar.Derives.stops_statements {ts us : List Token} {ps : List Part}
    (h : Derives (.many (.nonterminal .statement)) ts ps) {ws : List Terminal}
    (hws : ∀ w ∈ ws, ¬ Lexeme.OpensStmt (.fixed w)) (hstop : Stops ws us) :
    Stops ws (ts ++ us) := by
  rcases Derives.begins_many Derives.begins_statement h with rfl | hts
  · exact hstop
  · exact .of_begins (hts.append us) hws

variable {inner : Parser Stmt} {limit : Nat}

namespace Block

theorem statementsWithin_takes
    (h : Covers inner .statement (fun s => .stmt s.bare) Stmt.EndsAt limit)
    {ts us : List Token} {ps : List Part} (hd : Derives (.many (.nonterminal .statement)) ts ps)
    (hnearest : ∀ s, .stmt s ∈ ps → s.ElseNearest) (hlimit : ts.length ≤ limit)
    (hus : Begins (· = .fixed .rightBrace) us) (rounds : Nat) (hrounds : ts.length ≤ rounds) :
    Takes (statementsWithin rounds inner) (ts ++ us) us
      fun ss => (ss.map fun s => .stmt s.bare) = ps := by
  revert hnearest hlimit rounds
  refine Derives.many_induction hd ?_ ?_
  · intro _ _ rounds _
    cases rounds with
    | zero => exact .pure rfl
    | succ rounds =>
      unfold statementsWithin
      refine Takes.peek ?_
      cases us with
      | nil => exact hus.elim
      | cons t us =>
        have ht : t.lexeme = .fixed .rightBrace := hus
        rw [List.nil_append, List.head?_cons]
        simp only [ht, if_true]
        exact .pure rfl
  · intro vs vs' qs rs hd hd' ih hnearest hlimit rounds hrounds
    obtain ⟨s, rfl⟩ := Derives.statement_eq hd
    have hbegins := Derives.begins_statement hd
    have hpos := hbegins.length_pos
    rw [List.length_append] at hlimit hrounds
    obtain ⟨rounds, rfl⟩ : ∃ r, rounds = r + 1 := Nat.exists_eq_succ_of_ne_zero (by omega)
    have hends : Stmt.EndsAt (.stmt s) (vs' ++ us) :=
      Stmt.endsAt (hnearest s List.mem_cons_self)
        (hd'.stops_statements (by simp [Lexeme.OpensStmt]) (.of_begins hus (by simp)))
    have hread := h hd (by omega) hends
    have hrest := ih (fun s hs => hnearest s (List.mem_cons_of_mem _ hs)) (by omega)
      rounds (by omega)
    cases vs with
    | nil => exact hbegins.elim
    | cons t vs =>
      have ht : t.lexeme ≠ .fixed .rightBrace := by
        rintro ht
        have : t.lexeme.OpensStmt := hbegins
        rw [ht] at this
        exact this
      unfold statementsWithin
      refine Takes.peek ?_
      rw [List.cons_append, List.cons_append, List.head?_cons]
      simp only [ht, if_false]
      rw [List.append_assoc]
      refine Takes.bind hread ?_
      intro a ha
      refine Takes.bind hrest ?_
      rintro ss rfl
      exact .pure (congrArg (· :: _) ha)

theorem parserOf_takes
    (h : Covers inner .statement (fun s => .stmt s.bare) Stmt.EndsAt limit)
    {ts : List Token} {b : Block} (hd : Derives (.nonterminal .block) ts [.block b])
    (hnearest : stmtsElseNearest b.statements) (hlimit : ts.length ≤ limit + 1) (us : List Token) :
    Takes (parserOf inner) (ts ++ us) us fun a => a.bare = b := by
  obtain ⟨s, ds, ss, s', declarations, statements, hds, hss, rfl, rfl⟩ := Derives.block_iff.mp hd
  simp only [List.length_cons, List.length_append] at hlimit
  simp only [List.cons_append, List.append_assoc, List.nil_append]
  unfold parserOf
  refine Takes.terminal.bind fun _ _ => ?_
  have hno : Refuses Decl.parser (ss ++ ⟨.fixed .rightBrace, s'⟩ :: us) := by
    refine .of_reads Decl.parser_reads Derives.begins_declaration fun hbegins => ?_
    rcases Derives.begins_many Derives.begins_statement hss with rfl | hss
    · exact hbegins
    · exact hbegins.absurd (hss.append _) fun _ => Lexeme.OpensDecl.not_opensStmt
  refine Takes.bind ((Decl.parser_takes limit).many trivial Derives.begins_declaration hno hds
    (by omega)) fun ds' hds' => ?_
  refine Takes.remaining (Takes.bind (statementsWithin_takes h hss ?_ (by omega) ?_ _ ?_) ?_)
  · intro t ht
    obtain ⟨_, ht, ⟨⟩⟩ := List.mem_map.mp ht
    exact stmtsElseNearest_iff.mp hnearest t ht
  · exact rfl
  · simp
  · intro ss' hss'
    refine Takes.terminal.bind fun _ _ => .pure ?_
    have hds'' : ds'.map Decl.bare = declarations :=
      (List.map_inj_right fun _ _ => Part.decl.inj).mp (List.map_map.trans hds')
    have hss'' : ss'.map Stmt.bare = statements :=
      (List.map_inj_right fun _ _ => Part.stmt.inj).mp (List.map_map.trans hss')
    rw [Block.bare, bareStmts_eq, hds'', hss'']

end Block

namespace Stmt

/-- What comes after the condition of a conditional or a loop does not carry it on. -/
theorem stops_condition {ts us : List Token} {ps : List Part}
    (hd : Derives (.nonterminal .statement) ts ps) : Stops Expr.continuations (ts ++ us) :=
  .of_begins ((Derives.begins_statement hd).append us) (by
    simp [Expr.continuations, Lexeme.OpensStmt])

theorem condParser_takes
    (h : Covers inner .statement (fun s => .stmt s.bare) EndsAt limit)
    {ts us : List Token} {s : Stmt} (hd : Derives (.nonterminal .cond) ts [.stmt s])
    (hlimit : ts.length ≤ limit + 1) (hends : EndsAt (.stmt s) us) :
    Takes (condParser inner) (ts ++ us) us fun a => a.bare = s := by
  obtain ⟨hnearest, hopen⟩ := hends s rfl
  obtain ⟨w, cs, vs, c, t, hc, ht, ⟨rfl, rfl⟩ | ⟨w', vs', e, he, rfl, rfl⟩⟩ :=
    Derives.cond_iff.mp hd
  · -- without an `else`, there must be none after the conditional
    simp only [List.length_cons, List.length_append] at hlimit
    rw [List.cons_append, List.append_assoc]
    unfold condParser
    refine Takes.terminal.bind ?_
    rintro _ rfl
    refine Takes.bind (Expr.parser_takes hc (stops_condition ht)) ?_
    rintro c rfl
    refine Takes.bind (h ht (by omega) (endsAt hnearest (hopen trivial))) ?_
    intro t' ht'
    refine Takes.bind (.optional_none (.bind_left (.terminal (hopen trivial)))) ?_
    rintro _ rfl
    refine .pure ?_
    rw [Stmt.bare, Part.stmt.inj ht']
  · -- with an `else`, the branch before it must not end in a conditional without one
    simp only [List.length_cons, List.length_append] at hlimit
    obtain ⟨hclosed, hthen, helse⟩ := hnearest
    simp only [List.cons_append, List.append_assoc]
    unfold condParser
    refine Takes.terminal.bind ?_
    rintro _ rfl
    refine Takes.bind (Expr.parser_takes hc (stops_condition ht)) ?_
    rintro c rfl
    have hends : EndsAt (.stmt t) (⟨.fixed .kwElse, w'⟩ :: (vs' ++ us)) := by
      rintro _ ⟨⟩
      exact ⟨hthen, fun ho => (hclosed ho).elim⟩
    refine Takes.bind (h ht (by omega) hends) ?_
    intro t' ht'
    have hends' : EndsAt (.stmt e) us := by
      rintro _ ⟨⟩
      exact ⟨helse, hopen⟩
    refine Takes.bind (.optional_some (Takes.terminal.bind fun _ _ => h he (by omega) hends')) ?_
    rintro _ ⟨e', rfl, he'⟩
    refine .pure ?_
    rw [Stmt.bare, Part.stmt.inj ht', Part.stmt.inj he']

theorem loopParser_takes
    (h : Covers inner .statement (fun s => .stmt s.bare) EndsAt limit)
    {ts us : List Token} {s : Stmt} (hd : Derives (.nonterminal .loop) ts [.stmt s])
    (hlimit : ts.length ≤ limit + 1) (hends : EndsAt (.stmt s) us) :
    Takes (loopParser inner) (ts ++ us) us fun a => a.bare = s := by
  obtain ⟨w, cs, vs, c, t, hc, ht, rfl, rfl⟩ := Derives.loop_iff.mp hd
  simp only [List.length_cons, List.length_append] at hlimit
  rw [List.cons_append, List.append_assoc]
  unfold loopParser
  refine Takes.terminal.bind ?_
  rintro _ rfl
  refine Takes.bind (Expr.parser_takes hc (stops_condition ht)) ?_
  rintro c rfl
  have hends' : EndsAt (.stmt t) us := by
    rintro _ ⟨⟩
    exact hends (.loop c.bare t .empty) rfl
  refine Takes.bind (h ht (by omega) hends') ?_
  intro t' ht'
  refine .pure ?_
  rw [Stmt.bare, Part.stmt.inj ht']

theorem returnParser_takes {ts : List Token} {s : Stmt}
    (hd : Derives (.nonterminal .ret) ts [.stmt s]) (us : List Token) :
    Takes returnParser (ts ++ us) us fun a => a.bare = s := by
  obtain ⟨w, es, w', e, he, rfl, rfl⟩ := Derives.ret_cases hd
  simp only [List.cons_append, List.append_assoc, List.nil_append]
  unfold returnParser
  refine Takes.terminal.bind fun _ _ => ?_
  refine Takes.bind (Expr.parser_takes he (.fixed (by decide))) ?_
  rintro e rfl
  exact Takes.terminal.bind fun _ _ => .pure rfl

theorem assignParser_takes {ts : List Token} {s : Stmt}
    (hd : Derives (.nonterminal .assignment) ts [.stmt s]) (us : List Token) :
    Takes assignParser (ts ++ us) us fun a => a.bare = s := by
  obtain ⟨name, w, w', es, w'', e, he, rfl, rfl⟩ := Derives.assignment_cases hd
  simp only [List.cons_append, List.append_assoc, List.nil_append]
  unfold assignParser
  refine Ident.parser_takes.bind ?_
  rintro _ rfl
  refine Takes.terminal.bind fun _ _ => ?_
  refine Takes.bind (Expr.parser_takes he (.fixed (by decide))) ?_
  rintro e rfl
  exact Takes.terminal.bind fun _ _ => .pure rfl

/-- The first token selects the reader. -/
theorem parserOf_takes
    (h : Covers inner .statement (fun s => .stmt s.bare) EndsAt limit) :
    Covers (parserOf inner) .statement (fun s => .stmt s.bare) EndsAt (limit + 1) := by
  intro ts part us hd hlimit hends
  obtain ⟨s, rfl⟩ := Derives.part_statement hd
  refine Takes.imp (A := fun a => a.bare = s) ?_ fun a ha => congrArg Part.stmt ha
  refine Takes.peek ?_
  rcases Derives.statement_iff.mp hd with ⟨b, hb, rfl⟩ | hd | hd | hd | hd
  · have hblock := Block.parserOf_takes h hb (hends _ rfl).1 hlimit us
    obtain ⟨_, _, _, _, _, _, -, -, rfl, -⟩ := Derives.block_iff.mp hb
    refine hblock.map ?_
    rintro b rfl
    rfl
  · have hcond := condParser_takes h hd hlimit hends
    obtain ⟨_, _, _, _, _, -, -, ⟨rfl, -⟩ | ⟨_, _, _, -, rfl, -⟩⟩ := Derives.cond_iff.mp hd
    · exact hcond
    · exact hcond
  · have hloop := loopParser_takes h hd hlimit hends
    obtain ⟨_, _, _, _, _, -, -, rfl, -⟩ := Derives.loop_iff.mp hd
    exact hloop
  · have hret := returnParser_takes hd us
    obtain ⟨_, _, _, _, -, rfl, -⟩ := Derives.ret_cases hd
    exact hret
  · have hassign := assignParser_takes hd us
    obtain ⟨_, _, _, _, _, _, -, rfl, -⟩ := Derives.assignment_cases hd
    exact hassign

theorem parserWithin_takes (depth : Nat) :
    Covers (parserWithin depth) .statement (fun s => .stmt s.bare) EndsAt depth := by
  induction depth with
  | zero =>
    intro ts part us hd hlimit _
    have := (Derives.begins_statement hd).length_pos
    omega
  | succ depth ih => exact parserOf_takes ih

theorem parser_takes (limit : Nat) :
    Covers Stmt.parser .statement (fun s => .stmt s.bare) EndsAt limit := by
  intro ts part us hd _ hends
  refine Takes.remaining (parserWithin_takes _ hd ?_ hends)
  rw [List.length_append]
  omega

end Stmt

/-! ### Functions and entries -/

theorem FunDef.parser_takes {ts : List Token} {f : FunDef}
    (hd : Derives (.nonterminal .function) ts [.func f]) (hnearest : f.ElseNearest)
    (us : List Token) :
    Takes FunDef.parser (ts ++ us) us fun a => a.bare = f := by
  obtain ⟨w, name, s, w₁, vs, ps, w₂, bs, b, hps, hb, rfl, rfl⟩ := Derives.function_iff.mp hd
  simp only [List.cons_append, List.append_assoc]
  unfold FunDef.parser
  refine Takes.terminal.bind fun _ _ => ?_
  refine Takes.bind (.label Ident.parser_takes) ?_
  rintro _ rfl
  refine Takes.terminal.bind fun _ _ => ?_
  have hno : Refuses Decl.parameterParser (⟨.fixed .rightParen, w₂⟩ :: (bs ++ us)) :=
    .of_reads Decl.parameterParser_reads Derives.begins_param id
  refine Takes.bind ((Decl.parameterParser_takes vs.length).separated (fun _ => trivial) trivial
    (.fixed (by decide)) hno hps (Nat.le_refl _)) ?_
  rintro params rfl
  refine Takes.terminal.bind fun _ _ => ?_
  refine Takes.bind
    (Block.parserOf_takes (Stmt.parser_takes bs.length) hb hnearest (by omega) us) ?_
  rintro body rfl
  refine .pure ?_
  rw [Part.decls_commaList]
  rfl

namespace Item

/-- In the statements of an item, each `else` belongs to the nearest conditional. -/
def ElseNearest : Item → Prop
  | function f => f.ElseNearest
  | declaration _ => True
  | statement s => s.ElseNearest

theorem parser_takes {ts us : List Token} {i : Item}
    (hd : Derives (.nonterminal .item) ts [.item i])
    (hnearest : i.ElseNearest) (hstop : Stops [.kwElse] us) :
    Takes Item.parser (ts ++ us) us fun a => a.bare = i := by
  refine Takes.peek ?_
  rcases Derives.item_iff.mp hd with ⟨f, hf, rfl⟩ | ⟨d, hdecl, rfl⟩ | ⟨s, hs, rfl⟩
  · have hread : Takes (Item.function <$> FunDef.parser) (ts ++ us) us
        fun a => a.bare = .function f :=
      Takes.map (FunDef.parser_takes hf hnearest us) fun a ha => congrArg Item.function ha
    obtain ⟨_, _, _, _, _, _, _, _, _, -, -, rfl, -⟩ := Derives.function_iff.mp hf
    exact hread
  · have hread : Takes (Item.declaration <$> Decl.parser) (ts ++ us) us
        fun a => a.bare = .declaration d :=
      Takes.map (Decl.parser_takes ts.length hdecl (Nat.le_refl _) trivial)
        fun a ha => congrArg Item.declaration (Part.decl.inj ha)
    obtain ⟨_, _, _, _, _, ht, rfl, -⟩ := Derives.declaration_cases hdecl
    rcases Derives.type_cases ht with ⟨_, ⟨rfl, -⟩ | ⟨rfl, -⟩ | ⟨rfl, -⟩⟩
    all_goals exact hread
  · have hread : Takes (Item.statement <$> Stmt.parser) (ts ++ us) us
        fun a => a.bare = .statement s :=
      Takes.map (Stmt.parser_takes ts.length hs (Nat.le_refl _) (Stmt.endsAt hnearest hstop))
        fun a ha => congrArg Item.statement (Part.stmt.inj ha)
    have hbegins := Derives.begins_statement hs
    cases ts with
    | nil => exact hbegins.elim
    | cons t ts =>
      have ht : t.lexeme.OpensStmt := hbegins
      rw [List.cons_append] at hread ⊢
      rw [List.head?_cons, Option.map_some]
      generalize t.lexeme = l at ht ⊢
      unfold Lexeme.OpensStmt at ht
      split at ht
      · exact hread
      · exact hread
      · exact hread
      · exact hread
      · exact hread
      · exact ht.elim

theorem listWithin_takes {ts : List Token} (is : List Item)
    (hd : Derives (.many (.nonterminal .item)) ts (is.map .item))
    (hnearest : ∀ i ∈ is, i.ElseNearest)
    (rounds : Nat) (hrounds : ts.length ≤ rounds) :
    Takes (listWithin rounds) ts [] fun a => a.map Item.bare = is := by
  generalize hps : is.map Part.item = ps at hd
  revert is rounds
  refine Derives.many_induction hd ?_ ?_
  · intro is _ rounds _ hps
    rw [List.map_eq_nil_iff.mp hps]
    cases rounds with
    | zero => exact .pure rfl
    | succ rounds => exact Takes.peek (.pure rfl)
  · intro vs vs' qs rs hd hd' ih is hnearest rounds hrounds hps
    obtain ⟨i, rfl⟩ := Derives.item_eq hd
    obtain ⟨_, is, rfl, ⟨⟩, rfl⟩ := List.map_eq_cons_iff.mp hps
    have hbegins := Derives.begins_item hd
    have hpos := hbegins.length_pos
    rw [List.length_append] at hrounds
    obtain ⟨rounds, rfl⟩ : ∃ r, rounds = r + 1 := Nat.exists_eq_succ_of_ne_zero (by omega)
    have hstop : Stops [.kwElse] vs' := by
      rcases Derives.begins_many Derives.begins_item hd' with rfl | hvs
      · exact .nil
      · exact .of_begins hvs (by simp [Lexeme.OpensDecl, Lexeme.OpensStmt])
    have hread := parser_takes hd (hnearest i List.mem_cons_self) hstop
    cases vs with
    | nil => exact hbegins.elim
    | cons t vs =>
      unfold listWithin
      refine Takes.peek ?_
      rw [List.cons_append, List.head?_cons, ← List.cons_append]
      refine Takes.bind hread ?_
      rintro i rfl
      refine Takes.bind (ih is (fun i hi => hnearest i (List.mem_cons_of_mem _ hi)) rounds
        (by omega) rfl) ?_
      rintro is rfl
      exact .pure rfl

end Item

namespace Entry

/-- An expression up to the end is a bare expression. -/
theorem bareExpression_takes {ts : List Token} {e : Expr}
    (h : Takes (Parser.skip Expr.parser (Parser.optional (Parser.terminal .semicolon))) ts []
      fun a => a.bare = e) :
    Takes bareExpression ts [] fun o => ∃ a, o = some a ∧ a.bare = e := by
  intro furthest
  obtain ⟨a, furthest', hp, ha⟩ := h furthest
  exact ⟨some a, furthest', by simp [bareExpression, hp], a, rfl, ha⟩

/-- An expression with more after it is no bare expression. -/
theorem bareExpression_takes_of_rest {ts us : List Token} {t : Token}
    (h : Takes (Parser.skip Expr.parser (Parser.optional (Parser.terminal .semicolon))) ts (t :: us)
      fun _ => True) : Takes bareExpression ts ts fun o => o = none := by
  intro furthest
  obtain ⟨a, furthest', hp, -⟩ := h furthest
  exact ⟨none, furthest', by simp [bareExpression, hp], rfl⟩

theorem bareExpression_takes_of_refuses {ts : List Token} (h : Refuses Expr.parser ts) :
    Takes bareExpression ts ts fun o => o = none := by
  intro furthest
  obtain ⟨e, c, hp⟩ :=
    Refuses.bind_left (f := fun a => do
      let _ ← Parser.optional (Parser.terminal .semicolon)
      return a) h furthest
  exact ⟨none, c.furthest, by simp only [bareExpression, Parser.skip, hp], rfl⟩

/-- An expression with nothing after it, or with a semicolon, is an entry. -/
theorem parser_takes_expression {ts us : List Token} {e : Expr}
    (hd : Derives (.nonterminal .expression) us [.expr e])
    (hts : ts = us ∨ ∃ s, ts = us ++ [⟨.fixed .semicolon, s⟩]) :
    Takes Entry.parser ts [] fun a => a.bare = .expression e := by
  have hbare : Takes (Parser.skip Expr.parser (Parser.optional (Parser.terminal .semicolon))) ts []
      fun a => a.bare = e := by
    rcases hts with rfl | ⟨s, rfl⟩
    · rw [← List.append_nil ts]
      refine Takes.bind (Expr.parser_takes hd .nil) fun a ha => ?_
      exact Takes.bind (.optional_none (.terminal .nil)) fun _ _ => .pure ha
    · refine Takes.bind (Expr.parser_takes hd (.fixed (by decide))) fun a ha => ?_
      exact Takes.bind (.optional_some .terminal) fun _ _ => .pure ha
  refine Takes.bind (bareExpression_takes hbare) ?_
  rintro _ ⟨a, rfl, rfl⟩
  exact .pure rfl

/-- Items are no expression.  Only an assignment begins like one, and there an
expression would end before the sign. -/
theorem bareExpression_takes_items {ts : List Token} {ps : List Part}
    (hd : Derives (.many (.nonterminal .item)) ts ps) :
    Takes bareExpression ts ts fun o => o = none := by
  refine Derives.many_induction hd ?_ ?_
  · exact bareExpression_takes_of_refuses
      (.of_reads Expr.parser_reads Derives.begins_expression id)
  · intro vs vs' _ _ hd _ _
    rcases Derives.item_begins_or_assigns hd with hvs | ⟨name, s, s', us, rfl⟩
    · refine bareExpression_takes_of_refuses
        (.of_reads Expr.parser_reads Derives.begins_expression fun h => ?_)
      exact (hvs.append vs').absurd h fun _ => id
    · have hsign : Takes (Parser.skip Expr.parser (Parser.optional (Parser.terminal .semicolon)))
          (⟨.ident name, s⟩ :: ⟨.fixed .assign, s'⟩ :: (us ++ vs'))
          (⟨.fixed .assign, s'⟩ :: (us ++ vs')) fun _ => True := by
        refine Takes.bind (Expr.parser_takes (Derives.expression_ident name s)
          (.fixed (by decide))) fun _ _ => ?_
        exact Takes.bind (.optional_none (.terminal (.fixed (by decide)))) fun _ _ => .pure trivial
      exact bareExpression_takes_of_rest hsign

theorem parser_takes_items {ts : List Token} {is : List Item}
    (hd : Derives (.many (.nonterminal .item)) ts (is.map .item))
    (hnearest : ∀ i ∈ is, i.ElseNearest) :
    Takes Entry.parser ts [] fun a => a.bare = .ofItems is := by
  refine Takes.bind (bareExpression_takes_items hd) ?_
  rintro _ rfl
  refine Takes.remaining (Takes.bind (Item.listWithin_takes is hd hnearest _ (Nat.le_refl _)) ?_)
  rintro is rfl
  exact .pure (ofItems_bare is).symm

end Entry

end Implet
