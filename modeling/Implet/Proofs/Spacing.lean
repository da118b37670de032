/-
Implet/Proofs/Spacing.lean

Inside of parentheses, an operand does not directly follow another one.
`Spot.walk` goes along tokens, counts the parentheses that are open, and stops
where an operand begins right after one that is over.  It goes along all
entries: an expression begins where an operand can come and ends after one, at
the same depth, and everything else is outside of parentheses or a list of
parameters.

The walks are described by `Carries k P e Q`, read like a triple: from where `P`
holds, the walk goes along every phrase of `e` of at most `k` tokens, to where
`Q` holds.  There is one rule for each way of writing a right side.  Each
nesting takes a token, so that induction on `k` closes the knot.
-/
import Implet.Proofs.Following

namespace Implet

open Grammar

/-! ### Walking along tokens -/

namespace Lexeme

/-- The words that an operand begins with. -/
def opensOperand : Lexeme → Bool
  | integer _ | ident _ | fixed .kwTrue | fixed .kwFalse | fixed .leftParen => true
  | fixed _ => false

/-- The words that an operand ends with, apart from names, after which arguments
can come. -/
def closesOperand : Lexeme → Bool
  | integer _ | fixed .kwTrue | fixed .kwFalse | fixed .rightParen => true
  | ident _ | fixed _ => false

theorem OpensExpr.opensOperand {l : Lexeme} (h : l.OpensExpr) :
    l.opensOperand = true := by
  cases l with
  | integer | ident => rfl
  | fixed t => cases t <;> first | rfl | exact h.elim

end Lexeme

/-- The number of parentheses that are open, and the last word. -/
structure Spot where
  depth : Nat
  last : Option Lexeme

namespace Spot

/-- An operand that is no name is over. -/
def closed (st : Spot) : Bool := st.last.any Lexeme.closesOperand

/-- The word would begin an operand directly after another one, inside of
parentheses. -/
def blocks (st : Spot) (l : Lexeme) : Bool := st.depth != 0 && st.closed && l.opensOperand

/-- The depth after a word. -/
def shift (depth : Nat) : Lexeme → Nat
  | .fixed .leftParen => depth + 1
  | .fixed .rightParen => depth - 1
  | _ => depth

/-- One token further. -/
def next (st : Spot) (t : Token) : Option Spot :=
  if st.blocks t.lexeme then none else some ⟨shift st.depth t.lexeme, some t.lexeme⟩

/-- Along all tokens. -/
def walk (st : Spot) (ts : List Token) : Option Spot := ts.foldlM next st

/-- At some depth. -/
def Inside (d : Nat) (st : Spot) : Prop := st.depth = d

/-- Where an operand can come. -/
def Ready (d : Nat) (st : Spot) : Prop := st.depth = d ∧ st.closed = false

/-- After an operand. -/
def Done (d : Nat) (st : Spot) : Prop :=
  st.depth = d ∧ ∃ l ∈ st.last, l.closesOperand ∨ ∃ name, l = .ident name

theorem Ready.inside {d : Nat} {st : Spot} (h : st.Ready d) : st.Inside d := h.1

theorem Done.inside {d : Nat} {st : Spot} (h : st.Done d) : st.Inside d := h.1

theorem Done.closed {d : Nat} {st : Spot} (h : st.Done d)
    (hname : ∀ name, st.last ≠ some (.ident name)) : st.closed = true := by
  obtain ⟨-, l, hl, hcloses | ⟨name, rfl⟩⟩ := h
  · rw [Spot.closed, hl, Option.any_some, hcloses]
  · exact absurd hl (hname name)

theorem Ready.blocks {d : Nat} {st : Spot} (h : st.Ready d) (l : Lexeme) :
    st.blocks l = false := by
  simp [Spot.blocks, h.2]

/-- Outside of parentheses, operands can follow one another. -/
theorem Inside.blocks {st : Spot} (h : st.Inside 0) (l : Lexeme) :
    st.blocks l = false := by
  have h : st.depth = 0 := h
  simp [Spot.blocks, h]

theorem blocks_of_opensOperand {l : Lexeme} (h : l.opensOperand = false) (st : Spot) :
    st.blocks l = false := by simp [blocks, h]

theorem walk_append {st st' : Spot} {ts us : List Token} :
    st.walk (ts ++ us) = some st' ↔ ∃ st₁, st.walk ts = some st₁ ∧ st₁.walk us = some st' := by
  rw [walk, List.foldlM_append]
  exact Option.bind_eq_some_iff

theorem walk_singleton (st : Spot) (t : Token) : st.walk [t] = st.next t := by
  simp [walk]

theorem walk_word {st : Spot} {t : Token} (h : st.blocks t.lexeme = false) :
    st.walk [t] = some ⟨shift st.depth t.lexeme, some t.lexeme⟩ := by
  rw [walk_singleton, next, h]
  rfl

theorem of_walk_word {st st' : Spot} {t : Token} (h : st.walk [t] = some st') :
    st.blocks t.lexeme = false ∧ st' = ⟨shift st.depth t.lexeme, some t.lexeme⟩ := by
  rw [walk_singleton, next] at h
  split at h
  · cases h
  · next hblocks =>
    cases h
    exact ⟨by simpa using hblocks, rfl⟩

/-- The last word is that of the last token. -/
theorem last_of_walk {st st' : Spot} {ts : List Token} {t : Token}
    (h : st.walk ts = some st')
    (ht : ts.getLast? = some t) : st'.last = some t.lexeme := by
  obtain ⟨us, rfl⟩ := List.getLast?_eq_some_iff.mp ht
  obtain ⟨st₁, -, h⟩ := walk_append.mp h
  rw [(of_walk_word h).2]

end Spot

open Spot

/-! ### Walking along phrases -/

/-- Where `P` holds, the walk goes along all phrases of `e` of at most `k`
tokens, to where `Q` holds. -/
def Carries (k : Nat) (P : Spot → Prop) (e : Ebnf) (Q : Spot → Prop) : Prop :=
  ∀ ⦃ts⦄, ts.length ≤ k → Yields e ts → ∀ ⦃st⦄, P st → ∃ st', st.walk ts = some st' ∧ Q st'

namespace Carries

variable {k j d : Nat} {P P' Q Q' R : Spot → Prop} {e : Ebnf} {es : List Ebnf} {n : Nonterminal}

theorem mono (h : Carries k P e Q) (hP : ∀ ⦃st⦄, P' st → P st)
    (hQ : ∀ ⦃st⦄, Q st → Q' st) :
    Carries k P' e Q' := fun _ hts hy _ hst =>
  (h hts hy (hP hst)).imp fun _ h => ⟨h.1, hQ h.2⟩

theorem rule (h : Carries k P n.rule Q) : Carries k P (.nonterminal n) Q := by
  rintro ts hts ⟨ps, hd⟩
  obtain ⟨qs, hd, -⟩ := Derives.nonterminal_iff.mp hd
  exact h hts ⟨qs, hd⟩

theorem seq_nil : Carries k P (.seq []) P := by
  rintro ts - ⟨ps, hd⟩ st hst
  obtain ⟨rfl, -⟩ := Derives.seq_nil_iff.mp hd
  exact ⟨st, rfl, hst⟩

/-- One part after another, where the second one has the tokens that the first
one leaves. -/
theorem seq (h : Carries k P e Q) (h' : Carries j Q (.seq es) R)
    (hk : ∀ ⦃us⦄, Yields e us → k ≤ j + us.length) : Carries k P (.seq (e :: es)) R := by
  rintro ts hts ⟨ps, hd⟩ st hst
  obtain ⟨us, vs, _, _, rfl, -, hu, hv⟩ := Derives.seq_cons_iff.mp hd
  rw [List.length_append] at hts
  have hlen := hk ⟨_, hu⟩
  obtain ⟨st₁, hst₁, hQ⟩ := h (by omega) ⟨_, hu⟩ hst
  obtain ⟨st', hst', hR⟩ := h' (by omega) ⟨_, hv⟩ hQ
  exact ⟨st', walk_append.mpr ⟨st₁, hst₁, hst'⟩, hR⟩

theorem seq_cons (h : Carries k P e Q) (h' : Carries k Q (.seq es) R) :
    Carries k P (.seq (e :: es)) R := h.seq h' fun _ _ => Nat.le_add_right k _

/-- A sequence that begins with a terminal, which takes a token. -/
theorem seq_terminal {t : Terminal} (h : Carries k P (.terminal t) Q)
    (h' : Carries (k - 1) Q (.seq es) R) : Carries k P (.seq (.terminal t :: es)) R :=
  h.seq h' fun _ hus => by
    have := Parser.length_of_yields_terminal hus
    omega

/-- The last part of a sequence. -/
theorem seq_last (h : Carries k P e Q) : Carries k P (.seq [e]) Q := h.seq_cons .seq_nil

theorem alt (h : ∀ e ∈ es, Carries k P e Q) : Carries k P (.alt es) Q := by
  rintro ts hts ⟨ps, hd⟩
  obtain ⟨e, he, hd⟩ := Derives.alt_iff.mp hd
  exact h e he hts ⟨ps, hd⟩

theorem opt (h : Carries k P e Q) (hPQ : ∀ ⦃st⦄, P st → Q st) :
    Carries k P (.opt e) Q := by
  rintro ts hts ⟨ps, hd⟩ st hst
  rcases Derives.opt_iff.mp hd with ⟨rfl, -⟩ | hd
  · exact ⟨st, rfl, hPQ hst⟩
  · exact h hts ⟨ps, hd⟩ hst

theorem many (h : Carries k P e P) : Carries k P (.many e) P := by
  rintro ts hts ⟨ps, hd⟩ st hst
  revert hts st
  refine Derives.many_induction hd (fun _ st hst => ⟨st, rfl, hst⟩) fun hu hv ih hts st hst => ?_
  rw [List.length_append] at hts
  obtain ⟨st₁, hst₁, hP⟩ := h (by omega) ⟨_, hu⟩ hst
  obtain ⟨st', hst', hP'⟩ := ih (by omega) hP
  exact ⟨st', walk_append.mpr ⟨st₁, hst₁, hst'⟩, hP'⟩

theorem commaList (h : Carries k P e Q) (hcomma : Carries k Q (.terminal .comma) P)
    (hP : ∀ ⦃st⦄, P st → R st) (hQ : ∀ ⦃st⦄, Q st → R st) : Carries k P (.commaList e) R :=
  .opt (h.seq_cons (.seq_last (mono (.many (hcomma.seq_cons h.seq_last)) (fun _ => id) hQ))) hP

/-! ### Words -/

theorem terminal {t : Terminal} (h : ∀ ⦃st⦄, P st →
    st.blocks (.fixed t) = false ∧ Q ⟨shift st.depth (.fixed t), some (.fixed t)⟩) :
    Carries k P (.terminal t) Q := by
  rintro ts - ⟨ps, hd⟩ st hst
  obtain ⟨s, rfl, -⟩ := Derives.terminal_iff.mp hd
  obtain ⟨hblocks, hQ⟩ := h hst
  exact ⟨_, walk_word hblocks, hQ⟩

theorem ident (h : ∀ ⦃st⦄ name, P st →
    st.blocks (.ident name) = false ∧ Q ⟨st.depth, some (.ident name)⟩) : Carries k P .ident Q := by
  rintro ts - ⟨ps, hd⟩ st hst
  obtain ⟨name, s, rfl, -⟩ := Derives.ident_iff.mp hd
  obtain ⟨hblocks, hQ⟩ := h name hst
  exact ⟨_, walk_word hblocks, hQ⟩

theorem integer : Carries k (Ready d) .integer (Done d) := by
  rintro ts - ⟨ps, hd⟩ st hst
  obtain ⟨digits, s, rfl, -⟩ := Derives.integer_iff.mp hd
  exact ⟨_, walk_word (hst.blocks _), hst.1, _, rfl, .inl rfl⟩

/-- A word that belongs to no operand. -/
theorem separator {t : Terminal} (hopens : (Lexeme.fixed t).opensOperand = false)
    (hcloses : (Lexeme.fixed t).closesOperand = false) :
    Carries k (Inside d) (.terminal t) (Ready d) := by
  refine .terminal fun st hst => ⟨blocks_of_opensOperand hopens st, ?_, hcloses⟩
  rw [← hst]
  cases t <;> first | rfl | exact absurd hopens (by decide) | exact absurd hcloses (by decide)

theorem truth {t : Terminal} (ht : t = .kwTrue ∨ t = .kwFalse) :
    Carries k (Ready d) (.terminal t) (Done d) := by
  refine .terminal fun st hst => ⟨hst.blocks _, ?_⟩
  rcases ht with rfl | rfl <;> exact ⟨hst.1, _, rfl, .inl rfl⟩

theorem opening : Carries k (Ready d) (.terminal .leftParen) (Ready (d + 1)) :=
  .terminal fun _ hst => ⟨hst.blocks _, congrArg (· + 1) hst.1, rfl⟩

theorem closing : Carries k (Inside (d + 1)) (.terminal .rightParen) (Done d) :=
  .terminal fun st hst => ⟨blocks_of_opensOperand rfl st, congrArg (· - 1) hst, _, rfl, .inl rfl⟩

/-- A name before its arguments. -/
theorem named : Carries k (Ready d) .ident (Ready d) :=
  .ident fun _ _ hst => ⟨hst.blocks _, hst.1, rfl⟩

/-- A name outside of parentheses. -/
theorem outside : Carries k (Inside 0) .ident (Ready 0) :=
  .ident fun _ _ hst => ⟨hst.blocks _, hst, rfl⟩

/-! ### Expressions -/

theorem primary (h : ∀ d, Carries (k - 1) (Ready d) (.nonterminal .expression) (Done d))
    (d : Nat) :
    Carries k (Ready d) (.nonterminal .primary) (Done d) := by
  have hargs : Carries (k - 1) (Ready (d + 1)) (.commaList (.nonterminal .expression))
      (Inside (d + 1)) :=
    (h (d + 1)).commaList ((separator rfl rfl).mono (fun _ => Done.inside) fun _ => id)
      (fun _ => Ready.inside) fun _ => Done.inside
  have hcall : Carries k (Ready d) (.nonterminal .call) (Done d) :=
    .rule (named.seq_cons (opening.seq_terminal (hargs.seq_cons closing.seq_last)))
  have hparen : Carries k (Ready d)
      (.seq [.terminal .leftParen, .nonterminal .expression, .terminal .rightParen]) (Done d) :=
    opening.seq_terminal (((h (d + 1)).mono (fun _ => id) fun _ => Done.inside).seq_cons
      closing.seq_last)
  have hident : Carries k (Ready d) .ident (Done d) :=
    .ident fun _ name hst => ⟨hst.blocks _, hst.1, _, rfl, .inr ⟨name, rfl⟩⟩
  refine .rule (.alt fun e he => ?_)
  simp only [List.mem_cons, List.not_mem_nil, or_false] at he
  rcases he with rfl | rfl | rfl | rfl | rfl | rfl
  · exact integer
  · exact truth (.inl rfl)
  · exact truth (.inr rfl)
  · exact hcall
  · exact hident
  · exact hparen

/-- Operators stand between operands. -/
theorem operated {n m : Nonterminal} (ops : List BinOp)
    (hn : n.rule = .operated m (ops.map BinOp.terminal))
    (h : Carries k (Ready d) (.nonterminal m) (Done d)) :
    Carries k (Ready d) (.nonterminal n) (Done d) := by
  have hop : Carries k (Done d) (.alt ((ops.map BinOp.terminal).map .terminal)) (Ready d) := by
    refine .alt fun e he => ?_
    obtain ⟨_, ht, rfl⟩ := List.mem_map.mp he
    obtain ⟨op, -, rfl⟩ := List.mem_map.mp ht
    exact mono (by cases op <;> exact separator rfl rfl) (fun _ => Done.inside) fun _ => id
  refine .rule ?_
  rw [hn, Ebnf.operated]
  exact h.seq_cons (.seq_last (.many (hop.seq_cons h.seq_last)))

theorem expression (k d : Nat) :
    Carries k (Ready d) (.nonterminal .expression) (Done d) := by
  induction k generalizing d with
  | zero =>
    -- there is no expression without tokens
    rintro ts hts ⟨ps, hd⟩
    have := (Derives.begins_expression hd).length_pos
    omega
  | succ k ih =>
    have term := operated (n := .term) [.mul, .div] rfl (primary (k := k + 1) ih d)
    have additive := operated (n := .additive) [.add, .sub] rfl term
    have comparison := operated (n := .comparison) [.lt, .gt] rfl additive
    have equality := operated (n := .equality) [.eq] rfl comparison
    have and := operated (n := .and) [.and] rfl equality
    exact .rule (operated (n := .or) [.or] rfl and)

/-! ### Everything else -/

/-- A word that belongs to no operand, whatever comes after it. -/
theorem mark {t : Terminal} (hopens : (Lexeme.fixed t).opensOperand = false)
    (hcloses : (Lexeme.fixed t).closesOperand = false) :
    Carries k (Inside d) (.terminal t) (Inside d) :=
  (separator hopens hcloses).mono (fun _ => id) fun _ => Ready.inside

theorem type : Carries k (Inside d) (.nonterminal .type) (Ready d) := by
  refine .rule (.alt fun e he => ?_)
  simp only [List.mem_cons, List.not_mem_nil, or_false] at he
  rcases he with rfl | rfl | rfl <;> exact separator rfl rfl

theorem declaration : Carries k (Inside 0) (.nonterminal .declaration) (Inside 0) :=
  .rule (type.seq_cons (named.seq_cons (seq_last ((mark rfl rfl).mono (fun _ => Ready.inside)
    fun _ => id))))

/-- An expression between words that belong to no operand. -/
theorem expression_then {t : Terminal} (hopens : (Lexeme.fixed t).opensOperand = false)
    (hcloses : (Lexeme.fixed t).closesOperand = false) :
    Carries k (Ready 0) (.seq [.nonterminal .expression, .terminal t]) (Inside 0) :=
  (expression k 0).seq_cons (seq_last ((mark hopens hcloses).mono (fun _ => Done.inside)
    fun _ => id))

theorem block (h : Carries (k - 1) (Inside 0) (.nonterminal .statement) (Inside 0)) :
    Carries k (Inside 0) (.nonterminal .block) (Inside 0) :=
  .rule ((mark rfl rfl).seq_terminal (declaration.many.seq_cons (h.many.seq_cons
    (mark rfl rfl).seq_last)))

theorem statement_of
    (h : Carries (k - 1) (Inside 0) (.nonterminal .statement) (Inside 0)) :
    Carries k (Inside 0) (.nonterminal .statement) (Inside 0) := by
  have helse : Carries (k - 1) (Inside 0)
      (.opt (.seq [.terminal .kwElse, .nonterminal .statement])) (Inside 0) :=
    .opt ((mark rfl rfl).seq_cons h.seq_last) fun _ => id
  have hcondition : Carries (k - 1) (Ready 0) (.nonterminal .expression) (Inside 0) :=
    (expression (k - 1) 0).mono (fun _ => id) fun _ => Done.inside
  refine .rule (.alt fun e he => ?_)
  simp only [List.mem_cons, List.not_mem_nil, or_false] at he
  rcases he with rfl | rfl | rfl | rfl | rfl
  · exact block h
  · exact .rule ((separator rfl rfl).seq_terminal (hcondition.seq_cons (h.seq_cons helse.seq_last)))
  · exact .rule ((separator rfl rfl).seq_terminal (hcondition.seq_cons h.seq_last))
  · exact .rule ((separator rfl rfl).seq_terminal (expression_then rfl rfl))
  · exact .rule (outside.seq_cons (((separator rfl rfl).mono (fun _ => Ready.inside)
      fun _ => id).seq_terminal (expression_then rfl rfl)))

theorem statement (k : Nat) :
    Carries k (Inside 0) (.nonterminal .statement) (Inside 0) := by
  induction k with
  | zero =>
    rintro ts hts ⟨ps, hd⟩
    have := (Derives.begins_statement hd).length_pos
    omega
  | succ k ih => exact statement_of (k := k + 1) ih

/-- Parameters are types and names. -/
theorem function : Carries k (Inside 0) (.nonterminal .function) (Inside 0) := by
  have hparam : Carries k (Inside 1) (.nonterminal .param) (Inside 1) :=
    .rule (type.seq_cons (seq_last (named.mono (fun _ => id) fun _ => Ready.inside)))
  have hparams : Carries k (Ready 1) (.commaList (.nonterminal .param)) (Inside 1) :=
    (hparam.commaList (mark rfl rfl) (fun _ => id) fun _ => id).mono (fun _ => Ready.inside)
      fun _ => id
  have hbody : Carries k (Done 0) (.nonterminal .block) (Inside 0) :=
    (block (statement _)).mono (fun _ => Done.inside) fun _ => id
  exact .rule ((separator rfl rfl).seq_cons (named.seq_cons (opening.seq_cons (hparams.seq_cons
    (closing.seq_cons hbody.seq_last)))))

theorem unit : Carries k (Ready 0) (.nonterminal .unit) fun _ => True := by
  have hitem : Carries k (Inside 0) (.nonterminal .item) (Inside 0) := by
    refine .rule (.alt fun e he => ?_)
    simp only [List.mem_cons, List.not_mem_nil, or_false] at he
    rcases he with rfl | rfl | rfl
    · exact function
    · exact declaration
    · exact statement k
  have hsemicolon : Carries k (Done 0) (.opt (.terminal .semicolon)) (Inside 0) :=
    .opt ((mark rfl rfl).mono (fun _ => Done.inside) fun _ => id) fun _ => Done.inside
  refine .rule (.alt fun e he => ?_)
  simp only [List.mem_cons, List.not_mem_nil, or_false] at he
  rcases he with rfl | rfl
  · exact mono ((expression k 0).seq_cons hsemicolon.seq_last) (fun _ => id) fun _ _ => trivial
  · exact mono hitem.many (fun _ => Ready.inside) fun _ _ => trivial

end Carries

end Implet
