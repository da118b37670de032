/-
Implet/Proofs/Parsing.lean

The reader of entries accepts its grammar, and nothing else.  Tokens are read as
an entry exactly when they derive from `unit` and their literals fit
(`Entry.ofTokens_exact`), and of the entries that they can stand for the one
that is read is the one in which each `else` belongs to the nearest conditional.

There always is one: where a derivation gives an `else` to a conditional further
out, it can be given to an open one further in (`Stmt.attachElse`), and the
tokens stay the same.  So nothing is lost by reading `else` greedily, and that
the entry that is read has this form follows from completeness: the tokens have
a derivation of this form, and a reader yields one entry.
-/
import Implet.Proofs.ReadingComplete

namespace Implet

open Grammar

namespace Stmt

/-! ### Giving each `else` to the nearest conditional -/

/-- An `else` after a statement that ends in an open conditional can go to a
conditional in it. -/
theorem attachElse {ts us : List Token} {s e : Stmt} {w : Span}
    (hd : Derives (.nonterminal .statement) ts [.stmt s]) (hs : s.ElseNearest) (hopen : s.EndsOpen)
    (he : Derives (.nonterminal .statement) us [.stmt e]) (hnearest : e.ElseNearest) :
    ∃ s', Derives (.nonterminal .statement) (ts ++ ⟨.fixed .kwElse, w⟩ :: us) [.stmt s'] ∧
      s'.ElseNearest := by
  induction hlen : ts.length using Nat.strongRecOn generalizing ts s with
  | _ len ih =>
    subst hlen
    rcases Derives.statement_iff.mp hd with ⟨b, -, rfl⟩ | hd | hd | hd | hd
    · exact hopen.elim
    · obtain ⟨w', cs, vs, c, t, hc, ht, ⟨rfl, rfl⟩ | ⟨w'', vs', t', ht', rfl, rfl⟩⟩ :=
        Derives.cond_iff.mp hd
      · rw [List.cons_append, List.append_assoc]
        by_cases hinner : t.EndsOpen
        · obtain ⟨t', ht', hnearest'⟩ :=
            ih _ (by simp only [List.length_cons, List.length_append]; omega) ht hs hinner rfl
          exact ⟨_, .cond hc ht' w', hnearest'⟩
        · exact ⟨_, .condElse hc ht he w' w, hinner, hs, hnearest⟩
      · obtain ⟨hclosed, hthen, helse⟩ := hs
        obtain ⟨e', he', hnearest'⟩ :=
          ih _ (by simp only [List.length_cons, List.length_append]; omega) ht' helse hopen rfl
        simp only [List.cons_append, List.append_assoc]
        exact ⟨_, .condElse hc ht he' w' w'', hclosed, hthen, hnearest'⟩
    · obtain ⟨w', cs, vs, c, t, hc, ht, rfl, rfl⟩ := Derives.loop_iff.mp hd
      obtain ⟨t', ht', hnearest'⟩ :=
        ih _ (by simp only [List.length_cons, List.length_append]; omega) ht hs hopen rfl
      rw [List.cons_append, List.append_assoc]
      exact ⟨_, .loop hc ht' w', hnearest'⟩
    · obtain ⟨_, _, _, _, -, -, rfl⟩ := Derives.ret_cases hd
      exact hopen.elim
    · obtain ⟨_, _, _, _, _, _, -, -, rfl⟩ := Derives.assignment_cases hd
      exact hopen.elim

end Stmt

/-- If statements of at most `limit` tokens can be read with each `else` at the
nearest conditional, so can sequences of them. -/
theorem nearest_statements {limit : Nat}
    (h : ∀ {ts s}, ts.length ≤ limit → Derives (.nonterminal .statement) ts [.stmt s] →
      ∃ s', Derives (.nonterminal .statement) ts [.stmt s'] ∧ s'.ElseNearest)
    {ts : List Token} {ps : List Part} (hd : Derives (.many (.nonterminal .statement)) ts ps)
    (hlimit : ts.length ≤ limit) :
    ∃ ss : List Stmt, Derives (.many (.nonterminal .statement)) ts (ss.map .stmt) ∧
      stmtsElseNearest ss := by
  revert hlimit
  refine Derives.many_induction hd ?_ ?_
  · exact fun _ => ⟨[], .many_nil, trivial⟩
  · intro us vs _ _ hd _ ih hlimit
    rw [List.length_append] at hlimit
    obtain ⟨s, rfl⟩ := Derives.statement_eq hd
    obtain ⟨s', hs, hnearest⟩ := h (by omega) hd
    obtain ⟨ss, hss, hnearest'⟩ := ih (by omega)
    exact ⟨s' :: ss, hs.many_cons hss, hnearest, hnearest'⟩

theorem nearest_block {limit : Nat}
    (h : ∀ {ts s}, ts.length ≤ limit → Derives (.nonterminal .statement) ts [.stmt s] →
      ∃ s', Derives (.nonterminal .statement) ts [.stmt s'] ∧ s'.ElseNearest)
    {ts : List Token} {b : Block} (hd : Derives (.nonterminal .block) ts [.block b])
    (hlimit : ts.length ≤ limit + 1) :
    ∃ b', Derives (.nonterminal .block) ts [.block b'] ∧ stmtsElseNearest b'.statements := by
  obtain ⟨w, ds, ss, w', declarations, statements, hds, hss, rfl, rfl⟩ := Derives.block_iff.mp hd
  simp only [List.length_cons, List.length_append] at hlimit
  obtain ⟨statements', hss', hnearest⟩ := nearest_statements h hss (by omega)
  exact ⟨_, Derives.block_iff.mpr ⟨w, ds, ss, w', declarations, statements', hds, hss', rfl, rfl⟩,
    hnearest⟩

theorem nearest_statement (limit : Nat) {ts : List Token} {s : Stmt}
    (hlimit : ts.length ≤ limit) (hd : Derives (.nonterminal .statement) ts [.stmt s]) :
    ∃ s', Derives (.nonterminal .statement) ts [.stmt s'] ∧ s'.ElseNearest := by
  induction limit generalizing ts s with
  | zero =>
    have := (Derives.begins_statement hd).length_pos
    omega
  | succ limit ih =>
    rcases Derives.statement_iff.mp hd with ⟨b, hb, rfl⟩ | hif | hl | hr | ha
    · obtain ⟨b', hb', hnearest⟩ := nearest_block ih hb hlimit
      exact ⟨_, Derives.statement_iff.mpr (.inl ⟨b', hb', rfl⟩), hnearest⟩
    · obtain ⟨w, cs, us, c, t, hc, ht, ⟨rfl, rfl⟩ | ⟨w', vs, e, he, rfl, rfl⟩⟩ :=
        Derives.cond_iff.mp hif
      · simp only [List.length_cons, List.length_append] at hlimit
        obtain ⟨t', ht', hnearest⟩ := ih (by omega) ht
        exact ⟨_, .cond hc ht' w, hnearest⟩
      · simp only [List.length_cons, List.length_append] at hlimit
        obtain ⟨t', ht', hthen⟩ := ih (by omega) ht
        obtain ⟨e', he', helse⟩ := ih (by omega) he
        by_cases hopen : t'.EndsOpen
        · obtain ⟨s', hs', hnearest⟩ := t'.attachElse ht' hthen hopen he' helse (w := w')
          exact ⟨_, .cond hc hs' w, hnearest⟩
        · exact ⟨_, .condElse hc ht' he' w w', hopen, hthen, helse⟩
    · obtain ⟨w, cs, us, c, t, hc, ht, rfl, rfl⟩ := Derives.loop_iff.mp hl
      simp only [List.length_cons, List.length_append] at hlimit
      obtain ⟨t', ht', hnearest⟩ := ih (by omega) ht
      exact ⟨_, .loop hc ht' w, hnearest⟩
    · obtain ⟨_, _, _, _, -, -, rfl⟩ := Derives.ret_cases hr
      exact ⟨_, hd, trivial⟩
    · obtain ⟨_, _, _, _, _, _, -, -, rfl⟩ := Derives.assignment_cases ha
      exact ⟨_, hd, trivial⟩

theorem nearest_item {ts : List Token} {i : Item}
    (hd : Derives (.nonterminal .item) ts [.item i]) :
    ∃ i', Derives (.nonterminal .item) ts [.item i'] ∧ i'.ElseNearest := by
  rcases Derives.item_iff.mp hd with ⟨f, hf, rfl⟩ | ⟨d, hd', rfl⟩ | ⟨s, hs, rfl⟩
  · obtain ⟨w, name, s, w₁, us, qs, w₂, vs, b, hqs, hb, rfl, rfl⟩ := Derives.function_iff.mp hf
    obtain ⟨b', hb', hnearest⟩ :=
      nearest_block (nearest_statement vs.length) hb (by omega)
    exact ⟨_, Derives.item_iff.mpr (.inl ⟨_, Derives.function_iff.mpr
      ⟨w, name, s, w₁, us, qs, w₂, vs, b', hqs, hb', rfl, rfl⟩, rfl⟩), hnearest⟩
  · exact ⟨_, hd, trivial⟩
  · obtain ⟨s', hs', hnearest⟩ := nearest_statement ts.length (Nat.le_refl _) hs
    exact ⟨_, Derives.item_iff.mpr (.inr (.inr ⟨s', hs', rfl⟩)), hnearest⟩

theorem nearest_items {ts : List Token} {ps : List Part}
    (hd : Derives (.many (.nonterminal .item)) ts ps) :
    ∃ is : List Item, Derives (.many (.nonterminal .item)) ts (is.map .item) ∧
      ∀ i ∈ is, i.ElseNearest := by
  refine Derives.many_induction hd ?_ ?_
  · exact ⟨[], .many_nil, by simp⟩
  · rintro us vs _ _ hd - ⟨is, his, hnearest⟩
    obtain ⟨i, rfl⟩ := Derives.item_eq hd
    obtain ⟨i', hi', hnearest'⟩ := nearest_item hd
    exact ⟨i' :: is, hi'.many_cons his, List.forall_mem_cons.mpr ⟨hnearest', hnearest⟩⟩

/-! ### Entries -/

namespace Entry

theorem ofItems_elseNearest {is : List Item} :
    (ofItems is).ElseNearest ↔ ∀ i ∈ is, i.ElseNearest := by
  match is with
  | [] => simp [ofItems, ElseNearest, stmtsElseNearest]
  | [.function f] | [.declaration d] | [.statement s] =>
    simp [ofItems, ElseNearest, Item.ElseNearest]
  | i :: j :: is =>
    rw [ofItems_cons_cons, ElseNearest, stmtsElseNearest_iff]
    simp only [Item.mem_functions, Item.mem_statements]
    constructor
    · rintro ⟨hf, hs⟩ k hk
      cases k with
      | function f => exact hf f hk
      | declaration d => trivial
      | statement s => exact hs s hk
    · exact fun h => ⟨fun f => h (.function f), fun s => h (.statement s)⟩

/-- Whatever derives as an entry does so with each `else` at the nearest conditional. -/
theorem exists_nearest {ts : List Token} {v : Entry}
    (hd : Derives (.nonterminal .unit) ts [.entry v]) :
    ∃ v', Derives (.nonterminal .unit) ts [.entry v'] ∧ v'.ElseNearest := by
  rcases Derives.unit_iff.mp hd with ⟨us, e, -, -, rfl⟩ | ⟨is, his, rfl⟩
  · exact ⟨_, hd, trivial⟩
  · obtain ⟨is', his', hnearest⟩ := nearest_items his
    exact ⟨_, Derives.unit_iff.mpr (.inr ⟨is', his', rfl⟩), ofItems_elseNearest.mpr hnearest⟩

/-- What derives with each `else` at the nearest conditional is read. -/
theorem parser_takes {ts : List Token} {v : Entry}
    (hd : Derives (.nonterminal .unit) ts [.entry v])
    (hnearest : v.ElseNearest) : Parser.Takes parser ts [] fun u => u.bare = v := by
  rcases Derives.unit_iff.mp hd with ⟨us, e, he, hts, rfl⟩ | ⟨is, his, rfl⟩
  · exact parser_takes_expression he hts
  · exact parser_takes_items his (ofItems_elseNearest.mp hnearest)

theorem ofTokens_ok_iff {ts : List Token} {u : Entry} :
    ofTokens ts = .ok u ↔ ∃ c, parser (.ofTokens ts) = (.ok u, c) := by
  unfold ofTokens
  rcases parser (.ofTokens ts) with ⟨e | u', c⟩
  · rcases hc : c.furthest with _ | ⟨_, e'⟩ <;> simp [hc]
  · simp

/-- What is read is what derives with each `else` at the nearest conditional. -/
theorem ofTokens_iff_derives {ts : List Token} {v : Entry} :
    (∃ u, ofTokens ts = .ok u ∧ u.bare = v) ↔
      Derives (.nonterminal .unit) ts [.entry v] ∧ v.ElseNearest := by
  constructor
  · rintro ⟨u, hu, rfl⟩
    obtain ⟨c, hc⟩ := ofTokens_ok_iff.mp hu
    have hd := derives_of_parser_ok hc
    obtain ⟨v', hd', hnearest⟩ := exists_nearest hd
    -- the reader yields the nearest form, and it yields one entry only
    obtain ⟨u', _, hu', rfl⟩ := parser_takes hd' hnearest none
    cases hc.symm.trans hu'
    exact ⟨hd, hnearest⟩
  · rintro ⟨hd, hnearest⟩
    obtain ⟨u, _, hu, hv⟩ := parser_takes hd hnearest none
    exact ⟨u, ofTokens_ok_iff.mpr ⟨_, hu⟩, hv⟩

/-- A derivation of a nonterminal is one tree, and literals that fit. -/
theorem derives_iff_tree {n : Nonterminal} {ts : List Token} {p : Part} :
    Derives (.nonterminal n) ts [p] ↔
      (∃ tree, Forest (.nonterminal n) [tree] ∧ tree.words = ts.map Token.lexeme ∧
        tree.part = p) ∧ ∀ t ∈ ts, t.lexeme.Fits := by
  constructor
  · rintro ⟨fits, trees, h, hw, hp⟩
    cases h with
    | nonterminal h =>
      refine ⟨⟨_, .nonterminal h, ?_, (List.cons.inj hp).1⟩, fits⟩
      rw [← hw, forestWords_node, Tree.words]
  · rintro ⟨⟨tree, h, hw, rfl⟩, fits⟩
    exact ⟨fits, [tree], h, by rw [← hw, forestWords, forestWords, List.append_nil], rfl⟩

/-- Tokens are read as an entry exactly when they derive from `unit` and their
literals fit.  The entry is, up to spans, the one that a derivation of them
stands for in which each `else` belongs to the nearest conditional, and there is
only one such entry. -/
theorem ofTokens_exact (ts : List Token) :
    ((∃ u, ofTokens ts = .ok u) ↔
      (∃ tree, Forest (.nonterminal .unit) [tree] ∧ tree.words = ts.map Token.lexeme) ∧
        ∀ t ∈ ts, t.lexeme.Fits) ∧
    ∀ v, (∃ u, ofTokens ts = .ok u ∧ u.bare = v) ↔
      (∃ tree, Forest (.nonterminal .unit) [tree] ∧ tree.words = ts.map Token.lexeme ∧
        tree.part = .entry v) ∧ v.ElseNearest ∧ ∀ t ∈ ts, t.lexeme.Fits := by
  have hread (v : Entry) : (∃ u, ofTokens ts = .ok u ∧ u.bare = v) ↔
      (∃ tree, Forest (.nonterminal .unit) [tree] ∧ tree.words = ts.map Token.lexeme ∧
        tree.part = .entry v) ∧ v.ElseNearest ∧ ∀ t ∈ ts, t.lexeme.Fits := by
    rw [ofTokens_iff_derives, derives_iff_tree, and_assoc, and_comm (a := ∀ t ∈ ts, _)]
  refine ⟨⟨?_, ?_⟩, hread⟩
  · rintro ⟨u, hu⟩
    obtain ⟨⟨tree, h, hw, -⟩, -, fits⟩ := (hread u.bare).mp ⟨u, hu, rfl⟩
    exact ⟨⟨tree, h, hw⟩, fits⟩
  · rintro ⟨⟨tree, h, hw⟩, fits⟩
    obtain ⟨v, hv⟩ : ∃ v, tree.part = .entry v := by
      cases h with
      | nonterminal h => exact ⟨_, rfl⟩
    obtain ⟨v', hd, hnearest⟩ := exists_nearest (derives_iff_tree.mpr ⟨⟨tree, h, hw, hv⟩, fits⟩)
    obtain ⟨u, hu, -⟩ := ofTokens_iff_derives.mpr ⟨hd, hnearest⟩
    exact ⟨u, hu⟩

-- if true if b return 1; else return 2;
example : (ofTokens ([.fixed .kwIf, .fixed .kwTrue, .fixed .kwIf, .ident "b", .fixed .kwReturn,
      .integer "1", .fixed .semicolon, .fixed .kwElse, .fixed .kwReturn, .integer "2",
      .fixed .semicolon].map (⟨·, .empty⟩))).map bare =
    .ok (.statement (.cond (.boolean true .empty) (.cond (.ident ⟨"b", .empty⟩)
      (.ret (.integer 1 .empty) .empty) (some (.ret (.integer 2 .empty) .empty)) .empty) none
        .empty)) := by
  rfl

end Entry

end Implet
