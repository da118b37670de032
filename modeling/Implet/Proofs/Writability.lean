/-
Implet/Proofs/Writability.lean

Entries that can be written.  `Expr.Writable` says of an expression that its
literals are not negative and that its names are read as names; here the same is
said of everything else.  All that is read from a text can be written
(`Entry.writable_of_parse`), since a tree has its names and literals from the
words of the text.
-/
import Implet.Proofs.RoundTrip

namespace Implet

open Grammar

/-- A declaration that can be written: its name is read as one. -/
def Decl.Writable (d : Decl) : Prop := IsName d.name.name

mutual

/-- A statement that can be written, as all names and literals in it can be. -/
def Stmt.Writable : Stmt → Prop
  | .block declarations statements _ =>
    (∀ d ∈ declarations, d.Writable) ∧ stmtsWritable statements
  | .cond condition thenBranch none _ => condition.Writable ∧ thenBranch.Writable
  | .cond condition thenBranch (some elseBranch) _ =>
    condition.Writable ∧ thenBranch.Writable ∧ elseBranch.Writable
  | .loop condition body _ => condition.Writable ∧ body.Writable
  | .assign target value _ => IsName target.name ∧ value.Writable
  | .ret value _ => value.Writable

/-- Statements that can be written. -/
def stmtsWritable : List Stmt → Prop
  | [] => True
  | s :: ss => s.Writable ∧ stmtsWritable ss

end

/-- A function that can be written. -/
def FunDef.Writable (f : FunDef) : Prop :=
  IsName f.name.name ∧ (∀ d ∈ f.params, d.Writable) ∧ (Stmt.ofBlock f.body).Writable

/-- An item that can be written. -/
def Item.Writable : Item → Prop
  | .function f => f.Writable
  | .declaration d => d.Writable
  | .statement s => s.Writable

/-- An entry that can be written. -/
def Entry.Writable : Entry → Prop
  | .program p => (∀ f ∈ p.functions, f.Writable) ∧ (∀ d ∈ p.globals, d.Writable) ∧
    ∀ s ∈ p.main, s.Writable
  | .function f => f.Writable
  | .declaration d => d.Writable
  | .statement s => s.Writable
  | .expression e => e.Writable

theorem stmtsWritable_iff {ss : List Stmt} : stmtsWritable ss ↔ ∀ s ∈ ss, s.Writable := by
  induction ss with
  | nil => simp [stmtsWritable]
  | cons s ss ih => simp [stmtsWritable, ih]

/-- An entry can be written if the items can that it is made of. -/
theorem Entry.writable_ofItems {is : List Item} (h : ∀ i ∈ is, i.Writable) :
    (ofItems is).Writable := by
  have hprogram : (Entry.program ⟨is.filterMap Item.function?, is.filterMap Item.declaration?,
      is.filterMap Item.statement?⟩).Writable :=
    ⟨fun f hf => h _ (Item.mem_functions.mp hf), fun d hd => h _ (Item.mem_declarations.mp hd),
      fun s hs => h _ (Item.mem_statements.mp hs)⟩
  match is with
  | [] => exact hprogram
  | [.function f] | [.declaration d] | [.statement s] => exact h _ List.mem_cons_self
  | i :: j :: is =>
    rw [ofItems_cons_cons]
    exact hprogram

namespace Grammar.Derives

variable {n : Nonterminal} {ts : List Token} {ps : List Part}

/-! ### Parts of lists -/

/-- The parts of a repetition derive from tokens among those of the whole. -/
theorem of_mem_many (h : Derives (.many (.nonterminal n)) ts ps) :
    ∀ p ∈ ps, ∃ us, us.Sublist ts ∧ Derives (.nonterminal n) us [p] := by
  refine many_induction h nofun ?_
  rintro us vs _ rs hd - ih
  obtain ⟨_, -, rfl⟩ := nonterminal_iff.mp hd
  refine List.forall_mem_cons.mpr ⟨⟨us, List.sublist_append_left us vs, hd⟩, fun p hp => ?_⟩
  obtain ⟨us', hsub, hd'⟩ := ih p hp
  exact ⟨us', hsub.trans (List.sublist_append_right us vs), hd'⟩

/-- The parts of a list with commas are the commas, and what derives from tokens
among those of the whole. -/
theorem of_mem_commaList (h : Derives (.commaList (.nonterminal n)) ts ps) : ∀ p ∈ ps,
    p = .word (.fixed .comma) ∨ ∃ us, us.Sublist ts ∧ Derives (.nonterminal n) us [p] := by
  rcases commaList_cases h with ⟨rfl, rfl⟩ | ⟨us, vs, p, qs, hd, hd', rfl, rfl⟩
  · exact nofun
  refine List.forall_mem_cons.mpr ⟨.inr ⟨us, List.sublist_append_left us vs, hd⟩, ?_⟩
  have hrest : ∀ q ∈ qs, q = .word (.fixed .comma) ∨
      ∃ us, us.Sublist vs ∧ Derives (.nonterminal n) us [q] := by
    refine many_induction hd' nofun ?_
    rintro _ vs' _ _ hd - ih
    obtain ⟨w, us', p', hd', rfl, rfl⟩ := prefixed_cases hd
    refine List.forall_mem_cons.mpr ⟨.inl rfl, List.forall_mem_cons.mpr
      ⟨.inr ⟨us', (List.sublist_append_left us' vs').cons _, hd'⟩, fun q hq => ?_⟩⟩
    refine (ih q hq).imp_right fun ⟨us, hsub, hd⟩ => ⟨us, hsub.trans ?_, hd⟩
    exact List.sublist_append_right _ vs'
  exact fun q hq => (hrest q hq).imp_right fun ⟨us', hsub, hd⟩ =>
    ⟨us', hsub.trans (List.sublist_append_right us vs), hd⟩

/-! ### What derives from words that can be written -/

theorem writable_expression {e : Expr} (hw : ∀ t ∈ ts, t.lexeme.Writable)
    (h : Derives (.nonterminal .expression) ts [.expr e]) : e.Writable :=
  h.writable hw _ List.mem_cons_self

theorem writable_param {d : Decl} (hw : ∀ t ∈ ts, t.lexeme.Writable)
    (h : Derives (.nonterminal .param) ts [.decl d]) : d.Writable := by
  obtain ⟨us, t, name, w, -, rfl, hd⟩ := param_cases h
  cases hd
  exact hw ⟨.ident name, w⟩ (by simp)

theorem writable_declaration {d : Decl} (hw : ∀ t ∈ ts, t.lexeme.Writable)
    (h : Derives (.nonterminal .declaration) ts [.decl d]) : d.Writable := by
  obtain ⟨us, t, name, w, w', -, rfl, hd⟩ := declaration_cases h
  cases hd
  exact hw ⟨.ident name, w⟩ (by simp)

/-- A block can be written if the statements can that derive from fewer tokens. -/
theorem writable_block {b : Block} (hw : ∀ t ∈ ts, t.lexeme.Writable)
    (ih : ∀ {us s}, us.length < ts.length → (∀ t ∈ us, t.lexeme.Writable) →
      Derives (.nonterminal .statement) us [.stmt s] → s.Writable)
    (h : Derives (.nonterminal .block) ts [.block b]) : (Stmt.ofBlock b).Writable := by
  obtain ⟨w, ds, ss, w', declarations, statements, hds, hss, rfl, rfl⟩ := block_iff.mp h
  simp only [List.forall_mem_cons, List.forall_mem_append] at hw
  refine ⟨fun d hd => ?_, stmtsWritable_iff.mpr fun s hs => ?_⟩
  · obtain ⟨us, hsub, hd⟩ := hds.of_mem_many _ (List.mem_map_of_mem hd)
    exact hd.writable_declaration fun t ht => hw.2.1 t (hsub.subset ht)
  · obtain ⟨us, hsub, hs⟩ := hss.of_mem_many _ (List.mem_map_of_mem hs)
    refine ih ?_ (fun t ht => hw.2.2.1 t (hsub.subset ht)) hs
    have := hsub.length_le
    simp only [List.length_cons, List.length_append]
    omega

theorem writable_statement {s : Stmt} (hw : ∀ t ∈ ts, t.lexeme.Writable)
    (h : Derives (.nonterminal .statement) ts [.stmt s]) : s.Writable := by
  induction hlen : ts.length using Nat.strongRecOn generalizing ts s with
  | _ len ih =>
    subst hlen
    rcases statement_iff.mp h with ⟨b, hb, rfl⟩ | hif | hl | hr | ha
    · exact hb.writable_block hw fun hlt hw hd => ih _ hlt hw hd rfl
    · obtain ⟨w, cs, us, c, t, hc, ht, ⟨rfl, rfl⟩ | ⟨w', vs, e, he, rfl, rfl⟩⟩ := cond_iff.mp hif
      · simp only [List.forall_mem_cons, List.forall_mem_append] at hw
        refine ⟨hc.writable_expression hw.2.1, ih _ ?_ hw.2.2 ht rfl⟩
        simp only [List.length_cons, List.length_append]
        omega
      · simp only [List.forall_mem_cons, List.forall_mem_append] at hw
        refine ⟨hc.writable_expression hw.2.1, ih _ ?_ hw.2.2.1 ht rfl, ih _ ?_ hw.2.2.2.2 he rfl⟩
        all_goals
          simp only [List.length_cons, List.length_append]
          omega
    · obtain ⟨w, cs, us, c, t, hc, ht, rfl, rfl⟩ := loop_iff.mp hl
      simp only [List.forall_mem_cons, List.forall_mem_append] at hw
      refine ⟨hc.writable_expression hw.2.1, ih _ ?_ hw.2.2 ht rfl⟩
      simp only [List.length_cons, List.length_append]
      omega
    · obtain ⟨w, es, w', e, he, rfl, rfl⟩ := ret_cases hr
      simp only [List.forall_mem_cons, List.forall_mem_append] at hw
      exact he.writable_expression hw.2.1
    · obtain ⟨name, w, w', es, w'', e, he, rfl, rfl⟩ := assignment_cases ha
      simp only [List.forall_mem_cons, List.forall_mem_append] at hw
      exact ⟨hw.1, he.writable_expression hw.2.2.1⟩

theorem writable_function {f : FunDef} (hw : ∀ t ∈ ts, t.lexeme.Writable)
    (h : Derives (.nonterminal .function) ts [.func f]) : f.Writable := by
  obtain ⟨w, name, w', w₁, us, qs, w₂, vs, b, hqs, hb, rfl, rfl⟩ := function_iff.mp h
  simp only [List.forall_mem_cons, List.forall_mem_append] at hw
  refine ⟨hw.2.1, fun d hd => ?_, hb.writable_block hw.2.2.2.2.2 fun _ => writable_statement⟩
  obtain ⟨p, hp, hpd⟩ := List.mem_filterMap.mp hd
  obtain rfl : p = .decl d := by cases p <;> cases hpd; rfl
  rcases hqs.of_mem_commaList _ hp with hcomma | ⟨us', hsub, hd⟩
  · cases hcomma
  · exact hd.writable_param fun t ht => hw.2.2.2.1 t (hsub.subset ht)

theorem writable_item {i : Item} (hw : ∀ t ∈ ts, t.lexeme.Writable)
    (h : Derives (.nonterminal .item) ts [.item i]) : i.Writable := by
  rcases item_iff.mp h with ⟨f, hf, rfl⟩ | ⟨d, hd, rfl⟩ | ⟨s, hs, rfl⟩
  · exact hf.writable_function hw
  · exact hd.writable_declaration hw
  · exact hs.writable_statement hw

theorem writable_unit {u : Entry} (hw : ∀ t ∈ ts, t.lexeme.Writable)
    (h : Derives (.nonterminal .unit) ts [.entry u]) : u.Writable := by
  rcases unit_iff.mp h with ⟨us, e, he, hus, rfl⟩ | ⟨is, his, rfl⟩
  · refine he.writable_expression fun t ht => hw t ?_
    rcases hus with rfl | ⟨w, rfl⟩
    · exact ht
    · exact List.mem_append_left _ ht
  · refine Entry.writable_ofItems fun i hi => ?_
    obtain ⟨us, hsub, hd⟩ := his.of_mem_many _ (List.mem_map_of_mem hi)
    exact hd.writable_item fun t ht => hw t (hsub.subset ht)

end Grammar.Derives

/-- What is read from a text can be written. -/
theorem Entry.writable_of_parse {source : String} {u : Entry} (h : parse source = .ok u) :
    u.bare.Writable := by
  obtain ⟨ts, hd, hw⟩ := derives_of_parse h
  exact hd.writable_unit hw

end Implet
