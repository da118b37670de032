/-
Implet/Proofs/Nesting.lean

How the spans of a tree lie in each other.  In a tree that was read from a text
no span is empty, the parts of a node lie within the node, and each part ends
before the next one begins (`Entry.parse_nested`).  The functions, globals and
statements of a program are no parts of a node, but they are apart from each
other in the same way (`Program.Nested`).

The readers cut the spans of a tree from the tokens in their order (`Placed`),
and the scanner puts each token behind the one before it
(`Token.increasing_of_scan`).  All the rest is about tokens that follow each
other, whichever they are (`Placed.inOrder`).
-/
import Mathlib.Data.List.Pairwise
import Implet.Proofs.Placement
import Implet.Proofs.Scanning

namespace Implet

/-! ### Places in order -/

instance : LE Position := ⟨fun p q => p.line < q.line ∨ p.line = q.line ∧ p.column ≤ q.column⟩

namespace Position

variable {p q r : Position}

theorem le_def : p ≤ q ↔ p.line < q.line ∨ p.line = q.line ∧ p.column ≤ q.column :=
  Iff.rfl

theorem le_refl (p : Position) : p ≤ p := .inr ⟨rfl, Nat.le_refl _⟩

theorem le_trans (h : p ≤ q) (h' : q ≤ r) : p ≤ r := by
  simp only [le_def] at *
  omega

theorem Before.le (h : p.Before q) : p ≤ q := by
  simp only [le_def, Before] at *
  omega

theorem Before.trans_le (h : p.Before q) (h' : q ≤ r) : p.Before r := by
  simp only [le_def, Before] at *
  omega

end Position

namespace Span

/-- The span is not empty. -/
def Proper (s : Span) : Prop := s.start.Before s.stop

/-- The first span ends before the second one begins. -/
def Precedes (s t : Span) : Prop := s.stop ≤ t.start

/-- One of the two spans ends before the other one begins. -/
def Apart (s t : Span) : Prop := s.Precedes t ∨ t.Precedes s

/-- The first span is a part of the second one. -/
def Within (s t : Span) : Prop := t.start ≤ s.start ∧ s.stop ≤ t.stop

end Span

/-- No span is empty, parts lie within their node, and each ends before the next
one begins. -/
inductive SpanTree.Nested : SpanTree → Prop
  | node {span : Span} {parts : List SpanTree} : span.Proper → (∀ t ∈ parts, t.span.Within span) →
    parts.Pairwise (fun t u => t.span.Precedes u.span) → (∀ t ∈ parts, Nested t) →
    Nested (.node span parts)

/-! ### Tokens that follow each other -/

/-- No token is empty, and each ends before the next one begins. -/
structure Increasing (ts : List Token) : Prop where
  proper : ∀ t ∈ ts, t.span.Proper
  apart : ts.Pairwise fun t u => t.span.Precedes u.span

namespace Increasing

variable {ts us : List Token}

theorem nil : Increasing [] := ⟨nofun, .nil⟩

theorem left (h : Increasing (ts ++ us)) : Increasing ts :=
  ⟨fun t ht => h.proper t (List.mem_append_left _ ht), (List.pairwise_append.mp h.apart).1⟩

theorem right (h : Increasing (ts ++ us)) : Increasing us :=
  ⟨fun t ht => h.proper t (List.mem_append_right _ ht), (List.pairwise_append.mp h.apart).2.1⟩

theorem precedes (h : Increasing (ts ++ us)) {t u : Token} (ht : t ∈ ts) (hu : u ∈ us) :
    t.span.Precedes u.span := (List.pairwise_append.mp h.apart).2.2 t ht u hu

/-- The first token begins before all others. -/
theorem start_le (h : Increasing ts) {first t : Token} (hf : first ∈ ts.head?)
    (ht : t ∈ ts) :
    first.span.start ≤ t.span.start := by
  obtain ⟨us, rfl⟩ : ∃ us, ts = [first] ++ us := List.head?_eq_some_iff.mp hf
  rcases List.mem_append.mp ht with ht | ht
  · rw [List.mem_singleton.mp ht]
    exact Position.le_refl _
  · exact Position.le_trans (h.proper first List.mem_cons_self).le
      (h.precedes (List.mem_singleton_self _) ht)

/-- The last token ends after all others. -/
theorem le_stop (h : Increasing ts) {last t : Token} (hl : last ∈ ts.getLast?)
    (ht : t ∈ ts) :
    t.span.stop ≤ last.span.stop := by
  obtain ⟨us, rfl⟩ : ∃ us, ts = us ++ [last] := List.getLast?_eq_some_iff.mp hl
  rcases List.mem_append.mp ht with ht | ht
  · have hlast := h.proper last (List.mem_append_right _ (List.mem_singleton_self _))
    exact Position.le_trans (h.precedes ht (List.mem_singleton_self _)) hlast.le
  · rw [List.mem_singleton.mp ht]
    exact Position.le_refl _

end Increasing

/-- The span of tokens that follow each other is not empty, and all of them lie
within it. -/
theorem Extent.covers {ts : List Token} {s : Span} (h : Extent ts s)
    (hts : Increasing ts) :
    s.Proper ∧ ∀ t ∈ ts, t.span.Within s := by
  obtain ⟨first, hfirst, last, hlast, rfl⟩ := h
  refine ⟨?_, fun t ht => ⟨hts.start_le hfirst ht, hts.le_stop hlast ht⟩⟩
  have hmem := List.mem_of_mem_head? hfirst
  exact (hts.proper first hmem).trans_le (hts.le_stop hlast hmem)

/-- The trees are nested, and each ends before the next one begins. -/
structure SpanTree.InOrder (F : List SpanTree) : Prop where
  nested : ∀ t ∈ F, t.Nested
  increasing : F.Pairwise fun t u => t.span.Precedes u.span

/-- Trees that are cut from tokens that follow each other are in order, and each
begins where one of the tokens begins and ends where one ends. -/
theorem Placed.inOrder {ts : List Token} {F : List SpanTree} (h : Placed ts F)
    (hts : Increasing ts) :
    SpanTree.InOrder F ∧
      ∀ t ∈ F, ∃ a ∈ ts, ∃ b ∈ ts, t.span.start = a.span.start ∧ t.span.stop = b.span.stop := by
  induction h with
  | nil => exact ⟨⟨nofun, .nil⟩, nofun⟩
  | @cons ts block us s parts trees hs _ _ ihparts ihtrees =>
    have hblock := hts.right.left
    obtain ⟨hproper, hcover⟩ := hs.covers hblock
    obtain ⟨hparts, hpartsEnds⟩ := ihparts hblock
    obtain ⟨htrees, htreesEnds⟩ := ihtrees hts.right.right
    obtain ⟨first, hfirst, last, hlast, rfl⟩ := hs
    have hfirst := List.mem_of_mem_head? hfirst
    have hlast := List.mem_of_mem_getLast? hlast
    refine ⟨⟨List.forall_mem_cons.mpr ⟨.node hproper ?_ hparts.increasing hparts.nested,
      htrees.nested⟩, List.pairwise_cons.mpr ⟨?_, htrees.increasing⟩⟩,
      List.forall_mem_cons.mpr ⟨?_, ?_⟩⟩
    · intro t ht
      obtain ⟨a, ha, b, hb, hstart, hstop⟩ := hpartsEnds t ht
      exact ⟨hstart ▸ (hcover a ha).1, hstop ▸ (hcover b hb).2⟩
    · intro t ht
      obtain ⟨a, ha, -, -, hstart, -⟩ := htreesEnds t ht
      show last.span.stop ≤ t.span.start
      rw [hstart]
      exact hts.right.precedes hlast ha
    · exact ⟨first, by simp [hfirst], last, by simp [hlast], rfl, rfl⟩
    · intro t ht
      obtain ⟨a, ha, b, hb, hends⟩ := htreesEnds t ht
      exact ⟨a, by simp [ha], b, by simp [hb], hends⟩

/-- The tokens of a text follow each other. -/
theorem Token.increasing_of_scan {source : String} {ts : List Token}
    (h : scan source = .ok ts) :
    Increasing ts := by
  refine (scanFrom_induction
    (P := fun p _ ts => (∀ t ∈ ts, p ≤ t.span.start) ∧ Increasing ts)
    (fun _ => ⟨nofun, .nil⟩) ?_ ?_ h).2
  · rintro p c _ ts - ⟨hle, hts⟩
    exact ⟨fun t ht => Position.le_trans (Position.Before.advance p c).le (hle t ht), hts⟩
  · rintro p cs l ts hread ⟨hle, hts⟩
    have hword := Position.Before.after (Lexeme.read?_eq_some hread).1 p
    refine ⟨List.forall_mem_cons.mpr ⟨Position.le_refl p, fun t ht => ?_⟩,
      List.forall_mem_cons.mpr ⟨hword, hts.proper⟩, List.pairwise_cons.mpr ⟨hle, hts.apart⟩⟩
    exact Position.le_trans hword.le (hle t ht)

/-! ### Entries -/

/-- The functions, the globals and the statements of a program are in order, and
those of different kinds are apart. -/
structure Program.Nested (p : Program) : Prop where
  functions : SpanTree.InOrder (p.functions.map FunDef.tree)
  globals : SpanTree.InOrder (p.globals.map Decl.tree)
  main : SpanTree.InOrder (p.main.map Stmt.tree)
  functions_globals : ∀ f ∈ p.functions, ∀ d ∈ p.globals, f.span.Apart d.span
  functions_main : ∀ f ∈ p.functions, ∀ s ∈ p.main, f.span.Apart s.span
  globals_main : ∀ d ∈ p.globals, ∀ s ∈ p.main, d.span.Apart s.span

/-- The trees of the entry are nested. -/
def Entry.Nested : Entry → Prop
  | .program p => p.Nested
  | .function f => f.tree.Nested
  | .declaration d => d.tree.Nested
  | .statement s => s.tree.Nested
  | .expression e => e.tree.Nested

namespace SpanTree.InOrder

variable {is : List Item}

/-- Those items of one kind are in order if all are. -/
theorem filterMap {α : Type} {kind : Item → Option α} {tree : α → SpanTree}
    (h : InOrder (is.map Item.tree)) (hkind : ∀ {i a}, kind i = some a → i.tree = tree a) :
    InOrder ((is.filterMap kind).map tree) := by
  constructor
  · intro t ht
    obtain ⟨a, ha, rfl⟩ := List.mem_map.mp ht
    obtain ⟨i, hi, hia⟩ := List.mem_filterMap.mp ha
    exact hkind hia ▸ h.nested _ (List.mem_map_of_mem hi)
  · rw [List.pairwise_map, List.pairwise_filterMap]
    refine (List.pairwise_map.mp h.increasing).imp fun hij a ha b hb => ?_
    rwa [← hkind ha, ← hkind hb]

/-- Two items are apart. -/
theorem apart (h : InOrder (is.map Item.tree)) {i j : Item} (hi : i ∈ is) (hj : j ∈ is)
    (hne : i ≠ j) : i.tree.span.Apart j.tree.span := by
  have : Std.Symm fun i j : Item => i.tree.span.Apart j.tree.span := ⟨fun _ _ => Or.symm⟩
  have hapart : is.Pairwise fun i j => i.tree.span.Apart j.tree.span :=
    (List.pairwise_map.mp h.increasing).imp .inl
  exact hapart.forall hi hj hne

end SpanTree.InOrder

namespace Entry

/-- Items in order make an entry that is nested. -/
theorem nested_ofItems {is : List Item} (h : SpanTree.InOrder (is.map Item.tree)) :
    (ofItems is).Nested := by
  have hprogram : Program.Nested ⟨is.filterMap Item.function?, is.filterMap Item.declaration?,
      is.filterMap Item.statement?⟩ := by
    refine ⟨h.filterMap ?_, h.filterMap ?_, h.filterMap ?_, fun f hf d hd => ?_,
      fun f hf s hs => ?_, fun d hd s hs => ?_⟩
    · intro i f hi
      rw [Item.function?_eq_some.mp hi, Item.tree]
    · intro i d hi
      rw [Item.declaration?_eq_some.mp hi, Item.tree]
    · intro i s hi
      rw [Item.statement?_eq_some.mp hi, Item.tree]
    · simpa [Item.tree] using h.apart (Item.mem_functions.mp hf) (Item.mem_declarations.mp hd) nofun
    · simpa [Item.tree] using h.apart (Item.mem_functions.mp hf) (Item.mem_statements.mp hs) nofun
    · simpa [Item.tree] using
        h.apart (Item.mem_declarations.mp hd) (Item.mem_statements.mp hs) nofun
  match is with
  | [] => exact hprogram
  | [.function f] | [.declaration d] | [.statement s] => exact h.nested _ List.mem_cons_self
  | i :: j :: is =>
    rw [ofItems_cons_cons]
    exact hprogram

/-- What is read from tokens is cut from them: an expression, or items one after
the other. -/
theorem placed_of_ofTokens {ts : List Token} {entry : Entry}
    (h : ofTokens ts = .ok entry) : (∃ e, entry = .expression e ∧ Placed ts [e.tree]) ∨
      ∃ is, entry = ofItems is ∧ Placed ts (is.map Item.tree) := by
  unfold ofTokens at h
  split at h
  · next entry' c hc =>
    cases h
    obtain ⟨o, c₁, ho, hc⟩ := Parser.bind_ok_iff.mp hc
    rcases bareExpression_ok ho with ⟨rfl, hrest⟩ | ⟨e, rfl, hrest, he⟩
    · obtain ⟨_, _, ⟨⟩, hc⟩ := Parser.bind_ok_iff.mp hc
      obtain ⟨is, c₂, his, hc⟩ := Parser.bind_ok_iff.mp hc
      cases hc
      obtain ⟨us, _, hus, hF, rfl⟩ := Item.listWithin_lays _ _ is _ his
      rw [Item.rest_listWithin his (Nat.le_refl _), List.append_nil, hrest] at hus
      change ts = us at hus
      exact .inr ⟨is, rfl, hus ▸ hF⟩
    · cases hc
      obtain ⟨us, _, hus, hF, rfl⟩ :=
        Parser.Lays.skip Expr.parser_lays (.optional .terminal) _ e _ he
      rw [hrest, List.append_nil] at hus
      change ts = us at hus
      exact .inl ⟨e, rfl, hus ▸ hF⟩
  · split at h <;> cases h

/-- Whatever tokens follow each other, what is read from them is nested. -/
theorem nested_of_ofTokens {ts : List Token} (hts : Increasing ts) {entry : Entry}
    (h : ofTokens ts = .ok entry) : entry.Nested := by
  rcases placed_of_ofTokens h with ⟨e, rfl, hF⟩ | ⟨is, rfl, hF⟩
  · exact (hF.inOrder hts).1.nested _ (List.mem_singleton_self _)
  · exact nested_ofItems (hF.inOrder hts).1

/-- A text that is read has been scanned before. -/
theorem tokens_of_parse {source : String} {entry : Entry} (h : parse source = .ok entry) :
    ∃ ts, Token.scan (blankComments source) = .ok ts ∧ ofTokens ts = .ok entry := by
  unfold parse tokens at h
  cases hscan : Token.scan (blankComments source) with
  | error e =>
    rw [hscan] at h
    cases h
  | ok ts =>
    rw [hscan] at h
    exact ⟨ts, rfl, h⟩

/-- In a tree that was read from a text no span is empty, the parts of each node
lie within the node, and each part ends before the next one begins.  So do the
functions, the globals and the statements of a program, and none of them
overlap. -/
theorem parse_nested {source : String} {entry : Entry} (h : parse source = .ok entry) :
    entry.Nested := by
  obtain ⟨ts, hscan, hts⟩ := tokens_of_parse h
  exact nested_of_ofTokens (Token.increasing_of_scan hscan) hts

/-- Operands in parentheses, and a conditional over several lines. -/
def nestedChoices : String :=
  "var x;\nif (b) x := ((1)) * f(x, 2); // or not\nelse x := 0;"

theorem parse_nested_nestedChoices :
    ∃ entry, parse nestedChoices = .ok entry ∧ entry.Nested := by
  have hok : (parse nestedChoices).toOption.isSome = true := by decide +kernel
  cases h : parse nestedChoices with
  | error e =>
    rw [h] at hok
    cases hok
  | ok entry => exact ⟨entry, rfl, parse_nested h⟩

end Entry

end Implet
