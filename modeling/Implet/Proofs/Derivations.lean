/-
Implet/Proofs/Derivations.lean

Derivations of tokens.  `Derives e ts ps` says that the tokens `ts` have
derivation trees by the right side `e` that stand for the parts `ps`, and that
the literals among them fit.  One lemma for each way of writing a right side
takes such a derivation apart and puts it together, so that nothing else looks
at trees.
-/
import Implet.Proofs.Grammar

namespace Implet.Grammar

/-! ### Trees next to each other -/

theorem forestWords_append (ts us : List Tree) :
    forestWords (ts ++ us) = forestWords ts ++ forestWords us := by
  induction ts with
  | nil => rfl
  | cons t ts ih => simp [forestWords, ih]

theorem forestParts_append (ts us : List Tree) :
    forestParts (ts ++ us) = forestParts ts ++ forestParts us := by
  induction ts with
  | nil => rfl
  | cons t ts ih => simp [forestParts, ih]

/-- Without trees there are no tokens. -/
theorem forestWords_nil {ts : List Token} :
    forestWords [] = ts.map Token.lexeme ↔ ts = [] := by
  rw [forestWords, eq_comm, List.map_eq_nil_iff]

/-- The words of a tree with others under it are the words of those. -/
theorem forestWords_node (n : Nonterminal) (ts : List Tree) :
    forestWords [.node n ts] = forestWords ts := by
  simp [forestWords, Tree.words]

/-- A leaf is one token. -/
theorem forestWords_leaf {l : Lexeme} {ts : List Token} :
    forestWords [.leaf l] = ts.map Token.lexeme ↔ ∃ s, ts = [⟨l, s⟩] := by
  constructor
  · intro h
    obtain ⟨t, rfl, rfl⟩ : ∃ t, ts = [t] ∧ t.lexeme = l :=
      List.map_eq_singleton_iff.mp h.symm
    exact ⟨t.span, rfl⟩
  · rintro ⟨s, rfl⟩
    rfl

/-- The tokens derive from `e`, stand for `ps`, and have literals that fit. -/
def Derives (e : Ebnf) (ts : List Token) (ps : List Part) : Prop :=
  (∀ t ∈ ts, t.lexeme.Fits) ∧
    ∃ trees, Forest e trees ∧ forestWords trees = ts.map Token.lexeme ∧ forestParts trees = ps

namespace Derives

variable {e : Ebnf} {es : List Ebnf} {n : Nonterminal} {ts : List Token} {ps : List Part}

/-! ### One lemma for each right side -/

theorem terminal_iff {t : Terminal} :
    Derives (.terminal t) ts ps ↔ ∃ s, ts = [⟨.fixed t, s⟩] ∧ ps = [.word (.fixed t)] := by
  constructor
  · rintro ⟨-, _, ⟨⟩, hw, rfl⟩
    obtain ⟨s, rfl⟩ := forestWords_leaf.mp hw
    exact ⟨s, rfl, rfl⟩
  · rintro ⟨s, rfl, rfl⟩
    exact ⟨by simp [Lexeme.Fits], _, .terminal t, rfl, rfl⟩

theorem ident_iff :
    Derives .ident ts ps ↔ ∃ name s, ts = [⟨.ident name, s⟩] ∧ ps = [.word (.ident name)] := by
  constructor
  · rintro ⟨-, _, h, hw, rfl⟩
    cases h with
    | ident name =>
      obtain ⟨s, rfl⟩ := forestWords_leaf.mp hw
      exact ⟨name, s, rfl, rfl⟩
  · rintro ⟨name, s, rfl, rfl⟩
    exact ⟨by simp [Lexeme.Fits], _, .ident name, rfl, rfl⟩

theorem integer_iff :
    Derives .integer ts ps ↔ ∃ digits s, ts = [⟨.integer digits, s⟩] ∧
      ps = [.word (.integer digits)] ∧ (Lexeme.integer digits).Fits := by
  constructor
  · rintro ⟨fits, _, h, hw, rfl⟩
    cases h with
    | integer digits =>
      obtain ⟨s, rfl⟩ := forestWords_leaf.mp hw
      exact ⟨digits, s, rfl, rfl, fits _ List.mem_cons_self⟩
  · rintro ⟨digits, s, rfl, rfl, fits⟩
    exact ⟨List.forall_mem_singleton.mpr fits, _, .integer digits, rfl, rfl⟩

theorem nonterminal_iff :
    Derives (.nonterminal n) ts ps ↔ ∃ qs, Derives n.rule ts qs ∧ ps = [n.build qs] := by
  constructor
  · rintro ⟨fits, _, h, hw, rfl⟩
    cases h with
    | nonterminal h => exact ⟨_, ⟨fits, _, h, forestWords_node n _ ▸ hw, rfl⟩, rfl⟩
  · rintro ⟨_, ⟨fits, trees, h, hw, rfl⟩, rfl⟩
    exact ⟨fits, _, .nonterminal h, (forestWords_node n trees).trans hw, rfl⟩

/-- Derivations next to each other. -/
theorem append_iff {e' : Ebnf} :
    (∀ t ∈ ts, t.lexeme.Fits) ∧ (∃ us vs, Forest e us ∧ Forest e' vs ∧
        forestWords (us ++ vs) = ts.map Token.lexeme ∧ forestParts (us ++ vs) = ps) ↔
      ∃ us vs qs rs, ts = us ++ vs ∧ ps = qs ++ rs ∧ Derives e us qs ∧ Derives e' vs rs := by
  simp only [forestWords_append, forestParts_append]
  constructor
  · rintro ⟨fits, trees, trees', h, h', hw, rfl⟩
    obtain ⟨us, vs, rfl, hu, hv⟩ := List.append_eq_map_iff.mp hw
    rw [List.forall_mem_append] at fits
    exact ⟨us, vs, _, _, rfl, rfl, ⟨fits.1, trees, h, hu.symm, rfl⟩,
      ⟨fits.2, trees', h', hv.symm, rfl⟩⟩
  · rintro ⟨us, vs, _, _, rfl, rfl, ⟨fits, trees, h, hw, rfl⟩, ⟨fits', trees', h', hw', rfl⟩⟩
    exact ⟨List.forall_mem_append.mpr ⟨fits, fits'⟩, trees, trees', h, h',
      by rw [hw, hw', List.map_append], rfl⟩

theorem seq_nil_iff : Derives (.seq []) ts ps ↔ ts = [] ∧ ps = [] := by
  constructor
  · rintro ⟨-, _, ⟨⟩, hw, rfl⟩
    exact ⟨forestWords_nil.mp hw, rfl⟩
  · rintro ⟨rfl, rfl⟩
    exact ⟨by simp, _, .seqNil, rfl, rfl⟩

theorem seq_nil : Derives (.seq []) [] [] := seq_nil_iff.mpr ⟨rfl, rfl⟩

theorem seq_cons_iff :
    Derives (.seq (e :: es)) ts ps ↔
      ∃ us vs qs rs, ts = us ++ vs ∧ ps = qs ++ rs ∧ Derives e us qs ∧ Derives (.seq es) vs rs := by
  rw [← append_iff]
  refine and_congr_right fun _ => ⟨?_, ?_⟩
  · rintro ⟨_, h, hs⟩
    cases h with
    | seqCons h h' => exact ⟨_, _, h, h', hs⟩
  · rintro ⟨us, vs, h, h', hs⟩
    exact ⟨_, .seqCons h h', hs⟩

theorem seq_append {fs : List Ebnf} {us : List Token} {qs : List Part}
    (h : Derives (.seq es) ts ps)
    (h' : Derives (.seq fs) us qs) : Derives (.seq (es ++ fs)) (ts ++ us) (ps ++ qs) := by
  induction es generalizing ts ps with
  | nil =>
    obtain ⟨rfl, rfl⟩ := seq_nil_iff.mp h
    exact h'
  | cons e es ih =>
    obtain ⟨vs, ts, rs, ps, rfl, rfl, he, h⟩ := seq_cons_iff.mp h
    exact seq_cons_iff.mpr ⟨vs, _, rs, _, List.append_assoc .., List.append_assoc .., he, ih h⟩

theorem seq_singleton_iff : Derives (.seq [e]) ts ps ↔ Derives e ts ps := by
  rw [seq_cons_iff]
  simp only [seq_nil_iff]
  constructor
  · rintro ⟨us, _, qs, _, rfl, rfl, h, rfl, rfl⟩
    simpa using h
  · intro h
    exact ⟨ts, [], ps, [], by simp, by simp, h, rfl, rfl⟩

theorem alt_iff : Derives (.alt es) ts ps ↔ ∃ e ∈ es, Derives e ts ps := by
  constructor
  · rintro ⟨fits, _, h, hs⟩
    cases h with
    | alt he h => exact ⟨_, he, fits, _, h, hs⟩
  · rintro ⟨e, he, fits, trees, h, hs⟩
    exact ⟨fits, trees, .alt he h, hs⟩

theorem opt_iff : Derives (.opt e) ts ps ↔ ts = [] ∧ ps = [] ∨ Derives e ts ps := by
  constructor
  · rintro ⟨fits, _, h, hw, rfl⟩
    cases h with
    | optNone => exact .inl ⟨forestWords_nil.mp hw, rfl⟩
    | optSome h => exact .inr ⟨fits, _, h, hw, rfl⟩
  · rintro (⟨rfl, rfl⟩ | ⟨fits, trees, h, hs⟩)
    · exact ⟨by simp, _, .optNone, rfl, rfl⟩
    · exact ⟨fits, trees, .optSome h, hs⟩

theorem many_nil : Derives (.many e) [] [] := ⟨by simp, _, .manyNil, rfl, rfl⟩

theorem many_cons {us vs : List Token} {qs rs : List Part} (h : Derives e us qs)
    (h' : Derives (.many e) vs rs) : Derives (.many e) (us ++ vs) (qs ++ rs) := by
  obtain ⟨fits, us, vs, h, h', hs⟩ := append_iff.mpr ⟨us, vs, qs, rs, rfl, rfl, h, h'⟩
  exact ⟨fits, _, .manyCons h h', hs⟩

/-- Induction along a repetition. -/
@[elab_as_elim]
theorem many_induction {P : List Token → List Part → Prop} (h : Derives (.many e) ts ps)
    (nil : P [] [])
    (cons : ∀ {us vs qs rs}, Derives e us qs → Derives (.many e) vs rs → P vs rs →
      P (us ++ vs) (qs ++ rs)) : P ts ps := by
  obtain ⟨fits, trees, h, hw, rfl⟩ := h
  -- along the trees, for any right side that is this repetition
  generalize he : Ebnf.many e = e' at h
  induction h generalizing ts with
  | manyNil =>
    rw [forestWords_nil.mp hw]
    exact nil
  | manyCons h h' _ ih =>
    cases he
    rw [forestWords_append] at hw
    obtain ⟨us, vs, rfl, hu, hv⟩ := List.append_eq_map_iff.mp hw
    rw [List.forall_mem_append] at fits
    rw [forestParts_append]
    exact cons ⟨fits.1, _, h, hu.symm, rfl⟩ ⟨fits.2, _, h', hv.symm, rfl⟩
      (ih fits.2 hv.symm rfl)
  | terminal | ident | integer | nonterminal | seqNil | seqCons | alt | optNone | optSome =>
    cases he

/-! ### What rules start with -/

theorem seq_terminal {t : Terminal} {s : Span} (h : Derives (.seq es) ts ps) :
    Derives (.seq (.terminal t :: es)) (⟨.fixed t, s⟩ :: ts) (.word (.fixed t) :: ps) :=
  seq_cons_iff.mpr ⟨_, ts, _, ps, rfl, rfl, terminal_iff.mpr ⟨s, rfl, rfl⟩, h⟩

theorem seq_terminal_iff {t : Terminal} :
    Derives (.seq (.terminal t :: es)) ts ps ↔
      ∃ s us qs, ts = ⟨.fixed t, s⟩ :: us ∧ ps = .word (.fixed t) :: qs ∧
        Derives (.seq es) us qs := by
  constructor
  · intro h
    obtain ⟨_, us, _, qs, rfl, rfl, ht, h'⟩ := seq_cons_iff.mp h
    obtain ⟨s, rfl, rfl⟩ := terminal_iff.mp ht
    exact ⟨s, us, qs, rfl, rfl, h'⟩
  · rintro ⟨s, us, qs, rfl, rfl, h⟩
    exact seq_terminal h

theorem seq_ident {name : String} {s : Span} (h : Derives (.seq es) ts ps) :
    Derives (.seq (.ident :: es)) (⟨.ident name, s⟩ :: ts) (.word (.ident name) :: ps) :=
  seq_cons_iff.mpr ⟨_, ts, _, ps, rfl, rfl, ident_iff.mpr ⟨name, s, rfl, rfl⟩, h⟩

theorem seq_ident_iff :
    Derives (.seq (.ident :: es)) ts ps ↔
      ∃ name s us qs, ts = ⟨.ident name, s⟩ :: us ∧ ps = .word (.ident name) :: qs ∧
        Derives (.seq es) us qs := by
  constructor
  · intro h
    obtain ⟨_, us, _, qs, rfl, rfl, hi, h'⟩ := seq_cons_iff.mp h
    obtain ⟨name, s, rfl, rfl⟩ := ident_iff.mp hi
    exact ⟨name, s, us, qs, rfl, rfl, h'⟩
  · rintro ⟨name, s, us, qs, rfl, rfl, h⟩
    exact seq_ident h

/-- One more at the front of a sequence. -/
theorem seq_cons {us : List Token} {qs : List Part} (h : Derives e ts ps)
    (h' : Derives (.seq es) us qs) : Derives (.seq (e :: es)) (ts ++ us) (ps ++ qs) :=
  seq_cons_iff.mpr ⟨ts, us, ps, qs, rfl, rfl, h, h'⟩

theorem seq_nonterminal_iff :
    Derives (.seq (.nonterminal n :: es)) ts ps ↔
      ∃ us vs p qs, ts = us ++ vs ∧ ps = p :: qs ∧ Derives (.nonterminal n) us [p] ∧
        Derives (.seq es) vs qs := by
  constructor
  · intro h
    obtain ⟨us, vs, _, qs, rfl, rfl, hn, h'⟩ := seq_cons_iff.mp h
    obtain ⟨rs, -, rfl⟩ := nonterminal_iff.mp hn
    exact ⟨us, vs, _, qs, rfl, rfl, hn, h'⟩
  · rintro ⟨us, vs, p, qs, rfl, rfl, h, h'⟩
    exact h.seq_cons h'

theorem seq_many_iff :
    Derives (.seq (.many e :: es)) ts ps ↔
      ∃ us vs qs rs, ts = us ++ vs ∧ ps = qs ++ rs ∧ Derives (.many e) us qs ∧
        Derives (.seq es) vs rs := seq_cons_iff

theorem seq_opt_iff {fs : List Ebnf} :
    Derives (.seq (.opt (.seq es) :: fs)) ts ps ↔
      Derives (.seq fs) ts ps ∨ ∃ us vs qs rs, ts = us ++ vs ∧ ps = qs ++ rs ∧
        Derives (.seq es) us qs ∧ Derives (.seq fs) vs rs := by
  simp only [seq_cons_iff (e := .opt _), opt_iff]
  constructor
  · rintro ⟨_, vs, _, rs, rfl, rfl, ⟨rfl, rfl⟩ | h, h'⟩
    · exact .inl h'
    · exact .inr ⟨_, vs, _, rs, rfl, rfl, h, h'⟩
  · rintro (h | ⟨us, vs, qs, rs, rfl, rfl, h, h'⟩)
    · exact ⟨[], ts, [], ps, rfl, rfl, .inl ⟨rfl, rfl⟩, h⟩
    · exact ⟨us, vs, qs, rs, rfl, rfl, .inr h, h'⟩

/-! ### What nonterminals stand for -/

theorem part {α : Type} {f : α → Part} (hf : ∀ qs, ∃ a, n.build qs = f a) {p : Part}
    (h : Derives (.nonterminal n) ts [p]) : ∃ a, p = f a := by
  obtain ⟨qs, -, hp⟩ := nonterminal_iff.mp h
  obtain ⟨a, ha⟩ := hf qs
  exact ⟨a, (List.cons.inj hp).1.trans ha⟩

theorem parts {α : Type} {f : α → Part} (hf : ∀ qs, ∃ a, n.build qs = f a)
    (h : Derives (.many (.nonterminal n)) ts ps) : ∃ as : List α, ps = as.map f := by
  refine many_induction h ⟨[], rfl⟩ ?_
  rintro us vs _ _ h - ⟨as, rfl⟩
  obtain ⟨qs, -, rfl⟩ := nonterminal_iff.mp h
  obtain ⟨a, ha⟩ := hf qs
  exact ⟨a :: as, by rw [ha]; rfl⟩

theorem part_expression {p : Part} (h : Derives (.nonterminal .expression) ts [p]) :
    ∃ e, p = .expr e := part (fun _ => ⟨_, rfl⟩) h

theorem part_type {p : Part} (h : Derives (.nonterminal .type) ts [p]) :
    ∃ t, p = .type t := part (fun _ => ⟨_, rfl⟩) h

theorem part_block {p : Part} (h : Derives (.nonterminal .block) ts [p]) :
    ∃ b, p = .block b := part (fun _ => ⟨_, rfl⟩) h

theorem part_statement {p : Part} (h : Derives (.nonterminal .statement) ts [p]) :
    ∃ s, p = .stmt s := part (fun _ => ⟨_, rfl⟩) h

theorem statement_eq (h : Derives (.nonterminal .statement) ts ps) :
    ∃ s, ps = [.stmt s] := by
  obtain ⟨_, -, rfl⟩ := nonterminal_iff.mp h
  exact ⟨_, rfl⟩

theorem item_eq (h : Derives (.nonterminal .item) ts ps) : ∃ i, ps = [.item i] := by
  obtain ⟨_, -, rfl⟩ := nonterminal_iff.mp h
  exact ⟨_, rfl⟩

theorem parts_statement (h : Derives (.many (.nonterminal .statement)) ts ps) :
    ∃ ss : List Stmt, ps = ss.map .stmt := parts (fun _ => ⟨_, rfl⟩) h

theorem parts_item (h : Derives (.many (.nonterminal .item)) ts ps) :
    ∃ is : List Item, ps = is.map .item := parts (fun _ => ⟨_, rfl⟩) h

theorem parts_declaration (h : Derives (.many (.nonterminal .declaration)) ts ps) :
    ∃ ds : List Decl, ps = ds.map .decl := parts (fun _ => ⟨_, rfl⟩) h

end Derives

end Implet.Grammar
