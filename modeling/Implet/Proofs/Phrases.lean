/-
Implet/Proofs/Phrases.lean

What the rules say of each kind of phrase: the pieces that its tokens fall into,
and the syntax tree that it stands for.

A derivation also begins with a token that tells what it can be a derivation of.
These tokens are `Lexeme.OpensExpr`, `Lexeme.OpensDecl` and `Lexeme.OpensStmt`,
of which the last two have none in common.
-/
import Implet.Proofs.Derivations

namespace Implet

namespace Lexeme

/-- The words that an expression can begin with. -/
def OpensExpr : Lexeme → Prop
  | integer _ | ident _ | fixed .kwTrue | fixed .kwFalse | fixed .leftParen => True
  | fixed _ => False

/-- The words that a declaration or a parameter can begin with. -/
def OpensDecl : Lexeme → Prop
  | fixed .kwInt | fixed .kwBool | fixed .kwVar => True
  | _ => False

/-- The words that a statement can begin with. -/
def OpensStmt : Lexeme → Prop
  | ident _ | fixed .leftBrace | fixed .kwIf | fixed .kwWhile | fixed .kwReturn => True
  | _ => False

/-- Declarations and expressions begin differently. -/
theorem OpensDecl.not_opensExpr {l : Lexeme} (h : l.OpensDecl) : ¬ l.OpensExpr := by
  unfold OpensDecl at h
  split at h
  · exact id
  · exact id
  · exact id
  · exact h.elim

/-- Declarations and statements begin differently. -/
theorem OpensDecl.not_opensStmt {l : Lexeme} (h : l.OpensDecl) : ¬ l.OpensStmt := by
  unfold OpensDecl at h
  split at h
  · exact id
  · exact id
  · exact id
  · exact h.elim

end Lexeme

/-- There is a first token, and its word is one of `P`. -/
def Begins (P : Lexeme → Prop) : List Token → Prop
  | [] => False
  | t :: _ => P t.lexeme

namespace Begins

variable {P Q : Lexeme → Prop} {ts us : List Token}

theorem append (h : Begins P ts) (us : List Token) : Begins P (ts ++ us) := by
  cases ts with
  | nil => exact h.elim
  | cons t ts => exact h

theorem imp (h : Begins P ts) (hpq : ∀ l, P l → Q l) : Begins Q ts := by
  cases ts with
  | nil => exact h
  | cons t ts => exact hpq _ h

theorem length_pos (h : Begins P ts) : 0 < ts.length := by
  cases ts with
  | nil => exact h.elim
  | cons t ts => exact Nat.succ_pos _

/-- Tokens that begin with one of `P` and with none of `P` are not there. -/
theorem absurd (h : Begins P ts) (h' : Begins Q ts) (hpq : ∀ l, P l → ¬ Q l) : False := by
  cases ts with
  | nil => exact h
  | cons t ts => exact hpq _ h h'

end Begins

namespace Grammar

/-- Parts with commas between them. -/
def Part.commaList : List Part → List Part
  | [] => []
  | p :: ps => p :: ps.flatMap fun q => [.word (.fixed .comma), q]

theorem Part.exprs_commaList {α : Type} (f : α → Expr) (as : List α) :
    Part.exprs (Part.commaList (as.map fun a => .expr (f a))) = as.map f := by
  cases as with
  | nil => rfl
  | cons a as =>
    simp only [List.map_cons, commaList, exprs, List.filterMap_cons, List.cons.injEq, true_and]
    induction as with
    | nil => rfl
    | cons a as ih => simp [ih]

theorem Part.decls_commaList {α : Type} (f : α → Decl) (as : List α) :
    Part.decls (Part.commaList (as.map fun a => .decl (f a))) = as.map f := by
  cases as with
  | nil => rfl
  | cons a as =>
    simp only [List.map_cons, commaList, decls, List.filterMap_cons, List.cons.injEq, true_and]
    induction as with
    | nil => rfl
    | cons a as ih => simp [ih]

@[simp] theorem Part.decls_nil : decls [] = [] := rfl

@[simp] theorem Part.stmts_nil : stmts [] = [] := rfl

@[simp] theorem Part.decls_word (l : Lexeme) (ps : List Part) :
    decls (.word l :: ps) = decls ps := rfl

@[simp] theorem Part.stmts_word (l : Lexeme) (ps : List Part) :
    stmts (.word l :: ps) = stmts ps := rfl

@[simp] theorem Part.decls_append (ps qs : List Part) :
    decls (ps ++ qs) = decls ps ++ decls qs := List.filterMap_append

@[simp] theorem Part.stmts_append (ps qs : List Part) :
    stmts (ps ++ qs) = stmts ps ++ stmts qs := List.filterMap_append

@[simp] theorem Part.decls_map_decl (ds : List Decl) : decls (ds.map .decl) = ds := by
  rw [decls, List.filterMap_map]
  exact List.filterMap_some

@[simp] theorem Part.stmts_map_stmt (ss : List Stmt) : stmts (ss.map .stmt) = ss := by
  rw [stmts, List.filterMap_map]
  exact List.filterMap_some

@[simp] theorem Part.decls_map_stmt (ss : List Stmt) : decls (ss.map .stmt) = [] := by
  simp [decls]

@[simp] theorem Part.stmts_map_decl (ds : List Decl) : stmts (ds.map .decl) = [] := by
  simp [stmts]

theorem Part.items_map_item (is : List Item) : items (is.map .item) = is := by
  rw [items, List.filterMap_map]
  exact List.filterMap_some

/-- What a pair of braces around declarations and statements stands for. -/
theorem Part.toBlock_parts (ds : List Decl) (ss : List Stmt) :
    Part.toBlock (.word (.fixed .leftBrace) ::
      (ds.map .decl ++ (ss.map .stmt ++ [.word (.fixed .rightBrace)]))) = ⟨ds, ss, .empty⟩ := by
  simp [toBlock]

/-- What the head of a function and its body stand for. -/
theorem Part.toFunc_parts (name : String) (ps : List Part) (b : Block) :
    Part.toFunc (.word (.fixed .kwFunction) :: .word (.ident name) :: .word (.fixed .leftParen) ::
      (ps ++ [.word (.fixed .rightParen), .block b])) = ⟨⟨name, .empty⟩, decls ps, b, .empty⟩ := by
  have hlast : (Part.word (.fixed .leftParen) ::
      (ps ++ [.word (.fixed .rightParen), .block b])).getLast? = some (.block b) := by
    simp [List.getLast?_cons]
  simp only [toFunc, hlast]
  simp [decls]

/-- What a name and arguments in parentheses stand for. -/
theorem Part.toExpr_call (name : String) (ps : List Part) :
    Part.toExpr (.word (.ident name) :: .word (.fixed .leftParen) ::
      (ps ++ [.word (.fixed .rightParen)])) = .call ⟨name, .empty⟩ (exprs ps) .empty := by
  simp [toExpr, exprs]

namespace Derives

variable {n m : Nonterminal} {ts : List Token} {ps : List Part}

/-! ### Declarations -/

theorem type_cases (h : Derives (.nonterminal .type) ts ps) :
    ∃ sp, ts = [⟨.fixed .kwInt, sp⟩] ∧ ps = [.type (some .int)] ∨
      ts = [⟨.fixed .kwBool, sp⟩] ∧ ps = [.type (some .bool)] ∨
      ts = [⟨.fixed .kwVar, sp⟩] ∧ ps = [.type none] := by
  obtain ⟨_, hr, rfl⟩ := nonterminal_iff.mp h
  simp only [Nonterminal.rule, alt_iff, List.mem_cons, List.not_mem_nil, or_false] at hr
  rcases hr with ⟨_, rfl | rfl | rfl, h⟩
  all_goals obtain ⟨sp, rfl, rfl⟩ := terminal_iff.mp h
  · exact ⟨sp, .inl ⟨rfl, rfl⟩⟩
  · exact ⟨sp, .inr (.inl ⟨rfl, rfl⟩)⟩
  · exact ⟨sp, .inr (.inr ⟨rfl, rfl⟩)⟩

/-- A type and a name, as in parameters and in declarations. -/
theorem typed_cases {es : List Ebnf}
    (h : Derives (.seq (.nonterminal .type :: .ident :: es)) ts ps) :
    ∃ us t name sp vs qs, Derives (.nonterminal .type) us [.type t] ∧ Derives (.seq es) vs qs ∧
      ts = us ++ ⟨.ident name, sp⟩ :: vs ∧ ps = .type t :: .word (.ident name) :: qs := by
  simp only [seq_nonterminal_iff, seq_ident_iff] at h
  obtain ⟨us, _, _, _, rfl, rfl, ht, name, sp, vs, qs, rfl, rfl, h⟩ := h
  obtain ⟨t, rfl⟩ := part_type ht
  exact ⟨us, t, name, sp, vs, qs, ht, h, rfl, rfl⟩

theorem param_cases (h : Derives (.nonterminal .param) ts ps) :
    ∃ us t name sp, Derives (.nonterminal .type) us [.type t] ∧
      ts = us ++ [⟨.ident name, sp⟩] ∧ ps = [.decl ⟨t, ⟨name, .empty⟩, .empty⟩] := by
  obtain ⟨_, hr, rfl⟩ := nonterminal_iff.mp h
  obtain ⟨us, t, name, sp, _, _, ht, h', rfl, rfl⟩ := typed_cases hr
  obtain ⟨rfl, rfl⟩ := seq_nil_iff.mp h'
  exact ⟨us, t, name, sp, ht, rfl, rfl⟩

theorem declaration_cases (h : Derives (.nonterminal .declaration) ts ps) :
    ∃ us t name sp sp', Derives (.nonterminal .type) us [.type t] ∧
      ts = us ++ [⟨.ident name, sp⟩, ⟨.fixed .semicolon, sp'⟩] ∧
      ps = [.decl ⟨t, ⟨name, .empty⟩, .empty⟩] := by
  obtain ⟨_, hr, rfl⟩ := nonterminal_iff.mp h
  obtain ⟨us, t, name, sp, _, _, ht, h', rfl, rfl⟩ := typed_cases hr
  obtain ⟨sp', rfl, rfl⟩ := terminal_iff.mp (seq_singleton_iff.mp h')
  exact ⟨us, t, name, sp, sp', ht, rfl, rfl⟩

/-! ### Statements -/

theorem block_iff {b : Block} :
    Derives (.nonterminal .block) ts [.block b] ↔
      ∃ sp ds ss sp' declarations, ∃ statements : List Stmt,
        Derives (.many (.nonterminal .declaration)) ds (declarations.map .decl) ∧
        Derives (.many (.nonterminal .statement)) ss (statements.map .stmt) ∧
        ts = ⟨.fixed .leftBrace, sp⟩ :: (ds ++ (ss ++ [⟨.fixed .rightBrace, sp'⟩])) ∧
        b = ⟨declarations, statements, .empty⟩ := by
  rw [nonterminal_iff]
  constructor
  · rintro ⟨_, h, hp⟩
    simp only [Nonterminal.rule, seq_terminal_iff, seq_many_iff, seq_nil_iff] at h
    obtain ⟨sp, _, _, rfl, rfl, ds, _, _, _, rfl, rfl, hd, ss, _, _, _, rfl, rfl, hs, sp', _, _,
      rfl, rfl, rfl, rfl⟩ := h
    obtain ⟨declarations, rfl⟩ := parts_declaration hd
    obtain ⟨statements, rfl⟩ := parts_statement hs
    simp only [Nonterminal.build, Part.toBlock_parts, List.cons.injEq, Part.block.injEq,
      and_true] at hp
    exact ⟨sp, ds, ss, sp', declarations, statements, hd, hs, rfl, hp⟩
  · rintro ⟨sp, ds, ss, sp', declarations, statements, hd, hs, rfl, rfl⟩
    exact ⟨_, seq_terminal (hd.seq_cons (hs.seq_cons (seq_terminal seq_nil))),
      congrArg (fun b => [Part.block b]) (Part.toBlock_parts ..).symm⟩

theorem cond_iff {s : Stmt} :
    Derives (.nonterminal .cond) ts [.stmt s] ↔
      ∃ sp cs us c t, Derives (.nonterminal .expression) cs [.expr c] ∧
        Derives (.nonterminal .statement) us [.stmt t] ∧
        (ts = ⟨.fixed .kwIf, sp⟩ :: (cs ++ us) ∧ s = .cond c t none .empty ∨
          ∃ sp' vs e, Derives (.nonterminal .statement) vs [.stmt e] ∧
            ts = ⟨.fixed .kwIf, sp⟩ :: (cs ++ (us ++ ⟨.fixed .kwElse, sp'⟩ :: vs)) ∧
            s = .cond c t (some e) .empty) := by
  rw [nonterminal_iff]
  constructor
  · rintro ⟨_, h, hp⟩
    simp only [Nonterminal.rule, seq_opt_iff, seq_terminal_iff, seq_nonterminal_iff,
      seq_nil_iff] at h
    obtain ⟨sp, _, _, rfl, rfl, cs, _, _, _, rfl, rfl, hc, us, _, _, _, rfl, rfl, ht, hopt⟩ := h
    obtain ⟨c, rfl⟩ := part_expression hc
    obtain ⟨t, rfl⟩ := part_statement ht
    refine ⟨sp, cs, us, c, t, hc, ht, ?_⟩
    rcases hopt with ⟨rfl, rfl⟩ | ⟨_, _, _, _, rfl, rfl, ⟨sp', _, _, rfl, rfl, vs, _, _, _, rfl,
      rfl, he, rfl, rfl⟩, rfl, rfl⟩
    · cases hp
      exact .inl ⟨by rw [List.append_nil], rfl⟩
    · obtain ⟨e, rfl⟩ := part_statement he
      cases hp
      exact .inr ⟨sp', vs, e, he, by simp, rfl⟩
  · rintro ⟨sp, cs, us, c, t, hc, ht, ⟨rfl, rfl⟩ | ⟨sp', vs, e, he, rfl, rfl⟩⟩
    · have helse :
          Derives (.seq [.opt (.seq [.terminal .kwElse, .nonterminal .statement])]) [] [] :=
        seq_singleton_iff.mpr (opt_iff.mpr (.inl ⟨rfl, rfl⟩))
      exact ⟨_, seq_terminal (hc.seq_cons (List.append_nil us ▸ ht.seq_cons helse)), rfl⟩
    · have helse : Derives (.opt (.seq [.terminal .kwElse, .nonterminal .statement]))
          (⟨.fixed .kwElse, sp'⟩ :: vs) [.word (.fixed .kwElse), .stmt e] :=
        opt_iff.mpr (.inr (seq_terminal (seq_singleton_iff.mpr he)))
      exact ⟨_, seq_terminal (hc.seq_cons (ht.seq_cons (seq_singleton_iff.mpr helse))), rfl⟩

theorem loop_iff {s : Stmt} :
    Derives (.nonterminal .loop) ts [.stmt s] ↔
      ∃ sp cs us c t, Derives (.nonterminal .expression) cs [.expr c] ∧
        Derives (.nonterminal .statement) us [.stmt t] ∧
        ts = ⟨.fixed .kwWhile, sp⟩ :: (cs ++ us) ∧ s = .loop c t .empty := by
  rw [nonterminal_iff]
  constructor
  · rintro ⟨_, h, hp⟩
    simp only [Nonterminal.rule, seq_terminal_iff, seq_nonterminal_iff, seq_nil_iff] at h
    obtain ⟨sp, _, _, rfl, rfl, cs, _, _, _, rfl, rfl, hc, us, _, _, _, rfl, rfl, ht, rfl,
      rfl⟩ := h
    obtain ⟨c, rfl⟩ := part_expression hc
    obtain ⟨t, rfl⟩ := part_statement ht
    cases hp
    exact ⟨sp, cs, us, c, t, hc, ht, by rw [List.append_nil], rfl⟩
  · rintro ⟨sp, cs, us, c, t, hc, ht, rfl, rfl⟩
    exact ⟨_, seq_terminal (hc.seq_cons (seq_singleton_iff.mpr ht)), rfl⟩

theorem ret_cases {s : Stmt} (h : Derives (.nonterminal .ret) ts [.stmt s]) :
    ∃ sp es sp' e, Derives (.nonterminal .expression) es [.expr e] ∧
      ts = ⟨.fixed .kwReturn, sp⟩ :: (es ++ [⟨.fixed .semicolon, sp'⟩]) ∧ s = .ret e .empty := by
  obtain ⟨_, h, hs⟩ := nonterminal_iff.mp h
  simp only [Nonterminal.rule, seq_terminal_iff, seq_nonterminal_iff, seq_nil_iff] at h
  obtain ⟨sp, _, _, rfl, rfl, es, _, _, _, rfl, rfl, he, sp', _, _, rfl, rfl, rfl, rfl⟩ := h
  obtain ⟨e, rfl⟩ := part_expression he
  cases hs
  exact ⟨sp, es, sp', e, he, rfl, rfl⟩

theorem assignment_cases {s : Stmt}
    (h : Derives (.nonterminal .assignment) ts [.stmt s]) :
    ∃ name sp sp' es sp'' e, Derives (.nonterminal .expression) es [.expr e] ∧
      ts = ⟨.ident name, sp⟩ :: ⟨.fixed .assign, sp'⟩ :: (es ++ [⟨.fixed .semicolon, sp''⟩]) ∧
      s = .assign ⟨name, .empty⟩ e .empty := by
  obtain ⟨_, h, hs⟩ := nonterminal_iff.mp h
  simp only [Nonterminal.rule, seq_ident_iff, seq_terminal_iff, seq_nonterminal_iff,
    seq_nil_iff] at h
  obtain ⟨name, sp, _, _, rfl, rfl, sp', _, _, rfl, rfl, es, _, _, _, rfl, rfl, he, sp'', _, _, rfl,
    rfl, rfl, rfl⟩ := h
  obtain ⟨e, rfl⟩ := part_expression he
  cases hs
  exact ⟨name, sp, sp', es, sp'', e, he, rfl, rfl⟩

theorem statement_iff {s : Stmt} :
    Derives (.nonterminal .statement) ts [.stmt s] ↔
      (∃ b, Derives (.nonterminal .block) ts [.block b] ∧ s = .ofBlock b) ∨
      Derives (.nonterminal .cond) ts [.stmt s] ∨ Derives (.nonterminal .loop) ts [.stmt s] ∨
      Derives (.nonterminal .ret) ts [.stmt s] ∨
      Derives (.nonterminal .assignment) ts [.stmt s] := by
  rw [nonterminal_iff]
  simp only [Nonterminal.rule, alt_iff, List.mem_cons, List.not_mem_nil, or_false]
  constructor
  · rintro ⟨qs, ⟨_, rfl | rfl | rfl | rfl | rfl, h⟩, hs⟩
    all_goals obtain ⟨rs, hr, rfl⟩ := nonterminal_iff.mp h
    all_goals cases hs
    · exact .inl ⟨_, h, rfl⟩
    · exact .inr (.inl h)
    · exact .inr (.inr (.inl h))
    · exact .inr (.inr (.inr (.inl h)))
    · exact .inr (.inr (.inr (.inr h)))
  · rintro (⟨b, h, rfl⟩ | h | h | h | h)
    all_goals refine ⟨_, ⟨_, ?_, h⟩, rfl⟩
    all_goals simp

theorem cond {cs us : List Token} {c : Expr} {t : Stmt}
    (hc : Derives (.nonterminal .expression) cs [.expr c])
    (ht : Derives (.nonterminal .statement) us [.stmt t]) (w : Span) :
    Derives (.nonterminal .statement) (⟨.fixed .kwIf, w⟩ :: (cs ++ us))
      [.stmt (.cond c t none .empty)] :=
  statement_iff.mpr (.inr (.inl (cond_iff.mpr ⟨w, cs, us, c, t, hc, ht, .inl ⟨rfl, rfl⟩⟩)))

theorem condElse {cs us vs : List Token} {c : Expr} {t e : Stmt}
    (hc : Derives (.nonterminal .expression) cs [.expr c])
    (ht : Derives (.nonterminal .statement) us [.stmt t])
    (he : Derives (.nonterminal .statement) vs [.stmt e]) (w w' : Span) :
    Derives (.nonterminal .statement)
      (⟨.fixed .kwIf, w⟩ :: (cs ++ (us ++ ⟨.fixed .kwElse, w'⟩ :: vs)))
      [.stmt (.cond c t (some e) .empty)] :=
  statement_iff.mpr (.inr (.inl (cond_iff.mpr
    ⟨w, cs, us, c, t, hc, ht, .inr ⟨w', vs, e, he, rfl, rfl⟩⟩)))

theorem loop {cs us : List Token} {c : Expr} {t : Stmt}
    (hc : Derives (.nonterminal .expression) cs [.expr c])
    (ht : Derives (.nonterminal .statement) us [.stmt t]) (w : Span) :
    Derives (.nonterminal .statement) (⟨.fixed .kwWhile, w⟩ :: (cs ++ us))
      [.stmt (.loop c t .empty)] :=
  statement_iff.mpr (.inr (.inr (.inl (loop_iff.mpr ⟨w, cs, us, c, t, hc, ht, rfl, rfl⟩))))

/-! ### Lists with commas -/

/-- A word and a phrase after it. -/
theorem prefixed_cases {t : Terminal}
    (h : Derives (.seq [.terminal t, .nonterminal n]) ts ps) :
    ∃ s us p, Derives (.nonterminal n) us [p] ∧ ts = ⟨.fixed t, s⟩ :: us ∧
      ps = [.word (.fixed t), p] := by
  obtain ⟨s, us, qs, rfl, rfl, h'⟩ := seq_terminal_iff.mp h
  obtain ⟨_, _, p, _, rfl, rfl, hp, hnil⟩ := seq_nonterminal_iff.mp h'
  obtain ⟨rfl, rfl⟩ := seq_nil_iff.mp hnil
  exact ⟨s, _, p, hp, by rw [List.append_nil], rfl⟩

theorem commaList_cases (h : Derives (.commaList (.nonterminal n)) ts ps) :
    ts = [] ∧ ps = [] ∨ ∃ us vs p qs, Derives (.nonterminal n) us [p] ∧
      Derives (.many (.seq [.terminal .comma, .nonterminal n])) vs qs ∧
      ts = us ++ vs ∧ ps = p :: qs := by
  refine (opt_iff.mp h).imp_right fun h => ?_
  obtain ⟨us, vs, p, qs, rfl, rfl, h, h'⟩ := seq_nonterminal_iff.mp h
  exact ⟨us, vs, p, qs, h, seq_singleton_iff.mp h', rfl, rfl⟩

/-! ### Functions and entries -/

theorem function_iff {f : FunDef} :
    Derives (.nonterminal .function) ts [.func f] ↔
      ∃ sp name sp' sp₁ us qs sp₂ vs b, Derives (.commaList (.nonterminal .param)) us qs ∧
        Derives (.nonterminal .block) vs [.block b] ∧
        ts = ⟨.fixed .kwFunction, sp⟩ :: ⟨.ident name, sp'⟩ :: ⟨.fixed .leftParen, sp₁⟩ ::
          (us ++ ⟨.fixed .rightParen, sp₂⟩ :: vs) ∧
        f = ⟨⟨name, .empty⟩, Part.decls qs, b, .empty⟩ := by
  rw [nonterminal_iff]
  constructor
  · rintro ⟨_, h, hp⟩
    simp only [Nonterminal.rule, seq_cons_iff (e := .commaList _), seq_nonterminal_iff,
      seq_ident_iff,
      seq_terminal_iff, seq_nil_iff] at h
    obtain ⟨sp, _, _, rfl, rfl, name, sp', _, _, rfl, rfl, sp₁, _, _, rfl, rfl, us, _, qs, _, rfl,
      rfl, hq, sp₂, _, _, rfl, rfl, vs, _, _, _, rfl, rfl, hb, rfl, rfl⟩ := h
    obtain ⟨b, rfl⟩ := part_block hb
    simp only [Nonterminal.build, Part.toFunc_parts, List.cons.injEq, Part.func.injEq,
      and_true] at hp
    exact ⟨sp, name, sp', sp₁, us, qs, sp₂, vs, b, hq, hb, by simp, hp⟩
  · rintro ⟨sp, name, sp', sp₁, us, qs, sp₂, vs, b, hq, hb, rfl, rfl⟩
    exact ⟨_, seq_terminal (seq_ident (seq_terminal (hq.seq_cons (seq_terminal
      (seq_singleton_iff.mpr hb))))), congrArg (fun f => [Part.func f]) (Part.toFunc_parts ..).symm⟩

theorem item_iff {i : Item} :
    Derives (.nonterminal .item) ts [.item i] ↔
      (∃ f, Derives (.nonterminal .function) ts [.func f] ∧ i = .function f) ∨
      (∃ d, Derives (.nonterminal .declaration) ts [.decl d] ∧ i = .declaration d) ∨
      ∃ s, Derives (.nonterminal .statement) ts [.stmt s] ∧ i = .statement s := by
  rw [nonterminal_iff]
  simp only [Nonterminal.rule, alt_iff, List.mem_cons, List.not_mem_nil, or_false]
  constructor
  · rintro ⟨_, ⟨_, rfl | rfl | rfl, h⟩, hi⟩
    all_goals obtain ⟨_, -, rfl⟩ := nonterminal_iff.mp h
    all_goals cases hi
    · exact .inl ⟨_, h, rfl⟩
    · exact .inr (.inl ⟨_, h, rfl⟩)
    · exact .inr (.inr ⟨_, h, rfl⟩)
  · rintro (⟨f, h, rfl⟩ | ⟨d, h, rfl⟩ | ⟨s, h, rfl⟩)
    all_goals refine ⟨_, ⟨_, ?_, h⟩, rfl⟩
    all_goals simp

/-- Items stand for the entry that they make. -/
theorem toEntry_items (is : List Item) : Part.toEntry (is.map .item) = .ofItems is := by
  have hi := Part.items_map_item is
  match is with
  | [] => rfl
  | [.function f] | [.declaration d] | [.statement s] => rfl
  | i :: j :: is =>
    simp only [List.map_cons] at hi
    simp only [List.map_cons, Part.toEntry, Entry.ofItems, hi]
    rfl

theorem unit_iff {v : Entry} :
    Derives (.nonterminal .unit) ts [.entry v] ↔
      (∃ us e, Derives (.nonterminal .expression) us [.expr e] ∧
        (ts = us ∨ ∃ sp, ts = us ++ [⟨.fixed .semicolon, sp⟩]) ∧ v = .expression e) ∨
      ∃ is : List Item, Derives (.many (.nonterminal .item)) ts (is.map .item) ∧
        v = .ofItems is := by
  rw [nonterminal_iff]
  simp only [Nonterminal.rule, alt_iff, List.mem_cons, List.not_mem_nil, or_false]
  constructor
  · rintro ⟨_, ⟨_, rfl | rfl, h⟩, hv⟩
    · obtain ⟨us, vs, p, qs, rfl, rfl, he, h'⟩ := seq_nonterminal_iff.mp h
      obtain ⟨e, rfl⟩ := part_expression he
      cases hv
      refine .inl ⟨us, e, he, ?_, rfl⟩
      rw [seq_singleton_iff, opt_iff, terminal_iff] at h'
      rcases h' with ⟨rfl, -⟩ | ⟨sp, rfl, -⟩
      · exact .inl (List.append_nil us)
      · exact .inr ⟨sp, rfl⟩
    · obtain ⟨is, rfl⟩ := parts_item h
      cases hv
      exact .inr ⟨is, h, toEntry_items is⟩
  · rintro (⟨us, e, he, h, rfl⟩ | ⟨is, h, rfl⟩)
    · obtain ⟨vs, qs, rfl, h'⟩ : ∃ vs qs, ts = us ++ vs ∧
          Derives (.seq [.opt (.terminal .semicolon)]) vs qs := by
        simp only [seq_singleton_iff, opt_iff, terminal_iff]
        rcases h with rfl | ⟨sp, rfl⟩
        · exact ⟨[], [], by simp, .inl ⟨rfl, rfl⟩⟩
        · exact ⟨_, _, rfl, .inr ⟨sp, rfl, rfl⟩⟩
      exact ⟨_, ⟨_, .inl rfl, he.seq_cons h'⟩, rfl⟩
    · exact ⟨_, ⟨_, .inr rfl, h⟩, by rw [Nonterminal.build, toEntry_items]⟩

/-! ### Expressions -/

/-- A level of operators: an operand, and operators with operands after it. -/
theorem operated_cases {ops : List Terminal} (hn : n.rule = .operated m ops)
    (h : Derives (.nonterminal n) ts ps) :
    ∃ us vs p qs, Derives (.nonterminal m) us [p] ∧
      Derives (.many (.seq [.alt (ops.map .terminal), .nonterminal m])) vs qs ∧
      ts = us ++ vs ∧ ps = [n.build (p :: qs)] := by
  obtain ⟨_, hr, rfl⟩ := nonterminal_iff.mp h
  rw [hn, Ebnf.operated] at hr
  obtain ⟨us, vs, p, qs, rfl, rfl, h, h'⟩ := seq_nonterminal_iff.mp hr
  exact ⟨us, vs, p, qs, h, seq_singleton_iff.mp h', rfl, rfl⟩

/-- One operand alone is of the level above it as well. -/
theorem of_operand {ops : List Terminal} (hn : n.rule = .operated m ops)
    (hb : ∀ qs, n.build qs = .expr (Part.toExpr qs)) {e : Expr}
    (h : Derives (.nonterminal m) ts [.expr e]) : Derives (.nonterminal n) ts [.expr e] := by
  refine nonterminal_iff.mpr ⟨[.expr e], ?_, by rw [hb]; rfl⟩
  rw [hn, Ebnf.operated, ← List.append_nil ts]
  exact h.seq_cons (seq_singleton_iff.mpr many_nil)

section Levels

variable {e : Expr}

theorem term_of_primary (h : Derives (.nonterminal .primary) ts [.expr e]) :
    Derives (.nonterminal .term) ts [.expr e] := of_operand rfl (fun _ => rfl) h

theorem additive_of_term (h : Derives (.nonterminal .term) ts [.expr e]) :
    Derives (.nonterminal .additive) ts [.expr e] := of_operand rfl (fun _ => rfl) h

theorem comparison_of_additive (h : Derives (.nonterminal .additive) ts [.expr e]) :
    Derives (.nonterminal .comparison) ts [.expr e] := of_operand rfl (fun _ => rfl) h

theorem equality_of_comparison (h : Derives (.nonterminal .comparison) ts [.expr e]) :
    Derives (.nonterminal .equality) ts [.expr e] := of_operand rfl (fun _ => rfl) h

theorem and_of_equality (h : Derives (.nonterminal .equality) ts [.expr e]) :
    Derives (.nonterminal .and) ts [.expr e] := of_operand rfl (fun _ => rfl) h

theorem or_of_and (h : Derives (.nonterminal .and) ts [.expr e]) :
    Derives (.nonterminal .or) ts [.expr e] := of_operand rfl (fun _ => rfl) h

theorem expression_of_or (h : Derives (.nonterminal .or) ts [.expr e]) :
    Derives (.nonterminal .expression) ts [.expr e] := nonterminal_iff.mpr ⟨_, h, rfl⟩

theorem expression_of_primary (h : Derives (.nonterminal .primary) ts [.expr e]) :
    Derives (.nonterminal .expression) ts [.expr e] := by
  have hcomparison := comparison_of_additive (additive_of_term (term_of_primary h))
  exact expression_of_or (or_of_and (and_of_equality (equality_of_comparison hcomparison)))

end Levels

theorem expression_ident (name : String) (s : Span) :
    Derives (.nonterminal .expression) [⟨.ident name, s⟩] [.expr (.ident ⟨name, .empty⟩)] :=
  expression_of_primary (nonterminal_iff.mpr ⟨_, alt_iff.mpr ⟨.ident, by simp,
    ident_iff.mpr ⟨name, s, rfl, rfl⟩⟩, rfl⟩)

/-- An operator and the operand after it. -/
theorem operator_cases {ops : List BinOp}
    (h : Derives (.seq [.alt ((ops.map BinOp.terminal).map .terminal), .nonterminal m]) ts ps) :
    ∃ op ∈ ops, ∃ s us p, Derives (.nonterminal m) us [p] ∧
      ts = ⟨.fixed op.terminal, s⟩ :: us ∧ ps = [.word (.fixed op.terminal), p] := by
  obtain ⟨us, vs, qs, rs, rfl, rfl, h', hm⟩ := seq_cons_iff.mp h
  obtain ⟨_, he, h'⟩ := alt_iff.mp h'
  obtain ⟨_, ht, rfl⟩ := List.mem_map.mp he
  obtain ⟨op, hop, rfl⟩ := List.mem_map.mp ht
  obtain ⟨s, us, p, hp, hts, hps⟩ :=
    prefixed_cases (seq_cons_iff.mpr ⟨us, vs, qs, rs, rfl, rfl, h', hm⟩)
  exact ⟨op, hop, s, us, p, hp, hts, hps⟩

theorem call_cases {e : Expr} (h : Derives (.nonterminal .call) ts [.expr e]) :
    ∃ name sp sp' us qs sp'', Derives (.commaList (.nonterminal .expression)) us qs ∧
      ts = ⟨.ident name, sp⟩ :: ⟨.fixed .leftParen, sp'⟩ :: (us ++ [⟨.fixed .rightParen, sp''⟩]) ∧
      e = .call ⟨name, .empty⟩ (Part.exprs qs) .empty := by
  obtain ⟨_, h, he⟩ := nonterminal_iff.mp h
  simp only [Nonterminal.rule, seq_cons_iff (e := .commaList _), seq_ident_iff, seq_terminal_iff,
    seq_nil_iff] at h
  obtain ⟨name, sp, _, _, rfl, rfl, sp', _, _, rfl, rfl, us, _, qs, _, rfl, rfl, hq, sp'',
    _, _, rfl,
    rfl, rfl, rfl⟩ := h
  simp only [Nonterminal.build, Part.toExpr_call, List.cons.injEq, Part.expr.injEq, and_true] at he
  exact ⟨name, sp, sp', us, qs, sp'', hq, rfl, he⟩

theorem primary_cases {e : Expr} (h : Derives (.nonterminal .primary) ts [.expr e]) :
    (∃ digits sp, (Lexeme.integer digits).Fits ∧ ts = [⟨.integer digits, sp⟩] ∧
      e = .integer (Int64.ofNat (Expr.digitsValue digits.toList)) .empty) ∨
    (∃ sp, ts = [⟨.fixed .kwTrue, sp⟩] ∧ e = .boolean true .empty) ∨
    (∃ sp, ts = [⟨.fixed .kwFalse, sp⟩] ∧ e = .boolean false .empty) ∨
    Derives (.nonterminal .call) ts [.expr e] ∨
    (∃ name sp, ts = [⟨.ident name, sp⟩] ∧ e = .ident ⟨name, .empty⟩) ∨
    ∃ sp us sp', Derives (.nonterminal .expression) us [.expr e] ∧
      ts = ⟨.fixed .leftParen, sp⟩ :: (us ++ [⟨.fixed .rightParen, sp'⟩]) := by
  obtain ⟨_, hr, he⟩ := nonterminal_iff.mp h
  simp only [Nonterminal.rule, alt_iff, List.mem_cons, List.not_mem_nil, or_false] at hr
  rcases hr with ⟨_, rfl | rfl | rfl | rfl | rfl | rfl, h'⟩
  · obtain ⟨digits, sp, rfl, rfl, fits⟩ := integer_iff.mp h'
    cases he
    exact .inl ⟨digits, sp, fits, rfl, rfl⟩
  · obtain ⟨sp, rfl, rfl⟩ := terminal_iff.mp h'
    cases he
    exact .inr (.inl ⟨sp, rfl, rfl⟩)
  · obtain ⟨sp, rfl, rfl⟩ := terminal_iff.mp h'
    cases he
    exact .inr (.inr (.inl ⟨sp, rfl, rfl⟩))
  · obtain ⟨_, -, rfl⟩ := nonterminal_iff.mp h'
    cases he
    exact .inr (.inr (.inr (.inl h')))
  · obtain ⟨name, sp, rfl, rfl⟩ := ident_iff.mp h'
    cases he
    exact .inr (.inr (.inr (.inr (.inl ⟨name, sp, rfl, rfl⟩))))
  · simp only [seq_terminal_iff, seq_nonterminal_iff, seq_nil_iff] at h'
    obtain ⟨sp, _, _, rfl, rfl, us, _, _, _, rfl, rfl, hu, sp', _, _, rfl, rfl, rfl, rfl⟩ := h'
    obtain ⟨_, rfl⟩ := part_expression hu
    cases he
    exact .inr (.inr (.inr (.inr (.inr ⟨sp, us, sp', hu, rfl⟩))))

/-! ### First tokens -/

/-- A repetition begins with what its parts begin with, if there are any. -/
theorem begins_many {e : Ebnf} {P : Lexeme → Prop}
    (he : ∀ {us qs}, Derives e us qs → Begins P us) (h : Derives (.many e) ts ps) :
    ts = [] ∨ Begins P ts :=
  many_induction h (.inl rfl) fun h _ _ => .inr ((he h).append _)

theorem begins_seq_terminal {es : List Ebnf} {t : Terminal}
    (h : Derives (.seq (.terminal t :: es)) ts ps) : Begins (· = .fixed t) ts := by
  obtain ⟨s, us, qs, rfl, -, -⟩ := seq_terminal_iff.mp h
  rfl

theorem begins_operator {ops : List BinOp}
    (h : Derives (.seq [.alt ((ops.map BinOp.terminal).map .terminal), .nonterminal m]) ts ps) :
    Begins (fun l => ∃ op ∈ ops, l = .fixed op.terminal) ts := by
  obtain ⟨op, hop, _, _, _, -, rfl, -⟩ := operator_cases h
  exact ⟨op, hop, rfl⟩

/-- A level of operators begins with what its operands begin with. -/
theorem begins_operated {ops : List Terminal} {P : Lexeme → Prop}
    (hn : n.rule = .operated m ops)
    (hm : ∀ {us p}, Derives (.nonterminal m) us [p] → Begins P us)
    (h : Derives (.nonterminal n) ts ps) : Begins P ts := by
  obtain ⟨us, vs, p, qs, hu, -, rfl, -⟩ := operated_cases hn h
  exact (hm hu).append vs

theorem begins_primary {p : Part} (h : Derives (.nonterminal .primary) ts [p]) :
    Begins Lexeme.OpensExpr ts := by
  obtain ⟨e, rfl⟩ : ∃ e, p = .expr e := part (fun _ => ⟨_, rfl⟩) h
  rcases primary_cases h with ⟨_, _, _, rfl, -⟩ | ⟨_, rfl, -⟩ | ⟨_, rfl, -⟩ | h | ⟨_, _, rfl, -⟩ |
    ⟨_, _, _, -, rfl⟩
  case inr.inr.inr.inl =>
    obtain ⟨_, _, _, _, _, _, -, rfl, -⟩ := call_cases h
    trivial
  all_goals trivial

theorem begins_expression (h : Derives (.nonterminal .expression) ts ps) :
    Begins Lexeme.OpensExpr ts := by
  obtain ⟨_, h, -⟩ := nonterminal_iff.mp h
  refine begins_operated (m := .and) rfl (fun h => ?_) h
  refine begins_operated (m := .equality) rfl (fun h => ?_) h
  refine begins_operated (m := .comparison) rfl (fun h => ?_) h
  refine begins_operated (m := .additive) rfl (fun h => ?_) h
  refine begins_operated (m := .term) rfl (fun h => ?_) h
  exact begins_operated (m := .primary) rfl begins_primary h

theorem begins_type (h : Derives (.nonterminal .type) ts ps) :
    Begins Lexeme.OpensDecl ts := by
  rcases type_cases h with ⟨_, ⟨rfl, -⟩ | ⟨rfl, -⟩ | ⟨rfl, -⟩⟩
  all_goals trivial

theorem begins_param (h : Derives (.nonterminal .param) ts ps) :
    Begins Lexeme.OpensDecl ts := by
  obtain ⟨us, _, _, _, ht, rfl, -⟩ := param_cases h
  exact (begins_type ht).append _

theorem begins_declaration (h : Derives (.nonterminal .declaration) ts ps) :
    Begins Lexeme.OpensDecl ts := by
  obtain ⟨us, _, _, _, _, ht, rfl, -⟩ := declaration_cases h
  exact (begins_type ht).append _

theorem begins_statement (h : Derives (.nonterminal .statement) ts ps) :
    Begins Lexeme.OpensStmt ts := by
  obtain ⟨_, -, rfl⟩ := nonterminal_iff.mp h
  rcases statement_iff.mp h with ⟨b, h, -⟩ | h | h | h | h
  · obtain ⟨_, _, _, _, _, _, -, -, rfl, -⟩ := block_iff.mp h
    trivial
  · obtain ⟨_, _, _, _, _, -, -, ⟨rfl, -⟩ | ⟨_, _, _, -, rfl, -⟩⟩ := cond_iff.mp h
    all_goals trivial
  · obtain ⟨_, _, _, _, _, -, -, rfl, -⟩ := loop_iff.mp h
    trivial
  · obtain ⟨_, _, _, _, -, rfl, -⟩ := ret_cases h
    trivial
  · obtain ⟨_, _, _, _, _, _, -, rfl, -⟩ := assignment_cases h
    trivial

theorem begins_item (h : Derives (.nonterminal .item) ts ps) :
    Begins (fun l => l = .fixed .kwFunction ∨ l.OpensDecl ∨ l.OpensStmt) ts := by
  obtain ⟨_, -, rfl⟩ := nonterminal_iff.mp h
  rcases item_iff.mp h with ⟨f, h, -⟩ | ⟨d, h, -⟩ | ⟨s, h, -⟩
  · obtain ⟨_, _, _, _, _, _, _, _, _, -, -, rfl, -⟩ := function_iff.mp h
    exact .inl rfl
  · exact (begins_declaration h).imp fun _ hl => .inr (.inl hl)
  · exact (begins_statement h).imp fun _ hl => .inr (.inr hl)

/-- An item begins like no expression, or it is an assignment. -/
theorem item_begins_or_assigns (h : Derives (.nonterminal .item) ts ps) :
    Begins (fun l => ¬ l.OpensExpr) ts ∨
      ∃ name s s' us, ts = ⟨.ident name, s⟩ :: ⟨.fixed .assign, s'⟩ :: us := by
  obtain ⟨i, rfl⟩ := item_eq h
  rcases item_iff.mp h with ⟨f, h, -⟩ | ⟨d, h, -⟩ | ⟨s, h, -⟩
  · obtain ⟨_, _, _, _, _, _, _, _, _, -, -, rfl, -⟩ := function_iff.mp h
    exact .inl id
  · exact .inl ((begins_declaration h).imp fun _ => Lexeme.OpensDecl.not_opensExpr)
  · rcases statement_iff.mp h with ⟨b, h, -⟩ | h | h | h | h
    · obtain ⟨_, _, _, _, _, _, -, -, rfl, -⟩ := block_iff.mp h
      exact .inl id
    · obtain ⟨_, _, _, _, _, -, -, ⟨rfl, -⟩ | ⟨_, _, _, -, rfl, -⟩⟩ := cond_iff.mp h
      all_goals exact .inl id
    · obtain ⟨_, _, _, _, _, -, -, rfl, -⟩ := loop_iff.mp h
      exact .inl id
    · obtain ⟨_, _, _, _, -, rfl, -⟩ := ret_cases h
      exact .inl id
    · obtain ⟨name, s, s', _, _, _, -, rfl, -⟩ := assignment_cases h
      exact .inr ⟨name, s, s', _, rfl⟩

end Derives

end Grammar

end Implet
