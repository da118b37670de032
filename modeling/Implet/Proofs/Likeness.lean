/-
Implet/Proofs/Likeness.lean

Trees that differ in their spans only.  A relation `R` says which span may stand
in the place of which other one; two trees are alike when they are the same but
for their spans, and `R` relates the spans at each place.

All that is shown of a tree is its outline, and where it was read is not seen
there, so trees that are alike are shown alike.  How little is asked of the
spans is up to `R`: where it relates any two, trees are alike when they are the
same without their spans (`Entry.Like.bare`), and a tree is like itself for each
property that all of its spans have (`Entry.like_self`).
-/
import Mathlib.Data.List.Forall2
import Implet.Syntax.Outline
import Implet.Proofs.Placement

namespace Implet

variable (R : Span → Span → Prop)

/-! ### Trees -/

/-- The same name. -/
structure Ident.Like (id id' : Ident) : Prop where
  name : id'.name = id.name
  span : R id.span id'.span

/-- The same declaration. -/
structure Decl.Like (d d' : Decl) : Prop where
  type : d'.type = d.type
  name : d.name.Like R d'.name
  span : R d.span d'.span

/-- The same expression. -/
inductive Expr.Like : Expr → Expr → Prop
  | integer (n : Int64) {s s' : Span} : R s s' → Like (.integer n s) (.integer n s')
  | boolean (b : Bool) {s s' : Span} : R s s' → Like (.boolean b s) (.boolean b s')
  | ident {id id' : Ident} : id.Like R id' → Like (.ident id) (.ident id')
  | binary (op : BinOp) {left left' right right' : Expr} {s s' : Span} : Like left left' →
    Like right right' → R s s' → Like (.binary op left right s) (.binary op left' right' s')
  | call {func func' : Ident} {args args' : List Expr} {s s' : Span} : func.Like R func' →
    List.Forall₂ Like args args' → R s s' → Like (.call func args s) (.call func' args' s')

/-- The same statement. -/
inductive Stmt.Like : Stmt → Stmt → Prop
  | block {ds ds' : List Decl} {ss ss' : List Stmt} {s s' : Span} :
    List.Forall₂ (Decl.Like R) ds ds' → List.Forall₂ Like ss ss' → R s s' →
    Like (.block ds ss s) (.block ds' ss' s')
  | cond {condition condition' : Expr} {thenBranch thenBranch' : Stmt} {s s' : Span} :
    condition.Like R condition' → Like thenBranch thenBranch' → R s s' →
    Like (.cond condition thenBranch none s) (.cond condition' thenBranch' none s')
  | condElse {condition condition' : Expr} {thenBranch thenBranch' elseBranch elseBranch' : Stmt}
    {s s' : Span} : condition.Like R condition' → Like thenBranch thenBranch' →
    Like elseBranch elseBranch' → R s s' →
    Like (.cond condition thenBranch (some elseBranch) s)
      (.cond condition' thenBranch' (some elseBranch') s')
  | loop {condition condition' : Expr} {body body' : Stmt} {s s' : Span} :
    condition.Like R condition' → Like body body' → R s s' →
    Like (.loop condition body s) (.loop condition' body' s')
  | assign {target target' : Ident} {value value' : Expr} {s s' : Span} : target.Like R target' →
    value.Like R value' → R s s' → Like (.assign target value s) (.assign target' value' s')
  | ret {value value' : Expr} {s s' : Span} : value.Like R value' → R s s' →
    Like (.ret value s) (.ret value' s')

/-- The same block. -/
structure Block.Like (b b' : Block) : Prop where
  declarations : List.Forall₂ (Decl.Like R) b.declarations b'.declarations
  statements : List.Forall₂ (Stmt.Like R) b.statements b'.statements
  span : R b.span b'.span

/-- The same function. -/
structure FunDef.Like (f f' : FunDef) : Prop where
  name : f.name.Like R f'.name
  params : List.Forall₂ (Decl.Like R) f.params f'.params
  body : f.body.Like R f'.body
  span : R f.span f'.span

/-- The same item. -/
inductive Item.Like : Item → Item → Prop
  | function {f f' : FunDef} : f.Like R f' → Like (.function f) (.function f')
  | declaration {d d' : Decl} : d.Like R d' → Like (.declaration d) (.declaration d')
  | statement {s s' : Stmt} : s.Like R s' → Like (.statement s) (.statement s')

/-- The same program. -/
structure Program.Like (p p' : Program) : Prop where
  functions : List.Forall₂ (FunDef.Like R) p.functions p'.functions
  globals : List.Forall₂ (Decl.Like R) p.globals p'.globals
  main : List.Forall₂ (Stmt.Like R) p.main p'.main

/-- The same entry. -/
inductive Entry.Like : Entry → Entry → Prop
  | program {p p' : Program} : p.Like R p' → Like (.program p) (.program p')
  | function {f f' : FunDef} : f.Like R f' → Like (.function f) (.function f')
  | declaration {d d' : Decl} : d.Like R d' → Like (.declaration d) (.declaration d')
  | statement {s s' : Stmt} : s.Like R s' → Like (.statement s) (.statement s')
  | expression {e e' : Expr} : e.Like R e' → Like (.expression e) (.expression e')

variable {R}

theorem Expr.Like.span {e e' : Expr} (h : e.Like R e') : R e.span e'.span := by
  cases h with
  | ident hid => exact hid.span
  | integer _ hs | boolean _ hs | binary _ _ _ hs | call _ _ hs => exact hs

theorem Stmt.Like.span {s s' : Stmt} (h : s.Like R s') : R s.span s'.span := by
  cases h with
  | block _ _ hs | cond _ _ hs | condElse _ _ _ hs | loop _ _ hs | assign _ _ hs | ret _ hs =>
    exact hs

theorem Block.Like.toStmt {b b' : Block} (h : b.Like R b') :
    (Stmt.ofBlock b).Like R (Stmt.ofBlock b') := .block h.declarations h.statements h.span

/-- Items that are alike make entries that are alike. -/
theorem Entry.like_ofItems {is is' : List Item} (h : List.Forall₂ (Item.Like R) is is') :
    (ofItems is).Like R (ofItems is') := by
  have hfunctions : Relator.LiftFun (Item.Like R) (Option.Rel (FunDef.Like R)) Item.function?
      Item.function? := by
    rintro _ _ (hf | hd | hs)
    exacts [.some hf, .none, .none]
  have hglobals : Relator.LiftFun (Item.Like R) (Option.Rel (Decl.Like R)) Item.declaration?
      Item.declaration? := by
    rintro _ _ (hf | hd | hs)
    exacts [.none, .some hd, .none]
  have hmain : Relator.LiftFun (Item.Like R) (Option.Rel (Stmt.Like R)) Item.statement?
      Item.statement? := by
    rintro _ _ (hf | hd | hs)
    exacts [.none, .none, .some hs]
  have hprogram : Program.Like R
      ⟨is.filterMap Item.function?, is.filterMap Item.declaration?, is.filterMap Item.statement?⟩
      ⟨is'.filterMap Item.function?, is'.filterMap Item.declaration?,
        is'.filterMap Item.statement?⟩ :=
    ⟨List.rel_filterMap hfunctions h, List.rel_filterMap hglobals h, List.rel_filterMap hmain h⟩
  cases h with
  | nil => exact .program hprogram
  | cons hi his =>
    cases his with
    | cons hj his => cases hi <;> exact .program hprogram
    | nil =>
      cases hi with
      | function hf => exact .function hf
      | declaration hd => exact .declaration hd
      | statement hs => exact .statement hs

/-- What is the same for any two that are alike is the same for lists of them. -/
theorem map_eq_of_like {α β : Type} {A : α → α → Prop} {f : α → β} {as as' : List α}
    (h : List.Forall₂ A as as') (hf : ∀ a a', A a a' → f a' = f a) : as'.map f = as.map f := by
  induction h with
  | nil => rfl
  | cons ha _ ih => rw [List.map_cons, List.map_cons, hf _ _ ha, ih]

/-! ### Trees that are alike are shown alike -/

theorem Decl.Like.text {d d' : Decl} (h : d.Like R d') : d'.text = d.text := by
  rw [Decl.text, Decl.text, h.type, h.name.name]

mutual

theorem Expr.Like.textWithin {nested : Bool} :
    {e e' : Expr} → e.Like R e' → e'.textWithin nested = e.textWithin nested
  | _, _, .integer _ _ | _, _, .boolean _ _ => by rw [Expr.textWithin, Expr.textWithin]
  | _, _, .ident hid => by rw [Expr.textWithin, Expr.textWithin, hid.name]
  | _, _, .binary _ hl hr _ => by
    rw [Expr.textWithin, Expr.textWithin, hl.textWithin, hr.textWithin]
  | _, _, .call hf hargs _ => by
    rw [Expr.textWithin, Expr.textWithin, hf.name, argumentTexts_of_like hargs]

theorem argumentTexts_of_like : {es es' : List Expr} → List.Forall₂ (Expr.Like R) es es' →
    argumentTexts es' = argumentTexts es
  | _, _, .nil => rfl
  | _, _, .cons h hs => by
    rw [argumentTexts, argumentTexts, h.textWithin, argumentTexts_of_like hs]

end

theorem Expr.Like.text {e e' : Expr} (h : e.Like R e') : e'.text = e.text := h.textWithin

theorem Decl.Like.outlineAt {level : Nat} {d d' : Decl} (h : d.Like R d') :
    d'.outlineAt level = d.outlineAt level := by
  rw [Decl.outlineAt, Decl.outlineAt, h.text]

mutual

theorem Stmt.Like.outlineAt {level : Nat} :
    {s s' : Stmt} → s.Like R s' → s'.outlineAt level = s.outlineAt level
  | _, _, .block hds hss _ => by
    rw [Stmt.outlineAt, Stmt.outlineAt, map_eq_of_like hds fun _ _ hd => hd.outlineAt,
      outlineStmts_of_like hss]
  | _, _, .cond hc ht _ => by rw [Stmt.outlineAt, Stmt.outlineAt, hc.text, ht.outlineAt]
  | _, _, .condElse hc ht he _ => by
    rw [Stmt.outlineAt, Stmt.outlineAt, hc.text, ht.outlineAt, he.outlineAt]
  | _, _, .loop hc hb _ => by rw [Stmt.outlineAt, Stmt.outlineAt, hc.text, hb.outlineAt]
  | _, _, .assign ht hv _ => by rw [Stmt.outlineAt, Stmt.outlineAt, ht.name, hv.text]
  | _, _, .ret hv _ => by rw [Stmt.outlineAt, Stmt.outlineAt, hv.text]

theorem outlineStmts_of_like {level : Nat} : {ss ss' : List Stmt} →
    List.Forall₂ (Stmt.Like R) ss ss' → outlineStmts level ss' = outlineStmts level ss
  | _, _, .nil => rfl
  | _, _, .cons h hs => by
    rw [outlineStmts, outlineStmts, h.outlineAt, outlineStmts_of_like hs]

end

theorem FunDef.Like.outlineAt {level : Nat} {f f' : FunDef} (h : f.Like R f') :
    f'.outlineAt level = f.outlineAt level := by
  rw [FunDef.outlineAt, FunDef.outlineAt, h.name.name,
    map_eq_of_like h.params fun _ _ hd => hd.text, h.body.toStmt.outlineAt]

theorem Program.Like.outlineAt {level : Nat} {p p' : Program} (h : p.Like R p') :
    p'.outlineAt level = p.outlineAt level := by
  rw [Program.outlineAt, Program.outlineAt, List.flatMap_def, List.flatMap_def,
    map_eq_of_like h.functions fun _ _ hf => hf.outlineAt,
    map_eq_of_like h.globals fun _ _ hd => hd.outlineAt, outlineStmts_of_like h.main]

theorem Entry.Like.outline {level : Nat} {e e' : Entry} (h : e.Like R e') :
    e'.outline level = e.outline level := by
  rw [Entry.outline, Entry.outline]
  cases h with
  | program hp => rw [Entry.outlineAt, Entry.outlineAt, hp.outlineAt]
  | function hf => rw [Entry.outlineAt, Entry.outlineAt, hf.outlineAt]
  | declaration hd => rw [Entry.outlineAt, Entry.outlineAt, hd.outlineAt]
  | statement hs => rw [Entry.outlineAt, Entry.outlineAt, hs.outlineAt]
  | expression he => rw [Entry.outlineAt, Entry.outlineAt, he.text]

/-! ### Trees that are alike are the same without their spans -/

theorem Ident.Like.bare {id id' : Ident} (h : id.Like R id') : id'.bare = id.bare := by
  rw [Ident.bare, Ident.bare, h.name]

theorem Decl.Like.bare {d d' : Decl} (h : d.Like R d') : d'.bare = d.bare := by
  rw [Decl.bare, Decl.bare, h.type, h.name.bare]

mutual

theorem Expr.Like.bare : {e e' : Expr} → e.Like R e' → e'.bare = e.bare
  | _, _, .integer _ _ | _, _, .boolean _ _ => by rw [Expr.bare, Expr.bare]
  | _, _, .ident hid => by rw [Expr.bare, Expr.bare, hid.bare]
  | _, _, .binary _ hl hr _ => by rw [Expr.bare, Expr.bare, hl.bare, hr.bare]
  | _, _, .call hf hargs _ => by rw [Expr.bare, Expr.bare, hf.bare, bareExprs_of_like hargs]

theorem bareExprs_of_like : {es es' : List Expr} → List.Forall₂ (Expr.Like R) es es' →
    bareExprs es' = bareExprs es
  | _, _, .nil => rfl
  | _, _, .cons h hs => by rw [bareExprs, bareExprs, h.bare, bareExprs_of_like hs]

end

mutual

theorem Stmt.Like.bare : {s s' : Stmt} → s.Like R s' → s'.bare = s.bare
  | _, _, .block hds hss _ => by
    rw [Stmt.bare, Stmt.bare, map_eq_of_like hds fun _ _ hd => hd.bare, bareStmts_of_like hss]
  | _, _, .cond hc ht _ => by rw [Stmt.bare, Stmt.bare, hc.bare, ht.bare]
  | _, _, .condElse hc ht he _ => by rw [Stmt.bare, Stmt.bare, hc.bare, ht.bare, he.bare]
  | _, _, .loop hc hb _ => by rw [Stmt.bare, Stmt.bare, hc.bare, hb.bare]
  | _, _, .assign ht hv _ => by rw [Stmt.bare, Stmt.bare, ht.bare, hv.bare]
  | _, _, .ret hv _ => by rw [Stmt.bare, Stmt.bare, hv.bare]

theorem bareStmts_of_like : {ss ss' : List Stmt} → List.Forall₂ (Stmt.Like R) ss ss' →
    bareStmts ss' = bareStmts ss
  | _, _, .nil => rfl
  | _, _, .cons h hs => by rw [bareStmts, bareStmts, h.bare, bareStmts_of_like hs]

end

theorem FunDef.Like.bare {f f' : FunDef} (h : f.Like R f') : f'.bare = f.bare := by
  rw [FunDef.bare, FunDef.bare, Block.bare, Block.bare, h.name.bare,
    map_eq_of_like h.params fun _ _ hd => hd.bare,
    map_eq_of_like h.body.declarations fun _ _ hd => hd.bare, bareStmts_of_like h.body.statements]

theorem Entry.Like.bare {e e' : Entry} (h : e.Like R e') : e'.bare = e.bare := by
  cases h with
  | program hp =>
    rw [Entry.bare, Entry.bare, Program.bare, Program.bare,
      map_eq_of_like hp.functions fun _ _ hf => hf.bare,
      map_eq_of_like hp.globals fun _ _ hd => hd.bare,
      map_eq_of_like hp.main fun _ _ hs => hs.bare]
  | function hf => rw [Entry.bare, Entry.bare, hf.bare]
  | declaration hd => rw [Entry.bare, Entry.bare, hd.bare]
  | statement hs => rw [Entry.bare, Entry.bare, hs.bare]
  | expression he => rw [Entry.bare, Entry.bare, he.bare]

/-! ### Trees that are like themselves -/

/-- All spans of a tree have a property. -/
inductive SpanTree.All (P : Span → Prop) : SpanTree → Prop
  | node {span : Span} {parts : List SpanTree} : P span → (∀ t ∈ parts, All P t) →
    All P (.node span parts)

/-- What the spans of a tree have in common. -/
abbrev Span.Sharing (P : Span → Prop) (s s' : Span) : Prop := s = s' ∧ P s

namespace SpanTree.All

variable {P : Span → Prop} {span : Span} {parts : List SpanTree}

theorem span_node (h : All P (.node span parts)) : P span := by
  cases h with
  | node hspan _ => exact hspan

theorem parts_node (h : All P (.node span parts)) : ∀ t ∈ parts, All P t := by
  cases h with
  | node _ hparts => exact hparts

end SpanTree.All

section

variable {P : Span → Prop}

open SpanTree (All)

theorem Ident.like_self {id : Ident} (h : id.tree.All P) : id.Like (Span.Sharing P) id :=
  ⟨rfl, rfl, h.span_node⟩

theorem Decl.like_self {d : Decl} (h : d.tree.All P) : d.Like (Span.Sharing P) d :=
  ⟨rfl, Ident.like_self (h.parts_node _ (List.mem_singleton_self _)), rfl, h.span_node⟩

theorem decls_like_self {ds : List Decl} (h : ∀ t ∈ ds.map Decl.tree, t.All P) :
    List.Forall₂ (Decl.Like (Span.Sharing P)) ds ds :=
  List.forall₂_same.mpr fun _ hd => Decl.like_self (h _ (List.mem_map_of_mem hd))

mutual

theorem Expr.like_self : (e : Expr) → e.tree.All P → e.Like (Span.Sharing P) e
  | .integer n span, h => by
    rw [Expr.tree] at h
    exact .integer n ⟨rfl, h.span_node⟩
  | .boolean b span, h => by
    rw [Expr.tree] at h
    exact .boolean b ⟨rfl, h.span_node⟩
  | .ident id, h => by
    rw [Expr.tree] at h
    exact .ident (Ident.like_self h)
  | .binary op left right span, h => by
    rw [Expr.tree] at h
    have hparts := h.parts_node
    simp only [List.forall_mem_cons] at hparts
    exact .binary op (left.like_self hparts.1) (right.like_self hparts.2.1) ⟨rfl, h.span_node⟩
  | .call func args span, h => by
    rw [Expr.tree] at h
    have hparts := List.forall_mem_cons.mp h.parts_node
    exact .call (Ident.like_self hparts.1) (exprs_like_self args hparts.2) ⟨rfl, h.span_node⟩

theorem exprs_like_self : (es : List Expr) → (∀ t ∈ exprTrees es, t.All P) →
    List.Forall₂ (Expr.Like (Span.Sharing P)) es es
  | [], _ => .nil
  | e :: es, h => by
    rw [exprTrees] at h
    have h := List.forall_mem_cons.mp h
    exact .cons (e.like_self h.1) (exprs_like_self es h.2)

end

mutual

theorem Stmt.like_self : (s : Stmt) → s.tree.All P → s.Like (Span.Sharing P) s
  | .block ds ss span, h => by
    rw [Stmt.tree] at h
    have hparts := List.forall_mem_append.mp h.parts_node
    exact .block (decls_like_self hparts.1) (stmts_like_self ss hparts.2) ⟨rfl, h.span_node⟩
  | .cond condition thenBranch none span, h => by
    rw [Stmt.tree] at h
    have hparts := h.parts_node
    simp only [List.forall_mem_cons] at hparts
    exact .cond (condition.like_self hparts.1) (thenBranch.like_self hparts.2.1) ⟨rfl, h.span_node⟩
  | .cond condition thenBranch (some elseBranch) span, h => by
    rw [Stmt.tree] at h
    have hparts := h.parts_node
    simp only [List.forall_mem_cons] at hparts
    exact .condElse (condition.like_self hparts.1) (thenBranch.like_self hparts.2.1)
      (elseBranch.like_self hparts.2.2.1) ⟨rfl, h.span_node⟩
  | .loop condition body span, h => by
    rw [Stmt.tree] at h
    have hparts := h.parts_node
    simp only [List.forall_mem_cons] at hparts
    exact .loop (condition.like_self hparts.1) (body.like_self hparts.2.1) ⟨rfl, h.span_node⟩
  | .assign target value span, h => by
    rw [Stmt.tree] at h
    have hparts := h.parts_node
    simp only [List.forall_mem_cons] at hparts
    exact .assign (Ident.like_self hparts.1) (value.like_self hparts.2.1) ⟨rfl, h.span_node⟩
  | .ret value span, h => by
    rw [Stmt.tree] at h
    exact .ret (value.like_self (h.parts_node _ (List.mem_singleton_self _))) ⟨rfl, h.span_node⟩

theorem stmts_like_self : (ss : List Stmt) → (∀ t ∈ stmtTrees ss, t.All P) →
    List.Forall₂ (Stmt.Like (Span.Sharing P)) ss ss
  | [], _ => .nil
  | s :: ss, h => by
    rw [stmtTrees] at h
    have h := List.forall_mem_cons.mp h
    exact .cons (s.like_self h.1) (stmts_like_self ss h.2)

end

theorem Block.like_self {b : Block} (h : b.tree.All P) : b.Like (Span.Sharing P) b := by
  cases (Stmt.ofBlock b).like_self h with
  | block hds hss hspan => exact ⟨hds, hss, hspan⟩

theorem FunDef.like_self {f : FunDef} (h : f.tree.All P) : f.Like (Span.Sharing P) f := by
  obtain ⟨hname, hparts⟩ := List.forall_mem_cons.mp h.parts_node
  obtain ⟨hparams, hbody⟩ := List.forall_mem_append.mp hparts
  exact ⟨Ident.like_self hname, decls_like_self hparams,
    Block.like_self (hbody _ (List.mem_singleton_self _)), rfl, h.span_node⟩

theorem Item.like_self {i : Item} (h : i.tree.All P) : i.Like (Span.Sharing P) i := by
  cases i with
  | function f => exact .function (FunDef.like_self h)
  | declaration d => exact .declaration (Decl.like_self h)
  | statement s => exact .statement (s.like_self h)

end

end Implet
