/-
Implet/Proofs/Placement.lean

Which tokens the spans of a tree come from.  A `SpanTree` is what is left of a
tree when only the spans are looked at, with the parts of a node in the order of
the text.

A reader makes the span of a node from the first and the last of the tokens that
the node was read from, or of some of them: parentheses around an operand are
left out.  `Placed ts trees` says that the spans of `trees` are cut from the
tokens in this way, and `Parser.Lays` that this is so of what a reader takes.
There is one rule for each way of putting readers together, and one for making a
node of what has been read (`Parser.Lays.node`).  Nothing is said of where the
tokens are.
-/
import Implet.Proofs.ReadingSound

namespace Implet

/-! ### The spans of a tree -/

/-- The span of a node, and what is below it in the order of the text. -/
inductive SpanTree where
  | node (span : Span) (parts : List SpanTree)

namespace SpanTree

/-- The span at the top. -/
def span : SpanTree → Span
  | node span _ => span

/-- What is below the top. -/
def parts : SpanTree → List SpanTree
  | node _ parts => parts

end SpanTree

/-- The spans of a name. -/
def Ident.tree (id : Ident) : SpanTree := .node id.span []

/-- The spans of a declaration: its own, and that of the name. -/
def Decl.tree (d : Decl) : SpanTree := .node d.span [d.name.tree]

mutual

/-- The spans of an expression, with operands and arguments as parts. -/
def Expr.tree : Expr → SpanTree
  | .integer _ span => .node span []
  | .boolean _ span => .node span []
  | .ident id => id.tree
  | .binary _ left right span => .node span [left.tree, right.tree]
  | .call func args span => .node span (func.tree :: exprTrees args)

/-- The spans of expressions. -/
def exprTrees : List Expr → List SpanTree
  | [] => []
  | e :: es => e.tree :: exprTrees es

end

mutual

/-- The spans of a statement, with declarations, conditions, branches and values
as parts. -/
def Stmt.tree : Stmt → SpanTree
  | .block declarations statements span =>
    .node span (declarations.map Decl.tree ++ stmtTrees statements)
  | .cond condition thenBranch none span => .node span [condition.tree, thenBranch.tree]
  | .cond condition thenBranch (some elseBranch) span =>
    .node span [condition.tree, thenBranch.tree, elseBranch.tree]
  | .loop condition body span => .node span [condition.tree, body.tree]
  | .assign target value span => .node span [target.tree, value.tree]
  | .ret value span => .node span [value.tree]

/-- The spans of statements. -/
def stmtTrees : List Stmt → List SpanTree
  | [] => []
  | s :: ss => s.tree :: stmtTrees ss

end

/-- The spans of a block. -/
def Block.tree (b : Block) : SpanTree := (Stmt.ofBlock b).tree

/-- The spans of a function, with the name, the parameters and the body as parts. -/
def FunDef.tree (f : FunDef) : SpanTree :=
  .node f.span (f.name.tree :: (f.params.map Decl.tree ++ [f.body.tree]))

/-- The spans of an item. -/
def Item.tree : Item → SpanTree
  | function f => f.tree
  | declaration d => d.tree
  | statement s => s.tree

theorem exprTrees_eq (es : List Expr) : exprTrees es = es.map Expr.tree := by
  induction es with
  | nil => rfl
  | cons e es ih => simp [exprTrees, ih]

theorem stmtTrees_eq (ss : List Stmt) : stmtTrees ss = ss.map Stmt.tree := by
  induction ss with
  | nil => rfl
  | cons s ss ih => simp [stmtTrees, ih]

@[simp] theorem SpanTree.span_node (span : Span) (parts : List SpanTree) :
    (node span parts).span = span := rfl

@[simp] theorem Ident.span_tree (id : Ident) : id.tree.span = id.span := rfl

@[simp] theorem Decl.span_tree (d : Decl) : d.tree.span = d.span := rfl

@[simp] theorem Expr.span_tree (e : Expr) : e.tree.span = e.span := by
  cases e <;> simp [tree, span]

@[simp] theorem Stmt.span_tree (s : Stmt) : s.tree.span = s.span := by
  cases s with
  | cond _ _ elseBranch _ => cases elseBranch <;> simp [tree, span]
  | block | loop | assign | ret => simp [tree, span]

@[simp] theorem Block.span_tree (b : Block) : b.tree.span = b.span := Stmt.span_tree _

@[simp] theorem FunDef.span_tree (f : FunDef) : f.tree.span = f.span := rfl

/-! ### Trees that are cut from tokens -/

/-- The span of a token, as that of a node without parts. -/
def Token.tree (t : Token) : SpanTree := .node t.span []

@[simp] theorem Token.span_tree (t : Token) : t.tree.span = t.span := rfl

/-- The span goes from the first of the tokens to the last one. -/
def Extent (ts : List Token) (s : Span) : Prop :=
  ∃ first ∈ ts.head?, ∃ last ∈ ts.getLast?, s = first.span.merge last.span

/-- The trees are cut from the tokens one after the other: each takes some that
follow each other, and its parts are cut from these. -/
inductive Placed : List Token → List SpanTree → Prop
  | nil (ts : List Token) : Placed ts []
  | cons (ts : List Token) {block us : List Token} {s : Span} {parts trees : List SpanTree} :
    Extent block s → Placed block parts → Placed us trees →
    Placed (ts ++ (block ++ us)) (.node s parts :: trees)

namespace Placed

variable {ts us : List Token} {F G : List SpanTree} {t : SpanTree}

/-- There can be tokens before those that trees are cut from. -/
theorem skip (h : Placed us F) (ts : List Token) : Placed (ts ++ us) F := by
  cases h with
  | nil => exact .nil _
  | cons vs hs hparts htrees =>
    rw [← List.append_assoc]
    exact .cons _ hs hparts htrees

theorem append (h : Placed ts F) (h' : Placed us G) : Placed (ts ++ us) (F ++ G) := by
  induction h with
  | nil ts => exact h'.skip ts
  | cons ts hs hparts _ _ ih =>
    rw [List.append_assoc, List.append_assoc, List.cons_append]
    exact .cons ts hs hparts ih

/-- Trees can be left out. -/
theorem sublist (h : Placed ts F) (hG : G.Sublist F) : Placed ts G := by
  induction h generalizing G with
  | nil => rw [List.sublist_nil.mp hG]; exact .nil _
  | cons ts hs hparts _ _ ih =>
    cases hG with
    | cons _ hG => exact ((ih hG).skip _).skip _
    | cons_cons _ hG => exact .cons ts hs hparts (ih hG)

theorem token (t : Token) : Placed [t] [t.tree] := by
  have hspan : Extent [t] t.span := ⟨t, rfl, t, rfl, rfl⟩
  exact .cons [] hspan (.nil _) (.nil [])

/-- Tokens after the last tree can be left out. -/
theorem upTo_last (h : Placed ts (F ++ [t])) :
    ∃ us vs last, ts = us ++ vs ∧ last ∈ us.getLast? ∧
    last.span.stop = t.span.stop ∧ Placed us (F ++ [t]) := by
  generalize hG : F ++ [t] = G at h
  induction h generalizing F with
  | nil => simp at hG
  | @cons ts block us s parts trees hs hparts htrees _ ih =>
    cases F with
    | nil =>
      obtain ⟨rfl, rfl⟩ := List.cons.inj hG
      obtain ⟨first, -, last, hlast, rfl⟩ := id hs
      refine ⟨ts ++ block, us, last, (List.append_assoc ..).symm, ?_, rfl, ?_⟩
      · rw [Option.mem_def] at hlast ⊢
        rw [List.getLast?_append, hlast, Option.some_or]
      · rw [← List.append_nil block]
        exact .cons ts hs hparts (.nil [])
    | cons u F =>
      obtain ⟨rfl, rfl⟩ := List.cons.inj hG
      obtain ⟨vs, ws, last, rfl, hlast, hstop, hvs⟩ := ih rfl
      refine ⟨ts ++ (block ++ vs), ws, last, by simp only [List.append_assoc], ?_, hstop,
        .cons ts hs hparts hvs⟩
      rw [Option.mem_def] at hlast ⊢
      rw [List.getLast?_append, List.getLast?_append, hlast, Option.some_or, Option.some_or]

end Placed

/-- A node that goes from the first to the last of some trees that follow each
other, with some of them as its parts. -/
def SpanTree.MadeOf (t : SpanTree) (F : List SpanTree) : Prop :=
  ∃ first mid last, F = first :: (mid ++ [last]) ∧ t.span = first.span.merge last.span ∧
    t.parts.Sublist F

theorem Placed.madeOf {ts : List Token} {F : List SpanTree} {t : SpanTree}
    (h : Placed ts F) (ht : t.MadeOf F) : Placed ts [t] := by
  obtain ⟨span, parts⟩ := t
  obtain ⟨first, mid, last, rfl, hspan, hparts⟩ := ht
  cases h with
  | @cons ts block us s below trees hs hbelow htrees =>
    obtain ⟨vs, ws, stop, rfl, hlast, hstop, hvs⟩ := htrees.upTo_last
    have hblock : Placed (block ++ vs) (.node s below :: (mid ++ [last])) :=
      .cons [] hs hbelow hvs
    rw [← List.append_assoc block]
    refine .cons ts ?_ (hblock.sublist hparts) (.nil ws)
    obtain ⟨start, hfirst, stop', -, rfl⟩ := hs
    refine ⟨start, ?_, stop, ?_, ?_⟩
    · rw [Option.mem_def] at hfirst ⊢
      rw [List.head?_append, hfirst, Option.some_or]
    · rw [Option.mem_def] at hlast ⊢
      rw [List.getLast?_append, hlast, Option.some_or]
    · change span = _ at hspan
      rw [hspan, Span.merge, ← hstop]
      rfl

/-! ### Readers that cut trees from the tokens they take -/

namespace Parser

variable {α β : Type} {p : Parser α} {f : α → Parser β} {A : α → List SpanTree → Prop}
  {B : β → List SpanTree → Prop} {v : α → SpanTree} {w : α → List SpanTree}

/-- What `p` reads comes with trees that are cut from the tokens it takes. -/
def Lays (p : Parser α) (A : α → List SpanTree → Prop) : Prop :=
  ∀ c a c', p c = (.ok a, c') → ∃ ts F, c.rest = ts ++ c'.rest ∧ Placed ts F ∧ A a F

namespace Lays

theorem imp {A' : α → List SpanTree → Prop} (h : Lays p A) (hA : ∀ a F, A a F → A' a F) :
    Lays p A' := by
  intro c a c' hc
  obtain ⟨ts, F, hts, hF, ha⟩ := h c a c' hc
  exact ⟨ts, F, hts, hF, hA a F ha⟩

/-- The trees make a node. -/
theorem node (h : Lays p fun a F => (v a).MadeOf F) : Lays p fun a F => F = [v a] := by
  intro c a c' hc
  obtain ⟨ts, F, hts, hF, ha⟩ := h c a c' hc
  exact ⟨ts, _, hts, hF.madeOf ha, rfl⟩

theorem pure {a : α} (h : A a []) : Lays (Pure.pure a) A := by
  rintro c _ _ ⟨⟩
  exact ⟨[], [], rfl, .nil _, h⟩

theorem bind (hp : Lays p fun a F => F = w a)
    (hf : ∀ a, Lays (f a) fun b F => B b (w a ++ F)) : Lays (p >>= f) B := by
  intro c b c'' h
  obtain ⟨a, c', hc, hc'⟩ := bind_ok_iff.mp h
  obtain ⟨ts, _, hts, hF, rfl⟩ := hp c a c' hc
  obtain ⟨us, G, hus, hG, hb⟩ := hf a c' b c'' hc'
  exact ⟨ts ++ us, _, by rw [hts, hus, List.append_assoc], hF.append hG, hb⟩

theorem map {g : α → β} (h : Lays p A) (hB : ∀ a F, A a F → B (g a) F) :
    Lays (g <$> p) B := by
  intro c b c' hc
  obtain ⟨a, c₁, hc, hp⟩ := bind_ok_iff.mp hc
  cases hp
  obtain ⟨ts, F, hts, hF, ha⟩ := h c a c' hc
  exact ⟨ts, F, hts, hF, hB a F ha⟩

theorem or {q : Parser α} (hp : Lays p A) (hq : Lays q A) : Lays (p.or q) A := by
  intro c a c'' h
  unfold Parser.or at h
  rcases hc : p c with ⟨_ | a', c'⟩
  · rw [hc] at h
    exact hq ⟨c.rest, c'.furthest⟩ a c'' h
  · rw [hc] at h
    cases h
    exact hp _ _ _ hc

theorem label {x : Expectation} (h : Lays p A) : Lays (p.label x) A := by
  intro c a c'' hc
  unfold Parser.label at hc
  rcases hp : p c with ⟨_ | a', c'⟩
  · rw [hp] at hc
    cases hc
  · rw [hp] at hc
    cases hc
    exact h _ _ _ hp

theorem remaining {f : Nat → Parser α} (h : ∀ n, Lays (f n) A) :
    Lays (Parser.remaining >>= f) A := fun c => h c.rest.length c

theorem peek {f : Option Token → Parser α} (h : ∀ o, Lays (f o) A) :
    Lays (Parser.peek >>= f) A := fun c => h c.rest.head? c

theorem expected {x : Expectation} : Lays (Parser.expected x) A := by
  rintro c a c' ⟨⟩

theorem terminal {t : Terminal} :
    Lays (Parser.terminal t) fun token F => F = [token.tree] := by
  rintro ⟨rest, furthest⟩ a c' h
  rcases rest with _ | ⟨token, rest⟩
  · cases h
  · by_cases ht : token.lexeme = .fixed t
    · simp only [Parser.terminal, ht, if_true, Prod.mk.injEq, Except.ok.injEq] at h
      obtain ⟨rfl, rfl⟩ := h
      exact ⟨[token], _, rfl, .token token, rfl⟩
    · simp [Parser.terminal, ht, Parser.expected] at h

/-- Two in a row, of which only the trees of the first are looked at. -/
theorem skip {q : Parser β} (hp : Lays p fun a F => F = w a) (hq : Lays q B) :
    Lays (p.skip q) fun a F => F = w a := by
  intro c a c'' h
  obtain ⟨a', c', hc, h⟩ := bind_ok_iff.mp h
  obtain ⟨b, c₁, hc', h⟩ := bind_ok_iff.mp h
  cases h
  obtain ⟨ts, _, hts, hF, rfl⟩ := hp c a c' hc
  obtain ⟨us, G, hus, -, -⟩ := hq c' b _ hc'
  refine ⟨ts ++ us, w a, by rw [hts, hus, List.append_assoc], ?_, rfl⟩
  rw [← List.append_nil (w a)]
  exact hF.append (.nil us)

/-- Two in a row, of which only the trees of the second are looked at. -/
theorem skipLeft {q : Parser β} (hp : Lays p A) (hq : Lays q B) :
    Lays (p.skipLeft q) B := by
  intro c b c'' h
  obtain ⟨a, c', hc, h⟩ := bind_ok_iff.mp h
  obtain ⟨ts, F, hts, -, -⟩ := hp c a c' hc
  obtain ⟨us, G, hus, hG, hb⟩ := hq c' b c'' h
  exact ⟨ts ++ us, G, by rw [hts, hus, List.append_assoc], hG.skip ts, hb⟩

theorem optional (hp : Lays p fun a F => F = w a) :
    Lays p.optional fun o F => F = o.elim [] w := by
  intro c o c' h
  rcases optional_ok h with ⟨rfl, hc⟩ | ⟨a, rfl, ha⟩
  · exact ⟨[], [], hc, .nil _, rfl⟩
  · exact hp c a c' ha

theorem manyWithin (hp : Lays p fun a F => F = [v a]) (rounds : Nat) :
    Lays (p.manyWithin rounds) fun as F => F = as.map v := by
  induction rounds with
  | zero | succ rounds ih => ?_
  all_goals
    unfold Parser.manyWithin
    refine .bind hp.optional fun o => ?_
    cases o with
    | none => exact .pure rfl
    | some a => ?_
  · exact .pure rfl
  · refine .bind ih fun as => .pure ?_
    rw [List.append_nil]
    rfl

theorem many (hp : Lays p fun a F => F = [v a]) : Lays p.many fun as F => F = as.map v :=
  remaining fun n => hp.manyWithin n

/-- Separators and items, of which the items are looked at. -/
theorem separatedWithin {q : Parser β} (hp : Lays p fun a F => F = [v a]) (hq : Lays q B)
    (rounds : Nat) : Lays (p.separatedWithin rounds q) fun as F => F = as.map v := by
  have hsep : Lays q fun _ F => F = [] := by
    intro c b c' hc
    obtain ⟨ts, F, hts, -, -⟩ := hq c b c' hc
    exact ⟨ts, [], hts, .nil ts, rfl⟩
  induction rounds with
  | zero | succ rounds ih => ?_
  all_goals
    unfold Parser.separatedWithin
    refine .bind hsep.optional fun o => ?_
    cases o with
    | none => exact .pure rfl
    | some b => ?_
  · exact .bind hp fun a => .pure rfl
  · refine .bind hp fun a => .bind ih fun as => .pure ?_
    rw [List.append_nil]
    rfl

theorem separated {q : Parser β} (hp : Lays p fun a F => F = [v a]) (hq : Lays q B) :
    Lays (p.separated q) fun as F => F = as.map v := by
  refine .bind hp.optional fun o => ?_
  cases o with
  | none => exact .pure rfl
  | some a =>
    refine .remaining fun n => .bind (hp.separatedWithin hq n) fun as => .pure ?_
    rw [List.append_nil]
    rfl

end Lays

end Parser

/-! ### Words and expressions -/

open Implet.Parser (Lays bind_ok_iff)

theorem Ident.parser_lays : Lays Ident.parser fun id F => F = [id.tree] := by
  rintro ⟨rest, furthest⟩ a c' h
  rcases rest with _ | ⟨⟨_ | name | _, span⟩, rest⟩
  all_goals cases h
  exact ⟨[⟨.ident name, span⟩], _, rfl, .token _, rfl⟩

namespace Expr

theorem integerLiteral_lays : Lays integerLiteral fun e F => F = [e.tree] := by
  rintro ⟨rest, furthest⟩ a c' h
  rcases rest with _ | ⟨⟨_ | _ | digits, span⟩, rest⟩
  · cases h
  · cases h
  · cases h
  · by_cases hv : digitsValue digits.toList < literalLimit
    · simp only [integerLiteral, hv, if_true, Prod.mk.injEq, Except.ok.injEq] at h
      obtain ⟨rfl, rfl⟩ := h
      exact ⟨[⟨.integer digits, span⟩], _, rfl, .token _, rfl⟩
    · simp [integerLiteral, hv, Parser.fail] at h

theorem booleanLiteral_lays : Lays booleanLiteral fun e F => F = [e.tree] := by
  rintro ⟨rest, furthest⟩ a c' h
  unfold booleanLiteral at h
  split at h
  next span rest hrest =>
    cases h
    exact ⟨[⟨.fixed .kwTrue, span⟩], _, hrest, .token _, rfl⟩
  next span rest hrest =>
    cases h
    exact ⟨[⟨.fixed .kwFalse, span⟩], _, hrest, .token _, rfl⟩
  next => cases h

variable {inner operand : Parser Expr}

theorem callParser_lays (h : Lays inner fun e F => F = [e.tree]) :
    Lays (callParser inner) fun e F => F = [e.tree] := by
  refine .node (.bind Ident.parser_lays fun func => .bind .terminal fun opening =>
    .bind (h.separated .terminal) fun args => .bind .terminal fun close => .pure ?_)
  refine ⟨func.tree, opening.tree :: args.map tree, close.tree, by simp, rfl, ?_⟩
  rw [tree, exprTrees_eq]
  exact .cons_cons _ (.cons _ (List.sublist_append_left _ _))

theorem primary_lays (h : Lays inner fun e F => F = [e.tree]) :
    Lays (primary inner) fun e F => F = [e.tree] := by
  refine .label (.or (.or (.or (.or ?_ ?_) ?_) ?_) ?_)
  · exact integerLiteral_lays
  · exact booleanLiteral_lays
  · exact callParser_lays h
  · exact Ident.parser_lays.map fun id F hF => hF
  · exact .skip (.skipLeft .terminal h) .terminal

/-- Each operator and its right operand are taken together with all that stands
to their left. -/
theorem chainWithin_lays {ops : List BinOp} (h : Lays operand fun e F => F = [e.tree])
    {rounds : Nat}
    {left e : Expr} {c c' : Cursor} (hc : chainWithin rounds ops operand left c = (.ok e, c'))
    {us : List Token} (hleft : Placed us [left.tree]) :
    ∃ ts, c.rest = ts ++ c'.rest ∧ Placed (us ++ ts) [e.tree] := by
  have hstop {left : Expr} {c : Cursor} {us : List Token} (hleft : Placed us [left.tree])
      (hc : ((.ok left, c) : Except ParseError Expr × Cursor) = (.ok e, c')) :
      ∃ ts, c.rest = ts ++ c'.rest ∧ Placed (us ++ ts) [e.tree] := by
    cases hc
    exact ⟨[], rfl, by rwa [List.append_nil]⟩
  induction rounds generalizing left c us with
  | zero => exact hstop hleft hc
  | succ rounds ih =>
    unfold chainWithin at hc
    obtain ⟨_, _, ⟨⟩, hc⟩ := bind_ok_iff.mp hc
    cases ho : c.rest.head?.bind (BinOp.ofToken? ops) with
    | none =>
      rw [ho] at hc
      exact hstop hleft hc
    | some op =>
      rw [ho] at hc
      obtain ⟨_, _, ⟨⟩, hc⟩ := bind_ok_iff.mp hc
      obtain ⟨right, c₁, hright, hc⟩ := bind_ok_iff.mp hc
      obtain ⟨token, rest, hrest, -, -⟩ := BinOp.head_of_bind_ofToken? ho
      obtain ⟨ts, _, hts, hF, rfl⟩ := h _ right c₁ hright
      replace hts : c.rest.tail = ts ++ c₁.rest := hts
      rw [hrest, List.tail_cons] at hts
      have hbinary : Placed (us ++ ([token] ++ ts))
          [(binary op left right (left.span.merge right.span)).tree] := by
        refine (hleft.append ((Placed.token token).append hF)).madeOf ?_
        refine ⟨left.tree, [token.tree], right.tree, rfl, ?_, ?_⟩
        · simp [span]
        · exact .cons_cons _ (.cons _ (List.Sublist.refl _))
      obtain ⟨vs, hvs, he⟩ := ih hc hbinary
      refine ⟨[token] ++ ts ++ vs, ?_, by rwa [← List.append_assoc]⟩
      rw [hrest, hts, hvs, List.append_assoc, List.append_assoc, List.singleton_append]

theorem chain_lays (ops : List BinOp) (h : Lays operand fun e F => F = [e.tree]) :
    Lays (chain ops operand) fun e F => F = [e.tree] := by
  intro c e c'' hc
  obtain ⟨first, c', hfirst, hc⟩ := bind_ok_iff.mp hc
  obtain ⟨ts, _, hts, hF, rfl⟩ := h c first c' hfirst
  obtain ⟨us, hus, he⟩ := chainWithin_lays h hc hF
  exact ⟨ts ++ us, _, by rw [hts, hus, List.append_assoc], he, rfl⟩

theorem operators_lays (h : Lays operand fun e F => F = [e.tree]) :
    Lays (operators operand) fun e F => F = [e.tree] := by
  have hlevels (levels : List (List BinOp)) :
      Lays (levels.foldr chain operand) fun e F => F = [e.tree] := by
    induction levels with
    | nil => exact h
    | cons ops levels ih => exact chain_lays ops ih
  exact hlevels BinOp.levels

theorem parser_lays : Lays Expr.parser fun e F => F = [e.tree] := by
  refine .remaining fun depth => ?_
  induction depth with
  | zero => exact .expected
  | succ depth ih => exact operators_lays (primary_lays ih)

end Expr

/-! ### Declarations -/

namespace Decl

theorem typeParser_lays : Lays typeParser fun a F => ∃ token : Token, F = [token.tree] ∧
    a.2 = token.span := by
  have hword (t : Terminal) (type : Option BaseType) : Lays (typeWord t type) fun a F =>
      ∃ token : Token, F = [token.tree] ∧ a.2 = token.span :=
    Lays.map (p := Parser.terminal t) (g := fun token => (type, token.span)) .terminal
      fun token F hF => ⟨token, hF, rfl⟩
  exact .label (.or (.or (hword _ _) (hword _ _)) (hword _ _))

/-- A type and a name: the span goes from one to the other. -/
theorem typed_lays :
    Lays parameterParser fun d F => ∃ first : SpanTree, F = [first, d.name.tree] ∧
    d.span = first.span.merge d.name.span := by
  intro c d c'' hc
  obtain ⟨a, c', ha, hc⟩ := bind_ok_iff.mp hc
  obtain ⟨name, c₁, hname, hc⟩ := bind_ok_iff.mp hc
  cases hc
  obtain ⟨ts, _, hts, hF, token, rfl, htoken⟩ := typeParser_lays c a c' ha
  obtain ⟨us, _, hus, hG, rfl⟩ := Ident.parser_lays c' name _ hname
  refine ⟨ts ++ us, _, by rw [hts, hus, List.append_assoc], hF.append hG, token.tree, rfl, ?_⟩
  rw [htoken]
  rfl

theorem parameterParser_lays : Lays parameterParser fun d F => F = [d.tree] := by
  refine .node (typed_lays.imp ?_)
  rintro d _ ⟨first, rfl, hspan⟩
  exact ⟨first, [], d.name.tree, rfl, hspan, .cons _ (List.Sublist.refl _)⟩

theorem parser_lays : Lays Decl.parser fun d F => F = [d.tree] := by
  refine .node fun c d c'' hc => ?_
  obtain ⟨d', c', hd, hc⟩ := bind_ok_iff.mp hc
  obtain ⟨semicolon, c₁, hs, hc⟩ := bind_ok_iff.mp hc
  cases hc
  obtain ⟨ts, _, hts, hF, first, rfl, hspan⟩ := typed_lays c d' c' hd
  obtain ⟨us, _, hus, hG, rfl⟩ := Lays.terminal c' semicolon _ hs
  refine ⟨ts ++ us, _, by rw [hts, hus, List.append_assoc], hF.append hG, first, [d'.name.tree],
    semicolon.tree, rfl, ?_, .cons _ (List.sublist_append_left _ _)⟩
  change d'.span.merge semicolon.span = first.span.merge semicolon.span
  rw [hspan]
  rfl

end Decl

/-! ### Statements, functions and entries -/

variable {inner : Parser Stmt}

theorem Block.statementsWithin_lays (h : Lays inner fun s F => F = [s.tree])
    (rounds : Nat) :
    Lays (statementsWithin rounds inner) fun ss F => F = ss.map Stmt.tree := by
  induction rounds with
  | zero => exact .pure rfl
  | succ rounds ih =>
    refine .peek fun o => ?_
    cases o with
    | none => exact .pure rfl
    | some token =>
      dsimp only
      split
      · exact .pure rfl
      · refine .bind h fun s => .bind ih fun ss => .pure ?_
        rw [List.append_nil]
        rfl

theorem Block.parserOf_lays (h : Lays inner fun s F => F = [s.tree]) :
    Lays (parserOf inner) fun b F => F = [b.tree] := by
  refine .node (.bind .terminal fun brace => .bind (Lays.many Decl.parser_lays) fun ds =>
    .remaining fun rounds => .bind (statementsWithin_lays h rounds) fun ss =>
      .bind .terminal fun close => .pure ?_)
  refine ⟨brace.tree, ds.map Decl.tree ++ ss.map Stmt.tree, close.tree, by simp, rfl, ?_⟩
  show (ds.map Decl.tree ++ stmtTrees ss).Sublist _
  rw [stmtTrees_eq, List.singleton_append, ← List.append_assoc]
  exact .cons _ (List.sublist_append_left _ _)

namespace Stmt

theorem condParser_lays (h : Lays inner fun s F => F = [s.tree]) :
    Lays (condParser inner) fun s F => F = [s.tree] := by
  refine .node (.bind .terminal fun word => .bind Expr.parser_lays fun c => .bind h fun t =>
    .bind (Lays.optional (.skipLeft .terminal h)) fun o => .pure ?_)
  cases o with
  | none =>
    refine ⟨word.tree, [c.tree], t.tree, rfl, ?_, .cons _ (List.Sublist.refl _)⟩
    simp [span]
  | some e =>
    refine ⟨word.tree, [c.tree, t.tree], e.tree, rfl, ?_, .cons _ (List.Sublist.refl _)⟩
    simp [span]

theorem loopParser_lays (h : Lays inner fun s F => F = [s.tree]) :
    Lays (loopParser inner) fun s F => F = [s.tree] := by
  refine .node (.bind .terminal fun word => .bind Expr.parser_lays fun c => .bind h fun body =>
    .pure ?_)
  refine ⟨word.tree, [c.tree], body.tree, rfl, ?_, .cons _ (List.Sublist.refl _)⟩
  simp [span]

theorem returnParser_lays : Lays returnParser fun s F => F = [s.tree] := by
  refine .node (.bind .terminal fun word => .bind Expr.parser_lays fun e => .bind .terminal
    fun semicolon => .pure ?_)
  exact ⟨word.tree, [e.tree], semicolon.tree, rfl, rfl, .cons _ (List.sublist_append_left _ _)⟩

theorem assignParser_lays : Lays assignParser fun s F => F = [s.tree] := by
  refine .node (.bind Ident.parser_lays fun target => .bind .terminal fun sign => .bind
    Expr.parser_lays fun e => .bind .terminal fun semicolon => .pure ?_)
  exact ⟨target.tree, [sign.tree, e.tree], semicolon.tree, rfl, rfl,
    .cons_cons _ (.cons _ (List.sublist_append_left _ _))⟩

theorem parserOf_lays (h : Lays inner fun s F => F = [s.tree]) :
    Lays (parserOf inner) fun s F => F = [s.tree] := by
  refine .peek fun o => ?_
  split
  · exact (Block.parserOf_lays h).map fun b F hF => hF
  · exact condParser_lays h
  · exact loopParser_lays h
  · exact returnParser_lays
  · exact assignParser_lays
  · exact .expected

theorem parser_lays : Lays Stmt.parser fun s F => F = [s.tree] := by
  refine .remaining fun depth => ?_
  induction depth with
  | zero => exact .expected
  | succ depth ih => exact parserOf_lays ih

end Stmt

theorem FunDef.parser_lays : Lays FunDef.parser fun f F => F = [f.tree] := by
  refine .node (.bind .terminal fun word => .bind Ident.parser_lays.label fun name =>
      .bind .terminal
    fun opening => .bind (Lays.separated Decl.parameterParser_lays .terminal) fun params =>
      .bind .terminal fun close =>
      .bind (Block.parserOf_lays Stmt.parser_lays) fun body => .pure ?_)
  refine ⟨word.tree, name.tree :: opening.tree :: (params.map Decl.tree ++ [close.tree]), body.tree,
    by simp, by simp, ?_⟩
  show (name.tree :: (params.map Decl.tree ++ [body.tree])).Sublist
    (word.tree :: name.tree :: opening.tree :: (params.map Decl.tree ++ [close.tree, body.tree]))
  exact .cons _ (.cons_cons _ (.cons _ (List.Sublist.append (List.Sublist.refl _)
    (.cons _ (List.Sublist.refl _)))))

namespace Item

theorem parser_lays : Lays Item.parser fun i F => F = [i.tree] := by
  refine .peek fun o => ?_
  split
  · exact FunDef.parser_lays.map fun f F hF => hF
  · exact Decl.parser_lays.map fun d F hF => hF
  · exact Decl.parser_lays.map fun d F hF => hF
  · exact Decl.parser_lays.map fun d F hF => hF
  · exact Stmt.parser_lays.map fun s F hF => hF

theorem listWithin_lays (rounds : Nat) :
    Lays (listWithin rounds) fun is F => F = is.map Item.tree := by
  induction rounds with
  | zero => exact .pure rfl
  | succ rounds ih =>
    refine .peek fun o => ?_
    cases o with
    | none => exact .pure rfl
    | some token =>
      refine .bind parser_lays fun i => .bind ih fun is => .pure ?_
      rw [List.append_nil]
      rfl

end Item

end Implet
