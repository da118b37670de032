/-
Implet/Proofs/ReadLikeness.lean

Reading tokens that are alike.  A reader decides by the lexemes of tokens and
never by their spans, which it only puts together (`Span.merge`).  So from
tokens with the same lexemes it reads entries that are alike, or fails with the
same message at tokens that stand in the same place (`Entry.ofTokens_of_like`).

There is one rule for each way of putting readers together.  As the furthest
error is remembered in the cursor, that is alike as well.
-/
import Implet.Proofs.Likeness

namespace Implet

variable {R : Span → Span → Prop}

/-! ### Tokens, errors and cursors -/

/-- The same lexeme. -/
structure Token.Like (R : Span → Span → Prop) (t t' : Token) : Prop where
  lexeme : t'.lexeme = t.lexeme
  span : R t.span t'.span

/-- The same fault. -/
inductive ParseFault.Like (R : Span → Span → Prop) : ParseFault → ParseFault → Prop
  | unexpected {t t' : Token} : t.Like R t' → Like R (.unexpected t) (.unexpected t')
  | endOfInput : Like R .endOfInput .endOfInput
  | literalOutOfRange (digits : String) {s s' : Span} : R s s' →
    Like R (.literalOutOfRange digits s) (.literalOutOfRange digits s')

/-- The same error. -/
structure ParseError.Like (R : Span → Span → Prop) (e e' : ParseError) : Prop where
  fault : e.fault.Like R e'.fault
  expected : e'.expected = e.expected

theorem ParseError.Like.message {e e' : ParseError} (h : e.Like R e') :
    e'.message = e.message := by
  obtain ⟨fault, x⟩ := e
  obtain ⟨fault', x'⟩ := e'
  obtain ⟨hfault, hx⟩ := h
  obtain rfl : x' = x := hx
  cases hfault with
  | unexpected ht => simp [ParseError.message, what, found, Token.describe, ht.lexeme]
  | endOfInput => rfl
  | literalOutOfRange digits _ => rfl

theorem ParseError.Like.span {e e' : ParseError} (h : e.Like R e') :
    Option.Rel R e.span e'.span := by
  obtain ⟨fault, x⟩ := e
  obtain ⟨fault', x'⟩ := e'
  cases h.fault with
  | unexpected ht => exact .some ht.span
  | endOfInput => exact .none
  | literalOutOfRange digits hs => exact .some hs

/-- Tokens that are alike are left, and the furthest errors are alike and as far. -/
structure Cursor.Like (R : Span → Span → Prop) (c c' : Cursor) : Prop where
  rest : List.Forall₂ (Token.Like R) c.rest c'.rest
  furthest : Option.Rel (fun m m' => m'.1 = m.1 ∧ m.2.Like R m'.2) c.furthest c'.furthest

namespace Cursor.Like

variable {c c' : Cursor}

theorem complaint (h : c.Like R c') (x : Expectation) :
    (c.complaint x).Like R (c'.complaint x) := by
  obtain ⟨rest, furthest⟩ := c
  obtain ⟨rest', furthest'⟩ := c'
  cases h.rest with
  | nil => exact ⟨.endOfInput, rfl⟩
  | cons ht _ => exact ⟨.unexpected ht, rfl⟩

theorem record (h : c.Like R c') {e e' : ParseError} (he : e.Like R e') :
    (c.record e).Like R (c'.record e') := by
  obtain ⟨rest, furthest⟩ := c
  obtain ⟨rest', furthest'⟩ := c'
  have hlength : rest'.length = rest.length := h.rest.length_eq.symm
  have hnew : Cursor.Like R ⟨rest, some (rest.length, e)⟩ ⟨rest', some (rest'.length, e')⟩ :=
    ⟨h.rest, .some ⟨hlength, he⟩⟩
  cases furthest with
  | none =>
    cases h.furthest with
    | none => exact hnew
  | some m =>
    cases h.furthest with
    | @some _ m' hm =>
      rw [Cursor.record, Cursor.record]
      dsimp only
      rw [hm.1, hlength]
      split
      · exact h
      · rwa [hlength] at hnew

/-- Going back to an earlier place keeps the furthest errors. -/
theorem back {d d' : Cursor} (h : c.Like R c') (hd : d.Like R d') :
    Cursor.Like R { d with rest := c.rest } { d' with rest := c'.rest } := ⟨h.rest, hd.furthest⟩

end Cursor.Like

/-! ### Readers -/

namespace Parser

variable {α β : Type} {A : α → α → Prop} {B : β → β → Prop}

/-- Two readers succeed with values that `A` relates, or fail with errors that
are alike, and lead to cursors that are alike. -/
inductive Ends (R : Span → Span → Prop) (A : α → α → Prop) :
    Except ParseError α × Cursor → Except ParseError α × Cursor → Prop
  | ok {a a' : α} {c c' : Cursor} : A a a' → c.Like R c' → Ends R A (.ok a, c) (.ok a', c')
  | error {e e' : ParseError} {c c' : Cursor} : e.Like R e' → c.Like R c' →
    Ends R A (.error e, c) (.error e', c')

/-- From cursors that are alike, two readers end in the same way. -/
def Agree (R : Span → Span → Prop) (p p' : Parser α) (A : α → α → Prop) : Prop :=
  ∀ ⦃c c'⦄, c.Like R c' → Ends R A (p c) (p' c')

namespace Agree

variable {p p' q q' : Parser α} {f f' : α → Parser β}

theorem pure {a a' : α} (h : A a a') : Agree R (Pure.pure a) (Pure.pure a') A :=
  fun _ _ hc => .ok h hc

theorem bind (hp : Agree R p p' A) (hf : ∀ a a', A a a' → Agree R (f a) (f' a') B) :
    Agree R (p >>= f) (p' >>= f') B := by
  intro c c' hc
  show Ends R B (Parser.bind p f c) (Parser.bind p' f' c')
  have hpc := hp hc
  unfold Parser.bind
  generalize p c = x, p' c' = x' at hpc
  cases hpc with
  | ok ha hd => exact hf _ _ ha hd
  | error he hd => exact .error he hd

theorem map {g g' : α → β} (hp : Agree R p p' A) (hg : ∀ a a', A a a' → B (g a) (g' a')) :
    Agree R (g <$> p) (g' <$> p') B := bind hp fun a a' ha => pure (hg a a' ha)

theorem expected (x : Expectation) :
    Agree R (Parser.expected x : Parser α) (Parser.expected x) A :=
  fun _ _ hc => .error (hc.complaint x) (hc.record (hc.complaint x))

theorem peek : Agree R Parser.peek Parser.peek (Option.Rel (Token.Like R)) := by
  rintro ⟨rest, furthest⟩ ⟨rest', furthest'⟩ hc
  refine .ok ?_ hc
  cases hc.rest with
  | nil => exact .none
  | cons ht _ => exact .some ht

theorem advance : Agree R Parser.advance Parser.advance fun _ _ => True := by
  rintro ⟨rest, furthest⟩ ⟨rest', furthest'⟩ hc
  refine .ok trivial ⟨?_, hc.furthest⟩
  cases hc.rest with
  | nil => exact .nil
  | cons _ hts => exact hts

theorem remaining : Agree R Parser.remaining Parser.remaining Eq :=
  fun _ _ hc => .ok hc.rest.length_eq hc

/-- What is read can depend on the number of tokens that are left. -/
theorem bind_remaining {f f' : Nat → Parser α} (h : ∀ n, Agree R (f n) (f' n) A) :
    Agree R (Parser.remaining >>= f) (Parser.remaining >>= f') A := by
  refine bind remaining ?_
  rintro n _ rfl
  exact h n

theorem terminal (t : Terminal) :
    Agree R (Parser.terminal t) (Parser.terminal t) (Token.Like R) := by
  rintro ⟨rest, furthest⟩ ⟨rest', furthest'⟩ hc
  cases hc.rest with
  | nil => exact expected _ hc
  | @cons token token' ts ts' ht hts =>
    simp only [Parser.terminal, ht.lexeme]
    split
    · exact .ok ht ⟨hts, hc.furthest⟩
    · exact expected _ hc

theorem skip {C : β → β → Prop} {r r' : Parser β} (hp : Agree R p p' A)
    (hr : Agree R r r' C) :
    Agree R (p.skip r) (p'.skip r') A :=
  bind hp fun _ _ ha => bind hr fun _ _ _ => pure ha

theorem skipLeft {r r' : Parser β} (hp : Agree R p p' A) (hr : Agree R r r' B) :
    Agree R (p.skipLeft r) (p'.skipLeft r') B := bind hp fun _ _ _ => hr

theorem or (hp : Agree R p p' A) (hq : Agree R q q' A) :
    Agree R (p.or q) (p'.or q') A := by
  intro c c' hc
  have hpc := hp hc
  unfold Parser.or
  generalize p c = x, p' c' = x' at hpc
  cases hpc with
  | ok ha hd => exact .ok ha hd
  | error _ hd => exact hq (hc.back hd)

theorem label (hp : Agree R p p' A) (x : Expectation) :
    Agree R (p.label x) (p'.label x) A := by
  intro c c' hc
  have hpc := hp hc
  unfold Parser.label
  generalize p c = y, p' c' = y' at hpc
  cases hpc with
  | ok ha hd => exact .ok ha hd
  | @error e e' _ _ he hd =>
    have he' : ParseError.Like R { e with expected := [x] } { e' with expected := [x] } :=
      ⟨he.fault, rfl⟩
    exact .error he' (hd.record he')

theorem optional (hp : Agree R p p' A) :
    Agree R p.optional p'.optional (Option.Rel A) := by
  intro c c' hc
  have hpc := hp hc
  unfold Parser.optional
  generalize p c = x, p' c' = x' at hpc
  cases hpc with
  | ok ha hd => exact .ok (.some ha) hd
  | error _ hd => exact .ok .none (hc.back hd)

theorem manyWithin (hp : Agree R p p' A) (rounds : Nat) :
    Agree R (p.manyWithin rounds) (p'.manyWithin rounds) (List.Forall₂ A) := by
  induction rounds with
  | zero | succ rounds ih => ?_
  all_goals
    unfold Parser.manyWithin
    refine bind hp.optional fun o o' ho => ?_
    cases ho with
    | none => exact pure .nil
    | some ha => ?_
  · exact pure (.cons ha .nil)
  · exact bind ih fun as as' has => pure (.cons ha has)

theorem many (hp : Agree R p p' A) : Agree R p.many p'.many (List.Forall₂ A) :=
  bind_remaining fun n => hp.manyWithin n

theorem separatedWithin {r r' : Parser β} (hp : Agree R p p' A) (hr : Agree R r r' B)
    (rounds : Nat) :
    Agree R (p.separatedWithin rounds r) (p'.separatedWithin rounds r') (List.Forall₂ A) := by
  induction rounds with
  | zero | succ rounds ih => ?_
  all_goals
    unfold Parser.separatedWithin
    refine bind hr.optional fun o o' ho => ?_
    cases ho with
    | none => exact pure .nil
    | some _ => ?_
  · exact bind hp fun a a' ha => pure (.cons ha .nil)
  · exact bind hp fun a a' ha => bind ih fun as as' has => pure (.cons ha has)

theorem separated {r r' : Parser β} (hp : Agree R p p' A) (hr : Agree R r r' B) :
    Agree R (p.separated r) (p'.separated r') (List.Forall₂ A) := by
  refine bind hp.optional fun o o' ho => ?_
  cases ho with
  | none => exact pure .nil
  | some ha =>
    exact bind_remaining fun n => bind (hp.separatedWithin hr n) fun as as' has =>
      pure (.cons ha has)

end Agree

end Parser

/-! ### Words and expressions -/

open Implet.Parser (Agree)

/-- `R` goes along with putting spans together. -/
abbrev Merges (R : Span → Span → Prop) : Prop :=
  ∀ ⦃a a' b b'⦄, R a a' → R b b' → R (a.merge b) (a'.merge b')

theorem Ident.parser_agree : Agree R Ident.parser Ident.parser (Ident.Like R) := by
  rintro ⟨rest, furthest⟩ ⟨rest', furthest'⟩ hc
  cases hc.rest with
  | nil => exact Agree.expected _ hc
  | @cons token token' ts ts' ht hts =>
    obtain ⟨lexeme, span⟩ := token
    obtain ⟨lexeme', span'⟩ := token'
    obtain rfl : lexeme' = lexeme := ht.lexeme
    cases lexeme' with
    | ident name => exact .ok ⟨rfl, ht.span⟩ ⟨hts, hc.furthest⟩
    | fixed | integer => exact Agree.expected _ hc

/-- The operator under the cursor is the same. -/
theorem BinOp.bind_ofToken?_of_like {ops : List BinOp} {o o' : Option Token}
    (h : Option.Rel (Token.Like R) o o') : o'.bind (ofToken? ops) = o.bind (ofToken? ops) := by
  cases h with
  | none => rfl
  | some ht => simp only [Option.bind_some, ofToken?, ht.lexeme]

theorem lexeme_of_like {o o' : Option Token} (h : Option.Rel (Token.Like R) o o') :
    o'.map Token.lexeme = o.map Token.lexeme := by
  cases h with
  | none => rfl
  | some ht => rw [Option.map_some, Option.map_some, ht.lexeme]

namespace Expr

theorem integerLiteral_agree : Agree R integerLiteral integerLiteral (Expr.Like R) := by
  rintro ⟨rest, furthest⟩ ⟨rest', furthest'⟩ hc
  cases hc.rest with
  | nil => exact Agree.expected _ hc
  | @cons token token' ts ts' ht hts =>
    obtain ⟨lexeme, span⟩ := token
    obtain ⟨lexeme', span'⟩ := token'
    obtain rfl : lexeme' = lexeme := ht.lexeme
    cases lexeme' with
    | integer digits =>
      unfold integerLiteral
      dsimp only
      split
      · exact .ok (.integer _ ht.span) ⟨hts, hc.furthest⟩
      · exact .error ⟨.literalOutOfRange digits ht.span, rfl⟩ hc
    | fixed | ident => exact Agree.expected _ hc

theorem booleanLiteral_agree : Agree R booleanLiteral booleanLiteral (Expr.Like R) := by
  rintro ⟨rest, furthest⟩ ⟨rest', furthest'⟩ hc
  cases hc.rest with
  | nil => exact Agree.expected _ hc
  | @cons token token' ts ts' ht hts =>
    obtain ⟨lexeme, span⟩ := token
    obtain ⟨lexeme', span'⟩ := token'
    obtain rfl : lexeme' = lexeme := ht.lexeme
    unfold booleanLiteral
    dsimp only
    split
    · next heq =>
      cases heq
      exact .ok (.boolean true ht.span) ⟨hts, hc.furthest⟩
    · next heq =>
      cases heq
      exact .ok (.boolean false ht.span) ⟨hts, hc.furthest⟩
    · next htrue hfalse =>
      split
      · next heq =>
        cases heq
        exact absurd rfl (htrue _ _)
      · next heq =>
        cases heq
        exact absurd rfl (hfalse _ _)
      · exact Agree.expected _ hc

variable {operand operand' inner inner' : Parser Expr}

variable (hmerge : Merges R)
include hmerge

theorem callParser_agree (h : Agree R inner inner' (Expr.Like R)) :
    Agree R (callParser inner) (callParser inner') (Expr.Like R) :=
  .bind Ident.parser_agree fun _ _ hfunc => .bind (.terminal _) fun _ _ _ =>
    .bind (Agree.separated h (.terminal _)) fun _ _ hargs => .bind (.terminal _) fun _ _ hclose =>
      .pure (.call hfunc hargs (hmerge hfunc.span hclose.span))

theorem primary_agree (h : Agree R inner inner' (Expr.Like R)) :
    Agree R (primary inner) (primary inner') (Expr.Like R) := by
  refine .label (.or (.or (.or (.or integerLiteral_agree booleanLiteral_agree)
    (callParser_agree hmerge h)) (.map Ident.parser_agree fun _ _ hid => .ident hid)) ?_) _
  exact .skip (.skipLeft (.terminal _) h) (.terminal _)

theorem chainWithin_agree (h : Agree R operand operand' (Expr.Like R)) (ops : List BinOp)
    (rounds : Nat) {left left' : Expr} (hleft : left.Like R left') :
    Agree R (chainWithin rounds ops operand left) (chainWithin rounds ops operand' left')
      (Expr.Like R) := by
  induction rounds generalizing left left' with
  | zero => exact .pure hleft
  | succ rounds ih =>
    unfold chainWithin
    refine .bind .peek fun o o' ho => ?_
    rw [BinOp.bind_ofToken?_of_like ho]
    cases o.bind (BinOp.ofToken? ops) with
    | none => exact .pure hleft
    | some op =>
      exact .bind .advance fun _ _ _ => .bind h fun right right' hright =>
        ih (.binary op hleft hright (hmerge hleft.span hright.span))

theorem chain_agree (ops : List BinOp) (h : Agree R operand operand' (Expr.Like R)) :
    Agree R (chain ops operand) (chain ops operand') (Expr.Like R) :=
  .bind h fun _ _ hfirst => .bind_remaining fun n => chainWithin_agree hmerge h ops n hfirst

theorem operators_agree (h : Agree R operand operand' (Expr.Like R)) :
    Agree R (operators operand) (operators operand') (Expr.Like R) := by
  have hlevels (levels : List (List BinOp)) :
      Agree R (levels.foldr chain operand) (levels.foldr chain operand') (Expr.Like R) := by
    induction levels with
    | nil => exact h
    | cons ops levels ih => exact chain_agree hmerge ops ih
  exact hlevels BinOp.levels

theorem parser_agree : Agree R Expr.parser Expr.parser (Expr.Like R) := by
  refine .bind_remaining fun depth => ?_
  induction depth with
  | zero => exact .expected _
  | succ depth ih => exact operators_agree hmerge (primary_agree hmerge ih)

end Expr

/-! ### Declarations -/

namespace Decl

theorem typeParser_agree :
    Agree R typeParser typeParser fun p p' => p'.1 = p.1 ∧ R p.2 p'.2 := by
  have hword (t : Terminal) (type : Option BaseType) : Agree R (typeWord t type) (typeWord t type)
      fun p p' => p'.1 = p.1 ∧ R p.2 p'.2 :=
    .bind (.terminal t) fun _ _ ht => .pure ⟨rfl, ht.span⟩
  exact .label (.or (.or (hword _ _) (hword _ _)) (hword _ _)) _

variable (hmerge : Merges R)
include hmerge

theorem parameterParser_agree : Agree R parameterParser parameterParser (Decl.Like R) :=
  .bind typeParser_agree fun _ _ htype => .bind Ident.parser_agree fun _ _ hname =>
    .pure ⟨htype.1, hname, hmerge htype.2 hname.span⟩

theorem parser_agree : Agree R Decl.parser Decl.parser (Decl.Like R) :=
  .bind (parameterParser_agree hmerge) fun _ _ hd => .bind (.terminal _) fun _ _ hsemicolon =>
    .pure ⟨hd.type, hd.name, hmerge hd.span hsemicolon.span⟩

end Decl

/-! ### Statements, functions and entries -/

section

variable (hmerge : Merges R) {inner inner' : Parser Stmt}
include hmerge

omit hmerge in
theorem Block.statementsWithin_agree (h : Agree R inner inner' (Stmt.Like R))
    (rounds : Nat) :
    Agree R (statementsWithin rounds inner) (statementsWithin rounds inner')
      (List.Forall₂ (Stmt.Like R)) := by
  induction rounds with
  | zero => exact .pure .nil
  | succ rounds ih =>
    refine .bind .peek fun o o' ho => ?_
    cases ho with
    | none => exact .pure .nil
    | some ht =>
      dsimp only
      rw [ht.lexeme]
      split
      · exact .pure .nil
      · exact .bind h fun _ _ hs => .bind ih fun _ _ hss => .pure (.cons hs hss)

theorem Block.parserOf_agree (h : Agree R inner inner' (Stmt.Like R)) :
    Agree R (parserOf inner) (parserOf inner') (Block.Like R) :=
  .bind (.terminal _) fun _ _ hbrace => .bind (.many (Decl.parser_agree hmerge)) fun _ _ hds =>
    .bind_remaining fun n => .bind (statementsWithin_agree h n) fun _ _ hss =>
      .bind (.terminal _) fun _ _ hclose => .pure ⟨hds, hss, hmerge hbrace.span hclose.span⟩

namespace Stmt

theorem condParser_agree (h : Agree R inner inner' (Stmt.Like R)) :
    Agree R (condParser inner) (condParser inner') (Stmt.Like R) := by
  refine .bind (.terminal _) fun word word' hword => .bind (Expr.parser_agree hmerge)
    fun c c' hc => .bind h fun t t' ht =>
      .bind (.optional (.skipLeft (.terminal _) h)) fun o o' ho => .pure ?_
  cases ho with
  | none => exact .cond hc ht (hmerge hword.span ht.span)
  | some he => exact .condElse hc ht he (hmerge hword.span he.span)

theorem loopParser_agree (h : Agree R inner inner' (Stmt.Like R)) :
    Agree R (loopParser inner) (loopParser inner') (Stmt.Like R) :=
  .bind (.terminal _) fun _ _ hword => .bind (Expr.parser_agree hmerge) fun _ _ hc =>
    .bind h fun _ _ hbody => .pure (.loop hc hbody (hmerge hword.span hbody.span))

theorem returnParser_agree : Agree R returnParser returnParser (Stmt.Like R) :=
  .bind (.terminal _) fun _ _ hword => .bind (Expr.parser_agree hmerge) fun _ _ hv =>
    .bind (.terminal _) fun _ _ hsemicolon => .pure (.ret hv (hmerge hword.span hsemicolon.span))

theorem assignParser_agree : Agree R assignParser assignParser (Stmt.Like R) :=
  .bind Ident.parser_agree fun _ _ ht => .bind (.terminal _) fun _ _ _ =>
    .bind (Expr.parser_agree hmerge) fun _ _ hv => .bind (.terminal _) fun _ _ hsemicolon =>
      .pure (.assign ht hv (hmerge ht.span hsemicolon.span))

theorem parserOf_agree (h : Agree R inner inner' (Stmt.Like R)) :
    Agree R (parserOf inner) (parserOf inner') (Stmt.Like R) := by
  refine .bind .peek fun o o' ho => ?_
  rw [lexeme_of_like ho]
  split
  · exact .map (Block.parserOf_agree hmerge h) fun _ _ hb => hb.toStmt
  · exact condParser_agree hmerge h
  · exact loopParser_agree hmerge h
  · exact returnParser_agree hmerge
  · exact assignParser_agree hmerge
  · exact .expected _

theorem parser_agree : Agree R Stmt.parser Stmt.parser (Stmt.Like R) := by
  refine .bind_remaining fun depth => ?_
  induction depth with
  | zero => exact .expected _
  | succ depth ih => exact parserOf_agree hmerge ih

end Stmt

theorem FunDef.parser_agree : Agree R FunDef.parser FunDef.parser (FunDef.Like R) :=
  .bind (.terminal _) fun _ _ hword => .bind (.label Ident.parser_agree _) fun _ _ hname =>
    .bind (.terminal _) fun _ _ _ =>
      .bind (.separated (Decl.parameterParser_agree hmerge) (.terminal _)) fun _ _ hparams =>
        .bind (.terminal _) fun _ _ _ =>
          .bind (Block.parserOf_agree hmerge (Stmt.parser_agree hmerge)) fun _ _ hbody =>
            .pure ⟨hname, hparams, hbody, hmerge hword.span hbody.span⟩

namespace Item

theorem parser_agree : Agree R Item.parser Item.parser (Item.Like R) := by
  have hdeclaration :
      Agree R (Item.declaration <$> Decl.parser) (Item.declaration <$> Decl.parser)
      (Item.Like R) := .map (Decl.parser_agree hmerge) fun _ _ hd => .declaration hd
  refine .bind .peek fun o o' ho => ?_
  rw [lexeme_of_like ho]
  split
  · exact .map (FunDef.parser_agree hmerge) fun _ _ hf => .function hf
  · exact hdeclaration
  · exact hdeclaration
  · exact hdeclaration
  · exact .map (Stmt.parser_agree hmerge) fun _ _ hs => .statement hs

theorem listWithin_agree (rounds : Nat) :
    Agree R (listWithin rounds) (listWithin rounds) (List.Forall₂ (Item.Like R)) := by
  induction rounds with
  | zero => exact .pure .nil
  | succ rounds ih =>
    refine .bind .peek fun o o' ho => ?_
    cases ho with
    | none => exact .pure .nil
    | some _ =>
      exact .bind (parser_agree hmerge) fun _ _ hi => .bind ih fun _ _ his =>
        .pure (.cons hi his)

end Item

namespace Entry

theorem bareExpression_agree :
    Agree R bareExpression bareExpression (Option.Rel (Expr.Like R)) := by
  intro c c' hc
  have hlone : Agree R (Expr.parser.skip (Parser.terminal .semicolon).optional)
      (Expr.parser.skip (Parser.terminal .semicolon).optional) (Expr.Like R) :=
    .skip (Expr.parser_agree hmerge) (.optional (.terminal _))
  have hends := hlone hc
  unfold bareExpression
  generalize Parser.skip _ _ c = x, Parser.skip _ _ c' = x' at hends
  cases hends with
  | error _ hd => exact .ok .none (hc.back hd)
  | @ok e e' d d' he hd =>
    have hempty : d'.rest.isEmpty = d.rest.isEmpty := by
      rw [Bool.eq_iff_iff, List.isEmpty_iff_length_eq_zero, List.isEmpty_iff_length_eq_zero,
        hd.rest.length_eq]
    dsimp only
    rw [hempty]
    split
    · exact .ok (.some he) hd
    · exact .ok .none (hc.back hd)

theorem parser_agree : Agree R Entry.parser Entry.parser (Entry.Like R) := by
  refine .bind (bareExpression_agree hmerge) fun o o' ho => ?_
  cases ho with
  | some he => exact .pure (.expression he)
  | none =>
    exact .bind_remaining fun n => .bind (Item.listWithin_agree hmerge n) fun _ _ his =>
      .pure (like_ofItems his)

/-- Tokens that are alike make entries that are alike, or are refused with
errors that are alike. -/
theorem ofTokens_of_like {ts ts' : List Token} (h : List.Forall₂ (Token.Like R) ts ts') :
    (∃ e e', ofTokens ts = .ok e ∧ ofTokens ts' = .ok e' ∧ e.Like R e') ∨
      ∃ err err', ofTokens ts = .error err ∧ ofTokens ts' = .error err' ∧ err.Like R err' := by
  have hends := parser_agree hmerge (⟨h, .none⟩ : (Cursor.ofTokens ts).Like R (.ofTokens ts'))
  unfold ofTokens
  generalize parser (.ofTokens ts) = x, parser (.ofTokens ts') = x' at hends
  cases hends with
  | ok he _ => exact .inl ⟨_, _, rfl, rfl, he⟩
  | @error err err' c c' herr hc =>
    obtain ⟨rest, furthest⟩ := c
    obtain ⟨rest', furthest'⟩ := c'
    cases hc.furthest with
    | none => exact .inr ⟨_, _, rfl, rfl, herr⟩
    | some hm => exact .inr ⟨_, _, rfl, rfl, hm.2⟩

end Entry

end

end Implet
