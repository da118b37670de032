/-
Implet/Proofs/Outlines.lean

An outline loses nothing but spans: of two entries that can be written, those
with the same outline are the same without their spans (`Entry.outline_inj`).

The text of an outline falls into its lines, each with its level, as no line
begins with a space or has a newline in it (`OutlineLine.eq_of_join`).  The
lines of a node in turn are told apart from what follows them by levels: what
belongs to a node stands below it, and what follows it does not.  Only the two
branches of a conditional and the declarations and statements of a block stand
at one level each, and there the first word of a line says what it is.
`LinesTell lines level view a b` says this of two nodes in the way in which
`Tells` says it of texts.
-/
import Implet.Proofs.Delimited
import Implet.Proofs.Writability
import Implet.Syntax.Outline

namespace Implet

/-! ### Texts without newlines -/

/-- The text stays on its line. -/
def OneLine (text : String) : Prop := ∀ c ∈ text.toList, c ≠ '\n'

instance (text : String) : Decidable (OneLine text) :=
  decidable_of_iff (text.toList.all (· != '\n') = true) (by simp [OneLine])

namespace OneLine

variable {s t : String}

theorem append (h : OneLine s) (h' : OneLine t) : OneLine (s ++ t) := by
  rw [OneLine, String.toList_append]
  exact List.forall_mem_append.mpr ⟨h, h'⟩

theorem intercalate {ts : List String} (hs : OneLine s) (h : ∀ t ∈ ts, OneLine t) :
    OneLine (s.intercalate ts) := by
  cases ts with
  | nil => exact nofun
  | cons t ts =>
    obtain ⟨ht, hts⟩ := List.forall_mem_cons.mp h
    rw [OneLine, toList_intercalate_cons]
    refine List.forall_mem_append.mpr ⟨ht, fun c hc => ?_⟩
    obtain ⟨t', ht', hc⟩ := List.mem_flatMap.mp hc
    exact (List.mem_append.mp hc).elim (hs c) (hts t' ht' c)

theorem name {name : String} (h : IsName name) : OneLine name := by
  rintro c hc rfl
  exact absurd (List.all_eq_true.mp h.1.2 _ hc) (by decide)

theorem literal {value : Int64} (h : 0 ≤ value.toInt) :
    OneLine (toString value.toInt) := by
  obtain ⟨n, hn⟩ := Int.eq_ofNat_of_zero_le h
  rw [hn]
  rintro c hc rfl
  exact absurd (isDigit_of_mem_toString hc) (by decide)

theorem decl {d : Decl} (h : d.Writable) : OneLine d.text := by
  have hname := name h
  have hspace : OneLine " " := by decide
  unfold Decl.text
  split
  · next type _ =>
    have htype : OneLine type.text := by cases type <;> decide
    exact (htype.append hspace).append hname
  · exact append (by decide) hname

mutual

theorem expr (e : Expr) (nested : Bool) (h : e.Writable) :
    OneLine (e.textWithin nested) := by
  cases e with
  | integer value span => exact literal h
  | boolean value span =>
    rw [Expr.textWithin]
    cases value <;> decide
  | ident id => exact name h
  | binary op left right span =>
    have hop : OneLine op.text := by cases op <;> decide
    have hspace : OneLine " " := by decide
    have htext := ((((expr left true h.1).append hspace).append hop).append hspace).append
      (expr right true h.2)
    rw [Expr.textWithin, parenthesize]
    split
    · exact (append (by decide) htext).append (by decide)
    · exact htext
  | call func args span =>
    have hargs : OneLine (", ".intercalate (argumentTexts args)) :=
      intercalate (by decide) (exprs args h.2)
    exact (((name h.1).append (by decide)).append hargs).append (by decide)

theorem exprs (es : List Expr) (h : writableAll es) :
    ∀ t ∈ argumentTexts es, OneLine t := by
  cases es with
  | nil => exact nofun
  | cons e es => exact List.forall_mem_cons.mpr ⟨expr e false h.1, exprs es h.2⟩

end

end OneLine

/-! ### Lines of a text -/

namespace OutlineLine

/-- A line that can be told from the spaces before it and from the line after it. -/
structure Plain (line : OutlineLine) : Prop where
  begins : line.text.toList.head?.any (· != ' ') = true
  oneLine : OneLine line.text

theorem toList_render (line : OutlineLine) : line.render.toList =
    List.replicate (2 * line.level) ' ' ++ (line.text.toList ++ ['\n']) := by
  have hindent (n : Nat) :
      (String.join (List.replicate n "  ")).toList = List.replicate (2 * n) ' ' := by
    induction n with
    | zero => rfl
    | succ n ih =>
      rw [List.replicate_succ, String.join_cons, String.toList_append, ih, Nat.mul_succ,
        Nat.add_comm, ← List.replicate_append_replicate]
      rfl
  rw [render, String.toList_append, String.toList_append, hindent, List.append_assoc]
  rfl

theorem Plain.eq_of_append {l l' : OutlineLine} (h : l.Plain) (h' : l'.Plain)
    {cs ds : List Char}
    (heq : l.render.toList ++ cs = l'.render.toList ++ ds) : l = l' ∧ cs = ds := by
  have hspaces {n : Nat} : ∀ c ∈ List.replicate n ' ', (c == ' ') = true := fun c hc => by
    rw [List.eq_of_mem_replicate hc]
    rfl
  have hbegins {l : OutlineLine} (h : l.Plain) (cs : List Char) :
      ∀ c ∈ (l.text.toList ++ '\n' :: cs).head?, (c == ' ') = false := by
    have hhead := h.begins
    rcases ht : l.text.toList with - | ⟨d, w⟩ <;> rw [ht] at hhead
    · cases hhead
    · rintro c ⟨⟩
      simpa using hhead
  have hstays {l : OutlineLine} (h : l.Plain) : ∀ c ∈ l.text.toList, (c != '\n') = true :=
    fun c hc => bne_iff_ne.mpr (h.oneLine c hc)
  have hnewline (cs : List Char) : ∀ c ∈ ('\n' :: cs).head?, (c != '\n') = false := by
    rintro c ⟨⟩
    rfl
  rw [toList_render, toList_render, List.append_assoc, List.append_assoc, List.append_assoc,
    List.append_assoc, List.singleton_append, List.singleton_append] at heq
  obtain ⟨hindent, hline⟩ :=
    eq_of_append_eq_append hspaces hspaces (hbegins h cs) (hbegins h' ds) heq
  obtain ⟨htext, hrest⟩ :=
    eq_of_append_eq_append (hstays h) (hstays h') (hnewline cs) (hnewline ds) hline
  have hlevel := congrArg List.length hindent
  rw [List.length_replicate, List.length_replicate] at hlevel
  refine ⟨?_, (List.cons.inj hrest).2⟩
  rw [show l = ⟨l.level, l.text⟩ from rfl, String.toList_injective htext,
    show l.level = l'.level by omega]

/-- The lines of an outline can be read off its text. -/
theorem eq_of_join {ls ls' : List OutlineLine} (h : ∀ l ∈ ls, l.Plain)
    (h' : ∀ l ∈ ls', l.Plain)
    (heq : String.join (ls.map render) = String.join (ls'.map render)) : ls = ls' := by
  replace heq := congrArg String.toList heq
  rw [String.toList_join, String.toList_join, List.flatMap_map, List.flatMap_map] at heq
  induction ls generalizing ls' with
  | nil =>
    cases ls' with
    | nil => rfl
    | cons l' ls' => simp [toList_render] at heq
  | cons l ls ih =>
    cases ls' with
    | nil => simp [toList_render] at heq
    | cons l' ls' =>
      rw [List.flatMap_cons, List.flatMap_cons] at heq
      obtain ⟨hl, hls⟩ := List.forall_mem_cons.mp h
      obtain ⟨hl', hls'⟩ := List.forall_mem_cons.mp h'
      obtain ⟨rfl, hrest⟩ := hl.eq_of_append hl' heq
      rw [ih hls hls' hrest]

/-- A line that begins with a given word, which need not be all of it. -/
theorem plain_append {level : Nat} {s t : String}
    (hs : s.toList.head?.any (· != ' ') = true)
    (h : OneLine s) (h' : OneLine t) : Plain ⟨level, s ++ t⟩ := by
  refine ⟨?_, h.append h'⟩
  rw [String.toList_append]
  rcases hc : s.toList with - | ⟨c, cs⟩ <;> rw [hc] at hs
  · cases hs
  · exact hs

/-- A line that is a given word. -/
theorem plain_word {level : Nat} {s : String} (hs : s.toList.head?.any (· != ' ') = true)
    (h : OneLine s) : Plain ⟨level, s⟩ := ⟨hs, h⟩

end OutlineLine

/-! ### Lines of an entry -/

section Lines

variable {level : Nat}

open OutlineLine

theorem Decl.plain_outlineAt {d : Decl} (h : d.Writable) : (d.outlineAt level).Plain :=
  plain_append rfl (by decide) (.decl h)

mutual

theorem Stmt.plain_outlineAt (level : Nat) (s : Stmt) (h : s.Writable) :
    ∀ l ∈ s.outlineAt level, l.Plain := by
  cases s with
  | block declarations statements span =>
    refine List.forall_mem_cons.mpr ⟨plain_word rfl (by decide), List.forall_mem_append.mpr
      ⟨List.forall_mem_map.mpr fun d hd => Decl.plain_outlineAt (h.1 d hd),
        plain_outlineStmts (level + 1) statements h.2⟩⟩
  | cond condition thenBranch elseBranch span =>
    cases elseBranch with
    | none =>
      exact List.forall_mem_cons.mpr ⟨plain_append rfl (by decide) (.expr condition false h.1),
        List.forall_mem_cons.mpr ⟨plain_word rfl (by decide),
          thenBranch.plain_outlineAt (level + 2) h.2⟩⟩
    | some elseBranch =>
      exact List.forall_mem_cons.mpr ⟨plain_append rfl (by decide) (.expr condition false h.1),
        List.forall_mem_cons.mpr ⟨plain_word rfl (by decide), List.forall_mem_append.mpr
          ⟨thenBranch.plain_outlineAt (level + 2) h.2.1, List.forall_mem_cons.mpr
            ⟨plain_word rfl (by decide), elseBranch.plain_outlineAt (level + 2) h.2.2⟩⟩⟩⟩
  | loop condition body span =>
    exact List.forall_mem_cons.mpr ⟨plain_append rfl (by decide) (.expr condition false h.1),
      body.plain_outlineAt (level + 1) h.2⟩
  | assign target value span =>
    have htext : OneLine (target.name ++ (" := " ++ value.text)) :=
      (OneLine.name h.1).append (.append (by decide) (.expr value false h.2))
    rw [Stmt.outlineAt, String.append_assoc, String.append_assoc]
    exact List.forall_mem_singleton.mpr (plain_append rfl (by decide) htext)
  | ret value span =>
    exact List.forall_mem_singleton.mpr (plain_append rfl (by decide) (.expr value false h))

theorem plain_outlineStmts (level : Nat) (ss : List Stmt) (h : stmtsWritable ss) :
    ∀ l ∈ outlineStmts level ss, l.Plain := by
  cases ss with
  | nil => exact nofun
  | cons s ss =>
    exact List.forall_mem_append.mpr ⟨s.plain_outlineAt level h.1, plain_outlineStmts level ss h.2⟩

end

theorem FunDef.plain_outlineAt {f : FunDef} (h : f.Writable) :
    ∀ l ∈ f.outlineAt level, l.Plain := by
  have hparams : OneLine (", ".intercalate (f.params.map Decl.text)) :=
    .intercalate (by decide) (List.forall_mem_map.mpr fun d hd => .decl (h.2.1 d hd))
  have htext :
      OneLine (f.name.name ++ ("(" ++ (", ".intercalate (f.params.map Decl.text) ++ ")"))) :=
    (OneLine.name h.1).append (.append (by decide) (hparams.append (by decide)))
  rw [FunDef.outlineAt, String.append_assoc, String.append_assoc, String.append_assoc]
  exact List.forall_mem_cons.mpr ⟨plain_append rfl (by decide) htext,
    (Stmt.ofBlock f.body).plain_outlineAt (level + 1) h.2.2⟩

theorem Entry.plain_outlineAt {u : Entry} (h : u.Writable) :
    ∀ l ∈ u.outlineAt level, l.Plain := by
  cases u with
  | program p =>
    obtain ⟨hf, hd, hs⟩ := h
    simp only [outlineAt, Program.outlineAt, List.forall_mem_cons, List.forall_mem_append,
      List.forall_mem_flatMap, List.forall_mem_map]
    exact ⟨plain_word rfl (by decide), plain_word rfl (by decide),
      fun f hf' => f.plain_outlineAt (hf f hf'), plain_word rfl (by decide),
      fun d hd' => d.plain_outlineAt (hd d hd'), plain_word rfl (by decide),
      plain_outlineStmts _ p.main (stmtsWritable_iff.mpr hs)⟩
  | function f => exact FunDef.plain_outlineAt h
  | declaration d => exact List.forall_mem_singleton.mpr (Decl.plain_outlineAt h)
  | statement s => exact s.plain_outlineAt level h
  | expression e =>
    exact List.forall_mem_singleton.mpr (plain_append rfl (by decide) (.expr e false h))

end Lines

/-! ### The texts of lines -/

theorem Expr.eq_of_text {e e' : Expr} (h : e.Writable) (h' : e'.Writable)
    (heq : e.text = e'.text) :
    e.bare = e'.bare := by
  obtain ⟨u, hu, hbare⟩ := h.parse_text
  obtain ⟨u', hu', hbare'⟩ := h'.parse_text
  rw [heq, hu'] at hu
  cases hu
  exact hbare.symm.trans hbare'

/-- How the type of a declaration is written. -/
def typeText : Option BaseType → String
  | some type => type.text
  | none => "var"

/-- A declaration is a type and a name. -/
theorem Decl.toList_text (d : Decl) (cs : List Char) :
    d.text.toList ++ cs = (typeText d.type).toList ++ ' ' :: (d.name.name.toList ++ cs) := by
  obtain ⟨type, name, span⟩ := d
  cases type with
  | none => simp [Decl.text, typeText]
  | some type => simp [Decl.text, typeText]

theorem Decl.tells {d d' : Decl} (h : d.Writable) (h' : d'.Writable) :
    Tells Decl.text Decl.bare d d' := by
  intro cs ds hcs hds heq
  have hword (type : Option BaseType) : ∀ c ∈ (typeText type).toList, isWordChar c = true := by
    refine List.all_eq_true.mp ?_
    rcases type with - | - | - <;> decide
  have hspace (cs : List Char) : ∀ c ∈ (' ' :: cs).head?, isWordChar c = false := by
    rintro c ⟨⟩
    decide
  rw [Decl.toList_text, Decl.toList_text] at heq
  obtain ⟨htype, hrest⟩ := eq_of_append_eq_append (hword _) (hword _) (hspace _) (hspace _) heq
  obtain ⟨hname, hend⟩ := IsName.eq_of_append h h' hcs hds (List.cons.inj hrest).2
  refine ⟨?_, hend⟩
  have htypes : d.type = d'.type := by
    revert htype
    rcases d.type with - | - | - <;> rcases d'.type with - | - | - <;> decide
  rw [Decl.bare, Decl.bare, Ident.bare, Ident.bare, htypes, hname]

theorem Decl.text_head (d : Decl) : d.text.toList.head?.any (· != ')') = true := by
  rw [← List.append_nil d.text.toList, Decl.toList_text]
  rcases d.type with - | - | - <;> rfl

/-! ### Lines that belong to a node -/

section Nodes

variable {α β : Type} {level : Nat} {lines : α → List OutlineLine} {view : α → β}

/-- Nothing, or a line that is not below the level. -/
def NotBelow (level : Nat) (rest : List OutlineLine) : Prop :=
  ∀ l ∈ rest.head?, l.level ≤ level

/-- The lines of `a` and `b` at the level are different where they end or before
that, unless `view` makes no difference between `a` and `b`. -/
def LinesTell (lines : α → List OutlineLine) (level : Nat) (view : α → β) (a b : α) :
    Prop :=
  ∀ {rest rest' : List OutlineLine}, NotBelow level rest → NotBelow level rest' →
    lines a ++ rest = lines b ++ rest' → view a = view b ∧ rest = rest'

/-- The lines begin with one at the level, which begins with the letter. -/
def BeginsWith (level : Nat) (letter : Char) (lines : List OutlineLine) : Prop :=
  ∃ text below, lines = ⟨level, text⟩ :: below ∧ text.toList.head? = some letter

/-- The lines of a node begin at the level. -/
def LinesBegin (lines : α → List OutlineLine) (level : Nat) : Prop :=
  ∀ a more, ∃ text below, lines a ++ more = ⟨level, text⟩ :: below

/-- What comes after nodes that follow each other, and does not go on with
another one. -/
structure LinesEnd (lines : α → List OutlineLine) (level : Nat) (rest : List OutlineLine) :
    Prop where
  after : NotBelow level rest
  other : ∀ a more, lines a ++ more ≠ rest

theorem notBelow_nil (level : Nat) : NotBelow level [] := by
  rintro l ⟨⟩

theorem NotBelow.mono {level' : Nat} {rest : List OutlineLine} (h : NotBelow level rest)
    (hle : level ≤ level') : NotBelow level' rest := fun l hl => Nat.le_trans (h l hl) hle

theorem notBelow_cons {line : OutlineLine} (h : line.level ≤ level)
    (rest : List OutlineLine) :
    NotBelow level (line :: rest) := by
  rintro l ⟨⟩
  exact h

theorem BeginsWith.unique {c d : Char} {ls : List OutlineLine} (h : BeginsWith level c ls)
    (h' : BeginsWith level d ls) : c = d := by
  obtain ⟨text, below, rfl, hc⟩ := h
  obtain ⟨text', below', heq, hd⟩ := h'
  cases heq
  exact Option.some.inj (hc.symm.trans hd)

theorem LinesBegin.notBelow (h : LinesBegin lines level) (a : α)
    (more : List OutlineLine) :
    NotBelow level (lines a ++ more) := by
  obtain ⟨text, below, ha⟩ := h a more
  rw [ha]
  exact notBelow_cons (Nat.le_refl level) below

/-- What is above the level of nodes ends them. -/
theorem LinesBegin.linesEnd (h : LinesBegin lines level) {above : Nat}
    (hlt : above < level)
    {rest : List OutlineLine} (hrest : NotBelow above rest) : LinesEnd lines level rest := by
  refine ⟨hrest.mono (Nat.le_of_lt hlt), fun a more heq => ?_⟩
  obtain ⟨text, below, ha⟩ := h a more
  have hle : level ≤ above := hrest ⟨level, text⟩ (by rw [← heq, ha]; rfl)
  omega

/-- Nodes that follow each other are told apart one by one. -/
theorem eq_of_flatMap {as bs : List α} {rest rest' : List OutlineLine}
    (h : ∀ a ∈ as, ∀ b ∈ bs, LinesTell lines level view a b)
    (hlines : LinesBegin lines level) (hrest : LinesEnd lines level rest)
    (hrest' : LinesEnd lines level rest')
    (heq : as.flatMap lines ++ rest = bs.flatMap lines ++ rest') :
    as.map view = bs.map view ∧ rest = rest' := by
  have hafter {rest : List OutlineLine} (hrest : LinesEnd lines level rest) (as : List α) :
      NotBelow level (as.flatMap lines ++ rest) := by
    cases as with
    | nil => exact hrest.after
    | cons a as =>
      rw [List.flatMap_cons, List.append_assoc]
      exact hlines.notBelow a _
  induction as generalizing bs with
  | nil =>
    cases bs with
    | nil => exact ⟨rfl, heq⟩
    | cons b bs =>
      rw [List.flatMap_cons, List.append_assoc] at heq
      exact absurd heq.symm (hrest.other b _)
  | cons a as ih =>
    cases bs with
    | nil =>
      rw [List.flatMap_cons, List.append_assoc] at heq
      exact absurd heq (hrest'.other a _)
    | cons b bs =>
      rw [List.flatMap_cons, List.flatMap_cons, List.append_assoc, List.append_assoc] at heq
      obtain ⟨hview, hmore⟩ := h a List.mem_cons_self b List.mem_cons_self (hafter hrest as)
        (hafter hrest' bs) heq
      obtain ⟨hviews, hend⟩ := ih (fun a' ha b' hb =>
        h a' (List.mem_cons_of_mem _ ha) b' (List.mem_cons_of_mem _ hb)) hmore
      exact ⟨by rw [List.map_cons, List.map_cons, hview, hviews], hend⟩

end Nodes

theorem Decl.linesBegin {level : Nat} :
    LinesBegin (fun d : Decl => [d.outlineAt level]) level :=
  fun _ _ => ⟨_, _, rfl⟩

theorem Decl.beginsWith (level : Nat) (d : Decl) (more : List OutlineLine) :
    BeginsWith level 'D' (d.outlineAt level :: more) :=
  ⟨_, _, rfl, by rw [String.toList_append]; rfl⟩

/-- The line of a declaration tells which one it is. -/
theorem Decl.linesTell {level : Nat} {d d' : Decl} (h : d.Writable) (h' : d'.Writable) :
    LinesTell (fun d => [d.outlineAt level]) level bare d d' := by
  intro rest rest' _ _ heq
  obtain ⟨hline, hrest⟩ := List.cons.inj heq
  have htext := (String.append_right_inj _).mp (congrArg OutlineLine.text hline)
  exact ⟨(tells h h' apart_nil apart_nil (by rw [htext])).1, hrest⟩

/-! ### Statements -/

namespace Stmt

/-- The letter that the outline of a statement begins with. -/
def letter : Stmt → Char
  | block _ _ _ => 'B'
  | cond _ _ _ _ => 'I'
  | loop _ _ _ => 'W'
  | assign _ _ _ => 'A'
  | ret _ _ => 'R'

theorem letter_mem (s : Stmt) : s.letter ∈ ['B', 'I', 'W', 'A', 'R'] := by
  cases s <;> simp [letter]

theorem beginsWith (level : Nat) (s : Stmt) (more : List OutlineLine) :
    BeginsWith level s.letter (s.outlineAt level ++ more) := by
  cases s with
  | cond condition thenBranch elseBranch span =>
    cases elseBranch with
    | none | some => exact ⟨_, _, rfl, by rw [String.toList_append]; rfl⟩
  | block => exact ⟨_, _, rfl, rfl⟩
  | loop | ret => exact ⟨_, _, rfl, by rw [String.toList_append]; rfl⟩
  | assign =>
    exact ⟨_, _, rfl, by rw [String.append_assoc, String.append_assoc, String.toList_append]; rfl⟩

variable {level : Nat}

theorem linesBegin : LinesBegin (Stmt.outlineAt level) level := fun s more => by
  obtain ⟨text, below, h, -⟩ := s.beginsWith level more
  exact ⟨text, below, h⟩

/-- The lines of the second branch of a conditional. -/
def elseLines (level : Nat) : Option Stmt → List OutlineLine
  | none => []
  | some elseBranch => ⟨level + 1, "Else"⟩ :: elseBranch.outlineAt (level + 2)

section Conditionals

variable (condition : Expr) (thenBranch : Stmt) (elseBranch : Option Stmt) (span : Span)

theorem outlineAt_cond : (cond condition thenBranch elseBranch span).outlineAt level =
    ⟨level, "If " ++ condition.text⟩ :: ⟨level + 1, "Then"⟩ ::
      (thenBranch.outlineAt (level + 2) ++ elseLines level elseBranch) := by
  cases elseBranch with
  | none => rw [outlineAt, elseLines, List.append_nil]
  | some elseBranch => rw [outlineAt, elseLines]

theorem bare_cond : (cond condition thenBranch elseBranch span).bare =
    .cond condition.bare thenBranch.bare (elseBranch.map bare) .empty := by
  cases elseBranch <;> rfl

variable {condition thenBranch elseBranch span}

theorem writable_cond : (cond condition thenBranch elseBranch span).Writable ↔
    condition.Writable ∧ thenBranch.Writable ∧ ∀ e ∈ elseBranch, e.Writable := by
  cases elseBranch <;> simp [Writable]

end Conditionals

theorem notBelow_elseLines (elseBranch : Option Stmt) {rest : List OutlineLine}
    (h : NotBelow level rest) : NotBelow (level + 2) (elseLines level elseBranch ++ rest) := by
  cases elseBranch with
  | none => exact h.mono (Nat.le_add_right level 2)
  | some e => exact notBelow_cons (Nat.le_succ _) _

/-- Statements with the same outline are of the same kind. -/
theorem letter_eq {s s' : Stmt} {rest rest' : List OutlineLine}
    (heq : s.outlineAt level ++ rest = s'.outlineAt level ++ rest') : s.letter = s'.letter := by
  have h' := s'.beginsWith level rest'
  rw [← heq] at h'
  exact (s.beginsWith level rest).unique h'

end Stmt

theorem outlineStmts_eq (level : Nat) (ss : List Stmt) :
    outlineStmts level ss = ss.flatMap (Stmt.outlineAt level) := by
  induction ss with
  | nil => rfl
  | cons s ss ih => rw [outlineStmts, ih, List.flatMap_cons]

/-- Declarations end where statements begin, and where statements would end. -/
theorem linesEnd_decls {level above : Nat} (hlt : above < level) (ss : List Stmt)
    {rest : List OutlineLine} (h : NotBelow above rest) :
    LinesEnd (fun d : Decl => [d.outlineAt level]) level (outlineStmts level ss ++ rest) := by
  cases ss with
  | nil => exact Decl.linesBegin.linesEnd hlt h
  | cons s ss =>
    rw [outlineStmts, List.append_assoc]
    refine ⟨Stmt.linesBegin.notBelow s _, fun d more heq => ?_⟩
    have hs := s.beginsWith level (outlineStmts level ss ++ rest)
    rw [← heq] at hs
    have hletter := s.letter_mem
    rw [← (d.beginsWith level more).unique hs] at hletter
    exact absurd hletter (by decide)

/-- The outline of a statement tells which one it is, and where it ends. -/
def Stmt.Shown (s : Stmt) : Prop :=
  ∀ (level : Nat) (s' : Stmt), s.Writable → s'.Writable →
    LinesTell (outlineAt level) level bare s s'

namespace Stmt.Shown

variable {condition value : Expr} {body thenBranch : Stmt} {elseBranch : Option Stmt}
  {declarations : List Decl} {statements : List Stmt} {target : Ident} {span : Span}

theorem block (h : ∀ s ∈ statements, s.Shown) :
    (Stmt.block declarations statements span).Shown := by
  intro level s' hs hs' rest rest' hr hr' heq
  have hletter := letter_eq heq
  cases s' with
  | block declarations' statements' span' =>
    rw [outlineAt, outlineAt, List.cons_append, List.cons_append, List.append_assoc,
      List.append_assoc, List.map_eq_flatMap, List.map_eq_flatMap] at heq
    obtain ⟨hdecls, hbelow⟩ := eq_of_flatMap
      (fun d hd d' hd' => Decl.linesTell (hs.1 d hd) (hs'.1 d' hd'))
      Decl.linesBegin (linesEnd_decls (Nat.lt_succ_self level) _ hr)
      (linesEnd_decls (Nat.lt_succ_self level) _ hr') (List.cons.inj heq).2
    rw [outlineStmts_eq, outlineStmts_eq] at hbelow
    obtain ⟨hstmts, hend⟩ := eq_of_flatMap
      (fun s hs₁ s' hs₁' => h s hs₁ _ s' (stmtsWritable_iff.mp hs.2 s hs₁)
        (stmtsWritable_iff.mp hs'.2 s' hs₁'))
      linesBegin (linesBegin.linesEnd (Nat.lt_succ_self level) hr)
      (linesBegin.linesEnd (Nat.lt_succ_self level) hr') hbelow
    rw [bare, bare, hdecls, bareStmts_eq, bareStmts_eq, hstmts]
    exact ⟨rfl, hend⟩
  | cond | loop | assign | ret => exact absurd hletter (by simp [letter])

/-- An `else` is at the level of its `then`, which is below the conditional and
above the branch. -/
theorem cond (hthen : thenBranch.Shown) (helse : ∀ e ∈ elseBranch, e.Shown) :
    (Stmt.cond condition thenBranch elseBranch span).Shown := by
  intro level s' hs hs' rest rest' hr hr' heq
  have hletter := letter_eq heq
  cases s' with
  | cond condition' thenBranch' elseBranch' span' =>
    obtain ⟨hc, ht, he⟩ := writable_cond.mp hs
    obtain ⟨hc', ht', he'⟩ := writable_cond.mp hs'
    rw [outlineAt_cond, outlineAt_cond, List.cons_append, List.cons_append, List.cons_append,
      List.cons_append, List.append_assoc, List.append_assoc] at heq
    obtain ⟨hline, hbelow⟩ := List.cons.inj heq
    have hcondition := Expr.eq_of_text hc hc'
      ((String.append_right_inj _).mp (congrArg OutlineLine.text hline))
    obtain ⟨hthen, hbelow⟩ := hthen _ thenBranch' ht ht' (notBelow_elseLines elseBranch hr)
      (notBelow_elseLines elseBranch' hr') (List.cons.inj hbelow).2
    have helse : elseBranch.map bare = elseBranch'.map bare ∧ rest = rest' := by
      cases elseBranch with
      | none =>
        cases elseBranch' with
        | none => exact ⟨rfl, hbelow⟩
        | some e' =>
          have hbelow :
              rest = ⟨level + 1, "Else"⟩ :: (e'.outlineAt (level + 2) ++ rest') := hbelow
          have hle : level + 1 ≤ level := hr ⟨level + 1, "Else"⟩ (hbelow ▸ rfl)
          omega
      | some e =>
        cases elseBranch' with
        | none =>
          have hbelow :
              ⟨level + 1, "Else"⟩ :: (e.outlineAt (level + 2) ++ rest) = rest' := hbelow
          have hle : level + 1 ≤ level := hr' ⟨level + 1, "Else"⟩ (hbelow ▸ rfl)
          omega
        | some e' =>
          obtain ⟨hview, hend⟩ := helse e rfl _ e' (he e rfl) (he' e' rfl)
            (hr.mono (Nat.le_add_right level 2)) (hr'.mono (Nat.le_add_right level 2))
            (List.cons.inj hbelow).2
          exact ⟨congrArg some hview, hend⟩
    rw [bare_cond, bare_cond, hcondition, hthen, helse.1]
    exact ⟨rfl, helse.2⟩
  | block | loop | assign | ret => exact absurd hletter (by simp [letter])

theorem loop (h : body.Shown) : (Stmt.loop condition body span).Shown := by
  intro level s' hs hs' rest rest' hr hr' heq
  have hletter := letter_eq heq
  cases s' with
  | loop condition' body' span' =>
    rw [outlineAt, outlineAt, List.cons_append, List.cons_append] at heq
    obtain ⟨hline, hbelow⟩ := List.cons.inj heq
    have hcondition := Expr.eq_of_text hs.1 hs'.1
      ((String.append_right_inj _).mp (congrArg OutlineLine.text hline))
    obtain ⟨hbody, hend⟩ := h _ body' hs.2 hs'.2 (hr.mono (Nat.le_succ level))
      (hr'.mono (Nat.le_succ level)) hbelow
    rw [bare, bare, hcondition, hbody]
    exact ⟨rfl, hend⟩
  | block | cond | assign | ret => exact absurd hletter (by simp [letter])

theorem assign : (Stmt.assign target value span).Shown := by
  intro level s' hs hs' rest rest' hr hr' heq
  have hletter := letter_eq heq
  cases s' with
  | assign target' value' span' =>
    obtain ⟨hline, hend⟩ := List.cons.inj heq
    have htext := congrArg OutlineLine.text hline
    dsimp only at htext
    rw [String.append_assoc, String.append_assoc, String.append_assoc, String.append_assoc,
      String.append_right_inj] at htext
    have hspace (text : String) : Apart (" := " ++ text).toList := by
      rw [String.toList_append]
      exact apart_cons (by decide) (by decide) _
    obtain ⟨hname, hvalue⟩ := hs.1.eq_of_text hs'.1 (hspace _) (hspace _) htext
    rw [String.append_right_inj] at hvalue
    rw [bare, bare, Ident.bare, Ident.bare, hname, Expr.eq_of_text hs.2 hs'.2 hvalue]
    exact ⟨rfl, hend⟩
  | block | cond | loop | ret => exact absurd hletter (by simp [letter])

theorem ret : (Stmt.ret value span).Shown := by
  intro level s' hs hs' rest rest' hr hr' heq
  have hletter := letter_eq heq
  cases s' with
  | ret value' span' =>
    obtain ⟨hline, hend⟩ := List.cons.inj heq
    have hvalue := Expr.eq_of_text hs hs'
      ((String.append_right_inj _).mp (congrArg OutlineLine.text hline))
    rw [bare, bare, hvalue]
    exact ⟨rfl, hend⟩
  | block | cond | loop | assign => exact absurd hletter (by simp [letter])

end Stmt.Shown

mutual

theorem Stmt.shown (s : Stmt) : s.Shown := by
  cases s with
  | block declarations statements span => exact .block (shown_all statements)
  | cond condition thenBranch elseBranch span =>
    cases elseBranch with
    | none => exact .cond thenBranch.shown nofun
    | some elseBranch =>
      refine .cond thenBranch.shown ?_
      rintro e ⟨⟩
      exact elseBranch.shown
  | loop condition body span => exact .loop body.shown
  | assign target value span => exact .assign
  | ret value span => exact .ret

theorem shown_all (ss : List Stmt) : ∀ s ∈ ss, s.Shown := by
  cases ss with
  | nil => exact nofun
  | cons s ss => exact List.forall_mem_cons.mpr ⟨s.shown, shown_all ss⟩

end

/-! ### Functions -/

/-- The outline of a function tells which one it is, and where it ends. -/
theorem FunDef.linesTell {level : Nat} {f f' : FunDef} (h : f.Writable)
    (h' : f'.Writable) :
    LinesTell (outlineAt level) level bare f f' := by
  intro rest rest' hr hr' heq
  rw [outlineAt, outlineAt, List.cons_append, List.cons_append] at heq
  obtain ⟨hline, hbelow⟩ := List.cons.inj heq
  have htext := congrArg OutlineLine.text hline
  dsimp only at htext
  rw [String.append_assoc, String.append_assoc, String.append_assoc, String.append_assoc,
    String.append_assoc, String.append_assoc, String.append_right_inj] at htext
  have hopen (text : String) : Apart ("(" ++ text).toList := by
    rw [String.toList_append]
    exact apart_cons (by decide) (by decide) _
  obtain ⟨hname, hlist⟩ := h.1.eq_of_text h'.1 (hopen _) (hopen _) htext
  rw [String.append_right_inj, ← String.toList_inj] at hlist
  rw [String.toList_append, String.toList_append, show ")".toList = [')'] from rfl] at hlist
  obtain ⟨hparams, -⟩ := eq_of_commaList
    (fun d hd d' hd' => Decl.tells (h.2.1 d hd) (h'.2.1 d' hd')) Decl.text_head hlist
  obtain ⟨hbody, hend⟩ := (Stmt.ofBlock f.body).shown _ _ h.2.2 h'.2.2
    (hr.mono (Nat.le_succ level)) (hr'.mono (Nat.le_succ level)) hbelow
  have hblock : f.body.bare = f'.body.bare := by
    obtain ⟨hdecls, hstmts, -⟩ := Stmt.block.inj hbody
    rw [Block.bare, Block.bare, hdecls, hstmts]
  rw [bare, bare, Ident.bare, Ident.bare, hname, hparams, hblock]
  exact ⟨rfl, hend⟩

theorem FunDef.linesBegin {level : Nat} : LinesBegin (FunDef.outlineAt level) level :=
  fun _ _ => ⟨_, _, rfl⟩

/-! ### Without spans -/

mutual

theorem Expr.bare_bare (e : Expr) : e.bare.bare = e.bare := by
  cases e with
  | integer | boolean | ident => rfl
  | binary op left right span =>
    rw [Expr.bare, Expr.bare, left.bare_bare, right.bare_bare]
  | call func args span =>
    rw [Expr.bare, Expr.bare, bareExprs_bareExprs args]
    rfl

theorem bareExprs_bareExprs (es : List Expr) :
    bareExprs (bareExprs es) = bareExprs es := by
  cases es with
  | nil => rfl
  | cons e es => rw [bareExprs, bareExprs, e.bare_bare, bareExprs_bareExprs es]

end

theorem Decl.map_bare_bare (ds : List Decl) : (ds.map bare).map bare = ds.map bare := by
  rw [List.map_map]
  rfl

mutual

theorem Stmt.bare_bare (s : Stmt) : s.bare.bare = s.bare := by
  cases s with
  | block declarations statements span =>
    rw [Stmt.bare, Stmt.bare, Decl.map_bare_bare, bareStmts_bareStmts statements]
  | cond condition thenBranch elseBranch span =>
    cases elseBranch with
    | none => rw [Stmt.bare, Stmt.bare, condition.bare_bare, thenBranch.bare_bare]
    | some elseBranch =>
      rw [Stmt.bare, Stmt.bare, condition.bare_bare, thenBranch.bare_bare, elseBranch.bare_bare]
  | loop condition body span => rw [Stmt.bare, Stmt.bare, condition.bare_bare, body.bare_bare]
  | assign target value span =>
    rw [Stmt.bare, Stmt.bare, value.bare_bare]
    rfl
  | ret value span => rw [Stmt.bare, Stmt.bare, value.bare_bare]

theorem bareStmts_bareStmts (ss : List Stmt) :
    bareStmts (bareStmts ss) = bareStmts ss := by
  cases ss with
  | nil => rfl
  | cons s ss => rw [bareStmts, bareStmts, s.bare_bare, bareStmts_bareStmts ss]

end

theorem FunDef.bare_bare (f : FunDef) : f.bare.bare = f.bare := by
  have hbody : f.body.bare.bare = f.body.bare := by
    rw [Block.bare, Block.bare, Decl.map_bare_bare, bareStmts_bareStmts]
  rw [bare, bare, hbody, Decl.map_bare_bare]
  rfl

theorem Entry.bare_bare (u : Entry) : u.bare.bare = u.bare := by
  cases u with
  | program p =>
    have hfunctions :
        (p.functions.map FunDef.bare).map FunDef.bare = p.functions.map FunDef.bare := by
      rw [List.map_map]
      exact List.map_congr_left fun f _ => f.bare_bare
    rw [bare, bare, Program.bare, Program.bare, hfunctions, Decl.map_bare_bare, ← bareStmts_eq,
      ← bareStmts_eq, bareStmts_bareStmts]
  | function f => exact congrArg function f.bare_bare
  | declaration d => rfl
  | statement s => exact congrArg statement s.bare_bare
  | expression e => exact congrArg expression e.bare_bare

/-! ### Spans are not shown -/

mutual

theorem Expr.textWithin_bare (nested : Bool) (e : Expr) :
    e.bare.textWithin nested = e.textWithin nested := by
  cases e with
  | integer | boolean | ident => rfl
  | binary op left right span =>
    rw [Expr.bare, Expr.textWithin, Expr.textWithin, left.textWithin_bare, right.textWithin_bare]
  | call func args span =>
    rw [Expr.bare, Expr.textWithin, Expr.textWithin, argumentTexts_bare args]
    rfl

theorem argumentTexts_bare (es : List Expr) :
    argumentTexts (bareExprs es) = argumentTexts es := by
  cases es with
  | nil => rfl
  | cons e es =>
    rw [bareExprs, argumentTexts, argumentTexts, e.textWithin_bare, argumentTexts_bare es]

end

theorem Expr.text_bare (e : Expr) : e.bare.text = e.text := e.textWithin_bare false

theorem map_outlineAt_bare (level : Nat) (ds : List Decl) :
    (ds.map Decl.bare).map (Decl.outlineAt level) = ds.map (Decl.outlineAt level) := by
  rw [List.map_map]
  rfl

mutual

theorem Stmt.outlineAt_bare (level : Nat) (s : Stmt) :
    s.bare.outlineAt level = s.outlineAt level := by
  cases s with
  | block declarations statements span =>
    rw [Stmt.bare, Stmt.outlineAt, Stmt.outlineAt, map_outlineAt_bare,
      outlineStmts_bare _ statements]
  | cond condition thenBranch elseBranch span =>
    cases elseBranch with
    | none =>
      rw [Stmt.bare, Stmt.outlineAt, Stmt.outlineAt, condition.text_bare, thenBranch.outlineAt_bare]
    | some elseBranch =>
      rw [Stmt.bare, Stmt.outlineAt, Stmt.outlineAt, condition.text_bare, thenBranch.outlineAt_bare,
        elseBranch.outlineAt_bare]
  | loop condition body span =>
    rw [Stmt.bare, Stmt.outlineAt, Stmt.outlineAt, condition.text_bare, body.outlineAt_bare]
  | assign target value span =>
    rw [Stmt.bare, Stmt.outlineAt, Stmt.outlineAt, value.text_bare]
    rfl
  | ret value span => rw [Stmt.bare, Stmt.outlineAt, Stmt.outlineAt, value.text_bare]

theorem outlineStmts_bare (level : Nat) (ss : List Stmt) :
    outlineStmts level (bareStmts ss) = outlineStmts level ss := by
  cases ss with
  | nil => rfl
  | cons s ss =>
    rw [bareStmts, outlineStmts, outlineStmts, s.outlineAt_bare, outlineStmts_bare _ ss]

end

theorem FunDef.outlineAt_bare (level : Nat) (f : FunDef) :
    f.bare.outlineAt level = f.outlineAt level := by
  have hparams : (f.params.map Decl.bare).map Decl.text = f.params.map Decl.text := by
    rw [List.map_map]
    rfl
  have hbody : (Stmt.ofBlock f.bare.body).outlineAt (level + 1) =
      (Stmt.ofBlock f.body).outlineAt (level + 1) := (Stmt.ofBlock f.body).outlineAt_bare _
  rw [outlineAt, outlineAt, hbody, bare, hparams]
  rfl

namespace Entry

theorem outlineAt_bare (level : Nat) (u : Entry) :
    u.bare.outlineAt level = u.outlineAt level := by
  cases u with
  | program p =>
    have hfunctions :
        (p.functions.map FunDef.bare).flatMap (FunDef.outlineAt (level + 2)) =
        p.functions.flatMap (FunDef.outlineAt (level + 2)) := by
      rw [List.flatMap_map]
      exact List.flatMap_congr fun f _ => f.outlineAt_bare _
    rw [bare, outlineAt, outlineAt, Program.outlineAt, Program.outlineAt, Program.bare, hfunctions,
      map_outlineAt_bare, ← bareStmts_eq, outlineStmts_bare]
  | function f => exact f.outlineAt_bare level
  | declaration d => rfl
  | statement s => exact s.outlineAt_bare level
  | expression e =>
    rw [bare, outlineAt, outlineAt, e.text_bare]

theorem outline_bare (level : Nat) (u : Entry) :
    u.bare.outline level = u.outline level := by
  rw [outline, outline, outlineAt_bare]

/-! ### Entries -/

/-- The letter that the outline of an entry begins with. -/
def letter : Entry → Char
  | program _ => 'P'
  | function _ => 'F'
  | declaration _ => 'D'
  | statement s => s.letter
  | expression _ => 'E'

theorem beginsWith (level : Nat) (u : Entry) :
    BeginsWith level u.letter (u.outlineAt level) := by
  cases u with
  | program => exact ⟨_, _, rfl, rfl⟩
  | declaration d => exact d.beginsWith level []
  | expression => exact ⟨_, _, rfl, by rw [String.toList_append]; rfl⟩
  | function =>
    exact ⟨_, _, rfl, by
      rw [String.append_assoc, String.append_assoc, String.append_assoc, String.toList_append]; rfl⟩
  | statement s =>
    have hs := s.beginsWith level []
    rw [List.append_nil] at hs
    exact hs

/-- Only statements begin like statements. -/
theorem statement_of_letter {u : Entry} {s : Stmt} (h : u.letter = s.letter) :
    ∃ s', u = .statement s' := by
  have hmem := s.letter_mem
  rw [← h] at hmem
  cases u with
  | statement s' => exact ⟨s', rfl⟩
  | program | function | declaration | expression => exact absurd hmem (by simp [letter])

theorem eq_of_program {level : Nat} {p p' : Program} (h : (program p).Writable)
    (h' : (program p').Writable) (heq : p.outlineAt level = p'.outlineAt level) :
    p.bare = p'.bare := by
  obtain ⟨hf, hd, hs⟩ := h
  obtain ⟨hf', hd', hs'⟩ := h'
  rw [Program.outlineAt, Program.outlineAt, List.map_eq_flatMap, List.map_eq_flatMap,
    outlineStmts_eq, outlineStmts_eq] at heq
  have hsection {text : String} {more : List OutlineLine} :
      NotBelow (level + 1) (⟨level + 1, text⟩ :: more) := notBelow_cons (Nat.le_refl _) more
  have hlt : level + 1 < level + 2 := Nat.lt_succ_self _
  obtain ⟨hfunctions, hglobals⟩ := eq_of_flatMap
    (fun f hmem f' hmem' => FunDef.linesTell (hf f hmem) (hf' f' hmem')) FunDef.linesBegin
    (FunDef.linesBegin.linesEnd hlt hsection) (FunDef.linesBegin.linesEnd hlt hsection)
    (List.cons.inj (List.cons.inj heq).2).2
  obtain ⟨hglobals, hmain⟩ := eq_of_flatMap
    (fun d hmem d' hmem' => Decl.linesTell (hd d hmem) (hd' d' hmem')) Decl.linesBegin
    (Decl.linesBegin.linesEnd hlt hsection) (Decl.linesBegin.linesEnd hlt hsection)
    (List.cons.inj hglobals).2
  have hmain := (List.cons.inj hmain).2
  rw [← List.append_nil (p.main.flatMap _), ← List.append_nil (p'.main.flatMap _)] at hmain
  obtain ⟨hmain, -⟩ := eq_of_flatMap
    (fun s hmem s' hmem' => s.shown _ s' (hs s hmem) (hs' s' hmem')) Stmt.linesBegin
    (Stmt.linesBegin.linesEnd hlt (notBelow_nil _))
    (Stmt.linesBegin.linesEnd hlt (notBelow_nil _)) hmain
  rw [Program.bare, Program.bare, hfunctions, hglobals, hmain]

theorem eq_of_outlineAt {level : Nat} {u u' : Entry} (h : u.Writable) (h' : u'.Writable)
    (heq : u.outlineAt level = u'.outlineAt level) : u.bare = u'.bare := by
  have hletter : u.letter = u'.letter := by
    have hu' := u'.beginsWith level
    rw [← heq] at hu'
    exact (u.beginsWith level).unique hu'
  cases u with
  | statement s =>
    obtain ⟨s', rfl⟩ := statement_of_letter hletter.symm
    have heq : s.outlineAt level ++ [] = s'.outlineAt level ++ [] := by
      rw [List.append_nil, List.append_nil]
      exact heq
    exact congrArg statement (s.shown level s' h h' (notBelow_nil _) (notBelow_nil _) heq).1
  | program p =>
    cases u' with
    | program p' => exact congrArg program (eq_of_program h h' heq)
    | statement s => exact absurd (statement_of_letter hletter) (by rintro ⟨_, ⟨⟩⟩)
    | function | declaration | expression => simp [letter] at hletter
  | function f =>
    cases u' with
    | function f' =>
      have heq : f.outlineAt level ++ [] = f'.outlineAt level ++ [] := by
        rw [List.append_nil, List.append_nil]
        exact heq
      exact congrArg function (FunDef.linesTell h h' (notBelow_nil _) (notBelow_nil _) heq).1
    | statement s => exact absurd (statement_of_letter hletter) (by rintro ⟨_, ⟨⟩⟩)
    | program | declaration | expression => simp [letter] at hletter
  | declaration d =>
    cases u' with
    | declaration d' =>
      exact congrArg declaration (Decl.linesTell h h' (notBelow_nil _) (notBelow_nil _) heq).1
    | statement s => exact absurd (statement_of_letter hletter) (by rintro ⟨_, ⟨⟩⟩)
    | program | function | expression => simp [letter] at hletter
  | expression e =>
    cases u' with
    | expression e' =>
      have htext := (String.append_right_inj _).mp
        (congrArg OutlineLine.text (List.cons.inj heq).1)
      exact congrArg expression (Expr.eq_of_text h h' htext)
    | statement s => exact absurd (statement_of_letter hletter) (by rintro ⟨_, ⟨⟩⟩)
    | program | function | declaration => simp [letter] at hletter

/-- Of two entries that are read from texts, those and only those that differ in
their spans alone have the same outline. -/
theorem outline_inj {source source' : String} {u u' : Entry} (h : parse source = .ok u)
    (h' : parse source' = .ok u') (level : Nat) :
    u.outline level = u'.outline level ↔ u.bare = u'.bare := by
  rw [← outline_bare level u, ← outline_bare level u']
  refine ⟨fun heq => ?_, congrArg (outline level)⟩
  have hu := writable_of_parse h
  have hu' := writable_of_parse h'
  have hlines := OutlineLine.eq_of_join (plain_outlineAt hu) (plain_outlineAt hu') heq
  rw [← u.bare_bare, ← u'.bare_bare]
  exact eq_of_outlineAt hu hu' hlines

theorem exists_of_toOption (source : String) (h : (parse source).toOption.isSome = true) :
    ∃ u, parse source = .ok u := by
  cases hu : parse source with
  | error e =>
    rw [hu] at h
    cases h
  | ok u => exact ⟨u, rfl⟩

/-- Layout and parentheses make no difference, and which conditional an `else`
belongs to does. -/
theorem outline_else : ∃ u u' v, parse "if a if b x := 1; else x := 2;" = .ok u ∧
    parse "if a\n  if b x := (1);\n  else x := (2); // inner" = .ok u' ∧
    parse "if a \x7b if b x := 1; \x7d else x := 2;" = .ok v ∧
    u.bare = u'.bare ∧ u.bare ≠ v.bare := by
  obtain ⟨u, hu⟩ := exists_of_toOption "if a if b x := 1; else x := 2;" (by decide +kernel)
  obtain ⟨u', hu'⟩ := exists_of_toOption "if a\n  if b x := (1);\n  else x := (2); // inner"
    (by decide +kernel)
  obtain ⟨v, hv⟩ := exists_of_toOption "if a \x7b if b x := 1; \x7d else x := 2;"
    (by decide +kernel)
  have hlayout : (parse "if a if b x := 1; else x := 2;").toOption.map (outline 3) =
      (parse "if a\n  if b x := (1);\n  else x := (2); // inner").toOption.map (outline 3) := by
    decide +kernel
  have hother : (parse "if a if b x := 1; else x := 2;").toOption.map (outline 3) ≠
      (parse "if a \x7b if b x := 1; \x7d else x := 2;").toOption.map (outline 3) := by
    decide +kernel
  rw [hu, hu'] at hlayout
  rw [hu, hv] at hother
  refine ⟨u, u', v, hu, hu', hv, (outline_inj hu hu' 3).mp (Option.some.inj hlayout), fun h => ?_⟩
  exact hother (congrArg some ((outline_inj hu hv 3).mpr h))

end Entry

end Implet
