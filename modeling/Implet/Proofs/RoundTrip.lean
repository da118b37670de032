/-
Implet/Proofs/RoundTrip.lean

Writing an expression and reading it back.  The text of an expression is read as
an expression, and as the one that was written (`Expr.parse_text`).

That a text spells a phrase is said of characters in the way in which `Derives`
says it of tokens: `Spells cs e ps` means that the characters `cs` are left
alone by what blanks comments and that, whatever follows, they are scanned as
tokens that derive from `e` and stand for `ps`.  What follows must not go on
with the last word, so the rules for putting phrases together ask how the next
one begins; only behind an opening parenthesis and a space that does not matter.
-/
import Implet.Proofs.Parsing
import Implet.Proofs.Scanning
import Implet.Syntax.Inline

namespace Implet

open Grammar

/-! ### Texts that spell phrases -/

/-- Whatever follows, the characters are no comment and are scanned as tokens
that derive from `e` and stand for `ps`. -/
structure Spells (cs : List Char) (e : Ebnf) (ps : List Part) : Prop where
  outside : ∀ {rest}, Apart rest → Comment.outside (cs ++ rest) = cs ++ Comment.outside rest
  scan : ∀ (source : String) (p : Position) {rest : List Char}, Apart rest → ∃ ts, Derives e ts ps ∧
    ∀ {us}, Token.scanFrom source (p.after cs) rest = .ok us →
      Token.scanFrom source p (cs ++ rest) = .ok (ts ++ us)

namespace Spells

variable {cs ds : List Char} {e e' : Ebnf} {es : List Ebnf} {ps ps' qs : List Part}

theorem imp (h : Spells cs e ps) (he : ∀ {ts}, Derives e ts ps → Derives e' ts ps') :
    Spells cs e' ps' where
  outside := h.outside
  scan source p rest hrest := by
    obtain ⟨ts, hd, hts⟩ := h.scan source p hrest
    exact ⟨ts, he hd, hts⟩

theorem nil (h : Derives e [] ps) : Spells [] e ps := by
  exact ⟨fun _ => rfl, fun _ _ _ _ => ⟨[], h, id⟩⟩

/-- One phrase after the other, if the second one begins with something that can
follow. -/
theorem append (h : Spells cs e ps) (h' : Spells ds e' qs) (hds : Apart ds) {e'' : Ebnf}
    {rs : List Part}
    (hd : ∀ {us vs}, Derives e us ps → Derives e' vs qs → Derives e'' (us ++ vs) rs) :
    Spells (cs ++ ds) e'' rs where
  outside hrest := by
    rw [List.append_assoc, h.outside (hds.append hrest), h'.outside hrest, List.append_assoc]
  scan source p rest hrest := by
    obtain ⟨us, hus, hscan⟩ := h.scan source p (hds.append hrest)
    obtain ⟨vs, hvs, hscan'⟩ := h'.scan source (p.after cs) hrest
    refine ⟨us ++ vs, hd hus hvs, fun hrest => ?_⟩
    rw [Position.after_append] at hrest
    rw [List.append_assoc, List.append_assoc]
    exact hscan (hscan' hrest)

theorem seq_cons (h : Spells cs e ps) (h' : Spells ds (.seq es) qs) (hds : Apart ds) :
    Spells (cs ++ ds) (.seq (e :: es)) (ps ++ qs) :=
  h.append h' hds fun hd hd' => hd.seq_cons hd'

/-- A space can be put before any phrase. -/
theorem space (h : Spells cs e ps) : Spells (' ' :: cs) e ps where
  outside hrest := by
    rw [List.cons_append, List.cons_append, ← h.outside hrest]
    exact Comment.outside_append (show ∀ c ∈ [' '], c ≠ '/' by simp) _
  scan source p rest hrest := by
    obtain ⟨ts, hd, hscan⟩ := h.scan source (p.advance ' ') hrest
    refine ⟨ts, hd, fun hus => ?_⟩
    rw [List.cons_append, Token.scanFrom_gap (by decide)]
    exact hscan hus

/-- A word of which it is known how it is read. -/
theorem of_read? {l : Lexeme} (hl : ∀ c ∈ l.text.toList, c ≠ '/')
    (hread : ∀ {rest}, Apart rest → Lexeme.read? (l.text.toList ++ rest) = some l)
    (hd : ∀ s, Derives e [⟨l, s⟩] ps) : Spells l.text.toList e ps where
  outside _ := Comment.outside_append hl _
  scan source p _ hrest :=
    ⟨_, hd ⟨p, p.after l.text.toList, source⟩, fun hus => Token.scanFrom_append (hread hrest) hus⟩

theorem ident {name : String} (h : IsName name) :
    Spells name.toList .ident [.word (.ident name)] := by
  refine of_read? (l := .ident name) ?_ (Lexeme.read?_name h) fun s =>
    Derives.ident_iff.mpr ⟨name, s, rfl, rfl⟩
  rintro c hc rfl
  exact absurd (List.all_eq_true.mp h.1.2 _ hc) (by decide)

theorem integer {n : Nat} (h : n < Nat.pow 2 63) :
    Spells (toString n).toList .integer [.word (.integer (toString n))] := by
  refine of_read? (l := .integer (toString n)) ?_ (Lexeme.read?_digits n) fun s =>
    Derives.integer_iff.mpr ⟨toString n, s, rfl, rfl, ?_⟩
  · rintro c hc rfl
    exact absurd (isDigit_of_mem_toString hc) (by decide)
  · rw [Lexeme.Fits, Expr.digitsValue_toString]
    exact h

/-- A keyword, an operator or a mark. -/
theorem terminal (t : Terminal) :
    Spells t.text.toList (.terminal t) [.word (.fixed t)] where
  outside hrest := Comment.outside_terminal t fun c hc => (hrest c hc).2
  scan source p _ hrest :=
    ⟨_, Derives.terminal_iff.mpr ⟨⟨p, p.after t.text.toList, source⟩, rfl, rfl⟩, fun hus =>
      Token.scanFrom_append (l := .fixed t) (Lexeme.read?_terminal t hrest) hus⟩

theorem seq_terminal (t : Terminal) (h : Spells ds (.seq es) qs) (hds : Apart ds) :
    Spells (t.text.toList ++ ds) (.seq (.terminal t :: es)) (.word (.fixed t) :: qs) :=
  (terminal t).seq_cons h hds

/-- Anything can follow an opening parenthesis. -/
theorem seq_leftParen (h : Spells ds (.seq es) qs) :
    Spells ('(' :: ds) (.seq (.terminal .leftParen :: es)) (.word (.fixed .leftParen) :: qs) where
  outside {rest} hrest := by
    rw [List.cons_append, List.cons_append, ← h.outside hrest]
    exact Comment.outside_append (show ∀ c ∈ ['('], c ≠ '/' by simp) _
  scan source p rest hrest := by
    obtain ⟨ts, hd, hscan⟩ := h.scan source (p.advance '(') hrest
    refine ⟨_ :: ts, Derives.seq_terminal (s := ⟨p, p.advance '(', source⟩) hd, fun hus => ?_⟩
    exact Token.scanFrom_append (l := .fixed .leftParen)
      (Lexeme.read?_mark _ _ (by decide)) (hscan hus)

/-- The whole of a text is scanned as tokens of the phrase. -/
theorem tokens {text : String} (h : Spells text.toList e ps) :
    ∃ ts, Entry.tokens text = .ok ts ∧ Derives e ts ps := by
  obtain ⟨ts, hd, hscan⟩ := h.scan text .start apart_nil
  have hblank : blankComments text = text := by
    have := h.outside apart_nil
    rw [List.append_nil, Comment.outside, List.append_nil] at this
    rw [blankComments, this, String.ofList_toList]
  have hend : Token.scanFrom text (Position.start.after text.toList) [] = .ok [] := by
    rw [Token.scanFrom]
  have hts := hscan hend
  rw [List.append_nil, List.append_nil] at hts
  refine ⟨ts, ?_, hd⟩
  rw [Entry.tokens, hblank, Token.scan, hts]

end Spells

/-! ### Phrases of expressions -/

namespace Grammar.Derives

variable {n m : Nonterminal} {ls rs ts : List Token} {l r e : Expr} {op : BinOp} {s : Span}

/-- Two operands of a level with an operator of the level above it between them. -/
theorem operated {ops : List Terminal} (hn : n.rule = .operated m ops)
    (hb : ∀ qs, n.build qs = .expr (Part.toExpr qs)) (hop : op.terminal ∈ ops)
    (hl : Derives (.nonterminal m) ls [.expr l]) (hr : Derives (.nonterminal m) rs [.expr r]) :
    Derives (.nonterminal n) (ls ++ ⟨.fixed op.terminal, s⟩ :: rs)
      [.expr (.binary op l r .empty)] := by
  have hword : Derives (.alt (ops.map .terminal)) [⟨.fixed op.terminal, s⟩]
      [.word (.fixed op.terminal)] :=
    alt_iff.mpr ⟨_, List.mem_map_of_mem hop, terminal_iff.mpr ⟨s, rfl, rfl⟩⟩
  have hpair : Derives (.many (.seq [.alt (ops.map .terminal), .nonterminal m]))
      (⟨.fixed op.terminal, s⟩ :: rs) [.word (.fixed op.terminal), .expr r] :=
    List.append_nil (_ :: rs) ▸ (hword.seq_cons (seq_singleton_iff.mpr hr)).many_cons many_nil
  refine nonterminal_iff.mpr ⟨[.expr l, .word (.fixed op.terminal), .expr r], ?_, ?_⟩
  · rw [hn, Ebnf.operated]
    exact hl.seq_cons (seq_singleton_iff.mpr hpair)
  · rw [hb, Part.toExpr, Part.grouped_operator]
    rfl

/-- Two operands without operators of their own, with any operator between them. -/
theorem binary (hl : Derives (.nonterminal .primary) ls [.expr l])
    (hr : Derives (.nonterminal .primary) rs [.expr r]) :
    Derives (.nonterminal .expression) (ls ++ ⟨.fixed op.terminal, s⟩ :: rs)
      [.expr (.binary op l r .empty)] := by
  have hlt := term_of_primary hl
  have hrt := term_of_primary hr
  have hla := additive_of_term hlt
  have hra := additive_of_term hrt
  have hlc := comparison_of_additive hla
  have hrc := comparison_of_additive hra
  have hle := equality_of_comparison hlc
  have hre := equality_of_comparison hrc
  -- from the level of the operator up
  have hand : ∀ {ts}, Derives (.nonterminal .equality) ts [.expr (.binary op l r .empty)] →
      Derives (.nonterminal .expression) ts [.expr (.binary op l r .empty)] :=
    fun h => expression_of_or (or_of_and (and_of_equality h))
  cases op with
  | mul | div =>
    exact hand (equality_of_comparison (comparison_of_additive (additive_of_term
      (operated rfl (fun _ => rfl) (by decide) hl hr))))
  | add | sub =>
    exact hand (equality_of_comparison (comparison_of_additive
      (operated rfl (fun _ => rfl) (by decide) hlt hrt)))
  | lt | gt =>
    exact hand (equality_of_comparison (operated rfl (fun _ => rfl) (by decide) hla hra))
  | eq => exact hand (operated rfl (fun _ => rfl) (by decide) hlc hrc)
  | and =>
    exact expression_of_or (or_of_and (operated rfl (fun _ => rfl) (by decide) hle hre))
  | or =>
    exact expression_of_or (operated rfl (fun _ => rfl) (by decide) (and_of_equality hle)
      (and_of_equality hre))

/-- What can be one of the choices of a primary expression. -/
theorem primary_of_mem {f : Ebnf} {ps : List Part}
    (hf : f ∈ [Ebnf.integer, .terminal .kwTrue, .terminal .kwFalse, .nonterminal .call, .ident,
      .seq [.terminal .leftParen, .nonterminal .expression, .terminal .rightParen]])
    (h : Derives f ts ps) : Derives (.nonterminal .primary) ts [.expr (Part.toExpr ps)] :=
  nonterminal_iff.mpr ⟨ps, alt_iff.mpr ⟨f, hf, h⟩, rfl⟩

end Grammar.Derives

/-! ### Expressions -/

mutual

/-- An expression that can be written: its literals are not negative, and its
names are read as names. -/
def Expr.Writable : Expr → Prop
  | .integer value _ => 0 ≤ value.toInt
  | .boolean _ _ => True
  | .ident id => IsName id.name
  | .binary _ left right _ => left.Writable ∧ right.Writable
  | .call func args _ => IsName func.name ∧ writableAll args

/-- Expressions that can be written. -/
def writableAll : List Expr → Prop
  | [] => True
  | e :: es => e.Writable ∧ writableAll es

end

/-- Texts with commas between them are the first one and the others, each with a
comma before it. -/
theorem toList_intercalate_cons (s text : String) (texts : List String) :
    (s.intercalate (text :: texts)).toList =
      text.toList ++ texts.flatMap fun t => s.toList ++ t.toList := by
  induction texts generalizing text with
  | nil => simp
  | cons t ts ih =>
    have := ih t
    simp only [String.toList_intercalate, List.map_cons] at this ⊢
    rw [List.intercalate_cons_cons, this, List.flatMap_cons, List.append_assoc, List.append_assoc]

theorem argumentTexts_eq (es : List Expr) :
    argumentTexts es = es.map (Expr.textWithin false) := by
  induction es with
  | nil => rfl
  | cons e es ih => rw [argumentTexts, ih, List.map_cons]

namespace Spells

variable {cs ls rs : List Char} {f : Ebnf} {e l r : Expr} {ps : List Part}

/-- What has no operators of its own can stand anywhere. -/
theorem expression (h : Spells cs (.nonterminal .primary) [.expr e]) :
    Spells cs (.nonterminal .expression) [.expr e] := h.imp Derives.expression_of_primary

theorem close (h : Spells cs f ps) : Spells (cs ++ [')']) (.seq [f, .terminal .rightParen])
    (ps ++ [.word (.fixed .rightParen)]) :=
  h.seq_cons ((terminal .rightParen).imp Derives.seq_singleton_iff.mpr)
    (apart_cons (by decide) (by decide) _)

theorem parenthesized (h : Spells cs (.nonterminal .expression) [.expr e]) :
    Spells ('(' :: (cs ++ [')'])) (.nonterminal .primary) [.expr e] :=
  h.close.seq_leftParen.imp (Derives.primary_of_mem (by simp))

theorem binary (op : BinOp) (hl : Spells ls (.nonterminal .primary) [.expr l])
    (hr : Spells rs (.nonterminal .primary) [.expr r]) :
    Spells (ls ++ ' ' :: (op.text.toList ++ ' ' :: rs)) (.nonterminal .expression)
      [.expr (.binary op l r .empty)] := by
  have hop : op.text = op.terminal.text := by cases op <;> rfl
  have hright : Spells (op.terminal.text.toList ++ ' ' :: rs)
      (.seq [.terminal op.terminal, .nonterminal .primary]) [.word (.fixed op.terminal), .expr r] :=
    (hr.imp Derives.seq_singleton_iff.mpr).space.seq_terminal op.terminal
      (apart_cons (by decide) (by decide) _)
  rw [hop]
  refine hl.append hright.space (apart_cons (by decide) (by decide) _) fun hd hd' => ?_
  obtain ⟨s, us, _, rfl, hps, hd'⟩ := Derives.seq_terminal_iff.mp hd'
  cases hps
  exact hd.binary (Derives.seq_singleton_iff.mp hd')

/-- A name and arguments, which are separated by commas. -/
theorem call {name : String} (hname : IsName name)
    (h : Spells cs (.commaList (.nonterminal .expression)) ps) :
    Spells (name.toList ++ '(' :: (cs ++ [')'])) (.nonterminal .primary)
      [.expr (.call ⟨name, .empty⟩ (Part.exprs ps) .empty)] := by
  have hargs := h.close.seq_leftParen
  refine ((ident hname).seq_cons hargs (apart_cons (by decide) (by decide) _)).imp fun hd => ?_
  have hcall : Derives (.nonterminal .call) _ _ :=
    Derives.nonterminal_iff.mpr ⟨_, hd, rfl⟩
  rw [Nonterminal.build, List.singleton_append, Part.toExpr_call] at hcall
  exact Derives.primary_of_mem (by simp) hcall

/-- Arguments after the first one, each with a comma before it. -/
theorem more_arguments {es : List Expr}
    (h : ∀ e ∈ es, Spells (e.textWithin false).toList (.nonterminal .expression) [.expr e.bare]) :
    Spells (es.flatMap fun e => ", ".toList ++ (e.textWithin false).toList)
      (.many (.seq [.terminal .comma, .nonterminal .expression]))
      (es.flatMap fun e => [.word (.fixed .comma), .expr e.bare]) := by
  induction es with
  | nil => exact nil Derives.many_nil
  | cons e es ih =>
    obtain ⟨he, hes⟩ := List.forall_mem_cons.mp h
    have hfirst := (he.imp Derives.seq_singleton_iff.mpr).space.seq_terminal .comma
      (apart_cons (by decide) (by decide) _)
    refine hfirst.append (ih hes) ?_ fun hd hd' => hd.many_cons hd'
    cases es with
    | nil => exact apart_nil
    | cons e' es => exact apart_cons (by decide) (by decide) _

theorem arguments {es : List Expr}
    (h : ∀ e ∈ es, Spells (e.textWithin false).toList (.nonterminal .expression) [.expr e.bare]) :
    Spells (", ".intercalate (argumentTexts es)).toList (.commaList (.nonterminal .expression))
      (Part.commaList (es.map fun e => .expr e.bare)) := by
  rw [argumentTexts_eq]
  cases es with
  | nil => exact nil (Derives.opt_iff.mpr (.inl ⟨rfl, rfl⟩))
  | cons e es =>
    obtain ⟨he, hes⟩ := List.forall_mem_cons.mp h
    rw [List.map_cons, toList_intercalate_cons, List.map_cons, Part.commaList, List.flatMap_map,
      List.flatMap_map]
    refine he.append (more_arguments hes) ?_ fun hd hd' =>
      Derives.opt_iff.mpr (.inr (hd.seq_cons (Derives.seq_singleton_iff.mpr hd')))
    cases es with
    | nil => exact apart_nil
    | cons e' es => exact apart_cons (by decide) (by decide) _

end Spells

/-- A literal that is not negative. -/
theorem Spells.literal {value : Int64} (h : 0 ≤ value.toInt) :
    Spells (toString value.toInt).toList (.nonterminal .primary)
      [.expr (.integer value .empty)] := by
  obtain ⟨n, hn⟩ := Int.eq_ofNat_of_zero_le h
  have hlt : n < 2 ^ 63 := by
    have := value.toInt_lt
    omega
  have hvalue : Int64.ofNat (Expr.digitsValue (toString n).toList) = value := by
    rw [Expr.digitsValue_toString, ← Int64.toInt_inj, Int64.toInt_ofNat_of_lt hlt, hn]
  rw [hn, ← hvalue]
  exact (Spells.integer hlt).imp (Derives.primary_of_mem (by simp))

mutual

/-- The text of an expression, as an operand and elsewhere, spells the expression. -/
theorem Expr.spells (e : Expr) (h : e.Writable) :
    Spells (e.textWithin true).toList (.nonterminal .primary) [.expr e.bare] ∧
      Spells (e.textWithin false).toList (.nonterminal .expression) [.expr e.bare] := by
  cases e with
  | integer value span => exact ⟨.literal h, (Spells.literal h).expression⟩
  | boolean value span =>
    have hvalue : Spells (if value then "true" else "false").toList (.nonterminal .primary)
        [.expr (.boolean value .empty)] := by
      cases value with
      | true => exact (Spells.terminal .kwTrue).imp (Derives.primary_of_mem (by simp))
      | false => exact (Spells.terminal .kwFalse).imp (Derives.primary_of_mem (by simp))
    exact ⟨hvalue, hvalue.expression⟩
  | ident id =>
    have hid := (Spells.ident h).imp (Derives.primary_of_mem (by simp))
    exact ⟨hid, hid.expression⟩
  | binary op left right span =>
    have hbinary := Spells.binary op (left.spells h.1).1 (right.spells h.2).1
    have htext : (left.textWithin true ++ " " ++ op.text ++ " " ++ right.textWithin true).toList =
        (left.textWithin true).toList ++ ' ' :: (op.text.toList ++ ' ' ::
          (right.textWithin true).toList) := by simp
    rw [← htext] at hbinary
    refine ⟨?_, hbinary⟩
    have hnested := hbinary.parenthesized
    rwa [Expr.textWithin, parenthesize, if_pos rfl, String.toList_append, String.toList_append]
  | call func args span =>
    have hcall := Spells.call h.1 (Spells.arguments (spells_all args h.2))
    have htext : (func.name ++ "(" ++ ", ".intercalate (argumentTexts args) ++ ")").toList =
        func.name.toList ++ '(' :: ((", ".intercalate (argumentTexts args)).toList ++ [')']) := by
      simp
    rw [← htext, Part.exprs_commaList, ← bareExprs_eq] at hcall
    exact ⟨hcall, hcall.expression⟩

theorem spells_all (es : List Expr) (h : writableAll es) : ∀ e ∈ es,
    Spells (e.textWithin false).toList (.nonterminal .expression) [.expr e.bare] := by
  cases es with
  | nil => exact fun _ he => nomatch he
  | cons e es => exact List.forall_mem_cons.mpr ⟨(e.spells h.1).2, spells_all es h.2⟩

end

/-! ### What can be read can be written -/

/-- A word that can be written: a name is read as a name, and a literal fits. -/
def Lexeme.Writable : Lexeme → Prop
  | .ident name => IsName name
  | .integer digits => Expr.digitsValue digits.toList < Nat.pow 2 63
  | .fixed _ => True

/-- A word or an expression that can be written, or a part of another kind. -/
def Grammar.Part.Writable : Part → Prop
  | .word l => l.Writable
  | .expr e => e.Writable
  | .type _ | .decl _ | .block _ | .stmt _ | .func _ | .item _ | .entry _ => True

theorem writableAll_iff {es : List Expr} : writableAll es ↔ ∀ e ∈ es, e.Writable := by
  induction es with
  | nil => simp [writableAll]
  | cons e es ih => simp [writableAll, ih]

namespace Grammar

namespace Part

theorem writable_exprs {ps : List Part} (h : ∀ p ∈ ps, p.Writable) :
    writableAll (exprs ps) := by
  refine writableAll_iff.mpr fun e he => ?_
  obtain ⟨p, hp, hpe⟩ := List.mem_filterMap.mp he
  cases p <;> cases hpe
  exact h _ hp

theorem writable_grouped {left : Expr} {ps : List Part} (hleft : left.Writable)
    (h : ∀ p ∈ ps, p.Writable) : (grouped left ps).Writable := by
  induction left, ps using grouped.induct with
  | case1 left t right rest op hop ih =>
    rw [grouped, hop]
    simp only [List.forall_mem_cons] at h
    exact ih ⟨hleft, h.2.1⟩ h.2.2
  | case2 left t right rest hop =>
    rw [grouped, hop]
    exact hleft
  | case3 left ps hps =>
    rw [grouped]
    · exact hleft
    · exact hps

theorem writable_toExpr {ps : List Part} (h : ∀ p ∈ ps, p.Writable) :
    (toExpr ps).Writable := by
  unfold toExpr
  split
  · next digits =>
    have hlt : Expr.digitsValue digits.toList < Nat.pow 2 63 := h _ List.mem_cons_self
    rw [Expr.Writable, Int64.toInt_ofNat_of_lt hlt]
    exact Int.natCast_nonneg _
  · trivial
  · trivial
  · exact h _ List.mem_cons_self
  · exact h (.expr _) (by simp)
  · exact ⟨h _ List.mem_cons_self, writable_exprs fun p hp =>
      h p (List.mem_cons_of_mem _ (List.mem_cons_of_mem _ hp))⟩
  · obtain ⟨he, hrest⟩ := List.forall_mem_cons.mp h
    exact writable_grouped he hrest
  · trivial

theorem writable_build {ps : List Part} (h : ∀ p ∈ ps, p.Writable) (n : Nonterminal) :
    (n.build ps).Writable := by
  cases n with
  | expression | or | and | equality | comparison | additive | term | primary | call =>
    exact writable_toExpr h
  | unit | item | function | param | type | declaration | block | statement | cond | loop | ret
  | assignment => trivial

end Part

mutual

/-- The tree of words that can be written stands for a part that can be written. -/
theorem Tree.writable_part (t : Tree) (h : ∀ l ∈ t.words, l.Writable) :
    t.part.Writable := by
  cases t with
  | leaf l => exact h l List.mem_cons_self
  | node n ts => exact Part.writable_build (writable_forestParts ts h) n

theorem writable_forestParts (ts : List Tree) (h : ∀ l ∈ forestWords ts, l.Writable) :
    ∀ p ∈ forestParts ts, p.Writable := by
  cases ts with
  | nil => exact fun _ hp => nomatch hp
  | cons t ts =>
    obtain ⟨ht, hts⟩ := List.forall_mem_append.mp h
    exact List.forall_mem_cons.mpr ⟨t.writable_part ht, writable_forestParts ts hts⟩

end

theorem Derives.writable {e : Ebnf} {ts : List Token} {ps : List Part}
    (h : Derives e ts ps) (hts : ∀ t ∈ ts, t.lexeme.Writable) : ∀ p ∈ ps, p.Writable := by
  obtain ⟨-, trees, -, hw, rfl⟩ := h
  refine writable_forestParts trees ?_
  rw [hw]
  exact List.forall_mem_map.mpr hts

end Grammar

mutual

theorem Expr.writable_bare (e : Expr) : e.bare.Writable ↔ e.Writable := by
  cases e with
  | integer | boolean | ident => exact Iff.rfl
  | binary op left right span => exact and_congr left.writable_bare right.writable_bare
  | call func args span => exact and_congr Iff.rfl (writableAll_bare args)

theorem writableAll_bare (es : List Expr) :
    writableAll (bareExprs es) ↔ writableAll es := by
  cases es with
  | nil => exact Iff.rfl
  | cons e es => exact and_congr e.writable_bare (writableAll_bare es)

end

theorem Entry.ofItems_ne_expression (is : List Item) (e : Expr) :
    ofItems is ≠ .expression e := by
  match is with
  | [] | [.function _] | [.declaration _] | [.statement _] => exact nofun
  | i :: j :: is =>
    rw [ofItems_cons_cons]
    exact nofun

/-! ### Reading back -/

/-- The words of a text that is read can be written. -/
theorem Entry.derives_of_parse {source : String} {u : Entry} (h : parse source = .ok u) :
    ∃ ts, Derives (.nonterminal .unit) ts [.entry u.bare] ∧ ∀ t ∈ ts, t.lexeme.Writable := by
  unfold parse tokens at h
  rcases hts : Token.scan (blankComments source) with err | ts <;> rw [hts] at h
  · cases h
  obtain ⟨hd, -⟩ := ofTokens_iff_derives.mp ⟨u, h, rfl⟩
  refine ⟨ts, hd, fun t ht => ?_⟩
  have hfits := hd.1 t ht
  cases hl : t.lexeme with
  | fixed => trivial
  | ident name => exact Token.isName_of_scan hts ht hl
  | integer digits =>
    rw [hl] at hfits
    exact hfits

theorem Expr.writable_of_parse {source : String} {e : Expr}
    (h : Entry.parse source = .ok (.expression e)) : e.Writable := by
  obtain ⟨ts, hd, hwords⟩ := Entry.derives_of_parse h
  rcases Derives.unit_iff.mp hd with ⟨us, e', he, hus, heq⟩ | ⟨is, -, heq⟩
  · have hsub : us ⊆ ts := by
      rcases hus with rfl | ⟨s, rfl⟩
      · exact List.Subset.refl _
      · exact List.subset_append_left _ _
    obtain rfl := Entry.expression.inj heq
    exact e.writable_bare.mp
      (he.writable (fun t ht => hwords t (hsub ht)) _ List.mem_cons_self)
  · exact absurd heq.symm (Entry.ofItems_ne_expression is _)

theorem Expr.Writable.parse_text {e : Expr} (h : e.Writable) :
    ∃ e', Entry.parse e.text = .ok (.expression e') ∧ e'.bare = e.bare := by
  obtain ⟨ts, hts, hd⟩ := (e.spells h).2.tokens
  obtain ⟨u, hu, hbare⟩ := Entry.ofTokens_iff_derives.mpr
    ⟨Derives.unit_iff.mpr (.inl ⟨ts, _, hd, .inl rfl, rfl⟩), trivial⟩
  cases u with
  | expression e' =>
    refine ⟨e', ?_, Entry.expression.inj hbare⟩
    rw [Entry.parse, Expr.text, hts]
    exact hu
  | program | function | declaration | statement => cases hbare

/-- The expressions that can be read from some text are those with literals that
are not negative and with names that are read as names, and each of them is what
its own text is read as. -/
theorem Expr.parse_text_iff (e : Expr) :
    ((∃ source e', Entry.parse source = .ok (.expression e') ∧ e'.bare = e.bare) ↔ e.Writable) ∧
    (e.Writable ↔ ∃ e', Entry.parse e.text = .ok (.expression e') ∧ e'.bare = e.bare) := by
  have hread : ∀ {source e'}, Entry.parse source = .ok (.expression e') → e'.bare = e.bare →
      e.Writable := by
    intro source e' h he
    rw [← e.writable_bare, ← he, e'.writable_bare]
    exact writable_of_parse h
  refine ⟨⟨?_, fun h => ⟨e.text, h.parse_text⟩⟩, ⟨Writable.parse_text, ?_⟩⟩
  · rintro ⟨source, e', h, he⟩
    exact hread h he
  · rintro ⟨e', h, he⟩
    exact hread h he

-- operators of one level that group to the right, below one that binds tighter,
-- and in arguments
example : (Expr.binary .mul
    (.binary .sub (.ident ⟨"a", .empty⟩) (.binary .sub (.ident ⟨"b", .empty⟩)
      (.integer 1 .empty) .empty) .empty) (.call ⟨"f", .empty⟩ [.binary .and (.boolean true .empty)
        (.ident ⟨"c", .empty⟩) .empty, .integer 2 .empty] .empty) .empty).text =
    "(a - (b - 1)) * f(true and c, 2)" := by
  decide +kernel

end Implet
