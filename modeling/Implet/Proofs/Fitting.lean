/-
Implet/Proofs/Fitting.lean

Errors are placed within their texts.  A span fits when there is something of
its text to quote, and room for the caret below it; an error that a session
reports has a span that fits the text the span itself carries, or none, or one
without a text (`Session.Driven.error_fits`).

The span of a token fits the text it was scanned from, and that of a node goes
from one token to a later one of the same text.  Which node a type error or a
runtime error is placed at does not matter then: every tree that a session has
read is like itself with regard to spans that fit, and this is handed on through
the check and the run, closures of earlier entries included.  An error of the
reader is placed at a token.
-/
import Implet.Proofs.ErrorPosition
import Implet.Proofs.LineEnds
import Implet.Proofs.Nesting

namespace Implet

/-- A span can be quoted from the text that it carries, with a caret below its
last byte. -/
structure Span.Fits (s : Span) : Prop where
  start_le : s.start.line ≤ s.stop.line
  stop_lt : s.stop.line < (lines s.source).length
  pos : 1 ≤ s.stop.column
  lt_of_line_eq : s.start.line = s.stop.line → s.start.column < s.stop.column

/-- The span fits its text, if it has one. -/
def Span.Placeable (s : Span) : Prop := s.source = "" ∨ s.Fits

/-! ### Lines -/

theorem Position.line_after (p : Position) (cs : List Char) :
    (p.after cs).line = p.line + cs.count '\n' := by
  induction cs generalizing p with
  | nil => rfl
  | cons c cs ih =>
    rw [after_cons, ih, advance]
    by_cases hc : c = '\n'
    · rw [if_pos hc, hc, List.count_cons_self]
      dsimp only
      omega
    · rw [if_neg hc, List.count_cons_of_ne hc]

/-- Where there is a character there is a line for it. -/
theorem count_lt_length_linesFrom {cs : List Char} (h : cs ≠ [])
    (line before : List Char) :
    before.count '\n' < (linesFrom line (before ++ cs)).length := by
  induction before generalizing line with
  | nil =>
    rw [List.nil_append, List.count_nil, List.length_pos_iff]
    exact fun hnil => h (linesFrom_eq_nil_iff.mp hnil).2
  | cons c before ih =>
    rw [List.cons_append]
    by_cases hc : c = '\n'
    · obtain ⟨text, htext⟩ := linesFrom_newline line (before ++ cs)
      rw [hc, htext, List.count_cons_self, List.length_cons]
      exact Nat.succ_lt_succ (ih [])
    · rw [List.count_cons_of_ne hc, linesFrom_cons hc]
      exact ih (c :: line)

/-! ### The spans of tokens -/

/-- No word goes over the end of a line. -/
theorem Lexeme.count_newline_of_read? {cs : List Char} {l : Lexeme}
    (h : read? cs = some l) :
    l.text.toList.count '\n' = 0 :=
  List.count_eq_zero.mpr fun hmem => absurd (isGap_of_mem h _ hmem) (by decide)

/-- Tokens carry the text that they were scanned from, and fit it. -/
theorem Token.fits_of_scan {source : String} {ts : List Token}
    (h : scan source = .ok ts) :
    ∀ t ∈ ts, t.span.source = source ∧ t.span.Fits := by
  intro t ht
  obtain ⟨before, after, hsource, hread, hspan⟩ := read_of_scan h t ht
  rw [hspan]
  have hne := (Lexeme.read?_eq_some hread).1
  have hline := Position.line_after (Position.start.after before) t.lexeme.text.toList
  rw [Lexeme.count_newline_of_read? hread, Nat.add_zero] at hline
  have hcolumn := Position.Before.after hne (Position.start.after before)
  have hlast : (Position.start.after before).line < (lines source).length := by
    rw [Position.line_after, lines, hsource, Position.start, Nat.zero_add]
    exact count_lt_length_linesFrom (List.append_ne_nil_of_left_ne_nil hne after) [] before
  unfold Position.Before at hcolumn
  refine ⟨rfl, ?_, ?_, ?_, fun _ => ?_⟩ <;> dsimp only <;> omega

/-! ### The spans of trees -/

/-- What all spans have that go from one of the tokens to a later one, the spans
of trees have that are cut from the tokens. -/
theorem Placed.all {P : Span → Prop} {ts : List Token} {F : List SpanTree}
    (h : Placed ts F)
    (hP : ∀ block, block <:+: ts → ∀ s, Extent block s → P s) : ∀ t ∈ F, t.All P := by
  induction h with
  | nil => exact nofun
  | @cons ts block us s parts trees hs _ _ ihparts ihtrees =>
    have hblock : block <:+: ts ++ (block ++ us) := ⟨ts, us, by rw [List.append_assoc]⟩
    have hus : us <:+: ts ++ (block ++ us) := ⟨ts ++ block, [], by simp⟩
    exact List.forall_mem_cons.mpr ⟨.node (hP block hblock s hs) (ihparts fun b hb => hP b
      (hb.trans hblock)), ihtrees fun b hb => hP b (hb.trans hus)⟩

theorem Extent.fits {ts : List Token} {source : String} (hts : Increasing ts)
    (hfits : ∀ t ∈ ts, t.span.source = source ∧ t.span.Fits) {s : Span} (h : Extent ts s) :
    s.Fits := by
  have hproper := (h.covers hts).1
  obtain ⟨first, hfirst, last, hlast, rfl⟩ := h
  obtain ⟨hsource, -⟩ := hfits first (List.mem_of_mem_head? hfirst)
  obtain ⟨hsource', hlast⟩ := hfits last (List.mem_of_mem_getLast? hlast)
  have hstop := hlast.stop_lt
  rw [hsource'] at hstop
  unfold Span.Proper Position.Before at hproper
  refine ⟨?_, ?_, hlast.pos, fun heq => ?_⟩
  · omega
  · rwa [Span.merge_source, hsource]
  · omega

/-- An entry that was read from a text is like itself with regard to spans that fit. -/
theorem Entry.like_of_parse {source : String} {e : Entry} (h : parse source = .ok e) :
    e.Like (Span.Sharing Span.Placeable) e := by
  obtain ⟨ts, hscan, hts⟩ := tokens_of_parse h
  have hincreasing := Token.increasing_of_scan hscan
  have hall {F : List SpanTree} (hF : Placed ts F) : ∀ t ∈ F, t.All Span.Placeable := by
    refine hF.all fun block hblock s hs => .inr ?_
    obtain ⟨us, vs, rfl⟩ := hblock
    exact hs.fits hincreasing.left.right fun t ht => Token.fits_of_scan hscan t (by simp [ht])
  rcases placed_of_ofTokens hts with ⟨e, rfl, hF⟩ | ⟨is, rfl, hF⟩
  · exact .expression (e.like_self (hall hF _ (List.mem_singleton_self _)))
  · exact like_ofItems (List.forall₂_same.mpr fun i hi =>
      Item.like_self (hall hF _ (List.mem_map_of_mem hi)))

/-! ### Errors -/

/-- Where an error is, if it is at some place. -/
def SessionError.span? : SessionError → Option Span
  | parse e => e.span
  | type e => some e.span
  | runtime e => some e.span

/-- An error that was raised at one of the tokens has the span of that token, or
none. -/
theorem ParseError.RaisedAt.span {err : ParseError} {ts : List Token} {i : Nat}
    (h : err.RaisedAt ts i) : ∀ s ∈ err.span, ∃ t ∈ ts, s = t.span := by
  obtain ⟨fault, _⟩ := err
  cases fault with
  | unexpected t =>
    rintro _ ⟨⟩
    exact ⟨t, List.mem_of_getElem? h, rfl⟩
  | literalOutOfRange digits span =>
    rintro _ ⟨⟩
    exact ⟨_, List.mem_of_getElem? h, rfl⟩
  | endOfInput | lexing => exact nofun

theorem Entry.fits_of_parse_error {source : String} {err : ParseError}
    (h : parse source = .error err) : ∀ s ∈ err.span, s.Fits := by
  unfold parse tokens at h
  cases hscan : Token.scan (blankComments source) with
  | error e =>
    rw [hscan] at h
    cases h
    exact nofun
  | ok ts =>
    rw [hscan] at h
    obtain ⟨us, vs, rfl, -, hraised, -⟩ := ofTokens_error h
    intro s hs
    obtain ⟨t, ht, rfl⟩ := hraised.span s hs
    exact (Token.fits_of_scan hscan t (List.mem_append_right us ht)).2

namespace Session

/-- The sessions that texts lead to, and looking at types in between. -/
inductive Driven : Session → Prop
  | initial : Driven initial
  | run {s t : Session} {fuel : Nat} {source : String} {res : Except SessionError Outcome} :
    Driven s → s.run fuel source = some (res, t) → Driven t
  | typeOf {s : Session} (name : String) : Driven s → Driven (typeOf name s).2
  | globals {s : Session} : Driven s → Driven (globals s).2

/-- A text leaves a session like itself, and if that reports an error, it is placed. -/
theorem run_fits {s t : Session} (hs : s.Like (Span.Sharing Span.Placeable) s)
    {fuel : Nat}
    {source : String} {res : Except SessionError Outcome} (h : s.run fuel source = some (res, t)) :
    t.Like (Span.Sharing Span.Placeable) t ∧
      ∀ err, res = .error err → ∀ span ∈ err.span?, span.Placeable := by
  unfold run at h
  cases hparse : Entry.parse source with
  | error e =>
    rw [hparse] at h
    cases h
    refine ⟨hs, ?_⟩
    rintro _ ⟨⟩ span hspan
    exact .inr (Entry.fits_of_parse_error hparse span hspan)
  | ok e =>
    rw [hparse] at h
    have hempty : Span.Sharing Span.Placeable .empty .empty := ⟨rfl, .inl rfl⟩
    rcases runEntry_of_like hempty hs (Entry.like_of_parse hparse) fuel with
      ⟨hnone, -⟩ | ⟨r, r', u, u', hr, hr', hsays, hu⟩
    · rw [show s.runEntry fuel e = some (res, t) from h] at hnone
      cases hnone
    · cases h.symm.trans hr
      cases h.symm.trans hr'
      refine ⟨hu, ?_⟩
      rintro _ rfl span hspan
      cases hsays with
      | type he =>
        cases hspan
        exact he.span.2
      | runtime he =>
        cases hspan
        exact he.span.2

theorem Driven.like {s : Session} (h : s.Driven) :
    s.Like (Span.Sharing Span.Placeable) s := by
  induction h with
  | initial => exact .initial
  | run _ hrun ih => exact (run_fits ih hrun).1
  | typeOf name _ ih => exact ⟨rfl, ih.store⟩
  | globals _ ih => exact ⟨rfl, ih.store⟩

/-- If a session that texts lead to reports an error, it is at no place, or at
one without a text, or its span fits the text that it carries: all lines that
are quoted are lines of that text, and there is a byte for the caret to stand
below. -/
theorem Driven.error_fits {s t : Session} (hs : s.Driven) {fuel : Nat} {source : String}
    {err : SessionError} (h : s.run fuel source = some (.error err, t)) :
    ∀ span ∈ err.span?, span.source = "" ∨ span.Fits ∧ ∀ k, span.start.line - 1 ≤ k →
      k ≤ span.stop.line → ∃ line, (lines span.source)[k]? = some line := by
  intro span hspan
  refine ((run_fits hs.like h).2 err rfl span hspan).imp_right fun hfits => ⟨hfits, ?_⟩
  intro k _ hk
  exact ⟨_, List.getElem?_eq_getElem (Nat.lt_of_le_of_lt hk hfits.stop_lt)⟩

/-- A function that fails when it is called. -/
def dividing : String := "function f(int n) \x7b\n return n / 0; \x7d"

/-- The error of a later text is placed in the text of the function. -/
theorem error_fits_dividing : ∃ (s t : Session) (err : SessionError), s.Driven ∧
    s.run 100 "f(1)" = some (.error err, t) ∧ err.span?.map Span.source = some dividing ∧
    ∀ span ∈ err.span?, span.source = "" ∨ span.Fits ∧ ∀ k, span.start.line - 1 ≤ k →
      k ≤ span.stop.line → ∃ line, (lines span.source)[k]? = some line := by
  have hrun : ((initial.run 100 dividing).bind fun p => (p.2.run 100 "f(1)").bind fun q =>
      match q.1 with
      | .error err => err.span?.map Span.source
      | .ok _ => none) = some dividing := by decide +kernel
  obtain ⟨⟨res, s⟩, hs, hrun⟩ := Option.bind_eq_some_iff.mp hrun
  obtain ⟨⟨_ | err, t⟩, ht, hsource⟩ := Option.bind_eq_some_iff.mp hrun
  · have hdriven := Driven.run .initial hs
    exact ⟨s, t, _, hdriven, ht, hsource, hdriven.error_fits ht⟩
  · cases hsource

end Session

end Implet
