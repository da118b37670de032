/-
Implet/Proofs/Principal.lean

Inference is exact.  An entry that is accepted is well typed under the
valuations that the substitution holds of afterwards, and under no others of
those it held of before; so the types that are reported are principal: what the
entry and the globals can be typed with are the ground instances of the reported
types (`Checker.Reachable.principal`).  An entry that is rejected cannot be
typed at all, unless it was rejected for a call of something of which it was not
known whether it is a function (`Checker.Reachable.not_typed`).

One half is `Checker.run_spec`, the other is `Checker.run_complete`.  What comes
to them here is that the variables made for an entry are fresh: nothing that was
known before depends on them.
-/
import Implet.Proofs.Completeness
import Implet.Proofs.History

namespace Implet

variable {ρ ρ' : Valuation} {n : Nat}

/-! ### Valuations that agree on the variables made so far -/

/-- Two valuations give the variables below `n` the same types. -/
def Valuation.AgreeBelow (n : Nat) (ρ ρ' : Valuation) : Prop := ∀ m < n, ρ m = ρ' m

theorem Valuation.AgreeBelow.mono {k : Nat} (h : AgreeBelow n ρ ρ') (hk : k ≤ n) :
    AgreeBelow k ρ ρ' := fun m hm => h m (hm.trans_le hk)

open Implet.Valuation (AgreeBelow)

theorem groundDecls_congr {ds : List Decl} (h : AgreeBelow (n + mintedDecls ds) ρ ρ') :
    groundDecls ρ n ds = groundDecls ρ' n ds := by
  induction ds generalizing n with
  | nil => rfl
  | cons d ds ih =>
    rw [mintedDecls_cons, ← Nat.add_assoc] at h
    rw [groundDecls, groundDecls, ih h]
    congr 1
    rcases hd : d.type with - | b
    · have hn : n < n + d.minted + mintedDecls ds := by
        rw [Decl.minted, hd]
        simp
        omega
      simpa [Decl.ground, hd] using h n hn
    · cases b <;> simp [Decl.ground, hd, Ty.ofBase]

mutual

/-- What a statement depends on are the variables that were made before or are
made for it. -/
theorem Stmt.Typed.congr {result : Option Ground} {n : Nat} {Γ : Context} {s : Stmt}
    (h : AgreeBelow (n + s.minted) ρ ρ') (hs : s.Typed ρ result n Γ) : s.Typed ρ' result n Γ := by
  cases s with
  | block ds ss span =>
    rw [Stmt.minted, ← Nat.add_assoc] at h
    obtain ⟨hnd, hss⟩ := hs
    rw [groundDecls_congr (h.mono (Nat.le_add_right _ _))] at hss
    exact ⟨hnd, StmtsTyped.congr h hss⟩
  | cond condition thenBranch elseBranch span =>
    cases elseBranch with
    | none => exact ⟨hs.1, hs.2.congr h⟩
    | some elseBranch =>
      rw [Stmt.minted, ← Nat.add_assoc] at h
      exact ⟨hs.1, hs.2.1.congr (h.mono (Nat.le_add_right _ _)), hs.2.2.congr h⟩
  | loop condition body span => exact ⟨hs.1, hs.2.congr h⟩
  | assign | ret => exact hs

theorem StmtsTyped.congr {result : Option Ground} {n : Nat} {Γ : Context} {ss : List Stmt}
    (h : AgreeBelow (n + mintedStmts ss) ρ ρ') (hs : StmtsTyped ρ result n Γ ss) :
    StmtsTyped ρ' result n Γ ss := by
  cases ss with
  | nil => trivial
  | cons s ss =>
    rw [mintedStmts, ← Nat.add_assoc] at h
    exact ⟨hs.1.congr (h.mono (Nat.le_add_right _ _)), StmtsTyped.congr h hs.2⟩

end

namespace FunDef

variable {f : FunDef} {G : Frame Ground}

theorem ground_congr (h : AgreeBelow (n + f.minted) ρ ρ') :
    f.ground ρ n = f.ground ρ' n := by
  have hn : n + mintedDecls f.params < n + f.minted := by
    rw [minted]
    omega
  rw [ground, ground, groundDecls_congr (h.mono hn.le), result, result, h _ hn]

theorem globals_congr (h : AgreeBelow (n + f.minted) ρ ρ') :
    f.globals ρ n G = f.globals ρ' n G := by
  rw [globals, globals, ground_congr h]

theorem Typed.congr (h : AgreeBelow (n + f.minted) ρ ρ') (hf : f.Typed ρ n G) :
    f.Typed ρ' n G where
  fresh := hf.fresh
  nodup_params := hf.nodup_params
  nodup_declarations := hf.nodup_declarations
  disjoint := hf.disjoint
  body := by
    have hbody := hf.body
    have hn : n + f.minted
        = f.bodyFirst n + mintedDecls f.body.declarations + mintedStmts f.body.statements := by
      rw [minted, bodyFirst]
      omega
    have hresult : f.result ρ n = f.result ρ' n := h _ (by rw [minted]; omega)
    have hframe : f.frame ρ n = f.frame ρ' n := by
      rw [frame, frame, groundDecls_congr (h.mono (by rw [minted]; omega)),
        groundDecls_congr (h.mono (hn ▸ Nat.le_add_right _ _))]
    rw [hresult, hframe, globals_congr h] at hbody
    exact hbody.congr (hn ▸ h)

end FunDef

theorem globalsAfter_congr {G : Frame Ground} {fs : List FunDef}
    (h : AgreeBelow (n + mintedFunctions fs) ρ ρ') :
    globalsAfter ρ n G fs = globalsAfter ρ' n G fs := by
  induction fs generalizing n G with
  | nil => rfl
  | cons f fs ih =>
    rw [mintedFunctions, ← Nat.add_assoc] at h
    rw [globalsAfter, globalsAfter, ih h, FunDef.globals_congr (h.mono (Nat.le_add_right _ _))]

theorem FunctionsTyped.congr {G : Frame Ground} {fs : List FunDef}
    (h : AgreeBelow (n + mintedFunctions fs) ρ ρ') (hfs : FunctionsTyped ρ n G fs) :
    FunctionsTyped ρ' n G fs := by
  induction fs generalizing n G with
  | nil => trivial
  | cons f fs ih =>
    rw [mintedFunctions, ← Nat.add_assoc] at h
    have hf := h.mono (Nat.le_add_right _ _)
    exact ⟨hfs.1.congr hf, FunDef.globals_congr hf ▸ ih h hfs.2⟩

namespace Entry

variable {G : Frame Ground} {type type' : Option Ground}

theorem globals_congr {e : Entry} (h : AgreeBelow (n + e.minted) ρ ρ') :
    e.globals ρ n G = e.globals ρ' n G := by
  cases e with
  | program p =>
    rw [minted, ← Nat.add_assoc, ← Nat.add_assoc] at h
    have hd := h.mono (Nat.le_add_right _ _)
    rw [globals, globals, globalsAfter_congr (hd.mono (Nat.le_add_right _ _)), Frame.withGlobals,
      Frame.withGlobals, groundDecls_congr hd]
  | function f => exact FunDef.globals_congr h
  | declaration d =>
    rw [globals, globals, Frame.withGlobals, Frame.withGlobals, groundDecls_congr h]
  | statement | expression => rfl

theorem Typed.congr {e : Entry} (h : AgreeBelow (n + e.minted) ρ ρ')
    (he : e.Typed ρ n G type) :
    e.Typed ρ' n G type := by
  cases e with
  | program p =>
    obtain ⟨ht, hfs, hnd, hdis, hmain⟩ := he
    have hG := globals_congr (e := .program p) (G := G) h
    rw [minted, ← Nat.add_assoc, ← Nat.add_assoc] at h
    have hf := h.mono ((Nat.le_add_right _ _).trans (Nat.le_add_right _ _))
    rw [globalsAfter_congr hf] at hdis
    rw [hG] at hmain
    exact ⟨ht, hfs.congr hf, hnd, hdis, hmain.congr h⟩
  | function f => exact ⟨FunDef.ground_congr h ▸ he.1, he.2.congr h⟩
  | statement s => exact ⟨he.1, he.2.congr h⟩
  | declaration | expression => exact he

theorem Typed.unique {e : Entry} (h : e.Typed ρ n G type) (h' : e.Typed ρ n G type') :
    type = type' := by
  cases e with
  | program | function | declaration | statement => exact h.1.trans h'.1.symm
  | expression e =>
    obtain ⟨g, rfl, hg⟩ := h
    obtain ⟨g', rfl, hg'⟩ := h'
    rw [hg.unique hg']

end Entry

namespace Checker

open Subst

variable {c c' : Checker}

/-! ### All checkers that can come about -/

/-- The checkers that entries, accepted or rejected, and questions lead to. -/
inductive Reachable : Checker → Prop
  | initial : Reachable .initial
  | run {c : Checker} (e : Entry) : Reachable c → Reachable (Checker.run c e).2
  | typeOf {c : Checker} (name : String) : Reachable c → Reachable (Checker.typeOf name c).2
  | globals {c : Checker} : Reachable c → Reachable (Checker.globals c).2

/-- A question leaves a checker with the same scope that knows the same. -/
structure Asks (c c' : Checker) : Prop where
  env : c'.env = c.env
  subst : c.subst.Shortens c'.subst

theorem asks_typeOf (hs : c.subst.WellFormed) (name : String) :
    Asks c (typeOf name c).2 := by
  unfold typeOf
  cases c.env.get? name with
  | none => exact ⟨rfl, hs.shortens_self⟩
  | some t => exact ⟨rfl, hs.shortens_apply t⟩

theorem asks_globals (hs : c.subst.WellFormed) : Asks c (globals c).2 :=
  ⟨rfl, (hs.mapM_apply Prod.snd (fun b t => (b.1, t)) c.env.globals).2⟩

/-- The globals are reported with their types expanded. -/
theorem fst_globals (hs : c.subst.WellFormed) :
    (globals c).1 = c.env.globals.map fun b => (b.1, c.subst.expand b.2) :=
  (hs.mapM_apply Prod.snd (fun b t => (b.1, t)) c.env.globals).1

theorem Rest.asks (h : c.Rest) (ha : Asks c c') : c'.Rest ∧ c'.frame = c.frame :=
  h.keeps ⟨ha.env, ha.subst.extends⟩

theorem Reachable.rest (h : c.Reachable) : c.Rest := by
  induction h with
  | initial => exact rest_initial
  | @run c e _ ih =>
    rcases hr : c.run e with ⟨err | t, c'⟩
    · exact run_eq_error hr ▸ ih
    · exact (ih.run hr).1
  | typeOf name _ ih => exact (ih.asks (asks_typeOf ih.subst name)).1
  | globals _ ih => exact (ih.asks (asks_globals ih.subst)).1

/-- A valuation is left exactly if it was there before and makes the entry well
typed. -/
theorem Rest.run_holds_iff (h : c.Rest) {e : Entry} {t : Option Ty}
    (hr : c.run e = (.ok t, c')) :
    c'.subst.Holds ρ ↔
      c.subst.Holds ρ ∧ ∃ type, e.Typed ρ c.subst.next (c.frame.ground ρ) type := by
  obtain ⟨-, ha⟩ := h.run hr
  constructor
  · exact fun hρ => ⟨ha.subst.holds hρ, _, ha.typed hρ⟩
  · rintro ⟨hρ, type, he⟩
    exact run_complete h.subst hρ h.env he hr

/-- Nothing that is known depends on variables that have not been made. -/
structure Fresh (c : Checker) : Prop where
  holds : ∀ {ρ ρ'}, AgreeBelow c.subst.next ρ ρ' → c.subst.Holds ρ → c.subst.Holds ρ'
  frame : ∀ {ρ ρ'}, AgreeBelow c.subst.next ρ ρ' → c.frame.ground ρ = c.frame.ground ρ'

theorem Rest.fresh_run (h : c.Rest) (hf : c.Fresh) {e : Entry} {t : Option Ty}
    (hr : c.run e = (.ok t, c')) : c'.Fresh := by
  obtain ⟨-, ha⟩ := h.run hr
  have hnext : ∀ {ρ ρ'}, AgreeBelow c'.subst.next ρ ρ' →
      AgreeBelow (c.subst.next + e.minted) ρ ρ' := fun hag => ha.subst.next ▸ hag
  have hold : ∀ {ρ ρ'}, AgreeBelow c'.subst.next ρ ρ' → AgreeBelow c.subst.next ρ ρ' :=
    fun hag => (hnext hag).mono (Nat.le_add_right _ _)
  constructor
  · intro ρ ρ' hag hρ
    obtain ⟨hρ, type, he⟩ := (h.run_holds_iff hr).mp hρ
    rw [hf.frame (hold hag)] at he
    exact (h.run_holds_iff hr).mpr ⟨hf.holds (hold hag) hρ, type, he.congr (hnext hag)⟩
  · intro ρ ρ' hag
    rw [ha.globals, ha.globals, hf.frame (hold hag), Entry.globals_congr (hnext hag)]

theorem Rest.fresh_asks (h : c.Rest) (hf : c.Fresh) (ha : Asks c c') : c'.Fresh := by
  constructor
  · intro ρ ρ' hag hρ
    rw [ha.subst.next] at hag
    exact ha.subst.holds.mpr (hf.holds hag (ha.subst.holds.mp hρ))
  · intro ρ ρ' hag
    rw [ha.subst.next] at hag
    rw [(h.asks ha).2]
    exact hf.frame hag

theorem Reachable.fresh (h : c.Reachable) : c.Fresh := by
  induction h with
  | initial => exact ⟨fun _ _ => ⟨nofun, nofun⟩, fun _ => rfl⟩
  | @run c e h ih =>
    rcases hr : c.run e with ⟨err | t, c'⟩
    · exact run_eq_error hr ▸ ih
    · exact h.rest.fresh_run ih hr
  | typeOf name h ih => exact h.rest.fresh_asks ih (asks_typeOf h.rest.subst name)
  | globals h ih => exact h.rest.fresh_asks ih (asks_globals h.rest.subst)

/-- The checker that texts lead to, one after the other.  A text that cannot be
read is left out. -/
def after (sources : List String) : Checker :=
  (sources.filterMap fun source => (Entry.parse source).toOption).foldl
    (fun c e => (Checker.run c e).2) .initial

theorem reachable_after (sources : List String) : (after sources).Reachable := by
  suffices H : ∀ (es : List Entry) {c : Checker}, c.Reachable →
      (es.foldl (fun c e => (Checker.run c e).2) c).Reachable from H _ .initial
  intro es
  induction es with
  | nil => exact fun h => h
  | cons e es ih => exact fun h => ih (h.run e)

/-- What holds of the entry that a text is read as, as a test. -/
theorem exists_entry (source : String) (p : Entry → Prop) [DecidablePred p]
    (h : ((Entry.parse source).toOption.any fun e => decide (p e)) = true) :
    ∃ e, Entry.parse source = .ok e ∧ p e := by
  obtain ⟨e, he, hp⟩ := (Option.any_eq_true _ _).mp h
  refine ⟨e, ?_, of_decide_eq_true hp⟩
  cases hs : Entry.parse source with
  | error err =>
    rw [hs] at he
    cases he
  | ok e' =>
    rw [hs] at he
    exact congrArg Except.ok (Option.some.inj he)

/-- What the check of a text comes to, as a test. -/
theorem exists_run (c : Checker) (source : String)
    (p : Except TypeError (Option Ty) → Prop) [DecidablePred p]
    (h : ((Entry.parse source).toOption.any fun e => decide (p (c.run e).1)) = true) :
    ∃ e r c', Entry.parse source = .ok e ∧ c.run e = (r, c') ∧ p r := by
  obtain ⟨e, he, hp⟩ := exists_entry source (fun e => p (c.run e).1) h
  exact ⟨e, (c.run e).1, (c.run e).2, he, rfl, hp⟩

/-! ### Principal types -/

theorem Rest.ground_run_valuation (h : c.Rest) {e : Entry} {t : Option Ty}
    (hr : c.run e = (.ok t, c')) (σ : Valuation) :
    t.map (Ty.ground (c'.subst.valuation σ)) = t.map (Ty.ground σ) := by
  obtain ⟨u, c₁, h₁, -, ht⟩ := run_eq_ok hr
  obtain ⟨G', ha⟩ := checkEntry_spec h.subst h.env h₁
  have hs₁ := ha.subst.wellFormed
  rcases ht with ⟨-, rfl, -⟩ | ⟨type, -, rfl, hs'⟩
  · rfl
  · have hfree : c'.subst.Free (apply type c₁.subst).1 := by
      rw [hs', (hs₁.shortens_apply type).free_iff, hs₁.apply_eq_expand]
      exact hs₁.free_expand type
    exact congrArg some (ground_valuation hfree σ)

theorem globals_ground (f : Frame Ty) (ρ : Valuation) :
    (⟨[f.ground ρ]⟩ : Context).globals = Frame.ground ρ (⟨[f]⟩ : Scope Ty).globals :=
  (List.map_mergeSort (f := fun b : String × Ty => (b.1, b.2.ground ρ)) fun _ _ _ _ => rfl).symm

/-- What the reported types stand for is what the types of the globals stand for. -/
theorem Rest.ground_globals (h : c.Rest) (hρ : c.subst.Holds ρ) :
    Frame.ground ρ (globals c).1 = (⟨[c.frame.ground ρ]⟩ : Context).globals := by
  rw [globals_ground, fst_globals h.subst, h.env, Frame.ground, List.map_map]
  exact List.map_congr_left fun b _ => by simp [ground_expand hρ]

theorem Rest.ground_globals_valuation (h : c.Rest) (σ : Valuation) :
    Frame.ground (c.subst.valuation σ) (globals c).1 = Frame.ground σ (globals c).1 := by
  rw [fst_globals h.subst, Frame.ground, Frame.ground, List.map_map, List.map_map]
  refine List.map_congr_left fun b _ => ?_
  simp [ground_valuation (h.subst.free_expand b.2)]

/-- `ρ` is a typing of an entry: it meets all that is known, and the entry is
well typed with the type `type` and leaves the globals `Γ`, sorted by name. -/
structure Typing (c : Checker) (e : Entry) (ρ : Valuation) (type : Option Ground)
    (Γ : Frame Ground) : Prop where
  holds : c.subst.Holds ρ
  typed : e.Typed ρ c.subst.next (c.frame.ground ρ) type
  globals : Γ = (⟨[e.globals ρ c.subst.next (c.frame.ground ρ)]⟩ : Context).globals

/-- An accepted entry asks of a valuation that it makes the entry well typed, no
more and no less, where the variables that are made for it are fresh.  What the
entry and the globals can be typed with are the ground instances of the reported
types, with base types for the variables that are marked so. -/
theorem Reachable.principal (h : c.Reachable) {e : Entry} {t : Option Ty}
    (hr : c.run e = (.ok t, c')) :
    c.Fresh ∧
    (∀ ρ, c'.subst.Holds ρ ↔
      c.subst.Holds ρ ∧ ∃ type, e.Typed ρ c.subst.next (c.frame.ground ρ) type) ∧
    ∀ type Γ, (∃ ρ, c.Typing e ρ type Γ) ↔
      ∃ σ : Valuation, (∀ n ∈ c'.subst.baseOnly, (σ n).IsBase) ∧
        type = t.map (Ty.ground σ) ∧ Γ = Frame.ground σ (Checker.globals c').1 := by
  have hrest := h.rest
  obtain ⟨hrest', ha⟩ := hrest.run hr
  -- the one typing that there is under a valuation is the reported one
  have hreport : ∀ {ρ}, c'.subst.Holds ρ →
      c.Typing e ρ (t.map (Ty.ground ρ)) (Frame.ground ρ (Checker.globals c').1) := by
    intro ρ hρ
    refine ⟨ha.subst.holds hρ, ha.typed hρ, ?_⟩
    rw [hrest'.ground_globals hρ, ha.globals]
  refine ⟨h.fresh, fun ρ => hrest.run_holds_iff hr, fun type Γ => ⟨?_, ?_⟩⟩
  · rintro ⟨ρ, ht⟩
    have hρ := (hrest.run_holds_iff hr).mpr ⟨ht.holds, type, ht.typed⟩
    exact ⟨ρ, fun _ => hρ.base, ht.typed.unique (hreport hρ).typed,
      ht.globals.trans (hreport hρ).globals.symm⟩
  · rintro ⟨σ, hσ, rfl, rfl⟩
    have hρ := holds_valuation hrest'.subst fun n hn _ => hσ n hn
    rw [← hrest.ground_run_valuation hr, ← hrest'.ground_globals_valuation]
    exact ⟨c'.subst.valuation σ, hreport hρ⟩

/-- Two variables of one type that has to be a base type. -/
def compared : List String := ["var x;", "var y;", "x == y"]

/-- A function that compares its first parameter and hands on its second. -/
def same : String := "function same(var a, var b) \x7b if a == x return b; return same(y, b); \x7d"

theorem principal_compared : ∃ e t c', Entry.parse same = .ok e ∧
    (after compared).run e = (.ok t, c') ∧ (after compared).Reachable ∧
    (after compared).Fresh ∧
    (∀ ρ, c'.subst.Holds ρ ↔ (after compared).subst.Holds ρ ∧ ∃ type,
      e.Typed ρ (after compared).subst.next ((after compared).frame.ground ρ) type) ∧
    ∀ type Γ, (∃ ρ, (after compared).Typing e ρ type Γ) ↔
      ∃ σ : Valuation, (∀ n ∈ c'.subst.baseOnly, (σ n).IsBase) ∧
        type = t.map (Ty.ground σ) ∧ Γ = Frame.ground σ (Checker.globals c').1 := by
  obtain ⟨e, r, c', he, hr, rfl⟩ := exists_run (after compared) same
    (· = .ok (some (.func [.var 1, .var 3] (.var 3)))) (by decide +kernel)
  have h := reachable_after compared
  exact ⟨e, _, c', he, hr, h, h.principal hr⟩

/-! ### Rejections -/

/-- An entry that is rejected cannot be typed, whatever the variables stand for,
unless it calls something of which it is not known that it is a function. -/
theorem Reachable.not_typed (h : c.Reachable) {e : Entry} {err : TypeError}
    (hr : c.run e = (.error err, c')) (herr : ¬ err.CallsUnknown) :
    ∀ ρ type, c.subst.Holds ρ → ¬ e.Typed ρ c.subst.next (c.frame.ground ρ) type := by
  intro ρ type hρ he
  apply herr
  exact run_complete h.rest.subst hρ h.rest.env he hr

/-- Its first parameter would have the type of the function itself. -/
def endless : String :=
  "function same(var a, var b) \x7b if a == x return b; return same(same, b); \x7d"

theorem not_typed_compared : ∃ e err c', Entry.parse endless = .ok e ∧
    (after compared).run e = (.error err, c') ∧ (after compared).Reachable ∧ ¬ err.CallsUnknown ∧
    ∀ ρ type, (after compared).subst.Holds ρ →
      ¬ e.Typed ρ (after compared).subst.next ((after compared).frame.ground ρ) type := by
  obtain ⟨e, r, c', he, hr, rfl⟩ := exists_run (after compared) endless
    (· = .error (.occursCheck 1 (.func [.var 1, .var 3] (.var 3)) ⟨⟨0, 62⟩, ⟨0, 66⟩, endless⟩))
    (by decide +kernel)
  have h := reachable_after compared
  exact ⟨e, _, c', he, hr, h, id, h.not_typed hr id⟩

end Checker

end Implet
