/-
Implet/Proofs/TypeSafety.lean

What passes the check does not go wrong.  If no function of a session declares
its own name again, and no block inside a function has a variable with the name
of a global, then every entry that is accepted and finishes has a value of the
type that was reported, or stops with an error that is part of the language
(`History.safe_of_clean`).

Without the second condition the check does not see what a call will find: the
frames of calls that have not returned stack on the one environment of the
closure, and the variable of an open block stands in front of the global for the
calls below it.  If it has the global's type nothing can be noticed in the types
(`History.sound_of_shadowsAgree`); if not, a number can be found where a truth
value should be (`not_sound`).
-/
import Implet.Proofs.History

namespace Implet

/-- A value is one of the values of a type. -/
def Value.Inhabits : Value → Ty → Prop
  | .integer _, t => t = .int
  | .boolean _, t => t = .bool
  | .uninitialized, _ => False
  | .closure f _, t => ∃ params ret, t = .func params ret ∧ params.length = f.params.length

/-- A value that is of a type under all valuations is of it, whatever is still
unknown about the type. -/
theorem Value.inhabits_of_isOf {s : Subst} (hs : s.WellFormed) {t : Ty}
    (ht : ∀ n, t = .var n → s.link? n = none) {v : Value}
    (h : ∀ {ρ}, s.Holds ρ → v.IsOf (t.ground ρ)) : v.Inhabits t := by
  -- two valuations are enough, which let all that is unknown be numbers or truth values
  have hint := h (Subst.holds_valuation hs (σ := fun _ => .int) fun _ _ _ => trivial)
  have hbool := h (Subst.holds_valuation hs (σ := fun _ => .bool) fun _ _ _ => trivial)
  cases t with
  | int | bool =>
    cases v with
    | integer | boolean => first | rfl | cases hint
    | uninitialized => exact hint
    | closure f r =>
      obtain ⟨_, _, h, -⟩ := hint
      cases h
  | var n =>
    -- a free variable can stand for either base type, and no value is of both
    rw [Ty.ground_var, Subst.valuation_free _ (ht n rfl)] at hint hbool
    cases v with
    | integer => cases hbool
    | boolean => cases hint
    | uninitialized => exact hint
    | closure f r =>
      obtain ⟨_, _, h, -⟩ := hint
      cases h
  | func params ret =>
    rw [Ty.ground_func] at hint
    cases v with
    | integer | boolean => cases hint
    | uninitialized => exact hint
    | closure f r =>
      obtain ⟨ps, result, hg, hlen⟩ := hint
      refine ⟨params, ret, rfl, ?_⟩
      rw [← hlen, ← (Ground.func.inj hg).1, List.length_map]

/-! ### Values of globals -/

/-- The type that is reported for a global, and what it is worth. -/
theorem Session.typeOf_spec {s : Session} (hs : s.checker.Rest) {x : String} {t : Ty}
    (ht : s.checker.frame.get? x = some t) :
    ∃ (u : Ty) (c : Subst), (Session.typeOf x s).1 = some u ∧ c.WellFormed ∧
      (∀ n, u = .var n → c.link? n = none) ∧
      ∀ {ρ}, c.Holds ρ → s.checker.subst.Holds ρ ∧ u.ground ρ = t.ground ρ := by
  have happ := Subst.applied_apply hs.subst t
  have hget : s.checker.env.get? x = some t := by
    rw [hs.env, Scope.get?_cons, ht]
    rfl
  refine ⟨(Subst.apply t s.checker.subst).1, (Subst.apply t s.checker.subst).2, ?_,
    happ.extends_.wellFormed, fun n hn => Subst.apply_free hs.subst hn,
    fun hρ => ⟨happ.extends_.holds hρ, happ.ground hρ⟩⟩
  simp only [Session.typeOf, Checker.typeOf, hget]
  rcases Subst.apply t s.checker.subst with ⟨u, c⟩
  rfl

/-- A global holds a value of its type, or none yet. -/
theorem Store.WellTyped.global {ρ : Valuation} {Q : FunDef → Prop} {f : Frame Ty}
    {s : Store} (h : s.WellTyped True ρ Q (f.ground ρ)) {x : String} {v : Value}
    (hv : (s.env Store.base).get? x = some v) :
    ∃ t, f.get? x = some t ∧ (v = .uninitialized ∨ v.IsOf (t.ground ρ)) := by
  obtain ⟨Φ, Δ, hrest, hs⟩ := h
  have hrel := hs.related Store.base
  rw [hrest.globals] at hrel
  rcases hrel.get? x with ⟨hx, -⟩ | ⟨v', g, hx, hg, hfit⟩
  · rw [hx] at hv
    cases hv
  · obtain rfl := Option.some.inj (hx.symm.trans hv)
    rw [Scope.get?_cons, Frame.get?_ground, Scope.get?_nil, Option.or_none] at hg
    obtain ⟨t, ht, rfl⟩ := Option.map_eq_some_iff.mp hg
    exact ⟨t, ht, hfit.imp id fun h => (h.hasType trivial).isOf⟩

/-! ### Safety -/

/-- What was reported about an entry that was accepted is what came of it: a
bare expression has a value of the reported type, unless an error of the
language stopped it. -/
def Event.Safe (ev : Event) : Prop :=
  ∀ type, (ev.before.checker.run ev.entry).1 = .ok type → match ev.outcome with
    | .ok o => o.type = type ∧ match ev.entry with
      | .expression _ => ∃ v t, o.value = some v ∧ type = some t ∧ v.Inhabits t
      | .program _ | .function _ | .declaration _ | .statement _ => o.value = none
    | .error (.runtime err) => err.Expected
    | .error _ => False

theorem Event.safe_of_fits {es : List Event} {ev : Event} (h : History es ev.before)
    {fuel : Nat}
    {s' : Session} (hr : ev.before.runEntry fuel ev.entry = some (ev.outcome, s'))
    (hfits : ∀ {ρ}, s'.checker.subst.Holds ρ → ev.Fits True ρ (¬ ·.RedeclaresSelf)) : ev.Safe := by
  intro type ht
  have hrest := h.rest
  rcases Session.runEntry_cases hr with ⟨err, hc, -, -⟩ | ⟨type', hc, ho⟩
  · rw [hc] at ht
    cases ht
  rw [hc] at ht
  obtain rfl := Except.ok.inj ht
  have hs' := (hrest.run hc).1.subst
  have hfits : ∀ {ρ}, s'.checker.subst.Holds ρ → _ := fun hρ => hfits hρ type' (by rw [hc])
  obtain ⟨ρ, hρ⟩ := hs'.exists_holds
  rcases ho with ⟨v, -, ho⟩ | ⟨err, -, ho⟩
  · simp only [ho] at hfits ⊢
    refine ⟨trivial, ?_⟩
    rcases he : ev.entry with p | f | d | s | e
    case expression =>
      simp only [he, Entry.ValueFits] at hfits
      obtain ⟨-, w, g, rfl, ht, -⟩ := hfits hρ
      obtain ⟨t, rfl, -⟩ := Option.map_eq_some_iff.mp ht
      refine ⟨w, t, rfl, rfl, Value.inhabits_of_isOf hs' (fun n hn => ?_) fun {ρ} hρ => ?_⟩
      · exact Checker.run_free hrest.subst hrest.env (hn ▸ hc)
      · obtain ⟨-, w', g', hw, hg, g, hi, hgg⟩ := hfits hρ
        rwa [Option.some.inj hw, Option.some.inj hg, ← hgg trivial]
    all_goals
      simp only [he, Entry.ValueFits] at hfits
      exact (hfits hρ).2
  · simp only [ho] at hfits ⊢
    exact (hfits hρ).expected

/-- If the functions of a session do not declare their own names again, and do
not hide globals in blocks, then everything that is accepted is safe. -/
theorem History.safe_of_clean {es : List Event} {s : Session} (h : History es s)
    (hes : ∀ ev ∈ es, ev.Accepted → ev.Clean) : ∀ ev ∈ es, ev.Safe := by
  intro ev hev
  -- what came later may have settled types that were reported as unknown, so
  -- only the history up to the event is looked at
  obtain ⟨es₀, fuel, s', h₀, hr, hsub⟩ := h.of_mem hev
  refine Event.safe_of_fits h₀ hr fun {ρ} hρ => ?_
  refine ((h₀.entry hr).wellTyped hρ True fun ev' hev' hacc => ?_).2 ev (by simp)
  have hclean := hes ev' (hsub hev') hacc
  exact ⟨fun _ => hclean.shadowsAgree, hclean.not_redeclaresSelf⟩

/-- A function that calls itself from a block with a variable of its own. -/
def descent : List String :=
  ["int g;",
    "function f(int n) \x7b if n < 1 return g; \x7b int k; k := n - 1; return f(k) + 1; \x7d \x7d",
    "g := 5;",
    "f(2)",
    "f(true)",
    "1 / (g - g)"]

/-- Its one function is clean. -/
theorem clean_descent : ∃ es s, Session.play 60 descent .initial = some (es, s) ∧
    es.length = 6 ∧ ∀ ev ∈ es, ev.Clean := by
  have hplay : ((Session.play 60 descent .initial).any fun p =>
      decide (p.1.length = 6 ∧ ∀ ev ∈ p.1, ev.Clean)) = true := by
    decide +kernel
  obtain ⟨⟨es, s⟩, hp, hq⟩ := (Option.any_eq_true _ _).mp hplay
  exact ⟨es, s, hp, of_decide_eq_true hq⟩

theorem safe_descent : ∃ es s, Session.play 60 descent .initial = some (es, s) ∧
    es.length = 6 ∧ (∀ ev ∈ es, ev.Accepted → ev.Clean) ∧ ∀ ev ∈ es, ev.Safe := by
  obtain ⟨es, s, hp, hlen, hclean⟩ := clean_descent
  have hacc : ∀ ev ∈ es, ev.Accepted → ev.Clean := fun ev hev _ => hclean ev hev
  exact ⟨es, s, hp, hlen, hacc, (Session.history_play hp).safe_of_clean hacc⟩

/-- If, whatever is still unknown, the variables of blocks in functions have the
types of the globals they hide from calls, then no entry that was accepted meets
a value of the wrong kind, and every global holds a value of the type that is
reported for it. -/
theorem History.sound_of_shadowsAgree {es : List Event} {s : Session} (h : History es s)
    (hes : ∀ {ρ}, s.checker.subst.Holds ρ → ∀ ev ∈ es, ev.Accepted → ev.ShadowsAgree ρ) :
    (∀ ev ∈ es, ∀ expected found span,
      ev.outcome ≠ .error (.runtime (.wrongKind expected found span))) ∧
    ∀ x v, s.valueOf x = some v →
      ∃ t, (Session.typeOf x s).1 = some t ∧ (v = .uninitialized ∨ v.Inhabits t) := by
  have hrest := h.rest
  have hspec : ∀ {ρ}, s.checker.subst.Holds ρ → _ := fun {ρ} hρ =>
    h.wellTyped hρ True fun ev hev hacc =>
      ⟨fun _ => hes hρ ev hev hacc, fun _ _ => trivial⟩
  obtain ⟨ρ, hρ⟩ := hrest.subst.exists_holds
  refine ⟨?_, ?_⟩
  · intro ev hev expected found span ho
    have hfits := (hspec hρ).2 ev hev
    obtain ⟨es₀, fuel, s', h₀, hr, -⟩ := h.of_mem hev
    rcases Session.runEntry_cases hr with ⟨err, -, ho', -⟩ | ⟨type, hc, -⟩
    · rw [ho] at ho'
      cases ho'
    · have hfit := hfits type (by rw [hc])
      rw [ho] at hfit
      exact hfit trivial
  · intro x v hv
    obtain ⟨t, ht, -⟩ := (hspec hρ).1.global hv
    obtain ⟨u, c, hu, hc, hfree, hground⟩ := Session.typeOf_spec hrest ht
    refine ⟨u, hu, ?_⟩
    by_cases hun : v = .uninitialized
    · exact Or.inl hun
    · refine Or.inr (Value.inhabits_of_isOf hc hfree fun {ρ} hρ => ?_)
      obtain ⟨hρ', heq⟩ := hground hρ
      obtain ⟨t', ht', hv'⟩ := (hspec hρ').1.global hv
      obtain rfl := Option.some.inj (ht.symm.trans ht')
      rw [heq]
      exact hv'.resolve_left hun

theorem sound_descent : ∃ es s, Session.play 60 descent .initial = some (es, s) ∧
    (∀ ev ∈ es, ∀ expected found span,
      ev.outcome ≠ .error (.runtime (.wrongKind expected found span))) ∧
    ∀ x v, s.valueOf x = some v →
      ∃ t, (Session.typeOf x s).1 = some t ∧ (v = .uninitialized ∨ v.Inhabits t) := by
  obtain ⟨es, s, hp, -, hclean⟩ := clean_descent
  exact ⟨es, s, hp, (Session.history_play hp).sound_of_shadowsAgree
    fun _ ev hev _ => (hclean ev hev).shadowsAgree⟩

/-- The call in the block finds the truth value of the block where the check saw
the global, a number. -/
theorem not_sound : ∃ es s, Session.play 60
      ["int g;",
        "function f(int n) \x7b if n < 1 return g + 1; \x7b bool g; return f(n - 1); \x7d \x7d",
        "f(1)"] .initial = some (es, s) ∧ History es s ∧
    ∃ ev ∈ es, ev.Accepted ∧ ∃ expected found span,
      ev.outcome = .error (.runtime (.wrongKind expected found span)) := by
  obtain ⟨es, s, hp, hs, ev, hev, hacc, err, herr, ho⟩ := Session.exists_failure 60
    ["int g;",
      "function f(int n) \x7b if n < 1 return g + 1; \x7b bool g; return f(n - 1); \x7d \x7d",
      "f(1)"]
    (fun err => err = .wrongKind "integer" "boolean" err.span) (by decide +kernel)
  exact ⟨es, s, hp, hs, ev, hev, hacc, _, _, _, by rw [ho, herr]⟩

end Implet
