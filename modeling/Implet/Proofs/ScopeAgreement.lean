/-
Implet/Proofs/ScopeAgreement.lean

The checker and the store agree on what there is.  In every session that can
come about, also after entries that could not be read, were rejected or stopped
early, both have one frame, with the same names in it.  So what passes the check
finds all its names when it is run, however old the functions are that it calls,
and neither the check nor a run ever ends in a failure that no entry should lead
to (`Session.Reachable.scopes_agree`).

That the store follows the checker is `History.wellTyped`, and that the check
does not fail for a reason of its own is `Checker.careful_checkResolved`.
-/
import Implet.Proofs.Careful
import Implet.Proofs.History

namespace Implet

/-- No entry leads to a failure of the checker itself. -/
theorem Checker.Rest.not_internal {c c' : Checker} (h : c.Rest) {e : Entry}
    {err : TypeError} (hr : c.run e = (.error err, c')) : ¬ err.IsInternal := by
  have hd : 0 < c.env.depth := by
    rw [h.env]
    exact Nat.zero_lt_one
  exact (careful_checkResolved e).error h.subst hd (run_error_iff.mp hr).1

/-! ### All sessions that can come about -/

namespace Session

variable {s s' : Session}

/-- The sessions that texts, entries and questions lead to, whatever comes of them. -/
inductive Reachable : Session → Prop
  | initial : Reachable .initial
  | run {s s' : Session} {fuel : Nat} {source : String} {outcome : Except SessionError Outcome} :
    Reachable s → Session.run fuel s source = some (outcome, s') → Reachable s'
  | entry {s s' : Session} {fuel : Nat} {e : Entry} {outcome : Except SessionError Outcome} :
    Reachable s → Session.runEntry fuel s e = some (outcome, s') → Reachable s'
  | typeOf {s : Session} (name : String) : Reachable s → Reachable (Session.typeOf name s).2
  | globals {s : Session} : Reachable s → Reachable (Session.globals s).2

theorem Reachable.exists_history (h : s.Reachable) : ∃ es, History es s := by
  induction h with
  | initial => exact ⟨_, .initial⟩
  | run _ hr ih =>
    obtain ⟨es, h⟩ := ih
    obtain ⟨es', h'⟩ := history_run h hr
    exact ⟨_, h'⟩
  | entry _ hr ih =>
    obtain ⟨es, h⟩ := ih
    exact ⟨_, h.entry hr⟩
  | typeOf name _ ih =>
    obtain ⟨es, h⟩ := ih
    exact ⟨es, h.typeOf name⟩
  | globals _ ih =>
    obtain ⟨es, h⟩ := ih
    exact ⟨es, h.globals⟩

/-- Run texts one after the other, whatever comes of each. -/
def feed (fuel : Nat) : List String → Session → Option Session
  | [], s => some s
  | source :: rest, s => (s.run fuel source).bind fun p => feed fuel rest p.2

theorem Reachable.feed {fuel : Nat} {sources : List String} (h : s.Reachable)
    (hr : feed fuel sources s = some s') : s'.Reachable := by
  induction sources generalizing s with
  | nil => exact Option.some.inj hr ▸ h
  | cons source rest ih =>
    rw [Session.feed] at hr
    obtain ⟨⟨outcome, s₁⟩, h₁, hr⟩ := Option.bind_eq_some_iff.mp hr
    exact ih (h.run h₁) hr

end Session

/-- What is left of a history when nothing is asked of its functions: a store
that binds the names that the checker knows. -/
theorem History.binds {es : List Event} {s : Session} (h : History es s) : ∃ ρ,
    s.store.WellTyped False ρ (fun _ => True) (s.checker.frame.ground ρ) ∧
      ∀ ev ∈ es, ev.Fits False ρ fun _ => True := by
  obtain ⟨ρ, hρ⟩ := h.rest.subst.exists_holds
  exact ⟨ρ, h.wellTyped hρ False fun _ _ _ => ⟨False.elim, fun _ _ => trivial⟩⟩

theorem History.names_agree {es : List Event} {s : Session} (h : History es s) :
    ∃ f g, s.checker.env.frames = [f] ∧ s.env.frames = [g] ∧ g.names = f.names := by
  obtain ⟨ρ, ⟨Φ, Δ, hrest, hs⟩, -⟩ := h.binds
  have hrel := hs.related Store.base
  rw [hrest.globals] at hrel
  obtain ⟨g, gs, hg, hgs, hframes⟩ := List.forall₂_cons_right_iff.mp hrel
  obtain rfl := List.forall₂_nil_right_iff.mp hgs
  refine ⟨s.checker.frame, g, by rw [h.rest.env], hframes, ?_⟩
  rw [← hg.names_eq, Frame.names_ground]

/-- An entry that passes the check finds every name, and leaves no more than it
entered. -/
theorem History.arises {es : List Event} {s s' : Session} (h : History es s) {fuel : Nat}
    {e : Entry} {err : RuntimeError} (hr : s.runEntry fuel e = some (.error (.runtime err), s')) :
    err.Arises False fun _ => True := by
  obtain ⟨ρ, -, hfits⟩ := (h.entry hr).binds
  have hfit := hfits ⟨s, e, .error (.runtime err)⟩ (by simp)
  rcases Session.runEntry_cases hr with ⟨_, -, ho, -⟩ | ⟨type, hc, -⟩
  · cases ho
  · exact hfit type (by rw [hc])

/-- The checker and the store have one frame each, with the same names in it; no
entry that passes the check misses a name when it is run, returns from where
there is no function to return from, or fails for a reason of the store's own,
and none is rejected for a reason of the checker's own. -/
theorem Session.Reachable.scopes_agree {s : Session} (h : s.Reachable) :
    (∃ f g, s.checker.env.frames = [f] ∧ s.env.frames = [g] ∧ g.names = f.names) ∧
    (∀ fuel e err s', s.runEntry fuel e = some (.error (.runtime err), s') →
      (∀ name span, err ≠ .undeclared name span) ∧ (∀ span, err ≠ .returnOutsideFunction span) ∧
        ∀ message span, err ≠ .internal message span) ∧
    ∀ e message span, (s.checker.run e).1 ≠ .error (.internal message span) := by
  obtain ⟨es, hes⟩ := h.exists_history
  refine ⟨hes.names_agree, ?_, ?_⟩
  · intro fuel e err s' hr
    have harises := hes.arises hr
    refine ⟨?_, ?_, ?_⟩
    · rintro name span rfl
      exact harises
    · rintro span rfl
      exact harises
    · rintro message span rfl
      exact harises
  · intro e message span he
    exact hes.rest.not_internal (Prod.ext he rfl) trivial

/-- A text that cannot be read, one that is rejected, and one that stops early,
in the call of a function that was defined before. -/
def stumbles : List String :=
  ["int g;",
    "function f(int n) \x7b if n < 1 return 6 / g; \x7b int k; k := n - 1; return f(k); \x7d \x7d",
    "int g",
    "g := h;",
    "g := f(1);",
    "g := 3;"]

theorem scopes_agree_stumbles :
    ∃ s, Session.feed 60 stumbles .initial = some s ∧ s.Reachable ∧
    (∃ f g, s.checker.env.frames = [f] ∧ s.env.frames = [g] ∧ g.names = f.names) ∧
    (∀ fuel e err s', s.runEntry fuel e = some (.error (.runtime err), s') →
      (∀ name span, err ≠ .undeclared name span) ∧ (∀ span, err ≠ .returnOutsideFunction span) ∧
        ∀ message span, err ≠ .internal message span) ∧
    ∀ e message span, (s.checker.run e).1 ≠ .error (.internal message span) := by
  have hfeed : (Session.feed 60 stumbles .initial).isSome = true := by decide +kernel
  obtain ⟨s, hs⟩ := Option.isSome_iff_exists.mp hfeed
  have h := Session.Reachable.initial.feed hs
  exact ⟨s, hs, h, h.scopes_agree⟩

end Implet
