/-
Implet/Proofs/History.lean

Sessions and how they came about.  A `History` lists what has happened in a
session: the entries that were given to it, accepted or rejected, completed or
stopped early, each with the session that it found and its outcome.  Questions
about types may be asked in between; they shorten chains of links, but there is
nothing to tell of them.

A history that is seen under one valuation, which the substitution holds of in
the end, has a well-typed store all along (`History.wellTyped`), strictly so if
the functions that were accepted agree with the globals they hide.
-/
import Implet.Proofs.Checking
import Implet.Proofs.Entries
import Implet.Session

namespace Implet

open Subst (Extends)

/-! ### Histories -/

/-- An entry, the session in which it was run, and its outcome. -/
structure Event where
  before : Session
  entry : Entry
  outcome : Except SessionError Outcome

/-- What has happened in a session, in order. -/
inductive History : List Event → Session → Prop
  | initial : History [] .initial
  | entry {es s fuel e outcome s'} : History es s → s.runEntry fuel e = some (outcome, s') →
    History (es ++ [⟨s, e, outcome⟩]) s'
  | typeOf {es s} (name : String) : History es s → History es (Session.typeOf name s).2
  | globals {es s} : History es s → History es (Session.globals s).2

/-- The bindings that a checker has between entries. -/
def Checker.frame (c : Checker) : Frame Ty := c.env.frames.headD []

namespace Event

/-- The entry passed the check. -/
def Accepted (ev : Event) : Prop := ∃ type, (ev.before.checker.run ev.entry).1 = .ok type

/-- The functions that are defined agree with the globals they hide. -/
def ShadowsAgree (ρ : Valuation) (ev : Event) : Prop :=
  FunctionsAgree ρ ev.before.checker.subst.next (ev.before.checker.frame.ground ρ)
    ev.entry.functions

/-- The functions that are defined are clean among the globals that there are. -/
def Clean (ev : Event) : Prop :=
  FunctionsClean ev.before.checker.frame.names ev.entry.functions

theorem accepted_iff {ev : Event} :
    ev.Accepted ↔ (ev.before.checker.run ev.entry).1.isOk = true := by
  rw [Accepted]
  cases (ev.before.checker.run ev.entry).1 with
  | error e => simp [Except.isOk, Except.toBool]
  | ok type => simp [Except.isOk, Except.toBool]

instance (ev : Event) : Decidable ev.Accepted := decidable_of_iff _ accepted_iff.symm

instance (ev : Event) : Decidable ev.Clean := inferInstanceAs (Decidable (FunctionsClean _ _))

/-- The error with which the entry failed when it was run. -/
def failure (ev : Event) : Option RuntimeError :=
  match ev.outcome with
  | .error (.runtime err) => some err
  | _ => none

theorem outcome_of_failure {ev : Event} {err : RuntimeError} (h : ev.failure = some err) :
    ev.outcome = .error (.runtime err) := by
  unfold failure at h
  split at h
  · next err' ho => rw [ho, Option.some.inj h]
  · cases h

theorem Clean.shadowsAgree {ρ : Valuation} {ev : Event} (h : ev.Clean) :
    ev.ShadowsAgree ρ :=
  FunctionsClean.agree (by rwa [Frame.names_ground])

end Event

namespace Session

variable {s s' : Session} {fuel : Nat} {e : Entry} {outcome : Except SessionError Outcome}

/-- An entry is rejected, or it is accepted and run. -/
theorem runEntry_cases (h : s.runEntry fuel e = some (outcome, s')) :
    (∃ err, s.checker.run e = (.error err, s.checker) ∧ outcome = .error (.type err) ∧ s' = s) ∨
    ∃ type, s.checker.run e = (.ok type, s'.checker) ∧
      ((∃ v, e.run fuel Store.base s.store = some (.ok v, s'.store) ∧
          outcome = .ok ⟨type, v⟩) ∨
        ∃ err, e.run fuel Store.base s.store = some (.error err, s'.store) ∧
          outcome = .error (.runtime err)) := by
  unfold runEntry at h
  rcases hc : s.checker.run e with ⟨err | type, c⟩
  · rw [hc] at h
    obtain rfl := Checker.run_eq_error hc
    obtain ⟨rfl, rfl⟩ := Prod.mk.inj (Option.some.inj h)
    exact Or.inl ⟨err, rfl, rfl, rfl⟩
  · rw [hc] at h
    simp only at h
    split at h
    · cases h
    · next v store hr =>
      obtain ⟨rfl, rfl⟩ := Prod.mk.inj (Option.some.inj h)
      exact Or.inr ⟨type, rfl, Or.inl ⟨v, hr, rfl⟩⟩
    · next err store hr =>
      obtain ⟨rfl, rfl⟩ := Prod.mk.inj (Option.some.inj h)
      exact Or.inr ⟨type, rfl, Or.inr ⟨err, hr, rfl⟩⟩

/-- Asking for a type changes nothing but the checker. -/
theorem snd_typeOf (name : String) (s : Session) :
    (Session.typeOf name s).2 = ⟨(Checker.typeOf name s.checker).2, s.store⟩ := by
  unfold typeOf
  rcases Checker.typeOf name s.checker with ⟨t, c⟩
  rfl

theorem snd_globals (s : Session) :
    (Session.globals s).2 = ⟨(Checker.globals s.checker).2, s.store⟩ := by
  unfold globals
  rcases Checker.globals s.checker with ⟨bs, c⟩
  rfl

/-- Reading a text leads to the history of its entry, or to no change. -/
theorem history_run {es : List Event} {source : String} (h : History es s)
    (hr : s.run fuel source = some (outcome, s')) : ∃ es', History (es ++ es') s' := by
  unfold run at hr
  split at hr
  · exact ⟨_, h.entry hr⟩
  · obtain ⟨-, rfl⟩ := Prod.mk.inj (Option.some.inj hr)
    exact ⟨[], by rwa [List.append_nil]⟩

/-- Run entries one after the other. -/
def perform (fuel : Nat) : List Entry → Session → Option (List Event × Session)
  | [], s => some ([], s)
  | e :: rest, s =>
    match s.runEntry fuel e with
    | some (outcome, s') => (perform fuel rest s').map fun p => (⟨s, e, outcome⟩ :: p.1, p.2)
    | none => none

/-- Run texts one after the other.  A text that cannot be read is not an event. -/
def play (fuel : Nat) (sources : List String) : Session → Option (List Event × Session) :=
  perform fuel (sources.filterMap fun source => (Entry.parse source).toOption)

theorem history_perform {es es' : List Event} {rest : List Entry} (h : History es s)
    (hr : perform fuel rest s = some (es', s')) : History (es ++ es') s' := by
  induction rest generalizing s es es' with
  | nil =>
    obtain ⟨rfl, rfl⟩ := Prod.mk.inj (Option.some.inj hr)
    rwa [List.append_nil]
  | cons e rest ih =>
    rw [perform] at hr
    split at hr
    · next outcome s₁ h₁ =>
      obtain ⟨⟨es₁, s₂⟩, h₂, hp⟩ := Option.map_eq_some_iff.mp hr
      obtain ⟨rfl, rfl⟩ := Prod.mk.inj hp
      have := ih (h.entry h₁) h₂
      rwa [List.append_assoc] at this
    · cases hr

/-- What is run from the start is a history. -/
theorem history_play {es : List Event} {sources : List String}
    (hr : play fuel sources .initial = some (es, s)) : History es s :=
  history_perform .initial hr

/-- A run from the start in which an entry passes the check and then fails, as a
test. -/
theorem exists_failure (fuel : Nat) (sources : List String) (p : RuntimeError → Prop)
    [DecidablePred p]
    (h : ((play fuel sources .initial).any fun q => q.1.any fun ev =>
      decide ev.Accepted && ev.failure.any fun err => decide (p err)) = true) :
    ∃ es s, play fuel sources .initial = some (es, s) ∧ History es s ∧
      ∃ ev ∈ es, ev.Accepted ∧ ∃ err, p err ∧ ev.outcome = .error (.runtime err) := by
  obtain ⟨⟨es, s⟩, hp, hq⟩ := (Option.any_eq_true _ _).mp h
  obtain ⟨ev, hev, hq⟩ := List.any_eq_true.mp hq
  obtain ⟨hacc, hq⟩ := Bool.and_eq_true_iff.mp hq
  obtain ⟨err, hf, herr⟩ := (Option.any_eq_true _ _).mp hq
  exact ⟨es, s, hp, history_play hp, ev, hev, of_decide_eq_true hacc, err, of_decide_eq_true herr,
    Event.outcome_of_failure hf⟩

end Session

/-- An event of a history came after a history of its own. -/
theorem History.of_mem {es : List Event} {s : Session} (h : History es s) {ev : Event}
    (hev : ev ∈ es) : ∃ es₀ fuel s', History es₀ ev.before ∧
      ev.before.runEntry fuel ev.entry = some (ev.outcome, s') ∧ es₀ ++ [ev] ⊆ es := by
  induction h with
  | initial => cases hev
  | @entry es s fuel e outcome s' h hr ih =>
    rcases List.mem_append.mp hev with hev | hev
    · obtain ⟨es₀, fuel', s₁, h₀, hr₀, hsub⟩ := ih hev
      exact ⟨es₀, fuel', s₁, h₀, hr₀, fun e' he' => List.mem_append_left _ (hsub he')⟩
    · obtain rfl := List.mem_singleton.mp hev
      exact ⟨es, fuel, s', h, hr, fun e' he' => he'⟩
  | typeOf _ _ ih => exact ih hev
  | globals _ ih => exact ih hev

/-! ### What the checker keeps -/

namespace Checker

/-- A checker between entries: one frame, and a well-formed substitution. -/
structure Rest (c : Checker) : Prop where
  env : c.env = ⟨[c.frame]⟩
  subst : c.subst.WellFormed

theorem rest_initial : Checker.initial.Rest := ⟨rfl, Subst.wellFormed_empty⟩

variable {c c' : Checker}

theorem Rest.run (h : c.Rest) {e : Entry} {t : Option Ty} (hr : c.run e = (.ok t, c')) :
    c'.Rest ∧ Accepts e t c c' c.frame c'.frame := by
  obtain ⟨G', ha⟩ := run_spec h.subst h.env hr
  have hG : c'.frame = G' := by rw [frame, ha.env]; rfl
  exact ⟨⟨hG ▸ ha.env, ha.subst.wellFormed⟩, hG ▸ ha⟩

theorem Rest.keeps (h : c.Rest) (hk : Keeps 0 c c') : c'.Rest ∧ c'.frame = c.frame := by
  have hf : c'.frame = c.frame := by rw [frame, frame, hk.env]
  exact ⟨⟨by rw [hf, hk.env, h.env], hk.subst.wellFormed⟩, hf⟩

theorem keeps_typeOf (hs : c.subst.WellFormed) (name : String) :
    Keeps 0 c (typeOf name c).2 := by
  unfold typeOf
  cases c.env.get? name with
  | none => exact .refl hs
  | some t => exact ⟨rfl, (Subst.applied_apply hs t).extends_⟩

theorem keeps_globals (hs : c.subst.WellFormed) : Keeps 0 c (globals c).2 :=
  ⟨rfl, Subst.extends_mapM (fun hs b => (Subst.applied_apply hs b.2).extends_) hs⟩

end Checker

theorem History.rest {es : List Event} {s : Session} (h : History es s) :
    s.checker.Rest := by
  induction h with
  | initial => exact Checker.rest_initial
  | entry _ hr ih =>
    rcases Session.runEntry_cases hr with ⟨_, -, -, rfl⟩ | ⟨_, hc, -⟩
    · exact ih
    · exact (ih.run hc).1
  | typeOf name _ ih =>
    rw [Session.snd_typeOf]
    exact (ih.keeps (Checker.keeps_typeOf ih.subst name)).1
  | globals _ ih =>
    rw [Session.snd_globals]
    exact (ih.keeps (Checker.keeps_globals ih.subst)).1

/-! ### What the store keeps -/

theorem Store.wellTyped_initial (strict : Prop) (ρ : Valuation) (Q : FunDef → Prop) :
    Store.WellTyped strict ρ Q [] .initial := by
  refine ⟨fun _ => none, ⟨1, fun _ => .initial⟩, ⟨⟨nofun, fun _ => nofun, nofun, rfl⟩, nofun,
    Nat.zero_lt_one, rfl, nofun⟩, rfl, fun r => ?_⟩
  have henv : Store.initial.env r = .initial := by
    cases r <;> rfl
  rw [henv]
  exact .cons .nil .nil

/-- The outcome of an event that was accepted is one of those that its type and
the functions of the session allow. -/
def Event.Fits (strict : Prop) (ρ : Valuation) (Q : FunDef → Prop) (ev : Event) : Prop :=
  ∀ type, (ev.before.checker.run ev.entry).1 = .ok type → match ev.outcome with
    | .ok o => o.type = type ∧ ev.entry.ValueFits strict (type.map (Ty.ground ρ)) o.value
    | .error (.runtime err) => err.Arises strict Q
    | .error _ => False

/-- Under a valuation that the substitution holds of in the end, all that has
happened fits the types, and the store is well typed. -/
theorem History.wellTyped {es : List Event} {s : Session} (h : History es s)
    {ρ : Valuation} (hρ : s.checker.subst.Holds ρ) (strict : Prop) {Q : FunDef → Prop}
    (hes : ∀ ev ∈ es, ev.Accepted →
      (strict → ev.ShadowsAgree ρ) ∧ ∀ f ∈ ev.entry.functions, Q f) :
    s.store.WellTyped strict ρ Q (s.checker.frame.ground ρ) ∧ ∀ ev ∈ es, ev.Fits strict ρ Q := by
  induction h with
  | initial => exact ⟨Store.wellTyped_initial strict ρ Q, fun _ hev => absurd hev List.not_mem_nil⟩
  | @entry es s fuel e outcome s' h hr ih =>
    have hrest := h.rest
    rcases Session.runEntry_cases hr with ⟨err, hc, rfl, rfl⟩ | ⟨type, hc, ho⟩
    · -- an entry that is rejected leaves everything as it was
      obtain ⟨hs, hfits⟩ := ih hρ fun ev hev => hes ev (List.mem_append_left _ hev)
      refine ⟨hs, ?_⟩
      intro ev hev
      rcases List.mem_append.mp hev with hev | hev
      · exact hfits ev hev
      · obtain rfl := List.mem_singleton.mp hev
        intro type ht
        rw [hc] at ht
        cases ht
    · -- what the substitution holds of after an entry, it held of before
      obtain ⟨-, ha⟩ := hrest.run hc
      obtain ⟨hs, hfits⟩ := ih (ha.subst.holds hρ) fun ev hev => hes ev (List.mem_append_left _ hev)
      obtain ⟨hagree, hq⟩ := hes ⟨s, e, outcome⟩ (by simp) ⟨type, by rw [hc]⟩
      have hspec := triple_entry fuel (ha.typed hρ) hagree hq
      rw [ha.globals]
      have hlast : s'.store.WellTyped strict ρ Q (e.globals ρ s.checker.subst.next
          (s.checker.frame.ground ρ)) ∧ Event.Fits strict ρ Q ⟨s, e, outcome⟩ := by
        rcases ho with ⟨v, hv, rfl⟩ | ⟨err, hv, rfl⟩
        · obtain ⟨hfit, hs'⟩ := hspec hs hv
          refine ⟨hs', ?_⟩
          intro type' ht'
          rw [hc] at ht'
          obtain rfl := Except.ok.inj ht'
          exact ⟨rfl, hfit⟩
        · obtain ⟨hfit, hs'⟩ := hspec hs hv
          exact ⟨hs', fun _ _ => hfit⟩
      refine ⟨hlast.1, ?_⟩
      intro ev hev
      rcases List.mem_append.mp hev with hev | hev
      · exact hfits ev hev
      · exact List.mem_singleton.mp hev ▸ hlast.2
  | @typeOf es s name h ih =>
    have hk := Checker.keeps_typeOf h.rest.subst name
    rw [Session.snd_typeOf] at hρ ⊢
    rw [(h.rest.keeps hk).2]
    exact ih (hk.subst.holds hρ) hes
  | @globals es s h ih =>
    have hk := Checker.keeps_globals h.rest.subst
    rw [Session.snd_globals] at hρ ⊢
    rw [(h.rest.keeps hk).2]
    exact ih (hk.subst.holds hρ) hes

end Implet
