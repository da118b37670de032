/-
Implet/Proofs/Asking.lean

What can be asked of a session, and what it answers.  An entry can be given as a
text or as a tree, and there are questions about the globals.  A session answers
each request in one way only (`Session.Answers.unique`), however much fuel it is
given.

Sessions with one store, whose checkers differ in the length of their chains
only, cannot be told apart by asking: they answer the same, and are such
sessions again afterwards (`Session.Alike.answers`).
-/
import Implet.Proofs.CheckRoots
import Implet.Proofs.Fuel
import Implet.Proofs.History

namespace Implet

namespace Session

/-- What a session is asked: to run an entry, or about the globals. -/
inductive Request where
  | source (text : String)
  | entry (e : Entry)
  | globals
  | typeOf (name : String)
  | valueOf (name : String)
  | depth

/-- What a session answers. -/
inductive Response where
  | outcome (o : Except SessionError Outcome)
  | globals (bs : List Binding)
  | typeOf (type : Option Ty)
  | valueOf (value : Option Value)
  | depth (n : Nat)

/-- A request and the answer to it. -/
structure Exchange where
  request : Request
  response : Response

variable {s s' s'' t t' : Session} {q : Request} {a a' : Response} {l l' : List Exchange}

/-- Ask a session.  There is no answer if the fuel does not suffice. -/
def ask (fuel : Nat) (s : Session) : Request → Option (Response × Session)
  | .source text => (s.run fuel text).map fun p => (.outcome p.1, p.2)
  | .entry e => (s.runEntry fuel e).map fun p => (.outcome p.1, p.2)
  | .globals => some (.globals (Session.globals s).1, (Session.globals s).2)
  | .typeOf name => some (.typeOf (Session.typeOf name s).1, (Session.typeOf name s).2)
  | .valueOf name => some (.valueOf (s.valueOf name), s)
  | .depth => some (.depth s.depth, s)

/-- A session answers a request and becomes another. -/
def Answers (s : Session) (q : Request) (a : Response) (s' : Session) : Prop :=
  ∃ fuel, s.ask fuel q = some (a, s')

/-- A session answers one request after the other and becomes another. -/
inductive Log : Session → List Exchange → Session → Prop
  | nil (s : Session) : Log s [] s
  | cons {s s' t : Session} {x : Exchange} {l : List Exchange} :
    s.Answers x.request x.response s' → Log s' l t → Log s (x :: l) t

/-! ### One answer only -/

theorem runEntry_unique {fuel fuel' : Nat} {e : Entry}
    {p p' : Except SessionError Outcome × Session}
    (h : s.runEntry fuel e = some p) (h' : s.runEntry fuel' e = some p') : p = p' := by
  unfold runEntry at h h'
  rcases hc : s.checker.run e with ⟨err | type, c⟩ <;> rw [hc] at h h' <;> dsimp only at h h'
  · exact Option.some.inj (h.symm.trans h')
  · rcases hr : e.run fuel Store.base s.store with - | o
    · rw [hr] at h
      cases h
    rcases hr' : e.run fuel' Store.base s.store with - | o'
    · rw [hr'] at h'
      cases h'
    obtain rfl := Entry.run_unique hr hr'
    rw [hr] at h
    rw [hr'] at h'
    exact Option.some.inj (h.symm.trans h')

theorem run_unique {fuel fuel' : Nat} {text : String}
    {p p' : Except SessionError Outcome × Session}
    (h : s.run fuel text = some p) (h' : s.run fuel' text = some p') : p = p' := by
  unfold run at h h'
  cases he : Entry.parse text with
  | error e =>
    rw [he] at h h'
    exact Option.some.inj (h.symm.trans h')
  | ok e =>
    rw [he] at h h'
    exact runEntry_unique h h'

/-- A session answers a request in one way. -/
theorem Answers.unique (h : s.Answers q a s') (h' : s.Answers q a' s'') :
    a = a' ∧ s' = s'' := by
  obtain ⟨fuel, h⟩ := h
  obtain ⟨fuel', h'⟩ := h'
  refine Prod.mk.inj ?_
  cases q with
  | source text =>
    obtain ⟨p, hp, he⟩ := Option.map_eq_some_iff.mp h
    obtain ⟨p', hp', he'⟩ := Option.map_eq_some_iff.mp h'
    rw [← he, ← he', run_unique hp hp']
  | entry e =>
    obtain ⟨p, hp, he⟩ := Option.map_eq_some_iff.mp h
    obtain ⟨p', hp', he'⟩ := Option.map_eq_some_iff.mp h'
    rw [← he, ← he', runEntry_unique hp hp']
  | globals | typeOf | valueOf | depth => exact Option.some.inj (h.symm.trans h')

/-- The same requests lead to the same answers. -/
theorem Log.unique (h : Log s l t) (h' : Log s l' t')
    (hl : l.map Exchange.request = l'.map Exchange.request) : l = l' ∧ t = t' := by
  induction h generalizing l' with
  | nil =>
    cases h' with
    | nil => exact ⟨rfl, rfl⟩
    | cons => cases hl
  | @cons s s₁ t x l hx _ ih =>
    cases h' with
    | nil => cases hl
    | @cons _ s₁' _ x' l' hx' h' =>
      obtain ⟨hq, hl⟩ := List.cons.inj hl
      obtain ⟨ha, rfl⟩ := hx.unique (hq ▸ hx')
      obtain ⟨rfl, rfl⟩ := ih h' hl
      obtain ⟨q, a⟩ := x
      obtain ⟨q', a'⟩ := x'
      obtain rfl : q = q' := hq
      obtain rfl : a = a' := ha
      exact ⟨rfl, rfl⟩

/-! ### Sessions that cannot be told apart -/

/-- Two sessions with one store, whose checkers differ in the length of their
chains only. -/
structure Alike (s s' : Session) : Prop where
  checker : s.checker.Alike s'.checker
  store : s'.store = s.store

theorem alike_initial : Alike .initial .initial :=
  ⟨Checker.alike_self Subst.wellFormed_empty, rfl⟩

namespace Alike

theorem symm (h : Alike s s') : Alike s' s := ⟨h.checker.symm, h.store.symm⟩

theorem trans (h : Alike s s') (h' : Alike s' s'') : Alike s s'' :=
  ⟨h.checker.trans h'.checker, h'.store.trans h.store⟩

theorem valueOf (h : Alike s s') (name : String) : s'.valueOf name = s.valueOf name := by
  rw [Session.valueOf, Session.valueOf, Session.env, Session.env, h.store]

theorem typeOf (h : Alike s s') (name : String) :
    (Session.typeOf name s').1 = (Session.typeOf name s).1 ∧
      Alike (Session.typeOf name s).2 (Session.typeOf name s').2 := by
  obtain ⟨ht, hc⟩ := h.checker.typeOf name
  rw [snd_typeOf, snd_typeOf]
  exact ⟨ht, hc, h.store⟩

theorem globals (h : Alike s s') : (Session.globals s').1 = (Session.globals s).1 ∧
    Alike (Session.globals s).2 (Session.globals s').2 := by
  obtain ⟨hbs, hc⟩ := h.checker.globals
  rw [snd_globals, snd_globals]
  refine ⟨?_, hc, h.store⟩
  show (Checker.globals s'.checker).1.map (fun b => Binding.mk b.1 b.2 (s'.valueOf b.1))
    = (Checker.globals s.checker).1.map fun b => Binding.mk b.1 b.2 (s.valueOf b.1)
  rw [hbs]
  simp only [h.valueOf]

theorem runEntry (h : Alike s s') {fuel : Nat} {e : Entry}
    {o : Except SessionError Outcome} (hr : s.runEntry fuel e = some (o, t)) :
    ∃ t', s'.runEntry fuel e = some (o, t') ∧ Alike t t' := by
  obtain ⟨hc, hc'⟩ := h.checker.run e
  unfold Session.runEntry at hr ⊢
  rw [h.store]
  rcases he : s.checker.run e with ⟨err | type, c⟩ <;> rcases he' : s'.checker.run e with
    ⟨err' | type', c'⟩ <;> rw [he, he'] at hc hc' <;> rw [he] at hr <;> dsimp only at hr ⊢
  · obtain ⟨rfl, rfl⟩ := Prod.mk.inj (Option.some.inj hr)
    rw [Except.error.inj hc]
    exact ⟨_, rfl, hc', rfl⟩
  · cases hc
  · cases hc
  · rw [Except.ok.inj hc]
    rcases hrun : e.run fuel Store.base s.store with - | ⟨err | v, store⟩ <;> rw [hrun] at hr
    · cases hr
    · obtain ⟨rfl, rfl⟩ := Prod.mk.inj (Option.some.inj hr)
      exact ⟨_, rfl, hc', rfl⟩
    · obtain ⟨rfl, rfl⟩ := Prod.mk.inj (Option.some.inj hr)
      exact ⟨_, rfl, hc', rfl⟩

theorem run (h : Alike s s') {fuel : Nat} {text : String}
    {o : Except SessionError Outcome}
    (hr : s.run fuel text = some (o, t)) : ∃ t', s'.run fuel text = some (o, t') ∧ Alike t t' := by
  unfold Session.run at hr ⊢
  cases he : Entry.parse text with
  | ok e =>
    rw [he] at hr
    exact h.runEntry hr
  | error e =>
    rw [he] at hr
    obtain ⟨rfl, rfl⟩ := Prod.mk.inj (Option.some.inj hr)
    exact ⟨s', rfl, h⟩

/-- Sessions that are alike give the same answers. -/
theorem answers (h : Alike s s') (ha : s.Answers q a t) :
    ∃ t', s'.Answers q a t' ∧ Alike t t' := by
  obtain ⟨fuel, ha⟩ := ha
  cases q with
  | source text =>
    obtain ⟨⟨o, t⟩, hr, ho⟩ := Option.map_eq_some_iff.mp ha
    obtain ⟨rfl, rfl⟩ := Prod.mk.inj ho
    obtain ⟨t', hr', ht⟩ := h.run hr
    exact ⟨t', ⟨fuel, by rw [ask, hr']; rfl⟩, ht⟩
  | entry e =>
    obtain ⟨⟨o, t⟩, hr, ho⟩ := Option.map_eq_some_iff.mp ha
    obtain ⟨rfl, rfl⟩ := Prod.mk.inj ho
    obtain ⟨t', hr', ht⟩ := h.runEntry hr
    exact ⟨t', ⟨fuel, by rw [ask, hr']; rfl⟩, ht⟩
  | globals =>
    obtain ⟨rfl, rfl⟩ := Prod.mk.inj (Option.some.inj ha)
    exact ⟨_, ⟨fuel, by rw [ask, h.globals.1]⟩, h.globals.2⟩
  | typeOf name =>
    obtain ⟨rfl, rfl⟩ := Prod.mk.inj (Option.some.inj ha)
    exact ⟨_, ⟨fuel, by rw [ask, (h.typeOf name).1]⟩, (h.typeOf name).2⟩
  | valueOf name =>
    obtain ⟨rfl, rfl⟩ := Prod.mk.inj (Option.some.inj ha)
    exact ⟨s', ⟨fuel, by rw [ask, h.valueOf]⟩, h⟩
  | depth =>
    obtain ⟨rfl, rfl⟩ := Prod.mk.inj (Option.some.inj ha)
    refine ⟨s', ⟨fuel, ?_⟩, h⟩
    rw [ask, Session.depth, Session.depth, Session.env, Session.env, h.store]

/-- Sessions that are alike have the same conversations. -/
theorem log (h : Alike s s') (hl : Log s l t) : ∃ t', Log s' l t' ∧ Alike t t' := by
  induction hl generalizing s' with
  | nil => exact ⟨s', .nil s', h⟩
  | cons ha _ ih =>
    obtain ⟨s₁', ha', h₁⟩ := h.answers ha
    obtain ⟨t', hl', ht⟩ := ih h₁
    exact ⟨t', .cons ha' hl', ht⟩

theorem log_iff (h : Alike s s') (l : List Exchange) :
    (∃ t, Log s l t) ↔ ∃ t', Log s' l t' := by
  constructor
  · rintro ⟨t, hl⟩
    obtain ⟨t', hl', -⟩ := h.log hl
    exact ⟨t', hl'⟩
  · rintro ⟨t', hl'⟩
    obtain ⟨t, hl, -⟩ := h.symm.log hl'
    exact ⟨t, hl⟩

end Alike

end Session

end Implet
