/-
Implet/Proofs/Isolation.lean

Closures are isolated.  A bare expression changes no global, whatever it calls
and however it ends, and an entry changes the environment of a closure only by
calling that closure, on its own or through others (`Store.Reachable.isolated`).

Code writes to the environment it runs in and to those of the closures that are
called from there.  On its own account an expression writes nowhere and a
statement to its own environment, and a call turns the latter into the former,
with the callee added to what is called.  The globals are in an environment that
no closure owns, as a closure gets a new one when it is made.
-/
import Mathlib.Data.Set.Basic
import Implet.Proofs.Frames
import Implet.Proofs.RunWalk

namespace Implet

open Run

/-! ### Closures apart from the globals -/

/-- An environment that a closure can own where there are `n`: any but the one
of the globals. -/
def Ownable (n : Nat) (c : EnvRef) : Prop := c ≠ Store.base ∧ c < n

/-- A value that is a closure owns an environment apart from the globals. -/
def Value.Apart (n : Nat) : Value → Prop
  | .closure _ c => Ownable n c
  | .integer _ | .boolean _ | .uninitialized => True

theorem Value.apart_default (n : Nat) (t : Option BaseType) :
    (Value.default t).Apart n := by
  rcases t with - | _ | _ <;> trivial

theorem Value.Apart.succ {n : Nat} {v : Value} (h : v.Apart n) : v.Apart (n + 1) := by
  cases v with
  | closure f c => exact ⟨h.1, h.2.trans (Nat.lt_succ_self n)⟩
  | integer | boolean | uninitialized => trivial

/-- A store of `n` environments in which all closures are apart from the globals. -/
structure Store.Apart (n : Nat) (s : Store) : Prop where
  size : s.envs.size = n
  base : Store.base < n
  values : ∀ r, (s.env r).All (Value.Apart n)

namespace Store

variable {n : Nat} {s : Store} {r : EnvRef} {e : Environment}

/-- Putting an environment in the place of one leaves the others. -/
theorem env_setEnv_of_ne {q : EnvRef} (h : q ≠ r) : (s.setEnv r e).env q = s.env q := by
  rcases Nat.lt_or_ge r s.envs.size with hr | hr
  · rw [s.env_setEnv hr, if_neg h]
  · rw [setEnv_of_le hr]

theorem apart_initial : Store.initial.Apart 1 := by
  refine ⟨rfl, Nat.zero_lt_one, fun r => ?_⟩
  have henv : Store.initial.env r = .initial := by
    cases r <;> rfl
  rw [henv]
  exact Scope.all_initial

theorem Apart.setEnv (h : s.Apart n) (he : e.All (Value.Apart n)) :
    (s.setEnv r e).Apart n := by
  refine ⟨(s.size_setEnv r e).trans h.size, h.base, fun q => ?_⟩
  rcases Nat.lt_or_ge r s.envs.size with hr | hr
  · rw [s.env_setEnv hr]
    split
    · exact he
    · exact h.values q
  · rw [setEnv_of_le hr]
    exact h.values q

theorem Apart.allocate (h : s.Apart n) (he : e.All (Value.Apart n)) :
    (s.allocate e).2.Apart (n + 1) := by
  refine ⟨?_, h.base.trans (Nat.lt_succ_self n), fun q => ?_⟩
  · rw [← h.size]
    exact Array.size_push _
  · rw [s.env_allocate]
    split
    · exact he.mono fun _ => Value.Apart.succ
    · exact (h.values q).mono fun _ => Value.Apart.succ

end Store

/-! ### Confined runs -/

/-- A run, in a store in which the closures are apart from the globals, that
writes to the environments in `R` and to those of the closures it calls, and to
no others. -/
structure Run.Confined {α : Type} (n : Nat) (R : Set EnvRef) (A : α → Prop) (p : Run α)
    (k : Deeds) : Prop where
  keeps : Keeps (Store.Apart n) p A fun _ => True
  frame : ∀ {s res s'}, s.Apart n → p s = some (res, s') →
    ∀ q, q ∉ R → q ∉ k.calls s → s'.env q = s.env q
  calls : ∀ {s}, s.Apart n → ∀ c ∈ k.calls s, Ownable n c

namespace Run

variable {α β : Type} {n : Nat} {R R' : Set EnvRef} {A A' : α → Prop} {B : β → Prop} {p : Run α}
  {k k' : Deeds} {r : EnvRef} {s s' : Store} {res : Except RuntimeError α}

/-- However a run ends, the store is one in which the closures are apart from
the globals. -/
theorem Confined.apart (h : Confined n R A p k) (hs : s.Apart n)
    (hp : p s = some (res, s')) :
    s'.Apart n := by
  have := h.keeps hs hp
  cases res with
  | ok a => exact this.2
  | error e => exact this.2

/-- What does not use the store is confined to nothing. -/
theorem confined_of_keeps (h : ∀ I, Keeps I p A fun _ => True) :
    Confined n R A p .none where
  keeps := h _
  frame := by
    intro s res s' _ hp q _ _
    have := h (· = s) rfl hp
    cases res with
    | ok a => rw [this.2]
    | error e => rw [this.2]
  calls _ c hc := nomatch hc

theorem confined_pure {a : α} (h : A a) : Confined n R A (pure a) .none :=
  confined_of_keeps fun _ => keeps_pure h

theorem confined_fail (e : RuntimeError) : Confined n R A (fail e : Run α) .none :=
  confined_of_keeps fun _ => keeps_fail trivial

theorem confined_outOfFuel : Confined n R A (outOfFuel : Run α) .none :=
  confined_of_keeps fun _ => triple_outOfFuel

theorem Confined.mono (h : Confined n R A p k) (hR : R ⊆ R') : Confined n R' A p k :=
  ⟨h.keeps, fun hs hp q hq => h.frame hs hp q fun hqR => hq (hR hqR), h.calls⟩

/-- Of what is done only the calls matter. -/
theorem Confined.of_calls (h : Confined n R A p k) (hk : ∀ s, k'.calls s = k.calls s) :
    Confined n R A p k' where
  keeps := h.keeps
  frame hs hp q hR hq := h.frame hs hp q hR (hk _ ▸ hq)
  calls hs := hk _ ▸ h.calls hs

theorem Confined.bind {f : α → Run β} {next : α → Deeds} (hp : Confined n R A p k)
    (hf : ∀ a, A a → Confined n R B (f a) (next a)) :
    Confined n R B (p >>= f) (k.andThen p next) where
  keeps := hp.keeps.bind fun a ha => (hf a ha).keeps
  frame := by
    intro s res s' hs h q hR hq
    rw [Deeds.calls_andThen, List.mem_append, not_or] at hq
    rcases bind_cases h with ⟨a, s₁, hps, hfs⟩ | ⟨e, hps, -⟩
    · -- what the second run leaves is what the first one left
      rw [hps] at hq
      obtain ⟨ha, hs₁⟩ := hp.keeps hs hps
      rw [(hf a ha).frame hs₁ hfs q hR hq.2, hp.frame hs hps q hR hq.1]
    · exact hp.frame hs hps q hR hq.1
  calls := by
    intro s hs c hc
    rw [Deeds.calls_andThen] at hc
    rcases List.mem_append.mp hc with hc | hc
    · exact hp.calls hs c hc
    · rcases hps : p s with - | ⟨e | a, s₁⟩ <;> rw [hps] at hc
      · cases hc
      · cases hc
      · obtain ⟨ha, hs₁⟩ := hp.keeps hs hps
        exact (hf a ha).calls hs₁ c hc

/-- A run that is followed by one that does nothing. -/
theorem Confined.bind_none {f : α → Run β} (hp : Confined n R A p k)
    (hf : ∀ a, A a → Confined n R B (f a) .none) : Confined n R B (p >>= f) k :=
  k.andThen_none p ▸ hp.bind hf

theorem confined_env (r : EnvRef) :
    Confined n R (fun e => e.All (Value.Apart n)) (env r) .none where
  keeps := by
    rintro s res s' hs ⟨⟩
    exact ⟨hs.values r, hs⟩
  frame := by
    rintro s res s' _ ⟨⟩ q _ _
    rfl
  calls _ c hc := nomatch hc

/-- What is done with an environment is confined to it. -/
theorem confined_onEnvAt (hr : r ∈ R) (span : Span)
    {action : Environment → Except ScopeError Environment}
    (h : ∀ e e', e.All (Value.Apart n) → action e = .ok e' → e'.All (Value.Apart n)) :
    Confined n R (fun _ => True) (onEnvAt r span action) .none where
  keeps := by
    intro s res s' hs hp
    rcases onEnvAt_cases hp with ⟨e, he, rfl, rfl⟩ | ⟨err, -, rfl, rfl⟩
    · exact ⟨trivial, hs.setEnv (h _ _ (hs.values r) he)⟩
    · exact ⟨trivial, hs⟩
  frame := by
    intro s res s' hs hp q hq _
    rcases onEnvAt_cases hp with ⟨e, -, -, rfl⟩ | ⟨err, -, -, rfl⟩
    · exact Store.env_setEnv_of_ne fun h => hq (h ▸ hr)
    · rfl
  calls _ c hc := nomatch hc

theorem confined_declare (hr : r ∈ R) (span : Span) (x : String) {v : Value}
    (hv : v.Apart n) :
    Confined n R (fun _ => True) (onEnvAt r span (·.declare x v)) .none :=
  confined_onEnvAt hr span fun _ _ he hd => he.declare hv hd

theorem confined_assign (hr : r ∈ R) (span : Span) (x : String) {v : Value}
    (hv : v.Apart n) :
    Confined n R (fun _ => True) (onEnvAt r span (·.assign x v)) .none :=
  confined_onEnvAt hr span fun _ _ he ha => he.assign hv ha

/-- A frame is entered and left in the environment that a run is confined to anyway. -/
theorem Confined.inFrame (h : Confined n R A p k) (hr : r ∈ R) :
    Confined n R A (inFrame r p) (k.within r p) := by
  have henter : ∀ {s : Store}, s.Apart n → (s.setEnv r (s.env r).enter).Apart n :=
    fun hs => hs.setEnv (hs.values r).enter
  refine ⟨?_, ?_, fun hs => k.calls_within r p ▸ h.calls (henter hs)⟩
  · intro s res s' hs hp
    obtain ⟨res₁, s₁, hb, hend⟩ := inFrame_cases hp
    have hs₁ := h.apart (henter hs) hb
    rcases hend with ⟨e, he, rfl, rfl⟩ | ⟨err, _, -, rfl, rfl⟩
    · have hlast : (s₁.setEnv r e).Apart n := hs₁.setEnv ((hs₁.values r).exit he)
      cases res with
      | ok a => exact ⟨(h.keeps (henter hs) hb).1, hlast⟩
      | error e => exact ⟨trivial, hlast⟩
    · exact ⟨trivial, hs₁⟩
  · intro s res s' hs hp q hR hq
    rw [Deeds.calls_within] at hq
    obtain ⟨res₁, s₁, hb, hend⟩ := inFrame_cases hp
    have hqr : q ≠ r := fun h => hR (h ▸ hr)
    have h₁ : s₁.env q = s.env q := by
      rw [h.frame (henter hs) hb q hR hq, Store.env_setEnv_of_ne hqr]
    rcases hend with ⟨e, -, -, rfl⟩ | ⟨err, _, -, -, rfl⟩
    · rw [Store.env_setEnv_of_ne hqr, h₁]
    · exact h₁

/-- What is confined to the environment of a closure is what a call of the
closure is. -/
theorem Confined.calling (h : Confined n {r} A p k) (hr : Ownable n r) :
    Confined n ∅ A p (k.calling r) where
  keeps := h.keeps
  frame hs hp q _ hq := by
    rw [Deeds.calls_calling, List.mem_cons, not_or] at hq
    exact h.frame hs hp q hq.1 hq.2
  calls hs := by
    rw [Deeds.calls_calling]
    exact List.forall_mem_cons.mpr ⟨hr, h.calls hs⟩

theorem confined_read (r : EnvRef) (id : Ident) :
    Confined n R (Value.Apart n) (id.read r) .none := by
  refine (confined_env r).bind_none fun e he => ?_
  split
  · exact confined_fail _
  · next v hv => exact confined_pure (he.lookup hv)
  · exact confined_fail _

theorem confined_readFunction (r : EnvRef) (id : Ident) :
    Confined n R (fun p => Ownable n p.2) (id.readFunction r) .none := by
  refine (confined_env r).bind_none fun e he => ?_
  split
  · next f owned hf => exact confined_pure (A := fun p : FunDef × EnvRef => _) (he.lookup hf)
  · exact confined_fail _
  · exact confined_fail _

theorem confined_declareVar (hr : r ∈ R) (d : Decl) :
    Confined n R (fun _ => True) (d.run r) (.one (.declare r d)) :=
  (confined_declare hr _ _ (Value.apart_default n d.type)).of_calls fun _ => rfl

theorem confined_bindSelf (hr : r ∈ R) (hown : Ownable n r) (f : FunDef) :
    Confined n R (fun _ => True) (f.bindSelf r) (f.selfDeeds r) := by
  refine (confined_env r).bind fun e _ => ?_
  split
  · exact confined_pure trivial
  · exact (confined_declare hr _ _ (v := .closure f r) hown).of_calls fun _ => rfl

/-- The environment that code writes to on its own account. -/
def Access.writes : Access → Set EnvRef
  | .reads => ∅
  | .assigns r | .declares r => {r}

/-- The body of a function runs in the environment of the closure, whoever calls it. -/
theorem closed_confined (n : Nat) :
    Closed (fun access A p k => Confined n access.writes A p k) (Value.Apart n) (Ownable n) where
  pure := confined_pure
  fail := confined_fail
  outOfFuel := confined_outOfFuel
  bind := Confined.bind
  assigns _ h := h.mono (Set.empty_subset _)
  declares h := h
  integer _ := trivial
  boolean _ := trivial
  read := confined_read
  readFunction := confined_readFunction
  declareVar _ := confined_declareVar (Set.mem_singleton _)
  pass _ d _ hv :=
    (confined_declare (Set.mem_singleton _) d.span d.name.name hv).of_calls fun _ => rfl
  bindSelf f hr := confined_bindSelf (Set.mem_singleton _) hr f
  assign _ target _ hv :=
    (confined_assign (Set.mem_singleton _) target.span target.name hv).of_calls fun _ => rfl
  yield _ v hv := by
    have hret : (Flow.returning v).Yields (Value.Apart n) := hv
    exact (confined_pure hret).of_calls fun _ => rfl
  inFrame h := h.inFrame (Set.mem_singleton _)
  calling hr h := h.calling hr

theorem confined_eval (n fuel : Nat) (r : EnvRef) (e : Expr) :
    Confined n ∅ (Value.Apart n) (e.eval fuel r) (e.deeds fuel r) :=
  ((closed_confined n).all fuel).eval r e

theorem confined_exec (n fuel : Nat) (r : EnvRef) (s : Stmt) :
    Confined n {r} (Flow.Yields (Value.Apart n)) (s.exec fuel r) (s.deeds fuel r) :=
  ((closed_confined n).all fuel).exec r s

end Run

/-! ### Entries -/

namespace Run

variable {α β : Type} {p : Run α} {k : Deeds}

/-- A run in the environment of the globals that keeps the environments of all
closures that there are, but for those it calls. -/
structure Isolated (p : Run α) (k : Deeds) : Prop where
  apart : ∀ {s res s'}, s.Apart s.envs.size → p s = some (res, s') →
    s'.Apart s'.envs.size ∧ s.envs.size ≤ s'.envs.size
  frame : ∀ {s res s'}, s.Apart s.envs.size → p s = some (res, s') →
    ∀ q, Ownable s.envs.size q → q ∉ k.calls s → s'.env q = s.env q

theorem isolated_pure (a : α) : Isolated (pure a) .none := by
  constructor
  · rintro s res s' hs ⟨⟩
    exact ⟨hs, le_rfl⟩
  · rintro s res s' - ⟨⟩ q - -
    rfl

theorem Isolated.of_confined {A : α → Prop} (h : ∀ n, Confined n {Store.base} A p k) :
    Isolated p k where
  apart hs hp := by
    have hs' := (h _).apart hs hp
    exact ⟨hs'.size.symm ▸ hs', hs'.size.ge⟩
  frame hs hp q hq := (h _).frame hs hp q hq.1

theorem Isolated.bind {f : α → Run β} {next : α → Deeds} (hp : Isolated p k)
    (hf : ∀ a, Isolated (f a) (next a)) : Isolated (p >>= f) (k.andThen p next) := by
  constructor
  · intro s res s' hs h
    rcases bind_cases h with ⟨a, s₁, hps, hfs⟩ | ⟨e, hps, -⟩
    · obtain ⟨hs₁, hle⟩ := hp.apart hs hps
      obtain ⟨hs', hle'⟩ := (hf a).apart hs₁ hfs
      exact ⟨hs', hle.trans hle'⟩
    · exact hp.apart hs hps
  · intro s res s' hs h q hq hk
    rw [Deeds.calls_andThen, List.mem_append, not_or] at hk
    rcases bind_cases h with ⟨a, s₁, hps, hfs⟩ | ⟨e, hps, -⟩
    · -- what there was before the first run is there before the second
      rw [hps] at hk
      obtain ⟨hs₁, hle⟩ := hp.apart hs hps
      rw [(hf a).frame hs₁ hfs q ⟨hq.1, hq.2.trans_le hle⟩ hk.2, hp.frame hs hps q hq hk.1]
    · exact hp.frame hs hps q hq hk.1

theorem Isolated.bind_none {f : α → Run β} (hp : Isolated p k)
    (hf : ∀ a, Isolated (f a) .none) :
    Isolated (p >>= f) k := k.andThen_none p ▸ hp.bind hf

/-- A new closure gets an environment that there was not before. -/
theorem isolated_define (f : FunDef) :
    Isolated (f.define Store.base) (f.definitionDeeds Store.base) := by
  constructor
  · intro s res s' hs h
    rcases define_cases h with ⟨e, he, -, rfl⟩ | ⟨err, -, -, rfl⟩
    · have hnew := hs.allocate (hs.values Store.base)
      have hown : Ownable (s.envs.size + 1) s.envs.size :=
        ⟨Nat.ne_of_gt hs.base, Nat.lt_succ_self _⟩
      have he' : e.All (Value.Apart (s.envs.size + 1)) :=
        ((hs.values Store.base).mono fun _ => Value.Apart.succ).declare
          (v := .closure f s.envs.size) hown he
      have hs' := hnew.setEnv (r := Store.base) he'
      rw [hs'.size]
      exact ⟨hs', Nat.le_succ _⟩
    · exact ⟨hs, le_rfl⟩
  · intro s res s' _ h q hq _
    rcases define_cases h with ⟨e, -, -, rfl⟩ | ⟨err, -, -, rfl⟩
    · rw [Store.env_setEnv_of_ne hq.1, s.env_allocate, if_neg (Nat.ne_of_lt hq.2)]
    · rfl

theorem isolated_defineAll (fs : List FunDef) :
    Isolated (defineAll Store.base fs) (definitionDeeds Store.base fs) := by
  induction fs with
  | nil => exact isolated_pure ()
  | cons f fs ih => exact (isolated_define f).bind fun _ => ih

theorem isolated_runDecls (ds : List Decl) :
    Isolated (runDecls Store.base ds) (declarationDeeds Store.base ds) :=
  .of_confined fun n => (closed_confined n).runDecls Store.base ds

theorem isolated_execOutside (fuel : Nat) (s : Stmt) :
    Isolated (s.execOutside fuel Store.base) (s.deeds fuel Store.base) := by
  refine .of_confined (A := fun _ => True) fun n => ?_
  refine (confined_exec n fuel Store.base s).bind_none fun flow _ => ?_
  cases flow with
  | completed => exact confined_pure trivial
  | returning v => exact confined_fail _

theorem isolated_execAllOutside (fuel : Nat) (ss : List Stmt) :
    Isolated (execAllOutside fuel Store.base ss) (outsideDeeds fuel Store.base ss) := by
  induction ss with
  | nil => exact isolated_pure ()
  | cons s ss ih => exact (isolated_execOutside fuel s).bind fun _ => ih

theorem isolated_entry (fuel : Nat) (e : Entry) :
    Isolated (e.run fuel Store.base) (e.deeds fuel Store.base) := by
  cases e with
  | program p =>
    exact (isolated_defineAll p.functions).bind fun _ => (isolated_runDecls p.globals).bind fun _ =>
      (isolated_execAllOutside fuel p.main).bind_none fun _ => isolated_pure none
  | function f => exact (isolated_define f).bind_none fun _ => isolated_pure none
  | declaration d =>
    have hd : Isolated (d.run Store.base) (.one (.declare Store.base d)) :=
      .of_confined fun _ => confined_declareVar (Set.mem_singleton _) d
    exact hd.bind_none fun _ => isolated_pure none
  | statement s => exact (isolated_execOutside fuel s).bind_none fun _ => isolated_pure none
  | expression e =>
    refine .of_confined (A := fun _ => True) fun n => ?_
    exact ((confined_eval n fuel Store.base e).mono (Set.empty_subset _)).bind_none fun v _ =>
      confined_pure trivial

end Run

/-! ### All stores that can come about -/

namespace Store

variable {s : Store}

/-- The stores that entries lead to, well typed or not, whatever comes of them. -/
inductive Reachable : Store → Prop
  | initial : Reachable .initial
  | run {s s' : Store} {fuel : Nat} {e : Entry} {res : Except RuntimeError (Option Value)} :
    Reachable s → e.run fuel Store.base s = some (res, s') → Reachable s'

theorem Reachable.apart (h : s.Reachable) : s.Apart s.envs.size := by
  induction h with
  | initial => exact apart_initial
  | run _ hr ih => exact ((isolated_entry _ _).apart ih hr).1

/-- A value that some name is bound to. -/
def Binds (s : Store) (v : Value) : Prop := ∃ r, ∃ f ∈ (s.env r).frames, ∃ x, (x, v) ∈ f

/-- A bare expression changes no global, also if it fails.  An entry changes the
environment of a closure only if it calls that closure.  No closure owns the
environment of the globals. -/
theorem Reachable.isolated (h : s.Reachable) :
    (∀ f c, s.Binds (.closure f c) → c ≠ base ∧ c < s.envs.size) ∧
    (∀ fuel e res s', (Entry.expression e).run fuel base s = some (res, s') →
      s'.env base = s.env base) ∧
    ∀ fuel (e : Entry) res s', e.run fuel base s = some (res, s') →
      ∀ c, c ≠ base → c < s.envs.size → c ∉ e.called fuel base s → s'.env c = s.env c := by
  have hs := h.apart
  refine ⟨?_, ?_, ?_⟩
  · rintro f c ⟨r, F, hF, x, hx⟩
    exact hs.values r F hF _ hx
  · intro fuel e res s' hr
    have hrun : Confined s.envs.size ∅ (fun _ => True) ((Entry.expression e).run fuel base)
        (e.deeds fuel base) :=
      (confined_eval _ fuel base e).bind_none fun v _ => confined_pure trivial
    exact hrun.frame hs hr base (Set.notMem_empty _) fun hc => (hrun.calls hs base hc).1 rfl
  · exact fun fuel e res s' hr c hne hlt => (isolated_entry fuel e).frame hs hr c ⟨hne, hlt⟩

end Store

/-- The stores of sessions are among them. -/
theorem History.reachable_store {es : List Event} {s : Session} (h : History es s) :
    s.store.Reachable := by
  induction h with
  | initial => exact .initial
  | entry _ hr ih =>
    rcases Session.runEntry_cases hr with ⟨_, -, -, rfl⟩ | ⟨_, -, ⟨_, hrun, -⟩ | ⟨_, hrun, -⟩⟩
    · exact ih
    · exact ih.run hrun
    · exact ih.run hrun
  | typeOf name _ ih => rwa [Session.snd_typeOf]
  | globals _ ih => rwa [Session.snd_globals]

/-- A counter, and a function that calls it. -/
def counting : List String :=
  ["int counter;", "function bump() \x7b counter := counter + 1; return counter; \x7d",
    "function twice() \x7b counter := bump(); return bump() + counter; \x7d", "counter := 5;"]

/-- The closure `twice` owns environment 2.  It calls the one that owns
environment 1 two times, which is where `bump` counts. -/
theorem Store.isolated_counting :
    ∃ (s : Store) (res : Except RuntimeError (Option Value)) (s' : Store),
    s.Reachable ∧
    (Entry.expression (.call ⟨"twice", .empty⟩ [] .empty)).run 60 base s = some (res, s') ∧
    (Entry.expression (.call ⟨"twice", .empty⟩ [] .empty)).called 60 base s = [2, 1, 1] ∧
    (∀ f c, s.Binds (.closure f c) → c ≠ base ∧ c < s.envs.size) ∧
    (∀ fuel e res s', (Entry.expression e).run fuel base s = some (res, s') →
      s'.env base = s.env base) ∧
    ∀ fuel (e : Entry) res s', e.run fuel base s = some (res, s') →
      ∀ c, c ≠ base → c < s.envs.size → c ∉ e.called fuel base s → s'.env c = s.env c := by
  have hplay : ((Session.play 60 counting .initial).any fun p =>
      ((Entry.expression (.call ⟨"twice", .empty⟩ [] .empty)).run 60 base p.2.store).isSome &&
        decide ((Entry.expression (.call ⟨"twice", .empty⟩ [] .empty)).called 60 base p.2.store
          = [2, 1, 1])) = true := by
    decide +kernel
  obtain ⟨⟨es, s⟩, hs, hp⟩ := (Option.any_eq_true _ _).mp hplay
  obtain ⟨hrun, hcalled⟩ := Bool.and_eq_true_iff.mp hp
  obtain ⟨⟨res, s'⟩, hres⟩ := Option.isSome_iff_exists.mp hrun
  have h := (Session.history_play hs).reachable_store
  exact ⟨s.store, res, s', h, hres, of_decide_eq_true hcalled, h.isolated⟩

end Implet
