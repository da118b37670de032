/-
Implet/Proofs/Frames.lean

Frames are balanced.  However a run ends, all environments of the store have as
many frames as before, with the same names in each of them (`frames_balanced`);
only what the names are bound to can be another.

A run that declares things does so in a frame that has been entered for it, so
what can change on the way is the innermost frame of the environment it runs in,
and nothing below.  That a closure is called again while a call of it is not
over does no harm: its frame comes on top of those of the first call and is gone
when the second call is over.
-/
import Implet.Proofs.History
import Implet.Proofs.RunWalk

namespace Implet

variable {V : Type}

/-! ### The names in the frames of a scope -/

namespace Scope

/-- The names in each frame, the innermost frame first. -/
def names (s : Scope V) : List (List String) := s.frames.map Frame.names

@[simp] theorem names_enter (s : Scope V) : s.enter.names = [] :: s.names := rfl

theorem length_names (s : Scope V) : s.names.length = s.depth := List.length_map _

/-- A scope is left by its innermost frame. -/
theorem exit_of_names {s : Scope V} {xs : List String} {xss : List (List String)}
    (h : s.names = xs :: xss) : ∃ s', s.exit = .ok s' ∧ s'.names = xss := by
  obtain ⟨_ | ⟨f, fs⟩⟩ := s
  · cases h
  · exact ⟨⟨fs⟩, rfl, (List.cons.inj h).2⟩

/-- Declaring a name adds it to the innermost frame. -/
theorem names_declare {s s' : Scope V} {x : String} {v : V} (h : s.declare x v = .ok s') :
    ∃ xs xss, s.names = xs :: xss ∧ s'.names = (x :: xs) :: xss := by
  obtain ⟨_ | ⟨f, fs⟩⟩ := s
  · cases h
  · unfold declare at h
    dsimp only at h
    split at h
    · cases h
    · cases h
      exact ⟨f.names, fs.map Frame.names, rfl, rfl⟩

/-- Assigning makes no binding. -/
theorem names_assign {s s' : Scope V} {x : String} {v : V} (h : s.assign x v = .ok s') :
    s'.names = s.names := by
  have hin : ∀ {fs fs' : List (Frame V)}, assignIn x v fs = some fs' →
      fs'.map Frame.names = fs.map Frame.names := by
    intro fs
    induction fs with
    | nil => exact fun h => nomatch h
    | cons f fs ih =>
      intro fs' h
      rw [assignIn] at h
      split at h
      · cases h
        rw [List.map_cons, List.map_cons, Frame.names_set]
      · obtain ⟨gs, hgs, rfl⟩ := Option.map_eq_some_iff.mp h
        rw [List.map_cons, List.map_cons, ih hgs]
  unfold assign at h
  split at h
  · next fs hfs =>
    cases h
    exact hin hfs
  · cases h

end Scope

/-! ### Stores with the same names -/

/-- `s` has the environments of `s₀`, with the same names in each of their frames. -/
structure Store.SameNames (s₀ s : Store) : Prop where
  size : s.envs.size = s₀.envs.size
  names : ∀ q, (s.env q).names = (s₀.env q).names

/-- `s` has the environments of `s₀`, with the same names in each of their
frames but for the innermost frame of `r`. -/
structure Store.SameBelow (r : EnvRef) (s₀ s : Store) : Prop where
  size : s.envs.size = s₀.envs.size
  names : ∀ q, q ≠ r → (s.env q).names = (s₀.env q).names
  depth : (s.env r).depth = (s₀.env r).depth
  below : (s.env r).names.tail = (s₀.env r).names.tail

namespace Store

variable {r : EnvRef} {s₀ s s' : Store}

theorem SameNames.refl (s : Store) : s.SameNames s := ⟨rfl, fun _ => rfl⟩

theorem SameNames.trans (h : s₀.SameNames s) (h' : s.SameNames s') : s₀.SameNames s' :=
  ⟨h'.size.trans h.size, fun q => (h'.names q).trans (h.names q)⟩

/-- Another environment with the same names. -/
theorem sameNames_setEnv {e : Environment} (he : e.names = (s.env r).names) :
    s.SameNames (s.setEnv r e) := by
  refine ⟨s.size_setEnv r e, fun q => ?_⟩
  rcases Nat.lt_or_ge r s.envs.size with hr | hr
  · rw [s.env_setEnv hr]
    split
    · next hq => rw [he, hq]
    · rfl
  · rw [setEnv_of_le hr]

theorem SameBelow.refl (r : EnvRef) (s : Store) : SameBelow r s s :=
  ⟨rfl, fun _ _ => rfl, rfl, rfl⟩

theorem SameBelow.trans_names (h : SameBelow r s₀ s) (h' : s.SameNames s') :
    SameBelow r s₀ s' where
  size := h'.size.trans h.size
  names q hq := (h'.names q).trans (h.names q hq)
  depth := by rw [← h.depth, ← Scope.length_names, h'.names, Scope.length_names]
  below := by rw [h'.names, h.below]

/-- One more name in the innermost frame. -/
theorem SameBelow.declare (h : SameBelow r s₀ s) {x : String} {v : Value}
    {e : Environment}
    (he : (s.env r).declare x v = .ok e) : SameBelow r s₀ (s.setEnv r e) := by
  rcases Nat.lt_or_ge r s.envs.size with hr | hr
  · obtain ⟨xs, xss, hs, hs'⟩ := Scope.names_declare he
    refine ⟨(s.size_setEnv r e).trans h.size, fun q hq => ?_, ?_, ?_⟩
    · rw [s.env_setEnv hr, if_neg hq, h.names q hq]
    · rw [s.env_setEnv hr, if_pos rfl, ← h.depth, ← Scope.length_names, ← Scope.length_names, hs',
        hs, List.length_cons, List.length_cons]
    · rw [s.env_setEnv hr, if_pos rfl, ← h.below, hs', hs, List.tail_cons, List.tail_cons]
  · rwa [setEnv_of_le hr]

/-- A frame that has been entered can be left, and what is below is as it was. -/
theorem SameBelow.exit (h : SameBelow r (s₀.setEnv r (s₀.env r).enter) s)
    (hr : r < s₀.envs.size) : ∃ e, (s.env r).exit = .ok e ∧ s₀.SameNames (s.setEnv r e) := by
  have hbelow := h.below
  have hdepth := h.depth
  rw [s₀.env_setEnv hr, if_pos rfl] at hbelow hdepth
  rw [← Scope.length_names, ← Scope.length_names, Scope.names_enter, List.length_cons] at hdepth
  rw [Scope.names_enter, List.tail_cons] at hbelow
  obtain ⟨xs, hxs⟩ : ∃ xs, (s.env r).names = xs :: (s₀.env r).names := by
    rcases hn : (s.env r).names with - | ⟨xs, xss⟩
    · rw [hn] at hdepth
      cases hdepth
    · rw [hn, List.tail_cons] at hbelow
      exact ⟨xs, by rw [hbelow]⟩
  have hsize : s.envs.size = s₀.envs.size := h.size.trans (s₀.size_setEnv _ _)
  obtain ⟨e, he, hnames⟩ := Scope.exit_of_names hxs
  refine ⟨e, he, (s.size_setEnv r e).trans hsize, fun q => ?_⟩
  rw [s.env_setEnv (hsize ▸ hr)]
  split
  · next hq => rw [hnames, hq]
  · next hq => rw [h.names q hq, s₀.env_setEnv hr, if_neg hq]

end Store

/-- What a run keeps of the names in the frames: all of them, or all but those
in the innermost frame if it declares things there. -/
def Store.Same : Run.Access → Store → Store → Prop
  | .reads | .assigns _ => SameNames
  | .declares r => SameBelow r

/-! ### Balanced runs -/

namespace Run

variable {α β : Type} {access : Access} {r : EnvRef} {p : Run α} {A : α → Prop} {B : β → Prop}

/-- A run that keeps the names in the frames, however it ends, and comes to a
value that `A` holds of, if to any. -/
def Balanced (access : Access) (A : α → Prop) (p : Run α) : Prop :=
  ∀ s₀ : Store, Keeps (Store.Same access s₀) p A fun _ => True

theorem Balanced.same (h : Balanced access A p) {s₀ s s' : Store}
    {res : Except RuntimeError α}
    (hs : Store.Same access s₀ s) (hp : p s = some (res, s')) : Store.Same access s₀ s' := by
  have := h s₀ hs hp
  cases res with
  | ok a => exact this.2
  | error e => exact this.2

theorem Balanced.value (h : Balanced access A p) {s₀ s s' : Store} {a : α}
    (hs : Store.Same access s₀ s) (hp : p s = some (.ok a, s')) : A a := (h s₀ hs hp).1

theorem balanced_pure {a : α} (ha : A a) :
    Balanced access A (pure a) := fun _ => keeps_pure ha

theorem balanced_fail (e : RuntimeError) : Balanced access A (fail e : Run α) :=
  fun _ => keeps_fail trivial

theorem Balanced.bind {f : α → Run β} (hp : Balanced access A p)
    (hf : ∀ a, A a → Balanced access B (f a)) : Balanced access B (p >>= f) :=
  fun s₀ => (hp s₀).bind fun a ha => hf a ha s₀

theorem Balanced.declares (h : Balanced (.assigns r) A p) :
    Balanced (.declares r) A p := by
  intro s₀ s res s' hs hp
  have hs' := Store.SameBelow.trans_names hs (h.same (Store.SameNames.refl s) hp)
  have hres := h s (Store.SameNames.refl s) hp
  cases res with
  | ok a => exact ⟨hres.1, hs'⟩
  | error e => exact ⟨trivial, hs'⟩

theorem balanced_env (r : EnvRef) : Balanced access (fun _ => True) (env r) := by
  rintro s₀ s res s' hs ⟨⟩
  exact ⟨trivial, hs⟩

theorem balanced_read (r : EnvRef) (id : Ident) :
    Balanced .reads (fun _ => True) (id.read r) := by
  refine (balanced_env r).bind fun e _ => ?_
  split
  · exact balanced_fail _
  · exact balanced_pure trivial
  · exact balanced_fail _

theorem balanced_readFunction (r : EnvRef) (id : Ident) :
    Balanced .reads (fun _ => True) (id.readFunction r) := by
  refine (balanced_env r).bind fun e _ => ?_
  split
  · exact balanced_pure trivial
  · exact balanced_fail _
  · exact balanced_fail _

theorem balanced_assign (r : EnvRef) (span : Span) (x : String) (v : Value) :
    Balanced (.assigns r) (fun _ => True) (onEnvAt r span (·.assign x v)) := by
  intro s₀ s res s' hs h
  rcases onEnvAt_cases h with ⟨e, he, rfl, rfl⟩ | ⟨err, -, rfl, rfl⟩
  · exact ⟨trivial, Store.SameNames.trans hs (Store.sameNames_setEnv (Scope.names_assign he))⟩
  · exact ⟨trivial, hs⟩

theorem balanced_declare (r : EnvRef) (span : Span) (x : String) (v : Value) :
    Balanced (.declares r) (fun _ => True) (onEnvAt r span (·.declare x v)) := by
  intro s₀ s res s' hs h
  rcases onEnvAt_cases h with ⟨e, he, rfl, rfl⟩ | ⟨err, -, rfl, rfl⟩
  · exact ⟨trivial, Store.SameBelow.declare hs he⟩
  · exact ⟨trivial, hs⟩

theorem balanced_bindSelf (r : EnvRef) (f : FunDef) :
    Balanced (.declares r) (fun _ => True) (f.bindSelf r) := by
  refine (balanced_env r).bind fun e _ => ?_
  split
  · exact balanced_pure trivial
  · exact balanced_declare r .empty _ _

/-- What keeps the names below a frame that is entered for it keeps them all. -/
theorem Balanced.inFrame (h : Balanced (.declares r) A p) :
    Balanced (.assigns r) A (inFrame r p) := by
  intro s₀ s res s' hs hp
  suffices hs' : s.SameNames s' ∧ ∀ a, res = .ok a → A a by
    cases res with
    | ok a => exact ⟨hs'.2 a rfl, Store.SameNames.trans hs hs'.1⟩
    | error e => exact ⟨trivial, Store.SameNames.trans hs hs'.1⟩
  rcases Nat.lt_or_ge r s.envs.size with hr | hr
  · obtain ⟨res₁, s₁, hb, hend⟩ := inFrame_cases hp
    obtain ⟨e, he, hnames⟩ := Store.SameBelow.exit (h.same (.refl r _) hb) hr
    rcases hend with ⟨e', he', rfl, rfl⟩ | ⟨err, -, herr, -⟩
    · cases he.symm.trans he'
      exact ⟨hnames, fun a ha => h.value (.refl r _) (ha ▸ hb)⟩
    · cases he.symm.trans herr
  · -- there is no such environment, so no frame is entered and none is left
    have hsame : ∀ {res s'}, p s = some (res, s') → Store.SameBelow r s s' :=
      h.same (.refl r s)
    rw [inFrame_of_le hr fun hp => (hsame hp).size] at hp
    refine ⟨⟨(hsame hp).size, fun q => ?_⟩, fun a ha => h.value (.refl r s) (ha ▸ hp)⟩
    by_cases hq : q = r
    · rw [hq, Store.env_of_le hr, Store.env_of_le ((hsame hp).size ▸ hr)]
    · exact (hsame hp).names q hq

/-- A call runs in a frame of its own, which is on top of whatever else is
running in the environment of the closure. -/
theorem closed_balanced :
    Closed (fun access A p _ => Balanced access A p) (fun _ => True) fun _ => True where
  pure := balanced_pure
  fail := balanced_fail
  outOfFuel _ := triple_outOfFuel
  bind := Balanced.bind
  assigns _ h := h
  declares := Balanced.declares
  integer _ := trivial
  boolean _ := trivial
  read := balanced_read
  readFunction := balanced_readFunction
  declareVar r d := balanced_declare r d.span _ _
  pass r d v _ := balanced_declare r d.span d.name.name v
  bindSelf f _ := balanced_bindSelf _ f
  assign r target v _ := balanced_assign r target.span target.name v
  yield _ _ _ := balanced_pure trivial
  inFrame := Balanced.inFrame
  calling _ h := h

theorem balanced_eval (fuel : Nat) (r : EnvRef) (e : Expr) :
    Balanced .reads (fun _ => True) (e.eval fuel r) := (closed_balanced.all fuel).eval r e

theorem balanced_exec (fuel : Nat) (r : EnvRef) (s : Stmt) :
    Balanced (.assigns r) (Flow.Yields fun _ => True) (s.exec fuel r) :=
  (closed_balanced.all fuel).exec r s

end Run

/-- However an expression or a statement ends, with a value, by completing, by
returning or with an error, there are the environments that there were before,
each with as many frames and with the same names in each of them. -/
theorem frames_balanced {fuel : Nat} {r : EnvRef} {s s' : Store}
    (h : (∃ (e : Expr) (res : Except RuntimeError Value), e.eval fuel r s = some (res, s')) ∨
      ∃ (st : Stmt) (res : Except RuntimeError Flow), st.exec fuel r s = some (res, s')) :
    s'.envs.size = s.envs.size ∧
      ∀ q, (s'.env q).depth = (s.env q).depth ∧
        (s'.env q).frames.map Frame.names = (s.env q).frames.map Frame.names := by
  have hs : s.SameNames s' := by
    rcases h with ⟨e, res, h⟩ | ⟨st, res, h⟩
    · exact (Run.balanced_eval fuel r e).same (Store.SameNames.refl s) h
    · exact (Run.balanced_exec fuel r st).same (Store.SameNames.refl s) h
  refine ⟨hs.size, fun q => ⟨?_, hs.names q⟩⟩
  rw [← Scope.length_names, hs.names, Scope.length_names]

/-- A function that calls itself in the middle of a block. -/
def inverses : String :=
  "function f(int n) \x7b while 0 < n \x7b int k; k := f(n - 1); return k; \x7d return 1 / n; \x7d"

/-- A division by zero in the third of three calls of a closure that are all in
the middle of a block. -/
theorem frames_balanced_division :
    ∃ (s s' : Store) (e : Expr) (err : RuntimeError),
      s.envs.size = 2 ∧ e.eval 60 Store.base s = some (.error err, s') ∧
      s'.envs.size = s.envs.size ∧
      ∀ q, (s'.env q).depth = (s.env q).depth ∧
        (s'.env q).frames.map Frame.names = (s.env q).frames.map Frame.names := by
  have hrun : ((Session.play 60 [inverses] .initial).any fun p =>
      decide (p.2.store.envs.size = 2) &&
        ((Expr.call ⟨"f", .empty⟩ [.integer 2 .empty] .empty).eval 60 Store.base p.2.store).any
          fun q => !q.1.toBool) = true := by
    decide +kernel
  obtain ⟨⟨es, s⟩, -, hrun⟩ := (Option.any_eq_true _ _).mp hrun
  obtain ⟨hsize, hrun⟩ := (Bool.and_eq_true _ _).mp hrun
  obtain ⟨⟨res, s'⟩, hres, herr⟩ := (Option.any_eq_true _ _).mp hrun
  cases res with
  | ok v => cases herr
  | error err =>
    exact ⟨s.store, s', _, err, of_decide_eq_true hsize, hres, frames_balanced (.inl ⟨_, _, hres⟩)⟩

end Implet
