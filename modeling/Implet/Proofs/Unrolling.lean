/-
Implet/Proofs/Unrolling.lean

Loops unrolled.  A loop does the same as its body followed by the loop if the
condition holds, and nothing if it does not (`Stmt.unrolled`), with the same
outcome and the same store.

The two are not run in the same environments: the branch of a conditional and
the block in it have a frame each, and every round of the unrolled loop lies
deeper.  Those frames stay empty.  A statement declares things only in frames
that are entered for it, so it does not see empty frames below
(`Run.closed_overlook`), and is the same in a fresh frame as without one
(`inFrame_exec`).  Nor do the calls that it makes, although a call of the
closure that owns the environment, from within a call of it, comes on top of the
empty frames.
-/
import Implet.Proofs.Frames
import Implet.Proofs.Fuel
import Implet.Proofs.Pairs

namespace Implet

variable {V : Type}

/-! ### Empty frames in between -/

/-- For each frame of the scope with more frames, the innermost first, whether
the other scope has it as well. -/
abbrev Padding := List Bool

/-- The second list of frames is the first one with empty frames in between. -/
inductive Frame.Padded : Padding → List (Frame V) → List (Frame V) → Prop
  | nil : Padded [] [] []
  | shared (f : Frame V) {ks : Padding} {fs gs : List (Frame V)} :
    Padded ks fs gs → Padded (true :: ks) (f :: fs) (f :: gs)
  | empty {ks : Padding} {fs gs : List (Frame V)} :
    Padded ks fs gs → Padded (false :: ks) fs ([] :: gs)

/-- A scope, and the scope with empty frames in between. -/
def Scope.Padded (ks : Padding) (s t : Scope V) : Prop :=
  Frame.Padded ks s.frames t.frames

/-- A scope without empty frames in between. -/
def Scope.unpadded (s : Scope V) : Padding := s.frames.map fun _ => true

namespace Scope

variable {ks : Padding} {s t : Scope V} {name : String} {v : V}

theorem padded_self (s : Scope V) : Padded s.unpadded s s := by
  obtain ⟨fs⟩ := s
  induction fs with
  | nil => exact .nil
  | cons f fs ih => exact .shared f ih

theorem Padded.eq_of_unpadded {u : Scope V} (h : Padded u.unpadded s t) : t = s := by
  obtain ⟨gs⟩ := u
  obtain ⟨fs⟩ := s
  obtain ⟨fs'⟩ := t
  rw [mk.injEq]
  change Frame.Padded (gs.map fun _ => true) fs fs' at h
  induction gs generalizing fs fs' with
  | nil => cases h; rfl
  | cons g gs ih =>
    cases h with
    | shared f h => rw [ih _ _ h]

theorem Padded.get? (h : Padded ks s t) (name : String) : t.get? name = s.get? name := by
  obtain ⟨fs⟩ := s
  obtain ⟨gs⟩ := t
  change Frame.Padded ks fs gs at h
  induction h with
  | nil => rfl
  | shared f _ ih => rw [get?_cons, get?_cons, ih]
  | empty _ ih => rw [get?_cons, ih, Frame.get?_nil, Option.none_or]

theorem Padded.lookup (h : Padded ks s t) (name : String) :
    t.lookup name = s.lookup name := by
  rw [Scope.lookup, Scope.lookup, h.get?]

theorem Padded.enter (h : Padded ks s t) : Padded (true :: ks) s.enter t.enter :=
  .shared [] h

theorem Padded.isDeclaredLocally (h : Padded (true :: ks) s t) (name : String) :
    t.isDeclaredLocally name = s.isDeclaredLocally name := by
  obtain ⟨fs⟩ := s
  obtain ⟨gs⟩ := t
  cases h
  rfl

/-- Two operations fail for the same cause, or lead to scopes that differ by `ks`. -/
inductive EndsPadded (ks : Padding) :
    Except ScopeError (Scope V) → Except ScopeError (Scope V) → Prop
  | error (e : ScopeError) : EndsPadded ks (.error e) (.error e)
  | ok {s t : Scope V} : Padded ks s t → EndsPadded ks (.ok s) (.ok t)

/-- Declaring in a frame that both have. -/
theorem Padded.declare (h : Padded (true :: ks) s t) (name : String) (v : V) :
    EndsPadded (true :: ks) (s.declare name v) (t.declare name v) := by
  obtain ⟨fs⟩ := s
  obtain ⟨gs⟩ := t
  cases h with
  | shared f h =>
    by_cases hn : name ∈ f.names
    · rw [declare_of_mem v hn, declare_of_mem v hn]
      exact .error _
    · rw [declare_of_not_mem v hn, declare_of_not_mem v hn]
      exact .ok (.shared _ h)

/-- Nothing is assigned in an empty frame. -/
theorem Padded.assign (h : Padded ks s t) (name : String) (v : V) :
    EndsPadded ks (s.assign name v) (t.assign name v) := by
  obtain ⟨fs⟩ := s
  obtain ⟨gs⟩ := t
  have hin : Option.Rel (Frame.Padded ks) (assignIn name v fs) (assignIn name v gs) := by
    change Frame.Padded ks fs gs at h
    induction h with
    | nil => exact .none
    | @shared f _ fs gs h ih =>
      rw [assignIn, assignIn]
      split
      · exact .some (.shared _ h)
      · generalize assignIn name v fs = x, assignIn name v gs = y at ih
        cases ih with
        | none => exact .none
        | some h' => exact .some (.shared f h')
    | @empty _ fs gs h ih =>
      rw [show assignIn name v ([] :: gs) = (assignIn name v gs).map ([] :: ·) from rfl]
      generalize assignIn name v fs = x, assignIn name v gs = y at ih
      cases ih with
      | none => exact .none
      | some h' => exact .some (.empty h')
  rw [Scope.assign, Scope.assign]
  dsimp only
  generalize assignIn name v fs = x, assignIn name v gs = y at hin
  cases hin with
  | none => exact .error _
  | some h' => exact .ok h'

/-- Leaving a frame that both have. -/
theorem Padded.exit (h : Padded (true :: ks) s t) :
    ∃ s' t', s.exit = .ok s' ∧ t.exit = .ok t' ∧ Padded ks s' t' := by
  obtain ⟨fs⟩ := s
  obtain ⟨gs⟩ := t
  cases h with
  | shared f h => exact ⟨_, _, rfl, rfl, h⟩

end Scope

/-- Two stores of `n` environments, of which those of the second one have empty
frames in between. -/
structure Store.Padded (n : Nat) (K : EnvRef → Padding) (s t : Store) : Prop where
  size : s.envs.size = n
  size_padded : t.envs.size = n
  env : ∀ r, Scope.Padded (K r) (s.env r) (t.env r)

namespace Store

variable {n : Nat} {K : EnvRef → Padding} {s t : Store} {r : EnvRef} {e e' : Environment}

theorem ext_env (hsize : t.envs.size = s.envs.size) (henv : ∀ r, t.env r = s.env r) :
    t = s := by
  obtain ⟨es⟩ := s
  obtain ⟨es'⟩ := t
  rw [mk.injEq]
  refine Array.ext hsize fun i hi hi' => ?_
  have h := henv i
  simpa [Store.env, hi, hi'] using h

theorem padded_self (s : Store) : Padded s.envs.size (fun r => (s.env r).unpadded) s s :=
  ⟨rfl, rfl, fun r => (s.env r).padded_self⟩

theorem Padded.setEnv (h : s.Padded n K t) (hr : r < n) {ks : Padding}
    (he : Scope.Padded ks e e') :
    (s.setEnv r e).Padded n (Function.update K r ks) (t.setEnv r e') := by
  refine ⟨by simpa using h.size, by simpa using h.size_padded, fun q => ?_⟩
  rw [s.env_setEnv (h.size ▸ hr), t.env_setEnv (h.size_padded ▸ hr)]
  by_cases hq : q = r
  · subst hq
    rwa [if_pos rfl, if_pos rfl, Function.update_self]
  · rw [if_neg hq, if_neg hq, Function.update_of_ne hq]
    exact h.env q

/-- Other contents of the same frames. -/
theorem Padded.setEnv_same (h : s.Padded n K t) (he : Scope.Padded (K r) e e') :
    (s.setEnv r e).Padded n K (t.setEnv r e') := by
  rcases Nat.lt_or_ge r n with hr | hr
  · have hs := h.setEnv hr he
    rwa [Function.update_eq_self] at hs
  · rwa [setEnv_of_le (h.size ▸ hr), setEnv_of_le (h.size_padded ▸ hr)]

/-- What tells a store from the one in which an empty frame of `r` has been entered. -/
def emptyAbove (s : Store) (r : EnvRef) : EnvRef → Padding :=
  Function.update (fun q => (s.env q).unpadded) r (false :: (s.env r).unpadded)

theorem padded_enter (hr : r < s.envs.size) :
    s.Padded s.envs.size (s.emptyAbove r) (s.setEnv r (s.env r).enter) := by
  have hempty : Scope.Padded (false :: (s.env r).unpadded) (s.env r) (s.env r).enter :=
    .empty (s.env r).padded_self
  have hset := s.padded_self.setEnv hr hempty
  rwa [setEnv_env] at hset

/-- The frame is empty when it is left, and below it is what there is without it. -/
theorem Padded.exit_empty {u : Store} (h : u.Padded s.envs.size (s.emptyAbove r) t)
    (hr : r < s.envs.size) : (t.env r).exit = .ok (u.env r) ∧ t.setEnv r (u.env r) = u := by
  constructor
  · have henv := h.env r
    rw [emptyAbove, Function.update_self] at henv
    rcases he : t.env r with ⟨gs⟩
    rw [he] at henv
    cases henv with
    | @empty _ _ gs h =>
      have hgs : (⟨gs⟩ : Environment) = u.env r :=
        Scope.Padded.eq_of_unpadded (u := s.env r) h
      rw [← hgs]
      rfl
  · have hsize : t.envs.size = u.envs.size := h.size_padded.trans h.size.symm
    refine ext_env (by simpa using hsize) fun q => ?_
    rw [t.env_setEnv (h.size_padded ▸ hr)]
    by_cases hq : q = r
    · rw [if_pos hq, hq]
    · have henv := h.env q
      rw [emptyAbove, Function.update_of_ne hq] at henv
      rw [if_neg hq, henv.eq_of_unpadded]

end Store

/-! ### Runs that do not see empty frames -/

namespace Run

variable {α β : Type} {n : Nat} {K : EnvRef → Padding} {r : EnvRef} {p p' : Run α} {A : α → Prop}
  {B : β → Prop}

/-- From stores that differ by empty frames, two runs end with the same value,
which `A` holds of, or with the same error, and with stores that differ by the
same empty frames. -/
def Overlook (n : Nat) (K : EnvRef → Padding) (A : α → Prop) (p p' : Run α) : Prop :=
  Alike (Store.Padded n K) p p' (fun a a' s t => (a' = a ∧ A a) ∧ s.Padded n K t)
    fun e e' s t => e' = e ∧ s.Padded n K t

theorem overlook_pure {a : α} (ha : A a) : Overlook n K A (pure a) (pure a) :=
  alike_pure fun _ _ hs => ⟨⟨rfl, ha⟩, hs⟩

theorem overlook_fail (e : RuntimeError) : Overlook n K A (fail e : Run α) (fail e) :=
  alike_fail fun _ _ hs => ⟨rfl, hs⟩

theorem overlook_outOfFuel : Overlook n K A (outOfFuel : Run α) outOfFuel :=
  alike_outOfFuel

theorem Overlook.bind {f f' : α → Run β} (hp : Overlook n K A p p')
    (hf : ∀ a, A a → Overlook n K B (f a) (f' a)) : Overlook n K B (p >>= f) (p' >>= f') := by
  refine Alike.bind hp fun a a' => .of_pre (fun _ _ h => h.1) ?_
  rintro ⟨rfl, ha⟩
  exact Alike.mono (hf _ ha) (fun _ _ h => h.2) (fun _ _ _ _ h => h) fun _ _ _ _ h => h

/-- What uses an environment without seeing the empty frames in it. -/
theorem overlook_env {f f' : Environment → Run α}
    (h : ∀ e e', Scope.Padded (K r) e e' → Overlook n K A (f e) (f' e')) :
    Overlook n K A (env r >>= f) (env r >>= f') :=
  fun s t hs => h (s.env r) (t.env r) (hs.env r) hs

theorem overlook_onEnvAt {span : Span}
    {action : Environment → Except ScopeError Environment}
    (h : ∀ e e', Scope.Padded (K r) e e' → Scope.EndsPadded (K r) (action e) (action e')) :
    Overlook n K (fun _ => True) (onEnvAt r span action) (onEnvAt r span action) := by
  intro s t hs
  have hends := h _ _ (hs.env r)
  rw [onEnvAt, onEnvAt]
  generalize action (s.env r) = x, action (t.env r) = x' at hends
  cases hends with
  | error e => exact ⟨rfl, hs⟩
  | ok he => exact ⟨⟨rfl, trivial⟩, hs.setEnv_same he⟩

theorem overlook_assign (span : Span) (name : String) (v : Value) :
    Overlook n K (fun _ => True) (onEnvAt r span (·.assign name v))
      (onEnvAt r span (·.assign name v)) :=
  overlook_onEnvAt fun _ _ he => he.assign name v

/-- Both stores have the innermost frame of an environment. -/
def SharesTop (K : EnvRef → Padding) (r : EnvRef) : Prop := (K r).head? = some true

theorem SharesTop.exists_tail (h : SharesTop K r) : ∃ ks, K r = true :: ks :=
  List.head?_eq_some_iff.mp h

theorem overlook_declare (hK : SharesTop K r) (span : Span) (name : String) (v : Value) :
    Overlook n K (fun _ => True) (onEnvAt r span (·.declare name v))
      (onEnvAt r span (·.declare name v)) := by
  obtain ⟨ks, hks⟩ := hK.exists_tail
  refine overlook_onEnvAt fun e e' he => ?_
  rw [hks] at he ⊢
  exact he.declare name v

theorem Overlook.size (h : Overlook n K A p p') {s t : Store} (hs : s.Padded n K t) :
    (∀ {res s'}, p s = some (res, s') → s'.envs.size = n) ∧
      ∀ {res t'}, p' t = some (res, t') → t'.envs.size = n := by
  rcases h.cases hs with ⟨h₁, h₂⟩ | ⟨a, a', s₁, t₁, h₁, h₂, -, hs₁⟩ |
    ⟨e, e', s₁, t₁, h₁, h₂, -, hs₁⟩ <;> rw [h₁, h₂]
  · exact ⟨nofun, nofun⟩
  · exact ⟨by rintro _ _ ⟨⟩; exact hs₁.size, by rintro _ _ ⟨⟩; exact hs₁.size_padded⟩
  · exact ⟨by rintro _ _ ⟨⟩; exact hs₁.size, by rintro _ _ ⟨⟩; exact hs₁.size_padded⟩

/-- Where there is no environment, nothing says that there are frames in between. -/
theorem sharesTop_of_le {s t : Store} (hs : s.Padded n K t) (hr : n ≤ r) :
    SharesTop K r := by
  have henv := hs.env r
  rw [Store.env_of_le (hs.size ▸ hr), Store.env_of_le (hs.size_padded ▸ hr)] at henv
  change Frame.Padded (K r) [[]] [[]] at henv
  generalize hk : K r = ks at henv
  cases henv with
  | shared => rw [SharesTop, hk, List.head?_cons]
  | empty h => cases h

/-- A frame that is entered is in both stores while it is there. -/
theorem overlook_inFrame (h : ∀ K, SharesTop K r → Overlook n K A p p') :
    Overlook n K A (inFrame r p) (inFrame r p') := by
  rcases Nat.lt_or_ge r n with hr | hr
  · have htop : SharesTop (Function.update K r (true :: K r)) r := by
      rw [SharesTop, Function.update_self, List.head?_cons]
    refine Alike.inFrame (fun s t hs => hs.setEnv hr (hs.env r).enter) ?_ (h _ htop)
    -- the frame is the innermost one of `r` in both stores when it is left
    intro s t hs
    have henv := hs.env r
    rw [Function.update_self] at henv
    obtain ⟨e, e', he, he', hp⟩ := henv.exit
    have hs' := hs.setEnv hr hp
    rw [Function.update_idem, Function.update_eq_self] at hs'
    exact ⟨e, e', he, he', hs'⟩
  · intro s t hs
    have hp := h K (sharesTop_of_le hs hr)
    rw [inFrame_of_le (hs.size ▸ hr) fun h => ((hp.size hs).1 h).trans hs.size.symm,
      inFrame_of_le (hs.size_padded ▸ hr) fun h => ((hp.size hs).2 h).trans hs.size_padded.symm]
    exact hp hs

theorem overlook_read (id : Ident) :
    Overlook n K (fun _ => True) (id.read r) (id.read r) := by
  refine overlook_env fun e e' he => ?_
  rw [he.lookup]
  split
  · exact overlook_fail _
  · exact overlook_pure trivial
  · exact overlook_fail _

theorem overlook_readFunction (id : Ident) :
    Overlook n K (fun _ => True) (id.readFunction r) (id.readFunction r) := by
  refine overlook_env fun e e' he => ?_
  rw [he.lookup]
  split
  · exact overlook_pure trivial
  · exact overlook_fail _
  · exact overlook_fail _

theorem overlook_bindSelf (hK : SharesTop K r) (f : FunDef) :
    Overlook n K (fun _ => True) (f.bindSelf r) (f.bindSelf r) := by
  refine overlook_env fun e e' he => ?_
  obtain ⟨ks, hks⟩ := hK.exists_tail
  rw [hks] at he
  rw [he.isDeclaredLocally]
  split
  · exact overlook_pure trivial
  · exact overlook_declare hK .empty _ _

/-- What declares things has to do so in a frame that both stores have. -/
def Access.Shared (K : EnvRef → Padding) : Access → Prop
  | .reads | .assigns _ => True
  | .declares r => SharesTop K r

/-- The frame of a call is on top of all empty frames, whichever call of the
closure it is. -/
theorem closed_overlook :
    Closed (fun access A p _ => ∀ n K, access.Shared K → Overlook n K A p p) (fun _ => True)
      fun _ => True where
  pure ha _ _ _ := overlook_pure ha
  fail e _ _ _ := overlook_fail e
  outOfFuel _ _ _ := overlook_outOfFuel
  bind hp hf n K hK := (hp n K hK).bind fun a ha => hf a ha n K hK
  assigns _ h := h
  declares h n K _ := h n K trivial
  integer _ := trivial
  boolean _ := trivial
  read _ id _ _ _ := overlook_read id
  readFunction _ id _ _ _ := overlook_readFunction id
  declareVar _ d _ _ hK := overlook_declare hK d.span _ _
  pass _ d v _ _ _ hK := overlook_declare hK d.span d.name.name v
  bindSelf f _ _ _ hK := overlook_bindSelf hK f
  assign _ target v _ _ _ _ := overlook_assign target.span target.name v
  yield _ _ _ _ _ _ := overlook_pure trivial
  inFrame h n _ _ := overlook_inFrame (h n)
  calling _ h := h

end Run

open Run

/-! ### Frames that make no difference -/

namespace Run

variable {α : Type} {p : Run α} {A : α → Prop}

/-- What does not see empty frames and declares nothing is the same in a fresh frame. -/
theorem inFrame_eq (h : ∀ n K, Overlook n K A p p) (r : EnvRef) : inFrame r p = p := by
  funext s
  rcases Nat.lt_or_ge r s.envs.size with hr | hr
  · rw [inFrame]
    rcases (h _ _).cases (Store.padded_enter hr) with ⟨h₁, h₂⟩ |
      ⟨a, a', s₁, t₁, h₁, h₂, ⟨rfl, -⟩, hs₁⟩ | ⟨e, e', s₁, t₁, h₁, h₂, rfl, hs₁⟩
    · rw [h₁, h₂]
    · obtain ⟨hexit, hset⟩ := hs₁.exit_empty hr
      simp only [h₁, h₂, hexit, hset]
    · obtain ⟨hexit, hset⟩ := hs₁.exit_empty hr
      simp only [h₁, h₂, hexit, hset]
  · exact inFrame_of_le hr ((h _ _).size s.padded_self).1

end Run

theorem inFrame_exec (fuel : Nat) (r : EnvRef) (s : Stmt) :
    inFrame r (s.exec fuel r) = s.exec fuel r :=
  inFrame_eq (fun n K => (closed_overlook.all fuel).exec r s n K trivial) r

theorem inFrame_execAll (fuel : Nat) (r : EnvRef) (ss : List Stmt) :
    inFrame r (execAll fuel r ss) = execAll fuel r ss :=
  inFrame_eq (fun n K => (closed_overlook.all fuel).execAll r ss n K trivial) r

/-! ### Unrolling -/

namespace Run

/-- What is run if a condition holds. -/
def whenTrue (condition : Run Value) (span : Span) (p : Run Flow) : Run Flow := do
  let value ← condition
  if ← value.expectBool span then p else return .completed

/-- What is run after the body of a loop. -/
def andThen (body rest : Run Flow) : Run Flow := do
  match ← body with
  | .returning value => return .returning value
  | .completed => rest

variable {p p' q q' : Run Flow}

theorem le_whenTrue {c c' : Run Value} (hc : Le c c') (hp : Le p p') (span : Span) :
    Le (whenTrue c span p) (whenTrue c' span p') := by
  refine hc.bind fun v => (Le.refl _).bind fun b => ?_
  cases b with
  | true => exact hp
  | false => exact Le.refl _

theorem andThen_completed (p : Run Flow) : andThen p (pure .completed) = p := by
  funext s
  change Run.bind p _ s = p s
  unfold Run.bind
  rcases p s with - | ⟨e | flow, s⟩
  · rfl
  · rfl
  · cases flow <;> rfl

theorem le_andThen (hp : Le p p') (hq : Le q q') : Le (andThen p q) (andThen p' q') := by
  refine hp.bind fun flow => ?_
  cases flow with
  | returning v => exact Le.refl _
  | completed => exact hq

end Run

namespace Stmt

/-- The condition of a loop, and if it holds the body and the loop again. -/
def unroll (condition : Expr) (body : Stmt) (span blockSpan condSpan : Span) : Stmt :=
  .cond condition (.block [] [body, .loop condition body span] blockSpan) none condSpan

variable (condition : Expr) (body : Stmt) (span blockSpan condSpan : Span)

theorem exec_loop (fuel : Nat) (r : EnvRef) :
    (loop condition body span).exec (fuel + 1) r =
      whenTrue (condition.eval fuel r) condition.span
        (andThen (body.exec fuel r) ((loop condition body span).exec fuel r)) := by
  rw [exec, inFrame_exec]
  rfl

/-- The branch and the block have a frame each, which make no difference. -/
theorem exec_unroll (fuel : Nat) (r : EnvRef) :
    (unroll condition body span blockSpan condSpan).exec (fuel + 5) r =
      whenTrue (condition.eval (fuel + 4) r) condition.span
        (andThen (body.exec (fuel + 2) r) ((loop condition body span).exec (fuel + 1) r)) := by
  have hblock : (block [] [body, loop condition body span] blockSpan).exec (fuel + 4) r =
      execAll (fuel + 3) r [body, loop condition body span] := by
    rw [exec]
    exact inFrame_execAll (fuel + 3) r _
  have hlast : execAll (fuel + 2) r [loop condition body span] =
      (loop condition body span).exec (fuel + 1) r := by
    rw [execAll, execAll]
    exact andThen_completed _
  rw [unroll, exec, inFrame_exec, hblock, execAll, hlast]
  rfl

/-- On enough fuel, the unrolled loop has the outcome of the loop. -/
theorem le_unroll (fuel : Nat) (r : EnvRef) :
    Le ((loop condition body span).exec fuel r)
      ((unroll condition body span blockSpan condSpan).exec (fuel + 5) r) := by
  refine (exec_mono (Nat.le_succ fuel) r _).trans ?_
  rw [exec_loop, exec_unroll]
  exact le_whenTrue (Expr.eval_mono (by omega) r _)
    (le_andThen (exec_mono (by omega) r _) (exec_mono (by omega) r _)) _

/-- On enough fuel, the loop has the outcome of the unrolled loop. -/
theorem unroll_le (fuel : Nat) (r : EnvRef) :
    Le ((unroll condition body span blockSpan condSpan).exec fuel r)
      ((loop condition body span).exec (fuel + 5) r) := by
  refine (exec_mono (Nat.le_add_right fuel 5) r _).trans ?_
  rw [exec_loop, exec_unroll]
  exact le_whenTrue (Expr.eval_mono (by omega) r _)
    (le_andThen (exec_mono (by omega) r _) (exec_mono (by omega) r _)) _

/-- A loop and the unrolled loop end in the same way, if at all: in the same
flow or with the same error, and with the same environments, their own and those
of all closures. -/
theorem unrolled (r : EnvRef) (s : Store) (outcome : Except RuntimeError Flow × Store) :
    (∃ fuel, (loop condition body span).exec fuel r s = some outcome) ↔
      ∃ fuel, (unroll condition body span blockSpan condSpan).exec fuel r s = some outcome := by
  constructor
  · rintro ⟨fuel, h⟩
    exact ⟨fuel + 5, le_unroll _ _ _ _ _ fuel r h⟩
  · rintro ⟨fuel, h⟩
    exact ⟨fuel + 5, unroll_le _ _ _ _ _ fuel r h⟩

end Stmt

end Implet
