/-
Implet/Proofs/ShadowStacks.lean

Scopes as shadow stacks.  A scope keeps its bindings by frames, each a map from
names.  Seen from a name, what counts is the stack of its own bindings, the one
that shadows the others on top.  `Shadows` is a scope that keeps its bindings
so: each name has a stack of bindings, each with the level of the frame it was
declared in, and all that is known of the frames is how many there are.

* Declaring pushes a binding of the innermost level, unless the top one has that level already;
  assigning overwrites the top one and never makes one; looking up reads the top one.
* Leaving a frame drops the bindings of the innermost level, of whatever names.

`Scope.shadows` reads the stacks off the frames, and each operation on the
frames is the one of the stacks (`shadows_exit`, `shadows_declare`,
`shadows_assign`, `shadows_get?`).  No invariant is needed: in a frame as on a
stack, the first binding of a name is the one that counts.

Programs use any number of scopes and copy them.  A `Scope.Command` makes a
scope, copies one or works on one; `Handling` is what a kind of scope does with
it.  That one kind of scope is an image of another carries over from one command
to all of them (`runAll_map`), and a command leaves every scope as it is but the
one that it steps on (`run_getElem?`, `runAll_getElem?`).  Together:  whatever
the commands are, scopes answer as shadow stacks do, and copies go their own
ways (`scopes_shadow`).
-/
import Mathlib.Data.List.TakeDrop
import Mathlib.Logic.Function.Basic
import Implet.Scope.Step
import Implet.Proofs.Scopes

namespace Implet

variable {V : Type}

/-! ### Shadow stacks -/

/-- For each name its bindings with their levels, the one that counts first.
The globals have level 1; the innermost frame has level `depth`, which is 0 if
no frame is live. -/
structure Shadows (V : Type) where
  depth : Nat
  stack : String → List (Nat × V)

namespace Shadows

/-- One frame, in which nothing is bound. -/
def initial : Shadows V := ⟨1, fun _ => []⟩

/-- Enter a frame. -/
def enter (s : Shadows V) : Shadows V := { s with depth := s.depth + 1 }

/-- Leave the innermost frame: its bindings go, and all others stay. -/
def exit (s : Shadows V) : Except ScopeError (Shadows V) :=
  if s.depth = 0 then .error .noActiveScope
  else .ok ⟨s.depth - 1, fun name => (s.stack name).filter (·.1 ≠ s.depth)⟩

/-- Whether the top binding of a name has the innermost level. -/
def isDeclaredLocally (s : Shadows V) (name : String) : Bool :=
  match s.stack name with
  | (level, _) :: _ => level = s.depth
  | [] => false

/-- Push a binding of the innermost level. -/
def declare (s : Shadows V) (name : String) (value : V) : Except ScopeError (Shadows V) :=
  if s.depth = 0 then .error .noActiveScope
  else if s.isDeclaredLocally name then .error (.duplicate name)
  else .ok { s with stack := Function.update s.stack name ((s.depth, value) :: s.stack name) }

/-- Overwrite the top binding. -/
def assign (s : Shadows V) (name : String) (value : V) : Except ScopeError (Shadows V) :=
  match s.stack name with
  | (level, _) :: below =>
    .ok { s with stack := Function.update s.stack name ((level, value) :: below) }
  | [] => .error (.undeclared name)

/-- Read the top binding. -/
def lookup (s : Shadows V) (name : String) : Except ScopeError V :=
  match s.stack name with
  | (_, value) :: _ => .ok value
  | [] => .error (.undeclared name)

/-- Do one step. -/
def perform (s : Shadows V) : Scope.Step V → Except ScopeError (Option V × Shadows V)
  | .enter => .ok (none, s.enter)
  | .exit => s.exit.map (none, ·)
  | .declare name value => (s.declare name value).map (none, ·)
  | .assign name value => (s.assign name value).map (none, ·)
  | .lookup name => (s.lookup name).map (some ·, s)

end Shadows

/-! ### The stacks of a scope -/

namespace Frame

theorem has_eq_isSome (f : Frame V) (name : String) : f.has name = (f.get? name).isSome :=
  Bool.eq_iff_iff.mpr (has_iff.trans get?_isSome_iff.symm)

theorem get?_set_self {f : Frame V} {name : String} (value : V) (h : name ∈ f.names) :
    (f.set name value).get? name = some value := by
  induction f with
  | nil => cases h
  | cons b f ih =>
    rw [set_cons, get?_cons]
    by_cases hb : b.1 = name
    · rw [if_pos hb, if_pos hb]
    · rw [if_neg hb, if_neg hb]
      exact ih ((List.mem_cons.mp h).resolve_left (Ne.symm hb))

theorem get?_set_of_ne {x name : String} (f : Frame V) (value : V) (h : x ≠ name) :
    (f.set name value).get? x = f.get? x := by
  induction f with
  | nil => rfl
  | cons b f ih =>
    rw [set_cons, get?_cons, get?_cons, ih]
    by_cases hb : b.1 = name
    · rw [if_pos hb, if_neg (hb ▸ Ne.symm h), if_neg (hb ▸ Ne.symm h)]
    · rw [if_neg hb]

end Frame

namespace Scope

/-- The bindings of a name, each with the level of its frame. -/
def stackIn (name : String) : List (Frame V) → List (Nat × V)
  | [] => []
  | f :: fs => ((f.get? name).map (fs.length + 1, ·)).toList ++ stackIn name fs

/-- A scope by its stacks. -/
def shadows (s : Scope V) : Shadows V := ⟨s.depth, fun name => stackIn name s.frames⟩

@[simp] theorem depth_shadows (s : Scope V) : s.shadows.depth = s.depth := rfl

@[simp] theorem stack_shadows (s : Scope V) (name : String) :
    s.shadows.stack name = stackIn name s.frames := rfl

theorem stackIn_of_mem {f : Frame V} {name : String} {v : V} (fs : List (Frame V))
    (h : f.get? name = some v) :
    stackIn name (f :: fs) = (fs.length + 1, v) :: stackIn name fs := by
  rw [stackIn, h]
  rfl

theorem stackIn_of_not_mem {f : Frame V} {name : String} (fs : List (Frame V))
    (h : f.get? name = none) : stackIn name (f :: fs) = stackIn name fs := by
  rw [stackIn, h]
  rfl

/-- Bindings have the levels of frames. -/
theorem level_le {name : String} {fs : List (Frame V)} {b : Nat × V}
    (h : b ∈ stackIn name fs) :
    b.1 ≤ fs.length := by
  induction fs with
  | nil => cases h
  | cons f fs ih =>
    rw [stackIn, List.mem_append, Option.mem_toList, Option.map_eq_some_iff] at h
    rcases h with ⟨v, -, rfl⟩ | h
    · exact Nat.le_refl _
    · exact Nat.le_succ_of_le (ih h)

/-- Without its bindings of the innermost level, a stack is that of the frames below. -/
theorem filter_stackIn (name : String) (f : Frame V) (fs : List (Frame V)) :
    (stackIn name (f :: fs)).filter (·.1 ≠ fs.length + 1) = stackIn name fs := by
  have hbelow : (stackIn name fs).filter (·.1 ≠ fs.length + 1) = stackIn name fs := by
    refine List.filter_eq_self.mpr fun b hb => decide_eq_true ?_
    exact Nat.ne_of_lt (Nat.lt_succ_of_le (level_le hb))
  cases h : f.get? name with
  | none => rw [stackIn_of_not_mem fs h, hbelow]
  | some v =>
    rw [stackIn_of_mem fs h, List.filter_cons_of_neg (by simp), hbelow]

/-- The value of a name is that of the top binding. -/
theorem get?_eq_head? (name : String) (fs : List (Frame V)) :
    (⟨fs⟩ : Scope V).get? name = (stackIn name fs).head?.map (·.2) := by
  induction fs with
  | nil => rfl
  | cons f fs ih =>
    rw [get?_cons]
    cases h : f.get? name with
    | none => rw [stackIn_of_not_mem fs h, Option.none_or, ih]
    | some v => rw [stackIn_of_mem fs h]; rfl

/-! ### The operations -/

@[simp] theorem shadows_initial : (initial : Scope V).shadows = .initial := rfl

theorem shadows_exit (s : Scope V) : s.exit.map shadows = s.shadows.exit := by
  obtain ⟨_ | ⟨f, fs⟩⟩ := s
  · rfl
  · have hstack : (fun name => (stackIn name (f :: fs)).filter (·.1 ≠ fs.length + 1)) =
        fun name => stackIn name fs := funext fun name => filter_stackIn name f fs
    exact congrArg (fun stack => Except.ok (Shadows.mk fs.length stack)) hstack.symm

/-- A name is bound in the innermost frame if its top binding has the innermost
level. -/
theorem shadows_isDeclaredLocally (s : Scope V) (name : String) :
    s.isDeclaredLocally name = s.shadows.isDeclaredLocally name := by
  obtain ⟨_ | ⟨f, fs⟩⟩ := s
  · rfl
  rw [Shadows.isDeclaredLocally, depth_shadows, stack_shadows]
  change f.has name = _
  cases h : f.get? name with
  | some v =>
    rw [Frame.has_eq_isSome, h, stackIn_of_mem fs h]
    exact (decide_eq_true rfl).symm
  | none =>
    rw [Frame.has_eq_isSome, h, stackIn_of_not_mem fs h]
    -- what there is on the stack belongs to the frames below
    rcases hs : stackIn name fs with - | ⟨b, bs⟩
    · rfl
    · have hb : b.1 ≤ fs.length := level_le (hs ▸ List.mem_cons_self)
      exact (decide_eq_false (Nat.ne_of_lt (Nat.lt_succ_of_le hb))).symm

/-- A new binding in the innermost frame goes on top of the stack of its name. -/
theorem shadows_declare (s : Scope V) (name : String) (value : V) :
    (s.declare name value).map shadows = s.shadows.declare name value := by
  rw [Shadows.declare, ← shadows_isDeclaredLocally]
  obtain ⟨_ | ⟨f, fs⟩⟩ := s
  · rfl
  have hlive : (⟨f :: fs⟩ : Scope V).depth ≠ 0 := Nat.succ_ne_zero fs.length
  have hlocal : (⟨f :: fs⟩ : Scope V).isDeclaredLocally name = f.has name := rfl
  rw [depth_shadows, if_neg hlive, hlocal]
  by_cases hf : name ∈ f.names
  · rw [declare_of_mem value hf, if_pos (Frame.has_iff.mpr hf)]
    rfl
  · rw [declare_of_not_mem value hf, if_neg (Frame.has_iff.not.mpr hf)]
    -- only the stack of the name is another one
    refine congrArg (fun stack => Except.ok (Shadows.mk (fs.length + 1) stack)) (funext fun x => ?_)
    change stackIn x (((name, value) :: f) :: fs) = _
    by_cases hx : x = name
    · rw [hx, Function.update_self, stack_shadows,
        stackIn_of_not_mem fs (Frame.get?_eq_none_iff.mpr hf),
        stackIn_of_mem fs ((Frame.get?_cons _ f name).trans (if_pos rfl))]
      rfl
    · rw [Function.update_of_ne hx, stack_shadows, stackIn, stackIn, Frame.get?_cons,
        if_neg (Ne.symm hx)]

theorem length_assignIn {name : String} {value : V} {fs fs' : List (Frame V)}
    (h : assignIn name value fs = some fs') : fs'.length = fs.length := by
  induction fs generalizing fs' with
  | nil => cases h
  | cons f fs ih =>
    rw [assignIn] at h
    split at h
    · cases h
      rfl
    · obtain ⟨gs, hgs, rfl⟩ := Option.map_eq_some_iff.mp h
      exact congrArg (· + 1) (ih hgs)

/-- There is nothing to assign to if and only if the stack is empty. -/
theorem assignIn_eq_none_iff {name : String} {value : V} {fs : List (Frame V)} :
    assignIn name value fs = none ↔ stackIn name fs = [] := by
  induction fs with
  | nil => exact ⟨fun _ => rfl, fun _ => rfl⟩
  | cons f fs ih =>
    rw [assignIn]
    by_cases hf : name ∈ f.names
    · obtain ⟨v, hv⟩ := Option.isSome_iff_exists.mp (Frame.get?_isSome_iff.mpr hf)
      rw [if_pos (Frame.has_iff.mpr hf), stackIn_of_mem fs hv]
      exact ⟨fun h => (Option.some_ne_none _ h).elim, fun h => (List.cons_ne_nil _ _ h).elim⟩
    · rw [if_neg fun h => hf (Frame.has_iff.mp h),
        stackIn_of_not_mem fs (Frame.get?_eq_none_iff.mpr hf), Option.map_eq_none_iff, ih]

/-- Assigning overwrites the top of the stack of its name. -/
theorem stackIn_assignIn_self {name : String} {value : V} {fs fs' : List (Frame V)}
    (h : assignIn name value fs = some fs') :
    ∃ level v below, stackIn name fs = (level, v) :: below ∧
      stackIn name fs' = (level, value) :: below := by
  induction fs generalizing fs' with
  | nil => cases h
  | cons f fs ih =>
    rw [assignIn] at h
    split at h
    · next hf =>
      -- the first frame with the name is the one whose binding is on top
      cases h
      have hm : name ∈ f.names := Frame.has_iff.mp hf
      obtain ⟨v, hv⟩ := Option.isSome_iff_exists.mp (Frame.get?_isSome_iff.mpr hm)
      exact ⟨_, v, _, stackIn_of_mem fs hv, stackIn_of_mem fs (Frame.get?_set_self value hm)⟩
    · next hf =>
      obtain ⟨gs, hgs, rfl⟩ := Option.map_eq_some_iff.mp h
      have hn : f.get? name = none :=
        Frame.get?_eq_none_iff.mpr fun hm => hf (Frame.has_iff.mpr hm)
      rw [stackIn_of_not_mem fs hn, stackIn_of_not_mem gs hn]
      exact ih hgs

/-- Assigning touches no other stack. -/
theorem stackIn_assignIn_of_ne {x name : String} {value : V} {fs fs' : List (Frame V)}
    (h : assignIn name value fs = some fs') (hx : x ≠ name) : stackIn x fs' = stackIn x fs := by
  induction fs generalizing fs' with
  | nil => cases h
  | cons f fs ih =>
    rw [assignIn] at h
    split at h
    · cases h
      rw [stackIn, stackIn, Frame.get?_set_of_ne f value hx]
    · obtain ⟨gs, hgs, rfl⟩ := Option.map_eq_some_iff.mp h
      rw [stackIn, stackIn, ih hgs, length_assignIn hgs]

theorem shadows_assign (s : Scope V) (name : String) (value : V) :
    (s.assign name value).map shadows = s.shadows.assign name value := by
  obtain ⟨fs⟩ := s
  unfold assign Shadows.assign
  dsimp only [shadows]
  rcases ha : assignIn name value fs with - | fs'
  · rw [assignIn_eq_none_iff.mp ha]
    rfl
  · -- the stack of the name has another top, and the others are as they were
    obtain ⟨level, v, below, hs, hs'⟩ := stackIn_assignIn_self ha
    rw [hs]
    change Except.ok (Shadows.mk fs'.length fun x => stackIn x fs') = .ok ⟨fs.length, _⟩
    rw [length_assignIn ha]
    refine congrArg (fun stack => Except.ok (Shadows.mk fs.length stack)) (funext fun x => ?_)
    by_cases hx : x = name
    · rw [hx, Function.update_self, hs']
    · rw [Function.update_of_ne hx, stackIn_assignIn_of_ne ha hx]

theorem shadows_lookup (s : Scope V) (name : String) :
    s.lookup name = s.shadows.lookup name := by
  obtain ⟨fs⟩ := s
  unfold lookup Shadows.lookup
  rw [get?_eq_head?]
  dsimp only [shadows]
  rcases stackIn name fs with - | ⟨b, bs⟩ <;> rfl

/-- A step on the frames is the step on the stacks, with the same value or the
same error. -/
theorem shadows_perform (s : Scope V) (step : Step V) :
    (s.perform step).map (Prod.map id shadows) = s.shadows.perform step := by
  cases step with
  | enter => rfl
  | exit =>
    rw [Shadows.perform, ← shadows_exit, perform]
    cases s.exit <;> rfl
  | declare name value =>
    rw [Shadows.perform, ← shadows_declare, perform]
    cases s.declare name value <;> rfl
  | assign name value =>
    rw [Shadows.perform, ← shadows_assign, perform]
    cases s.assign name value <;> rfl
  | lookup name =>
    rw [Shadows.perform, ← shadows_lookup, perform]
    cases s.lookup name <;> rfl

end Scope

/-! ### Commands on any number of scopes -/

namespace Scope

/-- What a program does with its scopes.  Scopes are known by their numbers, in
the order in which they were made. -/
inductive Command (V : Type) where
  | new
  | clone (source : Nat)
  | step (target : Nat) (step : Step V)
  | isDeclaredLocally (target : Nat) (name : String)

/-- What a program is told. -/
inductive Answer (V : Type) where
  | made (number : Nat)
  | done
  | value (value : V)
  | failed (e : ScopeError)
  | flag (declared : Bool)
  | noSuchScope
  deriving DecidableEq

/-- What a kind of scope does: how a new one looks, and how each comes to its
answers. -/
structure Handling (S V : Type) where
  initial : S
  perform : S → Step V → Except ScopeError (Option V × S)
  isDeclaredLocally : S → String → Bool

/-- Scopes that keep frames. -/
def framed : Handling (Scope V) V := ⟨initial, perform, isDeclaredLocally⟩

/-- Scopes that keep stacks. -/
def stacked : Handling (Shadows V) V :=
  ⟨.initial, Shadows.perform, Shadows.isDeclaredLocally⟩

namespace Handling

variable {S T : Type} (h : Handling S V)

/-- Do one step.  A step that fails leaves the scope as it is. -/
def advance (s : S) (step : Step V) : Answer V × S :=
  match h.perform s step with
  | .ok (some v, s) => (.value v, s)
  | .ok (none, s) => (.done, s)
  | .error e => (.failed e, s)

/-- Obey one command. -/
def run (ss : List S) : Command V → Answer V × List S
  | .new => (.made ss.length, ss ++ [h.initial])
  | .clone source =>
    match ss[source]? with
    | some s => (.made ss.length, ss ++ [s])
    | none => (.noSuchScope, ss)
  | .step target step =>
    match ss[target]? with
    | some s => ((h.advance s step).1, ss.set target (h.advance s step).2)
    | none => (.noSuchScope, ss)
  | .isDeclaredLocally target name =>
    match ss[target]? with
    | some s => (.flag (h.isDeclaredLocally s name), ss)
    | none => (.noSuchScope, ss)

/-- Obey commands one after the other. -/
def runAll (ss : List S) : List (Command V) → List (Answer V) × List S
  | [] => ([], ss)
  | c :: cs => ((h.run ss c).1 :: (runAll (h.run ss c).2 cs).1, (runAll (h.run ss c).2 cs).2)

/-- The steps that commands ask of a scope. -/
def stepsOn (number : Nat) (cs : List (Command V)) : List (Step V) :=
  cs.filterMap fun
    | .step target step => if target = number then some step else none
    | _ => none

/-- A scope after steps on it alone. -/
def after (s : S) (steps : List (Step V)) : S :=
  steps.foldl (fun s step => (h.advance s step).2) s

/-- `f` shows a kind of scope as another kind: it takes the new one to the new
one, and is not noticed by what is done to them. -/
structure Shows (h : Handling S V) (f : S → T) (k : Handling T V) : Prop where
  initial : f h.initial = k.initial
  perform : ∀ s step, (h.perform s step).map (Prod.map id f) = k.perform (f s) step
  isDeclaredLocally : ∀ s name, h.isDeclaredLocally s name = k.isDeclaredLocally (f s) name

variable {h} {k : Handling T V} {f : S → T}

theorem Shows.advance (hf : Shows h f k) (s : S) (step : Step V) :
    (h.advance s step).map id f = k.advance (f s) step := by
  unfold Handling.advance
  rw [← hf.perform]
  rcases h.perform s step with e | ⟨_ | v, s'⟩ <;> rfl

/-- One command gets the same answer. -/
theorem Shows.run (hf : Shows h f k) (ss : List S) (c : Command V) :
    (h.run ss c).map id (List.map f) = k.run (ss.map f) c := by
  cases c with
  | new => simp [Handling.run, hf.initial]
  | clone source =>
    rw [Handling.run, Handling.run, List.getElem?_map]
    cases ss[source]? <;> simp
  | step target step =>
    rw [Handling.run, Handling.run, List.getElem?_map]
    cases ss[target]? with
    | none => rfl
    | some s =>
      dsimp only [Option.map_some]
      rw [← hf.advance]
      exact congrArg (Prod.mk _) List.map_set
  | isDeclaredLocally target name =>
    rw [Handling.run, Handling.run, List.getElem?_map]
    cases ss[target]? with
    | none => rfl
    | some s => simp [hf.isDeclaredLocally]

/-- All commands get the same answers. -/
theorem Shows.runAll (hf : Shows h f k) (ss : List S) (cs : List (Command V)) :
    (h.runAll ss cs).map id (List.map f) = k.runAll (ss.map f) cs := by
  induction cs generalizing ss with
  | nil => rfl
  | cons c cs ih =>
    rw [Handling.runAll, Handling.runAll, ← hf.run]
    exact congrArg (fun p => (_ :: p.1, p.2)) (ih (h.run ss c).2)

/-! ### Each scope by itself -/

theorem after_append (s : S) (as bs : List (Step V)) :
    h.after s (as ++ bs) = h.after (h.after s as) bs := List.foldl_append

theorem stepsOn_cons (number : Nat) (c : Command V) (cs : List (Command V)) :
    stepsOn number (c :: cs) = stepsOn number [c] ++ stepsOn number cs :=
  List.filterMap_append (l := [c])

/-- A command leaves every scope as it is but the one that it steps on. -/
theorem run_getElem? {ss : List S} {i : Nat} {s : S} (hs : ss[i]? = some s)
    (c : Command V) : (h.run ss c).2[i]? = some (h.after s (stepsOn i [c])) := by
  have hnew : ∀ s', (ss ++ [s'])[i]? = some s := fun s' => by
    rw [List.getElem?_append_left (List.getElem?_eq_some_iff.mp hs).1, hs]
  cases c with
  | new => exact hnew h.initial
  | clone source =>
    rw [Handling.run]
    cases ss[source]? with
    | none => exact hs
    | some s' => exact hnew s'
  | isDeclaredLocally target name =>
    rw [Handling.run]
    cases ss[target]? <;> exact hs
  | step target step =>
    rw [Handling.run]
    by_cases ht : target = i
    · have hsteps : stepsOn i [.step target step] = [step] := by simp [stepsOn, ht]
      rw [hsteps, ht, hs]
      exact List.getElem?_set_self (List.getElem?_eq_some_iff.mp hs).1
    · have hsteps : stepsOn i [.step target step] = [] := by simp [stepsOn, ht]
      rw [hsteps]
      cases ss[target]? with
      | none => exact hs
      | some s' => exact (List.getElem?_set_ne ht).trans hs

/-- Whatever the commands are, every scope there is comes to what the steps on
it alone make of it. -/
theorem runAll_getElem? {ss : List S} {i : Nat} {s : S} (hs : ss[i]? = some s)
    (cs : List (Command V)) : (h.runAll ss cs).2[i]? = some (h.after s (stepsOn i cs)) := by
  induction cs generalizing ss s with
  | nil => exact hs
  | cons c cs ih =>
    rw [stepsOn_cons, after_append]
    exact ih (run_getElem? hs c)

end Handling

/-! ### Scopes are shadow stacks -/

theorem framed_shows_stacked : (framed : Handling (Scope V) V).Shows shadows stacked where
  initial := shadows_initial
  perform := shadows_perform
  isDeclaredLocally := shadows_isDeclaredLocally

/-- Whatever commands are given, from the first scope on, scopes give the
answers of shadow stacks and are left with the bindings of shadow stacks; and
whatever commands follow, each scope that there is then comes to what the steps
on it alone make of it, be it a copy or have copies. -/
theorem scopes_shadow (cs later : List (Command V)) :
    let ss := (framed.runAll [] cs).2
    (framed.runAll [] cs).1 = (stacked.runAll [] cs).1 ∧
      ss.map shadows = (stacked.runAll [] cs).2 ∧
      ∀ i : Fin ss.length,
        (framed.runAll ss later).2[i.val]? =
          some (framed.after ss[i] (Handling.stepsOn i later)) := by
  have h := framed_shows_stacked.runAll ([] : List (Scope V)) cs
  exact ⟨congrArg Prod.fst h, congrArg Prod.snd h,
    fun i => Handling.runAll_getElem? (List.getElem?_eq_getElem i.isLt) later⟩

/-- A copy is declared and assigned in after its original has lost its last frame. -/
example : (framed.runAll [] [.new, .step 0 (.declare "x" 1), .step 0 .enter, .clone 0,
    .step 0 (.assign "x" 5), .step 0 .exit, .step 0 (.lookup "x"), .step 0 .exit, .step 0 .exit,
    .step 0 (.declare "x" 1), .step 1 (.declare "x" 2), .step 1 .exit, .step 1 (.lookup "x")]).1 =
    [.made 0, .done, .done, .made 1, .done, .done, .value 5, .done, .failed .noActiveScope,
      .failed .noActiveScope, .done, .done, .value (1 : Nat)] := by
  decide

end Scope

end Implet
