/-
Implet/Proofs/StaleFrames.lean

What a guarded frame leaves behind.  `Scope.withinFrame` enters a frame, does
what it is told, and leaves one frame, whatever has come of it.  That is the
frame it has entered only if there is none above it.  Steps can enter frames of
their own, and if one of them fails no later step is there to leave these; the
frame that is left is then the innermost one, and the one that was entered for
the steps is among those that stay.

* `Scope.performed` are the steps that are done, those before the first that fails, and
  `Scope.opened` counts the frames that they have entered and not left.
* Steps that leave no frame but their own touch the frames below by assignments only
  (`Scope.performAll_above`).

Main result: after a guarded frame there are as many frames more than before as
the steps have left open; the frames that were there have the names they had,
and the values that some of the assignments give them.  So nothing stays behind
if and only if no frame was left open, whether or not a step has failed
(`Scope.withinFrame_leaves`).
-/
import Implet.Proofs.Frames
import Implet.Scope.Step

namespace Implet.Scope

variable {V : Type}

/-! ### Open frames -/

/-- The number of frames that are open after a step if `n` are open before it.
There is none if the step leaves a frame that is not one of these. -/
def Step.opens (n : Nat) : Step V → Option Nat
  | .enter => some (n + 1)
  | .exit =>
    match n with
    | 0 => none
    | n + 1 => some n
  | .declare _ _ | .assign _ _ | .lookup _ => some n

/-- The number of frames that are open after steps. -/
def opened (n : Nat) : List (Step V) → Option Nat
  | [] => some n
  | step :: steps => (step.opens n).bind (opened · steps)

/-- The steps that are done, up to the first that fails. -/
def performed (s : Scope V) : List (Step V) → List (Step V)
  | [] => []
  | step :: steps =>
    match s.perform step with
    | .ok (_, s) => step :: performed s steps
    | .error _ => []

/-! ### Nothing but assignments -/

/-- Some of the assignments among the steps lead from one scope to the other, in
their order and without any other step. -/
inductive Assigns : List (Step V) → Scope V → Scope V → Prop
  | nil {s} : Assigns [] s s
  | skip {step steps s t} (h : Assigns steps s t) : Assigns (step :: steps) s t
  | assign {name value steps s s₁ t} (ha : s.assign name value = .ok s₁) (h : Assigns steps s₁ t) :
    Assigns (.assign name value :: steps) s t

variable {s t base : Scope V} {steps : List (Step V)} {top : List (Frame V)} {n : Nat}

theorem Assigns.names (h : Assigns steps s t) : t.names = s.names := by
  induction h with
  | nil => rfl
  | skip _ ih => exact ih
  | assign ha _ ih => exact ih.trans (names_assign ha)

/-! ### Frames on top of a scope -/

/-- A name is assigned to in the upper frames, or below them if none of them has it. -/
theorem assignIn_append (name : String) (value : V) (fs gs : List (Frame V)) :
    assignIn name value (fs ++ gs) = match assignIn name value fs with
      | some fs' => some (fs' ++ gs)
      | none => (assignIn name value gs).map (fs ++ ·) := by
  induction fs with
  | nil => simp [assignIn]
  | cons f fs ih =>
    rw [List.cons_append, assignIn, assignIn]
    by_cases hf : f.has name = true
    · rw [if_pos hf, if_pos hf]
      rfl
    · rw [if_neg hf, if_neg hf, ih]
      cases assignIn name value fs with
      | some fs' => rfl
      | none => cases assignIn name value gs <;> rfl

/-- An assignment changes the frames on top of a scope, or is one in the scope. -/
theorem assign_above {name : String} {value : V}
    (h : (⟨top ++ base.frames⟩ : Scope V).assign name value = .ok t) :
    ∃ top' base', t = ⟨top' ++ base'.frames⟩ ∧ top'.length = top.length ∧
      (base' = base ∨ base.assign name value = .ok base') := by
  unfold assign at h
  rw [assignIn_append] at h
  rcases htop : assignIn name value top with - | top'
  · rw [htop] at h
    rcases hbase : assignIn name value base.frames with - | fs
    · rw [hbase] at h
      cases h
    · rw [hbase] at h
      have hassign : base.assign name value = .ok ⟨fs⟩ := by rw [assign, hbase]
      exact ⟨top, ⟨fs⟩, (Except.ok.inj h).symm, rfl, .inr hassign⟩
  · rw [htop] at h
    have hlen : top'.length = top.length := by
      have hassign :
          (⟨top⟩ : Scope V).assign name value = .ok ⟨top'⟩ := by rw [assign, htop]
      simpa [Scope.names] using congrArg List.length (names_assign hassign)
    exact ⟨top', base, (Except.ok.inj h).symm, hlen, .inl rfl⟩

theorem map_eq_ok {α β : Type} {x : Except ScopeError α} {f : α → β} {b : β} :
    x.map f = .ok b ↔ ∃ a, x = .ok a ∧ f a = b := by
  cases x <;> simp [Except.map]

/-- A step that leaves no frame of the scope below stays in the frames on top of
it, but for assignments. -/
theorem perform_above {step : Step V} {m : Nat} {v : Option V} (htop : top.length = n + 1)
    (hm : step.opens n = some m)
    (h : (⟨top ++ base.frames⟩ : Scope V).perform step = .ok (v, t)) :
    ∃ top' base', t = ⟨top' ++ base'.frames⟩ ∧ top'.length = m + 1 ∧
      ∀ {done u}, Assigns done base' u → Assigns (step :: done) base u := by
  obtain ⟨f, fs, rfl⟩ := List.exists_cons_of_length_eq_add_one htop
  cases step with
  | enter =>
    obtain rfl := Option.some.inj hm
    obtain ⟨-, rfl⟩ := Prod.mk.inj (Except.ok.inj h)
    exact ⟨[] :: f :: fs, base, rfl, congrArg (· + 1) htop, .skip⟩
  | exit =>
    cases n with
    | zero => cases hm
    | succ n =>
      obtain rfl := Option.some.inj hm
      simp only [perform, map_eq_ok, Prod.mk.injEq] at h
      obtain ⟨_, ht, -, rfl⟩ := h
      exact ⟨fs, base, (Except.ok.inj ht).symm, Nat.succ.inj htop, .skip⟩
  | declare name value =>
    obtain rfl := Option.some.inj hm
    simp only [perform, map_eq_ok, Prod.mk.injEq] at h
    obtain ⟨_, ht, -, rfl⟩ := h
    obtain ⟨g, gs, hg, -, rfl⟩ := declare_eq_ok ht
    obtain ⟨rfl, rfl⟩ := List.cons.inj hg
    exact ⟨((name, value) :: f) :: fs, base, rfl, htop, .skip⟩
  | assign name value =>
    obtain rfl := Option.some.inj hm
    simp only [perform, map_eq_ok, Prod.mk.injEq] at h
    obtain ⟨_, ht, -, rfl⟩ := h
    obtain ⟨top', base', rfl, hlen, hbase⟩ := assign_above ht
    refine ⟨top', base', rfl, hlen.trans htop, fun hu => ?_⟩
    rcases hbase with rfl | ha
    · exact hu.skip
    · exact hu.assign ha
  | lookup name =>
    obtain rfl := Option.some.inj hm
    simp only [perform, map_eq_ok, Prod.mk.injEq] at h
    obtain ⟨_, -, -, rfl⟩ := h
    exact ⟨f :: fs, base, rfl, htop, .skip⟩

/-- Steps that leave no frame of the scope below stay in the frames on top of
it, but for assignments. -/
theorem performAll_above {m : Nat} (top : List (Frame V)) (base : Scope V)
    (last : Option V) (htop : top.length = n + 1)
    (hm : opened n (performed ⟨top ++ base.frames⟩ steps) = some m) :
    ∃ top' base', (performAll last ⟨top ++ base.frames⟩ steps).2 = ⟨top' ++ base'.frames⟩ ∧
      top'.length = m + 1 ∧ Assigns (performed ⟨top ++ base.frames⟩ steps) base base' := by
  induction steps generalizing top base last n with
  | nil =>
    obtain rfl := Option.some.inj hm
    exact ⟨top, base, rfl, htop, .nil⟩
  | cons step steps ih =>
    rw [performed] at hm ⊢
    rw [performAll]
    rcases hp : (⟨top ++ base.frames⟩ : Scope V).perform step with e | ⟨v, t⟩
    · -- the step fails, and nothing after it is done
      rw [hp] at hm
      obtain rfl := Option.some.inj hm
      exact ⟨top, base, rfl, htop, .nil⟩
    · rw [hp] at hm
      obtain ⟨k, hk, hm⟩ := Option.bind_eq_some_iff.mp hm
      obtain ⟨top₁, base₁, rfl, hlen, hassigns⟩ := perform_above htop hk hp
      obtain ⟨top', base', hrun, hlen', hrest⟩ := ih top₁ base₁ (v <|> last) hlen hm
      exact ⟨top', base', hrun, hlen', hassigns hrest⟩

/-! ### Guarded frames -/

/-- Steps in a frame of their own, which leave no frame that they have not
entered, leave behind one frame for each that they have entered and not left,
failing or not.  Below these is the scope from before, with some of the
assignments. -/
theorem withinFrame_leaves (s : Scope V) (steps : List (Step V)) (last : Option V)
    (h : opened 0 (performed s.enter steps) = some n) :
    let r := withinFrame id (performAll last · steps) s
    r.1 = (performAll last s.enter steps).1 ∧ r.2.depth = s.depth + n ∧
      (r.2.names = s.names ↔ n = 0) ∧ ∃ stale kept, r.2.frames = stale ++ kept.frames ∧
        stale.length = n ∧ kept.names = s.names ∧ Assigns (performed s.enter steps) s kept := by
  obtain ⟨top, kept, hrun, hlen, hassigns⟩ := performAll_above [[]] s last rfl h
  obtain ⟨f, stale, rfl⟩ := List.exists_cons_of_length_eq_add_one hlen
  have hstale : stale.length = n := Nat.succ.inj hlen
  have hexit : withinFrame id (performAll last · steps) s =
      ((performAll last s.enter steps).1, ⟨stale ++ kept.frames⟩) := by
    have hrun : (performAll last s.enter steps).2 = ⟨f :: (stale ++ kept.frames)⟩ := hrun
    unfold withinFrame
    dsimp only
    rw [hrun]
    rfl
  have hdepth : (⟨stale ++ kept.frames⟩ : Scope V).depth = s.depth + n := by
    have hkept : kept.depth = s.depth := by
      rw [← length_names, hassigns.names, length_names]
    rw [depth, List.length_append, hstale, Nat.add_comm]
    exact congrArg (· + n) hkept
  rw [hexit]
  refine ⟨rfl, hdepth, ⟨fun hn => ?_, fun hn => ?_⟩, stale, kept, rfl, hstale, hassigns.names,
    hassigns⟩
  · have hsame := congrArg List.length hn
    rw [length_names, length_names, hdepth] at hsame
    exact Nat.add_eq_left.mp hsame
  · obtain rfl := List.length_eq_zero_iff.mp (hstale.trans hn)
    exact hassigns.names

/-- A global that is assigned to below another frame, and then declared twice
next to it. -/
def redeclaring : List (Step Int) :=
  [.declare "y" 1, .enter, .assign "x" 5, .exit, .declare "y" 2, .exit, .exit]

theorem withinFrame_leaves_redeclaring :
    let s : Scope Int := ⟨[[("x", 1)]]⟩
    let r := withinFrame id (performAll none · redeclaring) s
    opened 0 (performed s.enter redeclaring) = some 0 ∧
      r = (.error (.duplicate "y"), ⟨[[("x", 5)]]⟩) ∧
      r.1 = (performAll none s.enter redeclaring).1 ∧ r.2.depth = s.depth + 0 ∧
      (r.2.names = s.names ↔ 0 = 0) ∧ ∃ stale kept, r.2.frames = stale ++ kept.frames ∧
        stale.length = 0 ∧ kept.names = s.names ∧ Assigns (performed s.enter redeclaring) s kept :=
  ⟨by decide, by decide, withinFrame_leaves ⟨[[("x", 1)]]⟩ redeclaring none (by decide)⟩

/-- The same failure one frame further up, where it keeps the steps from leaving
that frame. -/
def redeclaringAbove : List (Step Int) := [.enter, .declare "y" 1, .declare "y" 2, .exit]

/-- A failure can leave a stale frame behind. -/
theorem withinFrame_stale :
    let s : Scope Int := initial
    let r := withinFrame id (performAll none · redeclaringAbove) s
    opened 0 redeclaringAbove = some 0 ∧ r.1 = .error (.duplicate "y") ∧
      s.frames ≠ [] ∧ r.2.depth ≠ s.depth ∧ r.2 = ⟨[[], []]⟩ := by
  decide

end Implet.Scope
