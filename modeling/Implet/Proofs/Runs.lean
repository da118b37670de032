/-
Implet/Proofs/Runs.lean

What can be said about runs without looking at stores.  `Run.Triple I p K L`
says that a run `p` from a store with `I` ends, if it ends at all, with a value
and a store that `K` holds of, or with an error and a store that `L` holds of.
There is one rule for each way in which runs are put together.

A store holds a stack of frames for each environment.  `Store.Shows R Δ` says
that the frames are those of `Δ`, which binds the same names, and that what a
name is bound to in the store is related by `R` to what it is bound to in `Δ`.
Since a run leaves the frames that it enters, it is enough to know what its
steps do to the innermost frame.
-/
import Implet.Proofs.Scopes
import Implet.Proofs.Typing
import Implet.Proofs.Names
import Implet.Running.Exec

namespace Implet

variable {α β W : Type}

/-! ### Environments of a store -/

theorem Store.env_setEnv (s : Store) {r : EnvRef} (hr : r < s.envs.size) (e : Environment)
    (r' : EnvRef) : (s.setEnv r e).env r' = if r' = r then e else s.env r' := by
  by_cases h : r' = r
  · subst h
    simp [setEnv, env, hr]
  · simp only [setEnv, env, Array.getD_eq_getD_getElem?, if_neg h]
    rw [Array.getElem?_setIfInBounds_ne (Ne.symm h)]

@[simp] theorem Store.size_setEnv (s : Store) (r : EnvRef) (e : Environment) :
    (s.setEnv r e).envs.size = s.envs.size := by
  simp [setEnv]

@[simp] theorem Store.setEnv_setEnv (s : Store) (r : EnvRef) (e e' : Environment) :
    (s.setEnv r e).setEnv r e' = s.setEnv r e' := by
  by_cases hr : r < s.envs.size <;> simp [setEnv, Array.setIfInBounds, hr]

@[simp] theorem Store.setEnv_env (s : Store) (r : EnvRef) : s.setEnv r (s.env r) = s := by
  obtain ⟨envs⟩ := s
  rw [setEnv, env, mk.injEq]
  refine Array.ext (by simp) fun i hi hi' => ?_
  by_cases h : r = i
  · subst h
    simp [hi']
  · exact Array.getElem_setIfInBounds_ne hi' h

theorem Store.env_setEnv_self {s : Store} {r : EnvRef} (hr : r < s.envs.size)
    (e : Environment) : (s.setEnv r e).env r = e := by
  rw [s.env_setEnv hr, if_pos rfl]

theorem Store.env_allocate (s : Store) (e : Environment) (r : EnvRef) :
    (s.allocate e).2.env r = if r = s.envs.size then e else s.env r := by
  simp only [Store.allocate, Store.env, Array.getD_eq_getD_getElem?, Array.getElem?_push]
  split <;> rfl

/-- There is nothing to put where there is no environment. -/
theorem Store.setEnv_of_le {s : Store} {r : EnvRef} (h : s.envs.size ≤ r)
    (e : Environment) :
    s.setEnv r e = s := by
  rw [setEnv, Array.setIfInBounds_eq_of_size_le h]

theorem Store.env_of_le {s : Store} {r : EnvRef} (h : s.envs.size ≤ r) :
    s.env r = .initial := by
  rw [Store.env, Array.getD_eq_getD_getElem?, Array.getElem?_eq_none h]
  rfl

/-! ### How runs end -/

namespace Run

variable {p : Run α} {r : EnvRef} {s s' : Store}

/-- A run that starts with one that ends as it should goes on from there. -/
theorem bind_eq {f : α → Run β} {a : α} (h : p s = some (.ok a, s')) :
    (p >>= f) s = f a s' := by
  show Run.bind p f s = _
  rw [Run.bind, h]

theorem bind_eq_error {f : α → Run β} {e : RuntimeError} (h : p s = some (.error e, s')) :
    (p >>= f) s = some (.error e, s') := by
  show Run.bind p f s = _
  rw [Run.bind, h]

/-- A run that is followed by another one ends where that ends, or with an error
of its own. -/
theorem bind_cases {f : α → Run β} {res : Except RuntimeError β}
    (h : (p >>= f) s = some (res, s')) :
    (∃ a s₁, p s = some (.ok a, s₁) ∧ f a s₁ = some (res, s')) ∨
      ∃ e, p s = some (.error e, s') ∧ res = .error e := by
  change Run.bind p f s = _ at h
  unfold Run.bind at h
  split at h
  · next a s₁ hp => exact Or.inl ⟨a, s₁, hp, h⟩
  · next e s₁ hp =>
    cases h
    exact Or.inr ⟨e, hp, rfl⟩
  · cases h

/-- Either the environment is replaced by what is made of it, or nothing is done. -/
theorem onEnvAt_cases {span : Span} {action : Environment → Except ScopeError Environment}
    {res : Except RuntimeError Unit} (h : onEnvAt r span action s = some (res, s')) :
    (∃ e, action (s.env r) = .ok e ∧ res = .ok () ∧ s' = s.setEnv r e) ∨
      ∃ err, action (s.env r) = .error err ∧ res = .error (.ofScope span err) ∧ s' = s := by
  unfold onEnvAt at h
  split at h
  · next e he =>
    cases h
    exact Or.inl ⟨e, he, rfl, rfl⟩
  · next err he =>
    cases h
    exact Or.inr ⟨err, he, rfl, rfl⟩

/-- The outcome is that of what is run in the frame, unless there is no frame to
be left. -/
theorem inFrame_cases {res : Except RuntimeError α} (h : inFrame r p s = some (res, s')) :
    ∃ res₁ s₁, p (s.setEnv r (s.env r).enter) = some (res₁, s₁) ∧
      ((∃ e, (s₁.env r).exit = .ok e ∧ res = res₁ ∧ s' = s₁.setEnv r e) ∨
        ∃ err e, (s₁.env r).exit = .error err ∧ res = .error e ∧ s' = s₁) := by
  unfold inFrame at h
  split at h
  · cases h
  · next res₁ s₁ hp =>
    refine ⟨res₁, s₁, hp, ?_⟩
    split at h
    · next e he =>
      cases h
      exact Or.inl ⟨e, he, rfl, rfl⟩
    · next err e he =>
      cases h
      exact Or.inr ⟨err, e, he, rfl, rfl⟩
    · next err a he =>
      cases h
      exact Or.inr ⟨err, _, he, rfl, rfl⟩

/-- A function is defined with a closure over a copy of the environment, unless
its name is declared already. -/
theorem define_cases {f : FunDef} {res : Except RuntimeError Value}
    (h : f.define r s = some (res, s')) :
    (∃ e, (s.env r).declare f.name.name (.closure f s.envs.size) = .ok e ∧
        res = .ok (.closure f s.envs.size) ∧ s' = (s.allocate (s.env r)).2.setEnv r e) ∨
      ∃ err, (s.env r).declare f.name.name (.closure f s.envs.size) = .error err ∧
        res = .error (.ofScope f.name.span err) ∧ s' = s := by
  simp only [FunDef.define] at h
  split at h
  · next e he =>
    cases h
    exact Or.inl ⟨e, he, rfl, rfl⟩
  · next err he =>
    cases h
    exact Or.inr ⟨err, he, rfl, rfl⟩

/-- Where there is no environment, no frame is entered and none is left. -/
theorem inFrame_of_le (hr : s.envs.size ≤ r)
    (hp : ∀ {res s'}, p s = some (res, s') → s'.envs.size = s.envs.size) :
    inFrame r p s = p s := by
  rw [inFrame, Store.setEnv_of_le hr]
  rcases hs : p s with - | ⟨res, s'⟩
  · rfl
  · have hr' : s'.envs.size ≤ r := hp hs ▸ hr
    simp only [Store.env_of_le hr', Scope.exit, Scope.initial, Store.setEnv_of_le hr']

end Run

/-! ### Triples -/

namespace Run

variable {I I' : Store → Prop} {K K' : α → Store → Prop} {L L' : RuntimeError → Store → Prop}

/-- From a store with `I`, a run ends with what `K` says of a value and a store,
or with what `L` says of an error and a store, unless its fuel does not
suffice. -/
def Triple (I : Store → Prop) (p : Run α) (K : α → Store → Prop)
    (L : RuntimeError → Store → Prop) : Prop :=
  ∀ ⦃s res s'⦄, I s → p s = some (res, s') → match res with
    | .ok a => K a s'
    | .error e => L e s'

theorem Triple.mono {p : Run α} (h : Triple I p K L) (hI : ∀ s, I' s → I s)
    (hK : ∀ a s, K a s → K' a s) (hL : ∀ e s, L e s → L' e s) : Triple I' p K' L' := by
  intro s res s' hs hp
  have := h (hI s hs) hp
  cases res with
  | ok a => exact hK a s' this
  | error e => exact hL e s' this

theorem triple_pure {a : α} (h : ∀ s, I s → K a s) : Triple I (pure a) K L := by
  rintro s res s' hs ⟨⟩
  exact h s hs

theorem triple_fail {e : RuntimeError} (h : ∀ s, I s → L e s) :
    Triple I (fail e : Run α) K L := by
  rintro s res s' hs ⟨⟩
  exact h s hs

theorem triple_outOfFuel : Triple I (outOfFuel : Run α) K L := by
  rintro s res s' hs ⟨⟩

/-- What holds after the first of two runs has to lead the second to its end. -/
theorem Triple.bind {p : Run α} {f : α → Run β} {M : β → Store → Prop}
    (hp : Triple I p K L)
    (hf : ∀ a, Triple (K a) (f a) M L) : Triple I (p >>= f) M L := by
  intro s res s' hs h
  rcases bind_cases h with ⟨a, s₁, hp', hf'⟩ | ⟨e, hp', rfl⟩
  · exact hf a (hp hs hp') hf'
  · exact hp hs hp'

/-- A fact that the store implies can be used to find a run's end. -/
theorem Triple.of_pre {p : Run α} {P : Prop} (hP : ∀ s, I s → P)
    (h : P → Triple I p K L) :
    Triple I p K L := fun _ _ _ hs hp => h (hP _ hs) hs hp

/-- A run that keeps an invariant and ends with a value that `A` holds of or
with an error that `E` holds of. -/
def Keeps (I : Store → Prop) (p : Run α) (A : α → Prop) (E : RuntimeError → Prop) :
    Prop :=
  Triple I p (fun a s => A a ∧ I s) (fun e s => E e ∧ I s)

variable {A A' : α → Prop} {B : β → Prop} {E E' : RuntimeError → Prop}

theorem keeps_pure {a : α} (h : A a) : Keeps I (pure a) A E :=
  triple_pure fun _ hs => ⟨h, hs⟩

theorem keeps_fail {e : RuntimeError} (h : E e) : Keeps I (fail e : Run α) A E :=
  triple_fail fun _ hs => ⟨h, hs⟩

theorem Keeps.bind {p : Run α} {f : α → Run β} (hp : Keeps I p A E)
    (hf : ∀ a, A a → Keeps I (f a) B E) : Keeps I (p >>= f) B E :=
  Triple.bind hp fun a => .of_pre (fun _ h => h.1) fun ha => (hf a ha).mono
    (fun _ h => h.2) (fun _ _ h => h) fun _ _ h => h

theorem Keeps.mono {p : Run α} (h : Keeps I p A E) (hA : ∀ a, A a → A' a)
    (hE : ∀ e, E e → E' e) : Keeps I p A' E' :=
  Triple.mono h (fun _ h => h) (fun a _ h => ⟨hA a h.1, h.2⟩) fun e _ h => ⟨hE e h.1, h.2⟩

end Run

/-! ### Stacks -/

/-- Frames for each environment of a store. -/
structure Stacks (W : Type) where
  size : Nat
  scope : EnvRef → Scope W

namespace Stacks

/-- Other frames for one environment. -/
def set (Δ : Stacks W) (r : EnvRef) (Γ : Scope W) : Stacks W :=
  { Δ with scope := fun r' => if r' = r then Γ else Δ.scope r' }

/-- One more frame for one environment. -/
def push (Δ : Stacks W) (r : EnvRef) (F : Frame W) : Stacks W :=
  Δ.set r ⟨F :: (Δ.scope r).frames⟩

variable (Δ : Stacks W) (r : EnvRef)

@[simp] theorem size_set (Γ : Scope W) : (Δ.set r Γ).size = Δ.size := rfl

@[simp] theorem scope_set (Γ : Scope W) : (Δ.set r Γ).scope r = Γ := if_pos rfl

theorem scope_set_of_ne (Γ : Scope W) {r' : EnvRef} (h : r' ≠ r) :
    (Δ.set r Γ).scope r' = Δ.scope r' := if_neg h

@[simp] theorem set_set (Γ Γ' : Scope W) : (Δ.set r Γ).set r Γ' = Δ.set r Γ' := by
  simp only [set, mk.injEq, true_and]
  funext r'
  split <;> simp [*]

@[simp] theorem set_scope : Δ.set r (Δ.scope r) = Δ := by
  obtain ⟨n, scope⟩ := Δ
  simp only [set, mk.injEq, true_and]
  funext r'
  split <;> simp [*]

@[simp] theorem scope_push (F : Frame W) :
    (Δ.push r F).scope r = ⟨F :: (Δ.scope r).frames⟩ := scope_set ..

theorem set_push (F : Frame W) (Γ : Scope W) : (Δ.push r F).set r Γ = Δ.set r Γ :=
  set_set ..

/-- One more environment. -/
def alloc (Γ : Scope W) : Stacks W :=
  ⟨Δ.size + 1, fun r' => if r' = Δ.size then Γ else Δ.scope r'⟩

@[simp] theorem size_alloc (Γ : Scope W) : (Δ.alloc Γ).size = Δ.size + 1 := rfl

/-- The innermost frame of a stack can be seen as one that has been put there. -/
theorem eq_push {F : Frame W} {fs : List (Frame W)} (h : Δ.scope r = ⟨F :: fs⟩) :
    Δ = (Δ.set r ⟨fs⟩).push r F := by
  rw [push, set_set, scope_set, ← h, set_scope]

end Stacks

/-- The environments of a store have the frames of `Δ`, with related contents. -/
structure Store.Shows (R : Value → W → Prop) (Δ : Stacks W) (s : Store) : Prop where
  size : s.envs.size = Δ.size
  related : ∀ r, Scope.Related R (s.env r) (Δ.scope r)

namespace Store.Shows

variable {R : Value → W → Prop} {Δ : Stacks W} {s : Store} {r : EnvRef}

theorem mono {R' : Value → W → Prop} (hR : ∀ v w, R v w → R' v w) (h : Shows R Δ s) :
    Shows R' Δ s :=
  ⟨h.size, fun r => (h.related r).mono hR⟩

theorem setEnv (h : Shows R Δ s) (hr : r < Δ.size) {e : Environment} {Γ : Scope W}
    (he : Scope.Related R e Γ) : Shows R (Δ.set r Γ) (s.setEnv r e) := by
  refine ⟨by simpa using h.size, ?_⟩
  intro r'
  rw [s.env_setEnv (h.size ▸ hr)]
  by_cases hr' : r' = r
  · subst hr'
    rwa [if_pos rfl, Stacks.scope_set]
  · rw [if_neg hr', Stacks.scope_set_of_ne _ _ _ hr']
    exact h.related r'

theorem allocate (h : Shows R Δ s) {e : Environment} {Γ : Scope W}
    (he : Scope.Related R e Γ) :
    (s.allocate e).1 = Δ.size ∧ Shows R (Δ.alloc Γ) (s.allocate e).2 := by
  refine ⟨h.size, by simp [Store.allocate, h.size], ?_⟩
  intro r
  rw [s.env_allocate, h.size]
  show Scope.Related R _ (if r = Δ.size then Γ else Δ.scope r)
  split
  · exact he
  · exact h.related r

end Store.Shows

/-! ### Steps on an environment -/

namespace Run

variable {R : Value → W → Prop} {Δ : Stacks W} {r : EnvRef} {L : RuntimeError → Store → Prop}
  {A : α → Prop} {E : RuntimeError → Prop}

open Store (Shows)

theorem triple_env {I : Store → Prop} :
    Triple I (env r) (fun e s => e = s.env r ∧ I s) L := by
  rintro s res s' hs ⟨⟩
  exact ⟨rfl, hs⟩

/-- A name is looked up in an environment as in its stack. -/
theorem keeps_env : Keeps (Shows R Δ) (env r) (Scope.Related R · (Δ.scope r)) E :=
  triple_env.mono (fun _ h => h) (fun _ _ ⟨he, hs⟩ => ⟨he ▸ hs.related r, hs⟩) fun _ _ h => h

theorem triple_declare (hr : r < Δ.size) {F : Frame W} {x : String} {v : Value} {w : W}
    {span : Span} (hv : R v w) :
    Triple (Shows R (Δ.push r F)) (onEnvAt r span (·.declare x v))
      (fun _ s => x ∉ F.names ∧ Shows R (Δ.push r ((x, w) :: F)) s)
      (fun e s => (x ∈ F.names ∧ e = .duplicate x span) ∧ Shows R (Δ.push r F) s) := by
  intro s res s' hs h
  have hrel := hs.related r
  rw [Stacks.scope_push] at hrel
  rcases he : s.env r with ⟨_ | ⟨f, fs⟩⟩
  · rw [he] at hrel
    cases hrel
  rw [he] at hrel
  obtain ⟨hf, hfs⟩ := List.forall₂_cons.mp hrel
  by_cases hx : x ∈ f.names
  · rw [onEnvAt, he, Scope.declare_of_mem v hx] at h
    cases h
    exact ⟨⟨hf.names_eq ▸ hx, rfl⟩, hs⟩
  · rw [onEnvAt, he, Scope.declare_of_not_mem v hx] at h
    cases h
    refine ⟨hf.names_eq ▸ hx, ?_⟩
    have := hs.setEnv (Γ := ⟨((x, w) :: F) :: (Δ.scope r).frames⟩) hr
      (show Scope.Related R ⟨((x, v) :: f) :: fs⟩ _ from .cons (hf.cons hx hv) hfs)
    rwa [Stacks.set_push] at this

theorem keeps_assign (hr : r < Δ.size) {x : String} {v : Value} {w : W} {span : Span}
    (hx : (Δ.scope r).get? x = some w) (hv : R v w) :
    Keeps (Shows R Δ) (onEnvAt r span (·.assign x v)) (fun _ => True) E := by
  intro s res s' hs h
  obtain ⟨e, he, hrel⟩ := (hs.related r).assign hx hv
  rw [onEnvAt, he] at h
  cases h
  have := hs.setEnv hr hrel
  rw [Stacks.set_scope] at this
  exact ⟨trivial, this⟩

/-- What is run in a frame of its own, and declares things only there, leaves
the stacks as they were. -/
theorem keeps_inFrame (hr : r < Δ.size) {body : Run α}
    (h : Triple (Shows R (Δ.push r [])) body
      (fun a s => A a ∧ ∃ F, Shows R (Δ.push r F) s)
      (fun e s => E e ∧ ∃ F, Shows R (Δ.push r F) s)) :
    Keeps (Shows R Δ) (inFrame r body) A E := by
  intro s res s' hs hp
  -- there is a frame to leave, and those below it are as they were
  have hexit : ∀ {F s₁}, Shows R (Δ.push r F) s₁ →
      ∃ e, (s₁.env r).exit = .ok e ∧ Shows R Δ (s₁.setEnv r e) := by
    intro F s₁ h₁
    have hrel := h₁.related r
    rw [Stacks.scope_push] at hrel
    rcases he : s₁.env r with ⟨_ | ⟨f, fs⟩⟩
    · rw [he] at hrel
      cases hrel
    rw [he] at hrel
    have := h₁.setEnv hr (show Scope.Related R ⟨fs⟩ (Δ.scope r) from
      (List.forall₂_cons.mp hrel).2)
    rw [Stacks.set_push, Stacks.set_scope] at this
    exact ⟨⟨fs⟩, rfl, this⟩
  have henter : Shows R (Δ.push r []) (s.setEnv r (s.env r).enter) :=
    hs.setEnv hr (hs.related r).enter
  obtain ⟨res₁, s₁, hb, hend⟩ := inFrame_cases hp
  have h₁ := h henter hb
  obtain ⟨hres, F, hF⟩ : (match res₁ with | .ok a => A a | .error e => E e) ∧
      ∃ F, Shows R (Δ.push r F) s₁ := by
    cases res₁ with
    | ok a => exact h₁
    | error e => exact h₁
  obtain ⟨e, he, h₂⟩ := hexit hF
  rcases hend with ⟨e', he', rfl, rfl⟩ | ⟨err, _, herr, -, -⟩
  · cases he.symm.trans he'
    cases res with
    | ok a => exact ⟨hres, h₂⟩
    | error err => exact ⟨hres, h₂⟩
  · cases he.symm.trans herr

/-! ### Declaring -/

theorem triple_runDecls (hr : r < Δ.size) {F : Frame W} {ds : List Decl} {ws : List W}
    (hnd : (declaredNames ds).Nodup)
    (hws : List.Forall₂ (fun d w => R (.default d.type) w) ds ws) :
    Triple (Shows R (Δ.push r F)) (runDecls r ds)
      (fun _ s => F.names.Disjoint (declaredNames ds) ∧ Shows R (Δ.push r (F.declared ds ws)) s)
      (fun e s => (∃ d ∈ ds, d.name.name ∈ F.names ∧ e = .duplicate d.name.name d.span) ∧
        ∃ F, Shows R (Δ.push r F) s) := by
  induction hws generalizing F with
  | nil => exact triple_pure fun _ hs => ⟨List.disjoint_nil_right _, hs⟩
  | @cons d w ds ws hw _ ih =>
    obtain ⟨hd, hnd⟩ := List.nodup_cons.mp hnd
    refine Triple.bind ((triple_declare hr hw).mono (fun _ h => h) (fun _ _ h => h) ?_) fun _ => ?_
    · rintro e s ⟨⟨hx, rfl⟩, hs⟩
      exact ⟨⟨d, List.mem_cons_self, hx, rfl⟩, F, hs⟩
    · refine .of_pre (fun _ h => h.1) fun hx => (ih hnd).mono (fun _ h => h.2) ?_ ?_
      · rintro _ s ⟨hdis, hs⟩
        refine ⟨fun x hxF hxd => ?_, by rwa [Frame.declared_cons]⟩
        rcases List.mem_cons.mp hxd with rfl | hxd
        · exact hx hxF
        · exact hdis (List.mem_cons_of_mem _ hxF) hxd
      · rintro e s ⟨⟨d', hd', hm, he⟩, hs⟩
        refine ⟨⟨d', List.mem_cons_of_mem _ hd', ?_, he⟩, hs⟩
        -- the declarations differ from each other, so the name was there before
        refine (List.mem_cons.mp hm).resolve_left fun heq => hd ?_
        exact heq ▸ List.mem_map_of_mem hd'

/-- Declaring one variable is declaring a list of one. -/
theorem runDecls_singleton (r : EnvRef) (d : Decl) : runDecls r [d] = d.run r := by
  funext s
  show Run.bind (d.run r) (fun _ => pure ()) s = d.run r s
  unfold Run.bind
  rcases d.run r s with - | ⟨_ | _, _⟩ <;> rfl

theorem triple_bindParams (hr : r < Δ.size) {F : Frame W} {ds : List Decl}
    {vs : List Value}
    {ws : List W} (hnd : (declaredNames ds).Nodup) (hdis : F.names.Disjoint (declaredNames ds))
    (hlen : ws.length = ds.length) (hvs : List.Forall₂ R vs ws) :
    Triple (Shows R (Δ.push r F)) (bindParams r ds vs)
      (fun _ => Shows R (Δ.push r (F.declared ds ws))) L := by
  induction ds generalizing F vs ws with
  | nil => exact triple_pure fun _ hs => hs
  | cons d ds ih =>
    cases hvs with
    | nil => cases hlen
    | @cons v w vs ws hv hvs =>
      obtain ⟨hd, hnd⟩ := List.nodup_cons.mp hnd
      refine Triple.bind (K := fun _ => Shows R (Δ.push r ((d.name.name, w) :: F)))
        ((triple_declare hr hv).mono (fun _ h => h) (fun _ _ h => h.2) ?_) fun _ => ?_
      · rintro e s ⟨⟨hx, -⟩, -⟩
        exact absurd List.mem_cons_self (hdis hx)
      · refine (ih hnd (fun x hxF hxd => ?_) (by simpa using hlen) hvs).mono (fun _ h => h) ?_
          fun _ _ h => h
        · rcases List.mem_cons.mp hxF with rfl | hxF
          · exact hd hxd
          · exact hdis hxF (List.mem_cons_of_mem _ hxd)
        · intro _ s hs
          rwa [Frame.declared_cons]

end Run

/-- A frame with a name declared in it, unless it has the name already. -/
def Frame.declareNew {V : Type} (f : Frame V) (name : String) (v : V) : Frame V :=
  if f.has name then f else (name, v) :: f

theorem Frame.mem_names_declareNew {V : Type} {f : Frame V} {name : String} {v : V}
    {x : String} : x ∈ (f.declareNew name v).names ↔ x = name ∨ x ∈ f.names := by
  rw [declareNew]
  split
  · next h =>
    refine ⟨Or.inr, fun hx => hx.elim (fun hx => ?_) id⟩
    exact hx ▸ has_iff.mp h
  · rw [names_cons, List.mem_cons]

/-- The frame of a call: the parameters, the function itself unless a parameter
has its name, and the variables at the top of the body. -/
def FunDef.callFrame (f : FunDef) (args : List W) (self : W) (locals : List W) :
    Frame W :=
  ((Frame.declared [] f.params args).declareNew f.name.name self).declared
    f.body.declarations locals

/-- Before the body of a function declares anything, the frame of a call has the
names of the parameters and the function's own. -/
theorem FunDef.mem_names_entered {f : FunDef} {args : List W}
    (hlen : args.length = f.params.length) (self : W) {x : String} :
    x ∈ ((Frame.declared [] f.params args).declareNew f.name.name self).names ↔
      x = f.name.name ∨ x ∈ declaredNames f.params := by
  rw [Frame.mem_names_declareNew, Frame.names_declared _ hlen, Frame.names_nil, List.append_nil,
    List.mem_reverse]

namespace Run

variable {R : Value → W → Prop} {Δ : Stacks W} {r : EnvRef} {L : RuntimeError → Store → Prop}

open Store (Shows)

theorem triple_bindSelf (hr : r < Δ.size) {F : Frame W} {f : FunDef} {w : W}
    (hw : R (.closure f r) w) :
    Triple (Shows R (Δ.push r F)) (f.bindSelf r)
      (fun _ => Shows R (Δ.push r (F.declareNew f.name.name w))) L := by
  refine Triple.bind (Triple.mono (keeps_env (E := fun _ => False)) (fun _ h => h)
    (fun _ _ h => h) fun _ _ h => h.1.elim) fun e => ?_
  refine .of_pre (fun _ h => h.1) fun hrel => ?_
  -- the environment has the name in its innermost frame exactly if the stack has
  have hhas : e.isDeclaredLocally f.name.name = F.has f.name.name := by
    rw [Stacks.scope_push] at hrel
    obtain ⟨_ | ⟨g, gs⟩⟩ := e
    · cases hrel
    · have hg := (List.forall₂_cons.mp hrel).1
      rw [Bool.eq_iff_iff]
      show g.has _ = true ↔ _
      rw [Frame.has_iff, Frame.has_iff, hg.names_eq]
  show Triple _ (if e.isDeclaredLocally f.name.name = true then pure () else _) _ _
  rw [hhas, Frame.declareNew]
  split
  · exact triple_pure fun _ h => h.2
  · next hF =>
    refine (triple_declare hr hw).mono (fun _ h => h.2) (fun _ _ h => h.2) fun e s h => ?_
    exact absurd (Frame.has_iff.mpr h.1.1) hF

variable {A : Value → Prop} {B : Flow → Prop} {E : RuntimeError → Prop}

/-- A call binds the parameters, the function itself and the variables of the
body, and fails at that only if the body declares the function's own name
again. -/
theorem keeps_invoke (hr : r < Δ.size) {f : FunDef} {vs : List Value}
    {args locals : List W} {self : W} {fuel : Nat} (hnd : (declaredNames f.params).Nodup)
    (hnd' : (declaredNames f.body.declarations).Nodup)
    (hdis : (declaredNames f.params).Disjoint (declaredNames f.body.declarations))
    (hlen : args.length = f.params.length) (hvs : List.Forall₂ R vs args)
    (hself : R (.closure f r) self)
    (hlocals : List.Forall₂ (fun d w => R (.default d.type) w) f.body.declarations locals)
    (hbody : ¬ f.RedeclaresSelf → Keeps (Shows R (Δ.push r (f.callFrame args self locals)))
      (execAll fuel r f.body.statements) B E)
    (hdup : f.RedeclaresSelf → ∀ span, E (.duplicate f.name.name span))
    (hret : ∀ v, B (.returning v) → A v)
    (hend : B .completed → E (.missingReturn f.name.name f.span)) :
    Keeps (Shows R Δ) (f.invoke (fuel + 1) r vs) A E := by
  rw [FunDef.invoke]
  refine Keeps.bind (A := B) (keeps_inFrame hr ?_) fun flow hflow => ?_
  · refine (triple_bindParams hr hnd (by simp [List.disjoint_nil_left]) hlen hvs).bind fun _ => ?_
    refine (triple_bindSelf hr hself).bind fun _ => ?_
    refine Triple.bind ((triple_runDecls hr hnd' hlocals).mono (fun _ h => h) (fun _ _ h => h) ?_)
      fun _ => .of_pre (fun _ h => h.1) fun hdis' => ?_
    · rintro e s ⟨⟨d, hd, hm, rfl⟩, hs⟩
      have hdm : d.name.name ∈ declaredNames f.body.declarations := List.mem_map_of_mem hd
      -- the frame has the parameters already, which differ from the variables of the body
      have heq := ((f.mem_names_entered hlen self).mp hm).resolve_right fun h => hdis h hdm
      rw [heq] at hdm ⊢
      exact ⟨hdup hdm d.span, hs⟩
    · have hns : ¬ f.RedeclaresSelf :=
        fun h => hdis' ((f.mem_names_entered hlen self).mpr (Or.inl rfl)) h
      exact Triple.mono (hbody hns) (fun _ h => h.2) (fun _ _ h => ⟨h.1, _, h.2⟩)
        fun _ _ h => ⟨h.1, _, h.2⟩
  · cases flow with
    | completed => exact keeps_fail (hend hflow)
    | returning v => exact keeps_pure (hret v hflow)

/-- Defining a function makes an environment for its closure, a copy of the one
that it is declared in. -/
theorem triple_define {R' : Value → W → Prop} (hr : r < Δ.size)
    (hR : ∀ v w, R v w → R' v w)
    {G : Frame W} {fs : List (Frame W)} (hG : Δ.scope r = ⟨G :: fs⟩) {f : FunDef} {w : W}
    (hw : R' (.closure f Δ.size) w) (hf : f.name.name ∉ G.names) :
    Triple (Shows R Δ) (f.define r)
      (fun _ => Shows R' ((Δ.alloc ⟨G :: fs⟩).set r ⟨((f.name.name, w) :: G) :: fs⟩)) L := by
  intro s res s' hs h
  -- the copy is made first, so the name is not in the environment of the closure
  have hrel := (hs.related r).mono hR
  obtain ⟨howned, hs₁⟩ := (hs.mono hR).allocate hrel
  rw [hG] at hrel hs₁
  rcases he : s.env r with ⟨_ | ⟨g, gs⟩⟩
  · rw [he] at hrel
    cases hrel
  rw [he] at hrel hs₁ howned
  obtain ⟨hg, hgs⟩ := List.forall₂_cons.mp hrel
  have hfg : f.name.name ∉ g.names := fun h => hf (hg.names_eq ▸ h)
  simp only [FunDef.define, he, Scope.declare_of_not_mem _ hfg, howned] at h
  obtain ⟨rfl, rfl⟩ := Prod.mk.inj (Option.some.inj h)
  exact hs₁.setEnv (Nat.lt_succ_of_lt hr)
    (show Scope.Related R' ⟨((f.name.name, _) :: g) :: gs⟩ _ from .cons (hg.cons hfg hw) hgs)

end Run

end Implet
