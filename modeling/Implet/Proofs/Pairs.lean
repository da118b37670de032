/-
Implet/Proofs/Pairs.lean

What can be said about two runs side by side.  `Run.Alike I p p' K L` says that
from stores that `I` relates two runs end in the same way: neither has fuel
left, or both end with values, and `K` holds of these and the stores, or both
end with errors, and `L` holds.  There is one rule for each way in which runs
are put together, as for a single run.

The stores have the same environments, related layer by layer (`Store.Renamed`),
and the errors are the same up to the renamed name.
-/
import Mathlib.Logic.Function.Basic
import Implet.Proofs.Layers
import Implet.Proofs.Runs

namespace Implet

/-- Two runtime errors are the same up to the renamed name. -/
inductive RuntimeError.Renamed (ν : Renaming) : RuntimeError → RuntimeError → Prop
  | same (e : RuntimeError) : Renamed ν e e
  | undeclared (on : Bool) (x : String) (span : Span) :
    Renamed ν (.undeclared x span) (.undeclared (ν.name on x) span)
  | duplicate (on : Bool) (x : String) (span : Span) :
    Renamed ν (.duplicate x span) (.duplicate (ν.name on x) span)
  | notAFunction (on : Bool) (x kind : String) (span : Span) :
    Renamed ν (.notAFunction x kind span) (.notAFunction (ν.name on x) kind span)
  | arity (on : Bool) (x : String) (expected got : Nat) (span : Span) :
    Renamed ν (.arity x expected got span) (.arity (ν.name on x) expected got span)
  | uninitialized (on : Bool) (x : String) (span : Span) :
    Renamed ν (.uninitialized x span) (.uninitialized (ν.name on x) span)

/-! ### Pairs of runs -/

namespace Run

variable {α β : Type} {I J : Store → Store → Prop} {K K' : α → α → Store → Store → Prop}
  {L L' : RuntimeError → RuntimeError → Store → Store → Prop}

/-- From stores with `I`, two runs end with what `K` says of their values and
stores, or both with an error and what `L` says, unless the fuel does not
suffice for either. -/
def Alike (I : Store → Store → Prop) (p p' : Run α) (K : α → α → Store → Store → Prop)
    (L : RuntimeError → RuntimeError → Store → Store → Prop) : Prop :=
  ∀ ⦃s s'⦄, I s s' → match p s, p' s' with
    | none, none => True
    | some (.ok a, t), some (.ok a', t') => K a a' t t'
    | some (.error e, t), some (.error e', t') => L e e' t t'
    | _, _ => False

theorem alike_pure {a a' : α} (h : ∀ s s', I s s' → K a a' s s') :
    Alike I (pure a) (pure a') K L := fun s s' hs => h s s' hs

theorem alike_fail {e e' : RuntimeError} (h : ∀ s s', I s s' → L e e' s s') :
    Alike I (fail e : Run α) (fail e') K L := fun s s' hs => h s s' hs

theorem alike_outOfFuel :
    Alike I (outOfFuel : Run α) outOfFuel K L := fun _ _ _ => trivial

/-- How two runs can end that are alike. -/
theorem Alike.cases {p p' : Run α} (h : Alike I p p' K L) {s s' : Store} (hs : I s s') :
    (p s = none ∧ p' s' = none) ∨
    (∃ a a' t t', p s = some (.ok a, t) ∧ p' s' = some (.ok a', t') ∧ K a a' t t') ∨
    ∃ e e' t t', p s = some (.error e, t) ∧ p' s' = some (.error e', t') ∧ L e e' t t' := by
  have hpp := h hs
  rcases hp : p s with - | ⟨_ | a, t⟩ <;> rcases hp' : p' s' with - | ⟨_ | a', t'⟩ <;>
    rw [hp, hp'] at hpp <;> first | exact hpp.elim | skip
  · exact Or.inl ⟨rfl, rfl⟩
  · exact Or.inr (Or.inr ⟨_, _, _, _, rfl, rfl, hpp⟩)
  · exact Or.inr (Or.inl ⟨_, _, _, _, rfl, rfl, hpp⟩)

theorem Alike.bind {p p' : Run α} {f f' : α → Run β} {M : β → β → Store → Store → Prop}
    (hp : Alike I p p' K L) (hf : ∀ a a', Alike (K a a') (f a) (f' a') M L) :
    Alike I (p >>= f) (p' >>= f') M L := by
  intro s s' hs
  have hrun : ∀ (p : Run α) (f : α → Run β) s, (p >>= f) s = Run.bind p f s := fun _ _ _ => rfl
  rw [hrun, hrun, Run.bind, Run.bind]
  rcases hp.cases hs with ⟨h, h'⟩ | ⟨a, a', t, t', h, h', hk⟩ | ⟨e, e', t, t', h, h', hl⟩
  · rw [h, h']
    trivial
  · rw [h, h']
    exact hf a a' hk
  · rw [h, h']
    exact hl

theorem Alike.mono {p p' : Run α} (h : Alike I p p' K L) (hI : ∀ s s', J s s' → I s s')
    (hK : ∀ a a' s s', K a a' s s' → K' a a' s s')
    (hL : ∀ e e' s s', L e e' s s' → L' e e' s s') : Alike J p p' K' L' := by
  intro s s' hs
  rcases h.cases (hI s s' hs) with ⟨h, h'⟩ | ⟨a, a', t, t', h, h', hk⟩ | ⟨e, e', t, t', h, h', hl⟩
  · rw [h, h']
    trivial
  · rw [h, h']
    exact hK a a' t t' hk
  · rw [h, h']
    exact hL e e' t t' hl

/-- A fact that the stores imply can be used to compare the runs. -/
theorem Alike.of_pre {p p' : Run α} {P : Prop} (hP : ∀ s s', I s s' → P)
    (h : P → Alike I p p' K L) : Alike I p p' K L := fun s s' hs => h (hP s s' hs) hs

/-- Two runs in frames of their own, which can be left when the runs are over. -/
theorem Alike.inFrame {J' I' : Store → Store → Prop} {A : α → α → Prop}
    {E : RuntimeError → RuntimeError → Prop} {p p' : Run α} {r : EnvRef}
    (henter : ∀ s t, I s t → J (s.setEnv r (s.env r).enter) (t.setEnv r (t.env r).enter))
    (hexit : ∀ s t, J' s t → ∃ e e', (s.env r).exit = .ok e ∧ (t.env r).exit = .ok e' ∧
      I' (s.setEnv r e) (t.setEnv r e'))
    (h : Alike J p p' (fun a a' s t => A a a' ∧ J' s t) fun e e' s t => E e e' ∧ J' s t) :
    Alike I (inFrame r p) (inFrame r p') (fun a a' s t => A a a' ∧ I' s t)
      fun e e' s t => E e e' ∧ I' s t := by
  intro s t hs
  rw [Run.inFrame, Run.inFrame]
  rcases h.cases (henter s t hs) with ⟨h, h'⟩ | ⟨a, a', s₁, t₁, h, h', ha, h₁⟩ |
    ⟨e, e', s₁, t₁, h, h', he, h₁⟩
  · rw [h, h']
    trivial
  · obtain ⟨u, u', hu, hu', hend⟩ := hexit s₁ t₁ h₁
    rw [h, h']
    simp only [hu, hu']
    exact ⟨ha, hend⟩
  · obtain ⟨u, u', hu, hu', hend⟩ := hexit s₁ t₁ h₁
    rw [h, h']
    simp only [hu, hu']
    exact ⟨he, hend⟩

/-- Two runs keep what relates their stores, and end with values that `A`
relates or with the same error up to the renamed name. -/
def Twins (ν : Renaming) (I : Store → Store → Prop) (p p' : Run α) (A : α → α → Prop) :
    Prop :=
  Alike I p p' (fun a a' s s' => A a a' ∧ I s s') (fun e e' s s' => e.Renamed ν e' ∧ I s s')

variable {ν : Renaming} {A A' : α → α → Prop} {B : β → β → Prop}

theorem twins_pure {a a' : α} (h : A a a') : Twins ν I (pure a) (pure a') A :=
  alike_pure fun _ _ hs => ⟨h, hs⟩

theorem twins_fail {e e' : RuntimeError} (h : e.Renamed ν e') :
    Twins ν I (fail e : Run α) (fail e') A := alike_fail fun _ _ hs => ⟨h, hs⟩

theorem Twins.bind {p p' : Run α} {f f' : α → Run β} (hp : Twins ν I p p' A)
    (hf : ∀ a a', A a a' → Twins ν I (f a) (f' a') B) : Twins ν I (p >>= f) (p' >>= f') B :=
  Alike.bind hp fun a a' => .of_pre (fun _ _ h => h.1) fun ha => Alike.mono (hf a a' ha)
    (fun _ _ h => h.2) (fun _ _ _ _ h => h) fun _ _ _ _ h => h

end Run

/-! ### Pairs of stores -/

/-- Layers for each environment. -/
abbrev Layers := EnvRef → List Layer

/-- One more layer for one environment. -/
def Layers.push (K : Layers) (r : EnvRef) (l : Layer) : Layers :=
  Function.update K r (l :: K r)

/-- The environments of two stores are related layer by layer. -/
structure Store.Renamed (ν : Renaming) (R : Value → Value → Prop) (n : Nat) (K : Layers)
    (s s' : Store) : Prop where
  size : s.envs.size = n
  size_renamed : s'.envs.size = n
  related : ∀ r, Scope.Renamed ν R (K r) (s.env r) (s'.env r)

namespace Store.Renamed

variable {ν : Renaming} {R : Value → Value → Prop} {n : Nat} {K : Layers} {s s' : Store}
  {r : EnvRef}

theorem setEnv (h : Renamed ν R n K s s') (hr : r < n) {e e' : Environment}
    {ls : List Layer} (he : Scope.Renamed ν R ls e e') :
    Renamed ν R n (Function.update K r ls) (s.setEnv r e) (s'.setEnv r e') := by
  refine ⟨by simpa using h.size, by simpa using h.size_renamed, ?_⟩
  intro r'
  rw [s.env_setEnv (h.size ▸ hr), s'.env_setEnv (h.size_renamed ▸ hr)]
  by_cases hr' : r' = r
  · subst hr'
    rwa [if_pos rfl, if_pos rfl, Function.update_self]
  · rw [if_neg hr', if_neg hr', Function.update_of_ne hr']
    exact h.related r'

theorem mono {R' : Value → Value → Prop} (hR : ∀ v v', R v v' → R' v v')
    (h : Renamed ν R n K s s') : Renamed ν R' n K s s' :=
  ⟨h.size, h.size_renamed, fun r => (h.related r).mono hR⟩

/-- One more environment in both stores has the same number in both. -/
theorem allocate (h : Renamed ν R n K s s') {e e' : Environment} {ls : List Layer}
    (he : Scope.Renamed ν R ls e e') : (s.allocate e).1 = n ∧ (s'.allocate e').1 = n ∧
      Renamed ν R (n + 1) (Function.update K n ls) (s.allocate e).2 (s'.allocate e').2 := by
  have henv : ∀ (s : Store) e r, s.envs.size = n →
      (s.allocate e).2.env r = if r = n then e else s.env r := by
    intro s e r hs
    simp only [Store.allocate, Store.env, Array.getD_eq_getD_getElem?, Array.getElem?_push, hs]
    split <;> rfl
  refine ⟨h.size, h.size_renamed, by simp [Store.allocate, h.size],
    by simp [Store.allocate, h.size_renamed], fun r => ?_⟩
  rw [henv s e r h.size, henv s' e' r h.size_renamed]
  by_cases hr : r = n
  · subst hr
    rwa [if_pos rfl, if_pos rfl, Function.update_self]
  · rw [if_neg hr, if_neg hr, Function.update_of_ne hr]
    exact h.related r

theorem related_push {l : Layer} (h : Renamed ν R n (K.push r l) s s') :
    Scope.Renamed ν R (l :: K r) (s.env r) (s'.env r) := by
  have hrel := h.related r
  rwa [Layers.push, Function.update_self] at hrel

/-- Another innermost frame. -/
theorem setEnv_push {l l' : Layer} (h : Renamed ν R n (K.push r l) s s') (hr : r < n)
    {e e' : Environment} (he : Scope.Renamed ν R (l' :: K r) e e') :
    Renamed ν R n (K.push r l') (s.setEnv r e) (s'.setEnv r e') := by
  have hs := h.setEnv hr he
  rwa [Layers.push, Function.update_idem] at hs

/-- No innermost frame. -/
theorem setEnv_pop {l : Layer} (h : Renamed ν R n (K.push r l) s s') (hr : r < n)
    {e e' : Environment} (he : Scope.Renamed ν R (K r) e e') :
    Renamed ν R n K (s.setEnv r e) (s'.setEnv r e') := by
  have hs := h.setEnv hr he
  rwa [Layers.push, Function.update_idem, Function.update_eq_self] at hs

end Store.Renamed

namespace Run

variable {ν : Renaming} {R : Value → Value → Prop} {n : Nat} {K : Layers} {r : EnvRef}
  {l : Layer} {α : Type} {A : α → α → Prop}

theorem twins_env : Twins ν (Store.Renamed ν R n K) (env r) (env r)
    (Scope.Renamed ν R (K r)) := fun _ _ h => ⟨h.related r, h⟩

theorem alike_declare (hr : r < n) {x : String} (hx : x ≠ ν.new) {v v' : Value}
    (hv : R v v') (span : Span) :
    Alike (Store.Renamed ν R n (K.push r l)) (onEnvAt r span (·.declare x v))
      (onEnvAt r span (·.declare (ν.name l.renamed x) v'))
      (fun _ _ => Store.Renamed ν R n (K.push r (l.declare x)))
      (fun e e' s s' => e.Renamed ν e' ∧ Store.Renamed ν R n (K.push r l) s s') := by
  intro s s' hs
  rcases hs.related_push.declare hx hv with ⟨h, h'⟩ | ⟨e, e', h, h', he⟩
  · rw [onEnvAt, onEnvAt, h, h']
    exact ⟨.duplicate _ x span, hs⟩
  · rw [onEnvAt, onEnvAt, h, h']
    exact hs.setEnv_push hr he

theorem twins_assign (hr : r < n) {x : String} (hx : x ≠ ν.new) {on : Bool}
    (hon : x = ν.old → ν.isOn (K r) = on) {v v' : Value} (hv : R v v') (span : Span) :
    Twins ν (Store.Renamed ν R n K) (onEnvAt r span (·.assign x v))
      (onEnvAt r span (·.assign (ν.name on x) v')) (fun _ _ => True) := by
  intro s s' hs
  rcases (hs.related r).assign hx hon hv with ⟨h, h'⟩ | ⟨e, e', h, h', he⟩
  · rw [onEnvAt, onEnvAt, h, h']
    exact ⟨.undeclared on x span, hs⟩
  · rw [onEnvAt, onEnvAt, h, h']
    have hs' := hs.setEnv hr he
    rw [Function.update_eq_self] at hs'
    exact ⟨trivial, hs'⟩

/-- Runs in frames of their own, with a layer that says which names are declared
there. -/
theorem twins_inFrame (hr : r < n) (on : Bool) {p p' : Run α}
    (h : Alike (Store.Renamed ν R n (K.push r ⟨[], on⟩)) p p'
      (fun a a' s s' => A a a' ∧ ∃ l, Store.Renamed ν R n (K.push r l) s s')
      (fun e e' s s' => e.Renamed ν e' ∧ ∃ l, Store.Renamed ν R n (K.push r l) s s')) :
    Twins ν (Store.Renamed ν R n K) (inFrame r p) (inFrame r p') A := by
  refine Alike.inFrame (fun s s' hs => hs.setEnv hr ((hs.related r).enter on)) ?_ h
  -- leaving the frames leads back to the layers that there were
  rintro t t' ⟨l, ht⟩
  have hrel := ht.related_push
  rcases he : t.env r with ⟨fs⟩
  rcases he' : t'.env r with ⟨fs'⟩
  rw [he, he'] at hrel
  cases hrel with
  | cons _ hfs => exact ⟨_, _, rfl, rfl, ht.setEnv_pop hr hfs⟩

/-- Declarations change only the names of the innermost layer, also if one of
them fails. -/
theorem alike_runDecls (hr : r < n) (hR : ∀ t, R (.default t) (.default t))
    {ds : List Decl} (hnew : ν.new ∉ declaredNames ds) :
    Alike (Store.Renamed ν R n (K.push r l)) (runDecls r ds)
      (runDecls r (ds.map (Decl.rename ν l.renamed)))
      (fun _ _ => Store.Renamed ν R n (K.push r (l.declared ds)))
      (fun e e' s s' => e.Renamed ν e' ∧
        ∃ l', l'.renamed = l.renamed ∧ Store.Renamed ν R n (K.push r l') s s') := by
  induction ds generalizing l with
  | nil => exact alike_pure fun _ _ hs => hs
  | cons d ds ih =>
    obtain ⟨hd, hds⟩ := not_or.mp fun h => hnew (List.mem_cons.mpr h)
    rw [Layer.declared_cons, List.map_cons, runDecls, runDecls]
    refine Alike.bind ?_ fun _ _ => ih (l := l.declare d.name.name) hds
    exact (alike_declare hr (Ne.symm hd) (hR d.type) d.span).mono (fun _ _ h => h)
      (fun _ _ _ _ h => h) fun _ _ _ _ h => ⟨h.1, l, rfl, h.2⟩

/-- Declarations in a frame that is going to be left. -/
theorem alike_runDecls_inner (hr : r < n) (hR : ∀ t, R (.default t) (.default t))
    {ds : List Decl} (hnew : ν.new ∉ declaredNames ds) :
    Alike (Store.Renamed ν R n (K.push r l)) (runDecls r ds)
      (runDecls r (ds.map (Decl.rename ν l.renamed)))
      (fun _ _ => Store.Renamed ν R n (K.push r (l.declared ds)))
      (fun e e' s s' => e.Renamed ν e' ∧ ∃ l, Store.Renamed ν R n (K.push r l) s s') :=
  (alike_runDecls hr hR hnew).mono (fun _ _ h => h) (fun _ _ _ _ h => h)
    fun _ _ _ _ ⟨he, l', _, hs⟩ => ⟨he, l', hs⟩

theorem alike_bindParams (hr : r < n) (hl : l.renamed = false) {ds : List Decl}
    (hnew : ν.new ∉ declaredNames ds) {vs vs' : List Value} (hvs : List.Forall₂ R vs vs')
    (hlen : vs.length = ds.length) :
    Alike (Store.Renamed ν R n (K.push r l)) (bindParams r ds vs) (bindParams r ds vs')
      (fun _ _ => Store.Renamed ν R n (K.push r (l.declared ds)))
      (fun e e' s s' => e.Renamed ν e' ∧ ∃ l, Store.Renamed ν R n (K.push r l) s s') := by
  induction ds generalizing l vs vs' with
  | nil => exact alike_pure fun _ _ hs => hs
  | cons d ds ih =>
    cases hvs with
    | nil => cases hlen
    | @cons v v' vs vs' hv hvs =>
      obtain ⟨hd, hds⟩ := not_or.mp fun h => hnew (List.mem_cons.mpr h)
      rw [Layer.declared_cons, bindParams, bindParams]
      refine Alike.bind ?_ fun _ _ =>
        ih (l := l.declare d.name.name) hl hds hvs (by simpa using hlen)
      have hdecl := alike_declare (K := K) (l := l) hr (Ne.symm hd) hv d.span
      rw [hl, Renaming.name_false] at hdecl
      exact hdecl.mono (fun _ _ h => h) (fun _ _ _ _ h => h) fun _ _ _ _ h => ⟨h.1, l, h.2⟩

theorem alike_bindSelf (hr : r < n) (hl : l.renamed = false) {f f' : FunDef}
    (hname : f'.name = f.name) (hnew : f.name.name ≠ ν.new)
    (hself : R (.closure f r) (.closure f' r)) :
    Alike (Store.Renamed ν R n (K.push r l)) (f.bindSelf r) (f'.bindSelf r)
      (fun _ _ => Store.Renamed ν R n (K.push r (l.declareNew f.name.name)))
      (fun e e' s s' => e.Renamed ν e' ∧ ∃ l, Store.Renamed ν R n (K.push r l) s s') := by
  rw [FunDef.bindSelf, FunDef.bindSelf, hname]
  refine Alike.bind (Alike.mono twins_env (fun _ _ h => h) (fun _ _ _ _ h => h)
    fun _ _ _ _ h => ⟨h.1, l, h.2⟩) fun e e' => .of_pre (fun _ _ h => h.1) fun he => ?_
  rw [Layers.push, Function.update_self] at he
  obtain ⟨hlocal, hlocal'⟩ := he.isDeclaredLocally hl hnew
  rw [hlocal', Layer.declareNew]
  by_cases hm : f.name.name ∈ l.names
  · rw [if_pos (hlocal.mpr hm), if_pos (hlocal.mpr hm), if_pos hm]
    exact alike_pure fun _ _ h => h.2
  · have hm' : ¬ e.isDeclaredLocally f.name.name = true := fun h => hm (hlocal.mp h)
    rw [if_neg hm', if_neg hm', if_neg hm]
    have hdecl := alike_declare (K := K) (l := l) hr hnew hself .empty
    rw [hl, Renaming.name_false] at hdecl
    exact hdecl.mono (fun _ _ h => h.2) (fun _ _ _ _ h => h) fun _ _ _ _ h => ⟨h.1, l, h.2⟩

end Run

end Implet
