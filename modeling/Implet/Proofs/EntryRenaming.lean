/-
Implet/Proofs/EntryRenaming.lean

Entries whose functions have renamed variables.  Between entries two stores are
at rest if the globals are in one frame, which is not renamed, and no block is
open anywhere (`Store.AtRest`).  An entry and the entry with renamed variables
lead from two stores at rest to two stores at rest, and to values that are the
same for all that can be told (`twins_entry`).
-/
import Implet.Proofs.RunRenaming

namespace Implet

open Run

/-- Renamed variables in functions that calls do not notice: where a block with
a call in it is renamed, the function has no use for a global of the old
name. -/
abbrev Renaming.Safe (ν : Renaming) (f : FunDef) : Prop := ¬ f.usesOuter ν.old

/-- Two values are the same, closures being of the same function up to renamed
variables. -/
inductive Value.Renamed (ν : Renaming) : Value → Value → Prop
  | same (v : Value) : Renamed ν v v
  | closure {f f' : FunDef} (r : EnvRef) : f.Renames ν (ν.Safe f) f' →
    Renamed ν (.closure f r) (.closure f' r)

variable {ν : Renaming} {Φ : Counterparts} {n : Nat} {K : Layers} {l : Layer}

theorem Value.Twin.renamed (hΦ : Φ.Valid ν n) {v v' : Value} (h : v.Twin Φ v') :
    v.Renamed ν v' := by
  cases h with
  | integer | boolean | uninitialized => exact .same _
  | closure hr => exact .closure _ (hΦ.renames hr)

theorem Value.Twin.mono {Φ' : Counterparts} (hΦ : ∀ r p, Φ r = some p → Φ' r = some p)
    {v v' : Value} (h : v.Twin Φ v') : v.Twin Φ' v' := by
  cases h with
  | integer n => exact .integer n
  | boolean b => exact .boolean b
  | uninitialized => exact .uninitialized
  | closure hr => exact .closure (hΦ _ _ hr)

/-! ### Stores between entries -/

/-- Layers between entries, with the globals in the layer `l`. -/
structure Counterparts.Rest (ν : Renaming) (Φ : Counterparts) (n : Nat) (K : Layers)
    (l : Layer) : Prop where
  valid : Φ.Valid ν n
  steady : Φ.Steady ν K
  inRange : Store.base < n
  base : Φ Store.base = none
  globals : K Store.base = [l]
  plain : l.renamed = false

/-- Two stores between entries, of code and of the code with renamed variables. -/
def Store.AtRest (ν : Renaming) (s s' : Store) : Prop :=
  ∃ Φ n K l, Counterparts.Rest ν Φ n K l ∧ Store.Renamed ν (Value.Twin Φ) n K s s'

namespace Counterparts.Rest

theorem isOn (h : Rest ν Φ n K l) : ν.isOn (K Store.base) = false := by
  rw [h.globals]
  exact Renaming.isOn_plain h.plain rfl

/-- Code outside any function is not renamed. -/
theorem place (h : Rest ν Φ n K l) (uses calls : Bool) :
    Place ν Φ n K uses calls false Store.base :=
  ⟨h.inRange, fun _ => h.isOn, fun _ => h.steady⟩

theorem ne_base (h : Rest ν Φ n K l) {r : EnvRef} {p : FunDef × FunDef}
    (hr : Φ r = some p) :
    r ≠ Store.base := by
  rintro rfl
  rw [h.base] at hr
  cases hr

/-- The globals can be seen as a frame that has been entered. -/
theorem eq_push (h : Rest ν Φ n K l) :
    K = Layers.push (Function.update K Store.base []) Store.base l := by
  rw [Layers.push, Function.update_self, Function.update_idem, ← h.globals,
    Function.update_eq_self]

/-- Other globals. -/
theorem setGlobals (h : Rest ν Φ n K l) (l' : Layer) (hl : l'.renamed = false) :
    Rest ν Φ n (Layers.push (Function.update K Store.base []) Store.base l') l' where
  valid := h.valid
  steady := by
    intro r f f' hr hu
    rw [Layers.push, Function.update_of_ne (h.ne_base hr), Function.update_of_ne (h.ne_base hr)]
    exact h.steady hr hu
  inRange := h.inRange
  base := h.base
  globals := by rw [Layers.push, Function.update_self, Function.update_self]
  plain := hl

/-- One more closure, with an environment in which there are the globals. -/
theorem define (h : Rest ν Φ n K l) {f f' : FunDef} (hf : f.Renames ν (ν.Safe f) f')
    (hnew : ν.new ∉ f.names) :
    Rest ν (Function.update Φ n (some (f, f'))) (n + 1) (Function.update K n [l]) l := by
  have hcases : ∀ {r g g'}, Function.update Φ n (some (f, f')) r = some (g, g') →
      (r = n ∧ g = f ∧ g' = f') ∨ (r ≠ n ∧ Φ r = some (g, g')) := by
    intro r g g' hr
    by_cases hn : r = n
    · subst hn
      rw [Function.update_self] at hr
      obtain ⟨rfl, rfl⟩ := Prod.mk.inj (Option.some.inj hr)
      exact Or.inl ⟨rfl, rfl, rfl⟩
    · rw [Function.update_of_ne hn] at hr
      exact Or.inr ⟨hn, hr⟩
  have hne : Store.base ≠ n := Nat.ne_of_lt h.inRange
  refine ⟨⟨fun hr => ?_, fun hr => ?_, fun hr => ?_⟩, fun {r g g'} hr hu => ?_,
    Nat.lt_succ_of_lt h.inRange, ?_, ?_, h.plain⟩
  · rcases hcases hr with ⟨rfl, -⟩ | ⟨-, hr⟩
    · exact Nat.lt_succ_self _
    · exact Nat.lt_succ_of_lt (h.valid.inRange hr)
  · rcases hcases hr with ⟨-, rfl, rfl⟩ | ⟨-, hr⟩
    · exact hf
    · exact h.valid.renames hr
  · rcases hcases hr with ⟨-, rfl, rfl⟩ | ⟨-, hr⟩
    · exact hnew
    · exact h.valid.fresh hr
  · rcases hcases hr with ⟨rfl, -⟩ | ⟨hn, hr⟩
    · rw [Function.update_self]
      exact Renaming.isOn_plain h.plain rfl
    · rw [Function.update_of_ne hn]
      exact h.steady hr hu
  · rw [Function.update_of_ne hne]
    exact h.base
  · rw [Function.update_of_ne hne]
    exact h.globals

end Counterparts.Rest

/-! ### Items -/

section

variable {α : Type} {A : α → α → Prop}

/-- What goes side by side for all layers at rest does so for stores at rest. -/
theorem twins_of_rest {p p' : Run α} (h : ∀ {Φ n K l}, Counterparts.Rest ν Φ n K l →
      Alike (Store.Renamed ν (Value.Twin Φ) n K) p p' (fun a a' s s' => A a a' ∧ s.AtRest ν s')
        (fun e e' s s' => e.Renamed ν e' ∧ s.AtRest ν s')) :
    Twins ν (Store.AtRest ν) p p' A := fun _ _ ⟨_, _, _, _, hrest, hs⟩ => h hrest hs

/-- What keeps the layers keeps stores at rest. -/
theorem twins_of_twins {p p' : Run α} (h : ∀ {Φ n K l}, Counterparts.Rest ν Φ n K l →
      ∃ B : α → α → Prop, Twins ν (Store.Renamed ν (Value.Twin Φ) n K) p p' B ∧
        ∀ a a', B a a' → A a a') : Twins ν (Store.AtRest ν) p p' A := by
  refine twins_of_rest fun {Φ n K l} hrest => ?_
  obtain ⟨B, hp, hB⟩ := h hrest
  exact Alike.mono hp (fun _ _ h => h)
    (fun a a' _ _ hs => ⟨hB a a' hs.1, Φ, n, K, l, hrest, hs.2⟩)
    fun _ _ _ _ hs => ⟨hs.1, Φ, n, K, l, hrest, hs.2⟩

theorem twins_define {f f' : FunDef} (hf : f.Renames ν (ν.Safe f) f')
    (hnew : ν.new ∉ f.names) :
    Twins ν (Store.AtRest ν) (f.define Store.base) (f'.define Store.base) fun _ _ => True := by
  refine twins_of_rest fun {Φ n K l} hrest s s' hs => ?_
  have hrest' := hrest.define hf hnew
  have hΦ : ∀ r p, Φ r = some p → Function.update Φ n (some (f, f')) r = some p := by
    intro r p hr
    rw [Function.update_of_ne (Nat.ne_of_lt (hrest.valid.inRange hr)), hr]
  have hs' := hs.mono fun _ _ hv => Value.Twin.mono hΦ hv
  have hglobals := hs'.related Store.base
  rw [hrest.globals] at hglobals
  obtain ⟨howned, howned', hs₁⟩ := hs'.allocate hglobals
  have hself : Value.Twin (Function.update Φ n (some (f, f'))) (.closure f n) (.closure f' n) :=
    .closure (Function.update_self ..)
  have hname : f.name.name ≠ ν.new := fun h => hnew (h ▸ List.mem_cons_self)
  rw [FunDef.define, FunDef.define, hf.fields.1]
  simp only [howned, howned']
  have hdecl := hglobals.declare hname hself
  rw [hrest.plain, Renaming.name_false] at hdecl
  rcases hdecl with ⟨h, h'⟩ | ⟨e, e', h, h', he⟩
  · -- both names clash, and the new environments are forgotten
    rw [h, h']
    exact ⟨.same _, Φ, n, K, l, hrest, hs⟩
  · rw [h, h']
    refine ⟨trivial, _, _, _, _, hrest'.setGlobals (l.declare f.name.name) hrest.plain, ?_⟩
    have hs₂ := hs₁.setEnv hrest'.inRange he
    rwa [Layers.push, Function.update_idem, Function.update_self]

theorem twins_defineAll {fs fs' : List FunDef}
    (h : List.Forall₂ (fun f f' => f.Renames ν (ν.Safe f) f') fs fs')
    (hnew : ν.new ∉ fs.flatMap FunDef.names) :
    Twins ν (Store.AtRest ν) (defineAll Store.base fs) (defineAll Store.base fs')
      fun _ _ => True := by
  induction h with
  | nil => exact twins_pure trivial
  | cons hf _ ih =>
    rw [List.flatMap_cons, List.mem_append, not_or] at hnew
    exact (twins_define hf hnew.1).bind fun _ _ _ => ih hnew.2

theorem twins_globals {ds : List Decl} (hnew : ν.new ∉ declaredNames ds) :
    Twins ν (Store.AtRest ν) (runDecls Store.base ds) (runDecls Store.base ds)
      fun _ _ => True := by
  refine twins_of_rest fun {Φ n K l} hrest => ?_
  have hrun := alike_runDecls (ν := ν) (K := Function.update K Store.base []) (l := l)
    hrest.inRange (Value.twin_default Φ) hnew
  rw [hrest.plain, Decl.rename_false, List.map_id, ← hrest.eq_push] at hrun
  refine hrun.mono (fun _ _ h => h) (fun _ _ s s' hs => ?_) ?_
  · exact ⟨trivial, Φ, n, _, _, hrest.setGlobals (l.declared ds) hrest.plain, hs⟩
  · rintro e e' s s' ⟨he, l', hl', hs⟩
    exact ⟨he, Φ, n, _, _, hrest.setGlobals l' hl', hs⟩

theorem twins_execOutside {fuel : Nat} {s : Stmt} (hnew : ν.new ∉ s.names) :
    Twins ν (Store.AtRest ν) (s.execOutside fuel Store.base) (s.execOutside fuel Store.base)
      fun _ _ => True := by
  refine twins_of_twins fun {Φ n K l} hrest => ⟨_, ?_, fun _ _ h => h⟩
  have hs : s.Renames ν False false s := Stmt.Renames.refl s
  refine ((twins hrest.valid fuel).exec (hrest.place _ _) False.elim hs hnew).bind
    fun flow flow' hflow => ?_
  cases hflow with
  | completed => exact twins_pure trivial
  | returning hv => exact twins_fail (.same _)

theorem twins_execAllOutside {fuel : Nat} {ss : List Stmt}
    (hnew : ν.new ∉ stmtsNames ss) :
    Twins ν (Store.AtRest ν) (execAllOutside fuel Store.base ss)
      (execAllOutside fuel Store.base ss) fun _ _ => True := by
  induction ss with
  | nil => exact twins_pure trivial
  | cons s ss ih =>
    rw [stmtsNames, List.mem_append, not_or] at hnew
    exact (twins_execOutside hnew.1).bind fun _ _ _ => ih hnew.2

end

/-! ### Entries -/

/-- An entry and the entry with renamed variables lead to the same value or to
the same error up to the renamed name. -/
theorem twins_entry {e e' : Entry} (h : e.Renames ν ν.Safe e') (hnew : ν.new ∉ e.names)
    (fuel : Nat) :
    Twins ν (Store.AtRest ν) (e.run fuel Store.base) (e'.run fuel Store.base)
      (Option.Rel (Value.Renamed ν)) := by
  cases e with
  | program p =>
    obtain ⟨fs', rfl, hfs⟩ := h
    simp only [Entry.names, List.mem_append, not_or] at hnew
    exact (twins_defineAll hfs hnew.1.1).bind fun _ _ _ =>
      (twins_globals hnew.1.2).bind fun _ _ _ =>
        (twins_execAllOutside hnew.2).bind fun _ _ _ => twins_pure .none
  | function f =>
    obtain ⟨f', rfl, hf⟩ := h
    exact (twins_define hf hnew).bind fun _ _ _ => twins_pure .none
  | declaration d =>
    obtain rfl := h
    have hd : Twins ν (Store.AtRest ν) (runDecls Store.base [d]) (runDecls Store.base [d])
      fun _ _ => True := twins_globals hnew
    rw [runDecls_singleton] at hd
    exact hd.bind fun _ _ _ => twins_pure .none
  | statement s =>
    obtain rfl := h
    exact (twins_execOutside hnew).bind fun _ _ _ => twins_pure .none
  | expression e =>
    obtain rfl := h
    refine Twins.bind (A := Value.Renamed ν) (twins_of_twins fun {Φ n K l} hrest => ?_)
      fun v v' hv => twins_pure (.some hv)
    have heval := (twins hrest.valid fuel).eval (hrest.place _ _) hnew
    rw [Expr.rename_false] at heval
    exact ⟨_, heval, fun _ _ hv => hv.renamed hrest.valid⟩

end Implet
