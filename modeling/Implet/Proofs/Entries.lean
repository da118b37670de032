/-
Implet/Proofs/Entries.lean

Running an entry that is well typed.  `Store.WellTyped` says of a store, without
reference to the environments that closures own, that the globals have the types
`G` and that everything in the store agrees; `Q` is what is known about the
functions of its closures.  An entry takes a well-typed store to one in which
the globals have the types that the entry gives them, also when it stops early
(`triple_entry`).

If `strict` does not hold, a well-typed store binds the right names, but what
they hold can be of any type.
-/
import Implet.Proofs.Soundness

namespace Implet

open Run

variable (strict : Prop) (ρ : Valuation) (Q : FunDef → Prop)

/-! ### Stores between entries -/

/-- Stacks in which there are no open calls, with the globals `G` in one frame. -/
structure Signatures.Rest (Φ : Signatures) (Δ : Stacks Ground) (G : Frame Ground) :
    Prop where
  valid : Φ.Valid strict ρ Δ.size
  intact : Φ.Intact strict Δ
  inRange : Store.base < Δ.size
  globals : Δ.scope Store.base = ⟨[G]⟩
  functions : ∀ {r sig}, Φ r = some sig → Q sig.function

/-- The globals have the types `G`, and `Q` holds of the functions of all closures. -/
def Store.WellTyped (G : Frame Ground) (s : Store) : Prop :=
  ∃ Φ Δ, Signatures.Rest strict ρ Q Φ Δ G ∧ s.Shows (Value.Fits strict ρ Φ) Δ

/-- A value is one of the values of a type, as far as its own form tells. -/
def Value.IsOf : Value → Ground → Prop
  | .integer _, g => g = .int
  | .boolean _, g => g = .bool
  | .uninitialized, _ => False
  | .closure f _, g => ∃ params result, g = .func params result ∧ params.length = f.params.length

variable {strict ρ Q} {Φ : Signatures} {Δ : Stacks Ground} {G : Frame Ground}

theorem Value.HasType.isOf {v : Value} {g : Ground} (h : v.HasType ρ Φ g) : v.IsOf g := by
  cases v with
  | integer | boolean | uninitialized => exact h
  | closure f r =>
    obtain ⟨sig, -, rfl, rfl⟩ := h
    exact ⟨_, _, rfl, length_groundDecls ..⟩

namespace Signatures.Rest

theorem setting (h : Rest strict ρ Q Φ Δ G) (uses : String → Bool) (calls : Bool) :
    Setting strict ρ Φ uses calls ⟨[G]⟩ Δ Store.base :=
  ⟨h.valid, h.inRange, fun _ hg => ⟨_, h.globals ▸ hg, fun _ => rfl⟩, fun _ => h.intact⟩

/-- Nothing has to be asked of the blocks of a statement that is not inside a
function. -/
theorem guarded (h : Rest strict ρ Q Φ Δ G) (n : Nat) (s : Stmt) :
    s.Guarded ρ (Φ.Allows Store.base) n :=
  Stmt.guarded_of_blockNames fun _ _ _ _ hsig => by
    rw [h.valid.base] at hsig
    cases hsig

theorem defines (h : Rest strict ρ Q Φ Δ G) (f : FunDef) (hf : Φ.Defines f) : Q f := by
  obtain ⟨r, sig, hr, rfl⟩ := hf
  exact h.functions hr

/-- Other globals, which bind the names that there were as before. -/
theorem setGlobals (h : Rest strict ρ Q Φ Δ G) (G' : Frame Ground) :
    Rest strict ρ Q Φ (Δ.set Store.base ⟨[G']⟩) G' where
  valid := h.valid
  intact := by
    intro r sig hr x g hx hg
    have hne : r ≠ Store.base := by
      rintro rfl
      rw [h.valid.base] at hr
      cases hr
    rw [Stacks.scope_set_of_ne _ _ _ hne]
    exact h.intact hr hx hg
  inRange := h.inRange
  globals := Stacks.scope_set ..
  functions := h.functions

end Signatures.Rest

/-- What is known about one more closure. -/
def Signatures.extend (Φ : Signatures) (r : EnvRef) (sig : Signature) : Signatures :=
  fun r' => if r' = r then some sig else Φ r'

theorem Signatures.Rest.define (h : Rest strict ρ Q Φ Δ G) {f : FunDef} {n : Nat}
    (hf : f.Typed ρ n G) (ha : strict → f.ShadowsAgree ρ n G) (hq : Q f) :
    Rest strict ρ Q (Φ.extend Δ.size ⟨f, n, G⟩)
      ((Δ.alloc ⟨[G]⟩).set Store.base ⟨[f.globals ρ n G]⟩) (f.globals ρ n G) := by
  have hcases : ∀ {r sig}, Φ.extend Δ.size ⟨f, n, G⟩ r = some sig →
      (r = Δ.size ∧ sig = ⟨f, n, G⟩) ∨ (r ≠ Δ.size ∧ Φ r = some sig) := by
    intro r sig hr
    rw [extend] at hr
    split at hr
    · next heq => exact Or.inl ⟨heq, (Option.some.inj hr).symm⟩
    · next hne => exact Or.inr ⟨hne, hr⟩
  have hne : Store.base ≠ Δ.size := Nat.ne_of_lt h.inRange
  -- first the environment of the closure, then the name among the globals
  have hext : Rest strict ρ Q (Φ.extend Δ.size ⟨f, n, G⟩) (Δ.alloc ⟨[G]⟩) G := by
    refine ⟨⟨fun hr => ?_, fun hst r sig hr => ?_, fun hr => ?_, ?_⟩, fun r sig hr x g hx hg => ?_,
      Nat.lt_succ_of_lt h.inRange, ?_, fun hr => ?_⟩
    · rcases hcases hr with ⟨-, rfl⟩ | ⟨-, hr⟩
      · exact hf
      · exact h.valid.typed hr
    · rcases hcases hr with ⟨-, rfl⟩ | ⟨-, hr⟩
      · exact ha hst
      · exact h.valid.agree hst hr
    · rcases hcases hr with ⟨rfl, -⟩ | ⟨-, hr⟩
      · exact Nat.lt_succ_self _
      · exact Nat.lt_succ_of_lt (h.valid.inRange hr)
    · rw [extend, if_neg hne]
      exact h.valid.base
    · show (if r = Δ.size then _ else Δ.scope r).Answers strict x g
      rcases hcases hr with ⟨rfl, rfl⟩ | ⟨hne, hr⟩
      · -- the new closure has all the globals that there are
        rw [if_pos rfl, Scope.Answers, Scope.get?_cons, hg]
        exact ⟨g, rfl, fun _ => rfl⟩
      · rw [if_neg hne]
        exact h.intact hr hx hg
    · show (if Store.base = Δ.size then _ else Δ.scope Store.base) = _
      rw [if_neg hne, h.globals]
    · rcases hcases hr with ⟨-, rfl⟩ | ⟨-, hr⟩
      · exact hq
      · exact h.functions hr
  exact hext.setGlobals _

/-! ### Items -/

section

variable {n : Nat} {L : RuntimeError → Store → Prop} {α : Type}

/-- What can be run in any rest can be run in a well-typed store. -/
theorem triple_of_rest {p : Run α} {K : α → Store → Prop}
    (h : ∀ {Φ Δ}, Signatures.Rest strict ρ Q Φ Δ G →
      Triple (Store.Shows (Value.Fits strict ρ Φ) Δ) p K L) :
    Triple (Store.WellTyped strict ρ Q G) p K L := by
  rintro s res s' ⟨Φ, Δ, hrest, hs⟩ hp
  exact h hrest hs hp

theorem triple_defineGlobal {f : FunDef} (ht : f.Typed ρ n G)
    (ha : strict → f.ShadowsAgree ρ n G) (hq : Q f) :
    Triple (Store.WellTyped strict ρ Q G) (f.define Store.base)
      (fun _ => Store.WellTyped strict ρ Q (f.globals ρ n G)) L := by
  refine triple_of_rest fun {Φ Δ} hrest => ?_
  have hrest' := hrest.define ht ha hq
  have hmono : ∀ v g, Value.Fits strict ρ Φ v g →
      Value.Fits strict ρ (Φ.extend Δ.size ⟨f, n, G⟩) v g := by
    refine fun v g hv => hv.mono fun r sig hr => ?_
    rw [Signatures.extend, if_neg (Nat.ne_of_lt (hrest.valid.inRange hr)), hr]
  refine (triple_define hrest.inRange hmono hrest.globals (w := f.ground ρ n) ?_ ht.fresh).mono
    (fun _ h => h) (fun _ s hs => ⟨_, _, hrest', hs⟩) fun _ _ h => h
  have hself : (Value.closure f Δ.size).HasType ρ (Φ.extend Δ.size ⟨f, n, G⟩) (f.ground ρ n) :=
    ⟨⟨f, n, G⟩, if_pos rfl, rfl, rfl⟩
  exact hself.agrees.fits

theorem triple_defineAll {fs : List FunDef} (ht : FunctionsTyped ρ n G fs)
    (ha : strict → FunctionsAgree ρ n G fs) (hq : ∀ f ∈ fs, Q f) :
    Triple (Store.WellTyped strict ρ Q G) (defineAll Store.base fs)
      (fun _ => Store.WellTyped strict ρ Q (globalsAfter ρ n G fs)) L := by
  induction fs generalizing n G with
  | nil => exact triple_pure fun _ hs => hs
  | cons f fs ih =>
    exact (triple_defineGlobal ht.1 (fun hst => (ha hst).1) (hq f List.mem_cons_self)).bind fun _ =>
      ih ht.2 (fun hst => (ha hst).2) fun f' hf' => hq f' (List.mem_cons_of_mem _ hf')

theorem triple_globals {ds : List Decl} (hnd : (declaredNames ds).Nodup)
    (hdis : G.names.Disjoint (declaredNames ds)) :
    Triple (Store.WellTyped strict ρ Q G) (runDecls Store.base ds)
      (fun _ => Store.WellTyped strict ρ Q (G.withGlobals ρ n ds)) L := by
  refine triple_of_rest fun {Φ Δ} hrest => ?_
  have hpush := Δ.eq_push Store.base hrest.globals
  have hrest' := hrest.setGlobals (G.withGlobals ρ n ds)
  refine (triple_runDecls (Δ := Δ.set Store.base ⟨[]⟩) (r := Store.base) (F := G) hrest.inRange
    hnd (fits_defaults n ds)).mono (fun s hs => hpush ▸ hs) (fun _ s hs => ⟨Φ, _, hrest', ?_⟩) ?_
  · have hs := hs.2
    rw [Stacks.push, Stacks.set_set, Stacks.scope_set] at hs
    exact hs
  · rintro e s ⟨⟨d, hd, hm, -⟩, -⟩
    exact absurd (List.mem_map_of_mem hd) (hdis hm)

/-- A statement outside any function completes or fails. -/
theorem sound_execOutside (hrest : Signatures.Rest strict ρ Q Φ Δ G) {fuel : Nat}
    {s : Stmt} (ht : s.Typed ρ none n ⟨[G]⟩) :
    Sound strict ρ Φ Δ (s.execOutside fuel Store.base) fun _ => True := by
  refine ((sound strict ρ Φ fuel).exec (hrest.setting _ _) ht fun _ => hrest.guarded n s).bind
    fun flow hflow => ?_
  cases flow with
  | completed => exact keeps_pure trivial
  | returning v =>
    obtain ⟨g, hg, -⟩ := hflow
    cases hg

theorem sound_execAllOutside (hrest : Signatures.Rest strict ρ Q Φ Δ G) {fuel : Nat}
    {ss : List Stmt} (ht : StmtsTyped ρ none n ⟨[G]⟩ ss) :
    Sound strict ρ Φ Δ (execAllOutside fuel Store.base ss) fun _ => True := by
  induction ss generalizing n with
  | nil => exact keeps_pure trivial
  | cons s ss ih => exact (sound_execOutside hrest ht.1).bind fun _ _ => ih ht.2

/-- What is run in a rest leaves a well-typed store. -/
theorem Sound.triple {p : Run α} {A : α → Prop}
    (h : ∀ {Φ Δ}, Signatures.Rest strict ρ Q Φ Δ G →
      ∃ B : α → Prop, Sound strict ρ Φ Δ p B ∧ ∀ a, B a → A a) :
    Triple (Store.WellTyped strict ρ Q G) p (fun a s => A a ∧ Store.WellTyped strict ρ Q G s)
      (fun e s => e.Arises strict Q ∧ Store.WellTyped strict ρ Q G s) := by
  refine triple_of_rest fun {Φ Δ} hrest => ?_
  obtain ⟨B, hp, hA⟩ := h hrest
  exact Triple.mono hp (fun _ h => h) (fun a s hs => ⟨hA a hs.1, Φ, Δ, hrest, hs.2⟩)
    fun e s hs => ⟨hs.1.mono hrest.defines, Φ, Δ, hrest, hs.2⟩

end

/-! ### Entries -/

/-- A bare expression has a value, which is of its type if `strict` holds; other
entries have no value. -/
def Entry.ValueFits (strict : Prop) (type : Option Ground) (value : Option Value) :
    Entry → Prop
  | .expression _ => ∃ v g, value = some v ∧ type = some g ∧ ∃ g', v.IsOf g' ∧ (strict → g' = g)
  | .program _ | .function _ | .declaration _ | .statement _ => value = none

/-- An entry that is well typed leaves the globals with the types that it gives them. -/
theorem triple_entry {e : Entry} {n : Nat} {type : Option Ground} (fuel : Nat)
    (ht : e.Typed ρ n G type) (ha : strict → FunctionsAgree ρ n G e.functions)
    (hq : ∀ f ∈ e.functions, Q f) :
    Triple (Store.WellTyped strict ρ Q G) (e.run fuel Store.base)
      (fun v s => e.ValueFits strict type v ∧ Store.WellTyped strict ρ Q (e.globals ρ n G) s)
      (fun err s => err.Arises strict Q ∧ Store.WellTyped strict ρ Q (e.globals ρ n G) s) := by
  cases e with
  | program p =>
    obtain ⟨-, hfs, hnd, hdis, hmain⟩ := ht
    refine (triple_defineAll hfs ha hq).bind fun _ =>
      (triple_globals (n := n + mintedFunctions p.functions) hnd hdis).bind fun _ => ?_
    exact (Sound.triple fun hrest => ⟨_, sound_execAllOutside hrest hmain,
      fun _ h => h⟩).bind fun _ => triple_pure fun s hs => ⟨rfl, hs.2⟩
  | function f =>
    exact (triple_defineGlobal ht.2 (fun hst => (ha hst).1) (hq f List.mem_cons_self)).bind fun _ =>
      triple_pure fun s hs => ⟨rfl, hs⟩
  | declaration d =>
    have hdis : G.names.Disjoint (declaredNames [d]) := by simpa [declaredNames] using ht.2
    have hd : Triple (Store.WellTyped strict ρ Q G) (runDecls Store.base [d])
        (fun _ => Store.WellTyped strict ρ Q (G.withGlobals ρ n [d]))
        (fun err s => err.Arises strict Q ∧
          Store.WellTyped strict ρ Q (G.withGlobals ρ n [d]) s) :=
      triple_globals (by simp [declaredNames]) hdis
    rw [runDecls_singleton] at hd
    exact hd.bind fun _ => triple_pure fun s hs => ⟨rfl, hs⟩
  | statement s =>
    refine (Sound.triple fun hrest => ⟨_, sound_execOutside hrest ht.2,
      fun _ h => h⟩).bind fun _ => triple_pure fun s hs => ⟨rfl, hs.2⟩
  | expression e =>
    obtain ⟨g, rfl, he⟩ := ht
    refine (Sound.triple (A := fun v => ∃ g', v.IsOf g' ∧ (strict → g' = g)) fun {Φ Δ} hrest =>
      ⟨_, (sound strict ρ Φ fuel).eval (hrest.setting _ _) he,
        fun _ hv => hv.imp fun _ h => ⟨h.1.isOf, h.2⟩⟩).bind fun v => ?_
    exact triple_pure fun s hs => ⟨⟨v, g, rfl, rfl, hs.1⟩, hs.2⟩

end Implet
