/-
Implet/Proofs/Soundness.lean

Well-typed code keeps its types when it runs, as long as the environments of the
closures still show the globals that the functions use (`Signatures.Intact`).

Calls of a closure from within a call of it stack their frames on its one
environment, so a name that the body uses for a global is looked up through the
frames of all calls that have not returned.  The frames of the calls themselves
have no such names, but the blocks that are open have what they declare.  A
function whose blocks agree with the globals they hide (`FunDef.ShadowsAgree`)
never makes an environment show a global at another type.

If nothing is said about types, nothing is asked of blocks: a name that is bound
stays bound, whatever is put in front of it.  Both levels, strict or not, have
the same proof, `sound`, by induction on the fuel for all kinds of code at once.
-/
import Implet.Proofs.Values

namespace Implet

open Run

/-! ### Environments that show the globals -/

/-- A name is bound, at the given type if `strict` holds. -/
def Scope.Answers (strict : Prop) (Γ : Context) (x : String) (g : Ground) : Prop :=
  ∃ g', Γ.get? x = some g' ∧ (strict → g' = g)

namespace Signatures

variable (strict : Prop) (ρ : Valuation) (Φ : Signatures)

/-- The functions are well typed among their globals, and no closure owns the
environment of the entries. -/
structure Valid (n : Nat) : Prop where
  typed : ∀ {r sig}, Φ r = some sig → sig.function.Typed ρ sig.first sig.globals
  agree : strict → ∀ {r sig}, Φ r = some sig →
    sig.function.ShadowsAgree ρ sig.first sig.globals
  inRange : ∀ {r sig}, Φ r = some sig → r < n
  base : Φ Store.base = none

/-- The environments of the closures show the globals that the functions use. -/
def Intact (Δ : Stacks Ground) : Prop :=
  ∀ ⦃r sig⦄, Φ r = some sig → ∀ ⦃x g⦄, sig.function.usesOuter x → sig.globals.get? x = some g →
    (Δ.scope r).Answers strict x g

/-- The functions of closures. -/
def Defines (f : FunDef) : Prop := ∃ r sig, Φ r = some sig ∧ sig.function = f

/-- Whether the closure that owns an environment could meet a name at a type. -/
def Allows (r : EnvRef) (x : String) (g : Ground) : Prop :=
  ∀ sig, Φ r = some sig → sig.function.usesOuter x → ∀ g', sig.globals.get? x = some g' → g = g'

variable {strict Φ}

/-- A frame may be put on an environment if its closure could meet all that is in it. -/
theorem Intact.push {Δ : Stacks Ground} (h : Φ.Intact strict Δ) {r : EnvRef}
    {F : Frame Ground} (hF : strict → ∀ x g, F.get? x = some g → Φ.Allows r x g) :
    Φ.Intact strict (Δ.push r F) := by
  intro r' sig hr' x g hx hg
  by_cases hr : r' = r
  · subst hr
    rw [Stacks.scope_push, Scope.Answers, Scope.get?_cons]
    -- a name in the new frame is found in front of the global
    rcases hFx : F.get? x with - | g'
    · exact h hr' hx hg
    · exact ⟨g', rfl, fun hst => hF hst x g' hFx sig hr' hx g hg⟩
  · rw [Stacks.push, Stacks.scope_set_of_ne _ _ _ hr]
    exact h hr' hx hg

end Signatures

theorem FunDef.usesOuter_iff {f : FunDef} {x : String} : f.usesOuter x = true ↔
    f.name.name ≠ x ∧ x ∉ declaredNames f.params ∧ x ∉ declaredNames f.body.declarations ∧
      stmtsMention x f.body.statements = true := by
  simp [usesOuter, and_assoc]

/-! ### The frame of a call -/

theorem Frame.get?_declareNew {V : Type} (f : Frame V) (name : String) (v : V)
    (x : String) :
    (f.declareNew name v).get? x = (f.get? x).or (if name = x then some v else none) := by
  rw [declareNew]
  split
  · next h =>
    split
    · next hx =>
      obtain ⟨w, hw⟩ := Option.isSome_iff_exists.mp (get?_isSome_iff.mpr (has_iff.mp h))
      rw [← hx, hw]
      rfl
    · rw [Option.or_none]
  · next h =>
    rw [get?_cons]
    split
    · next hx =>
      subst hx
      rw [get?_eq_none_iff.mpr fun hm => h (has_iff.mpr hm)]
      rfl
    · rw [Option.or_none]

/-- The frame of a call answers as the frame that the body was checked in, and
knows the function itself besides. -/
theorem FunDef.get?_callFrame {W : Type} (f : FunDef) (args : List W) (self : W)
    (locals : List W) (x : String) :
    (f.callFrame args self locals).get? x =
      ((Frame.declared (Frame.declared [] f.params args) f.body.declarations locals).get? x).or
        (if f.name.name = x then some self else none) := by
  rw [callFrame, Frame.declared, Frame.get?_append, Frame.get?_declareNew, ← Option.or_assoc,
    ← Frame.get?_append]
  rfl

/-! ### Settings -/

variable (strict : Prop) (ρ : Valuation) (Φ : Signatures)

/-- Code that was checked in the context `Γ` can be run in the environment `r`
when the stacks are `Δ`: the names that it uses have the types they had, and if
it calls anything, closures find their globals. -/
structure Setting (uses : String → Bool) (calls : Bool) (Γ : Context) (Δ : Stacks Ground)
    (r : EnvRef) : Prop where
  valid : Φ.Valid strict ρ Δ.size
  inRange : r < Δ.size
  agrees : ∀ {x g}, uses x → Γ.get? x = some g → (Δ.scope r).Answers strict x g
  intact : calls → Φ.Intact strict Δ

/-- A flow that fits a function with the given result. -/
def Flow.Fits (result : Option Ground) : Flow → Prop
  | .completed => True
  | .returning v => ∃ g, result = some g ∧ v.Agrees strict ρ Φ g

/-- A run that keeps all values of the types that the stacks say, and ends with
a value that `A` holds of or with an error that can arise. -/
abbrev Sound {α : Type} (Δ : Stacks Ground) (p : Run α) (A : α → Prop) : Prop :=
  Keeps (Store.Shows (Value.Fits strict ρ Φ) Δ) p A (·.Arises strict Φ.Defines)

variable {strict ρ Φ} {uses uses' : String → Bool} {calls calls' : Bool} {Γ : Context}
  {Δ : Stacks Ground} {r : EnvRef}

theorem Setting.mono (h : Setting strict ρ Φ uses calls Γ Δ r)
    (hu : ∀ x, uses' x → uses x)
    (hc : calls' → calls) : Setting strict ρ Φ uses' calls' Γ Δ r :=
  ⟨h.valid, h.inRange, fun hx => h.agrees (hu _ hx), fun h' => h.intact (hc h')⟩

/-- Of two parts of a text, each can be run where both can. -/
theorem Setting.left
    (h : Setting strict ρ Φ (fun x => uses x || uses' x) (calls || calls') Γ Δ r) :
    Setting strict ρ Φ uses calls Γ Δ r :=
  h.mono (fun x hx => by rw [hx, Bool.true_or]) fun hc => by rw [hc, Bool.true_or]

theorem Setting.right
    (h : Setting strict ρ Φ (fun x => uses x || uses' x) (calls || calls') Γ Δ r) :
    Setting strict ρ Φ uses' calls' Γ Δ r :=
  h.mono (fun x hx => by rw [hx, Bool.or_true]) fun hc => by rw [hc, Bool.or_true]

/-- Entering a block: what is declared there has the same type on both sides. -/
theorem Setting.push (h : Setting strict ρ Φ uses calls Γ Δ r) {F : Frame Ground}
    (hF : calls' → strict → ∀ x g, F.get? x = some g → Φ.Allows r x g)
    (hu : ∀ x, x ∉ F.names → uses' x → uses x) (hc : calls' → calls) :
    Setting strict ρ Φ uses' calls' ⟨F :: Γ.frames⟩ (Δ.push r F) r where
  valid := h.valid
  inRange := h.inRange
  agrees := by
    intro x g hx hg
    rw [Stacks.scope_push, Scope.Answers, Scope.get?_cons]
    rw [Scope.get?_cons] at hg
    rcases hFx : F.get? x with - | g'
    · rw [hFx] at hg
      exact h.agrees (hu x (Frame.get?_eq_none_iff.mp hFx) hx) hg
    · rw [hFx] at hg
      exact ⟨g, hg, fun _ => rfl⟩
  intact h' := (h.intact (hc h')).push (hF h')

/-- Entering a call. -/
theorem setting_call {sig : Signature} (hΦ : Φ.Valid strict ρ Δ.size)
    (hr : Φ r = some sig) (hi : Φ.Intact strict Δ) :
    Setting strict ρ Φ (stmtsMention · sig.function.body.statements) true
      ⟨[sig.function.frame ρ sig.first, sig.function.globals ρ sig.first sig.globals]⟩
      (Δ.push r (sig.function.callFrame (groundDecls ρ sig.first sig.function.params)
        (sig.function.ground ρ sig.first)
        (groundDecls ρ (sig.function.bodyFirst sig.first) sig.function.body.declarations))) r := by
  have hget := sig.function.get?_callFrame (groundDecls ρ sig.first sig.function.params)
    (sig.function.ground ρ sig.first)
    (groundDecls ρ (sig.function.bodyFirst sig.first) sig.function.body.declarations)
  have hnames : ∀ x, (sig.function.frame ρ sig.first).get? x = none ↔
      x ∉ declaredNames sig.function.params ∧
        x ∉ declaredNames sig.function.body.declarations := by
    intro x
    rw [Frame.get?_eq_none_iff, FunDef.frame, Frame.names_declared _ (length_groundDecls ..),
      Frame.names_declared _ (length_groundDecls ..)]
    simp [and_comm]
  refine ⟨hΦ, hΦ.inRange hr, ?_, fun _ => hi.push ?_⟩
  · intro x g hx hg
    rw [Stacks.scope_push, Scope.Answers, Scope.get?_cons, hget]
    rw [Scope.get?_cons, Scope.get?_cons, FunDef.globals, Frame.get?_cons] at hg
    change ((sig.function.frame ρ sig.first).get? x).or _ = _ at hg
    show ∃ g', (((sig.function.frame ρ sig.first).get? x).or _).or _ = some g' ∧ _
    rcases hf : (sig.function.frame ρ sig.first).get? x with - | g'
    · rw [hf, Option.none_or] at hg
      rw [Option.none_or]
      by_cases hn : sig.function.name.name = x
      · rw [if_pos hn] at hg ⊢
        exact ⟨g, hg, fun _ => rfl⟩
      · -- neither in the frame nor the function itself, so a global
        rw [if_neg hn] at hg ⊢
        obtain ⟨hp, hd⟩ := (hnames x).mp hf
        rw [Scope.get?_nil, Option.or_none] at hg
        exact hi hr (FunDef.usesOuter_iff.mpr ⟨hn, hp, hd, hx⟩) hg
    · rw [hf] at hg
      exact ⟨g, hg, fun _ => rfl⟩
  · -- what a body uses for a global is not in the frame of a call
    intro _ x g hF sig' hr' hu
    obtain rfl := Option.some.inj (hr.symm.trans hr')
    obtain ⟨hn, hp, hd, -⟩ := FunDef.usesOuter_iff.mp hu
    have hf := (hnames x).mpr ⟨hp, hd⟩
    rw [hget] at hF
    change (((sig.function.frame ρ sig.first).get? x).or _) = _ at hF
    rw [hf, if_neg hn] at hF
    cases hF

/-! ### Names -/

theorem Scope.Related.lookup {V W : Type} {R : V → W → Prop} {s : Scope V} {t : Scope W}
    (h : Scope.Related R s t) {x : String} {w : W} (hw : t.get? x = some w) :
    ∃ v, s.lookup x = .ok v ∧ R v w := by
  obtain ⟨v, hv, hvw⟩ := h.get?_right hw
  exact ⟨v, Scope.lookup_of_get? hv, hvw⟩

theorem sound_read {id : Ident} {g : Ground} (hg : (Δ.scope r).Answers strict id.name g) :
    Sound strict ρ Φ Δ (id.read r) (·.Agrees strict ρ Φ g) := by
  obtain ⟨g', hg', hgg⟩ := hg
  refine keeps_env.bind fun e he => ?_
  obtain ⟨v, hv, hvg⟩ := he.lookup hg'
  rw [hv]
  cases v with
  | uninitialized => exact keeps_fail trivial
  | integer | boolean | closure =>
    exact keeps_pure ((hvg.resolve_left fun h => by cases h).congr hgg)

/-- What a name of a function type stands for where it is called. -/
theorem sound_readFunction {id : Ident} {params : List Ground} {result : Ground}
    (hg : (Δ.scope r).Answers strict id.name (.func params result)) :
    Sound strict ρ Φ Δ (id.readFunction r) fun c => ∃ sig, c.1 = sig.function ∧
      Φ c.2 = some sig ∧ (strict → params = groundDecls ρ sig.first sig.function.params ∧
        result = sig.function.result ρ sig.first) := by
  obtain ⟨g', hg', hgg⟩ := hg
  refine keeps_env.bind fun e he => ?_
  obtain ⟨v, hv, hvg⟩ := he.lookup hg'
  rw [hv]
  have hvg := hvg.congr hgg
  cases v with
  | uninitialized => exact keeps_fail fun _ => rfl
  | integer | boolean =>
    -- of a function type there are only closures
    refine keeps_fail fun hst => ?_
    obtain ⟨r', sig, h, -⟩ := ((hvg.resolve_left fun h => by cases h).hasType hst).eq_closure
    cases h
  | closure f r' =>
    obtain ⟨_, ⟨sig, hr', rfl, rfl⟩, hp⟩ := hvg.resolve_left fun h => by cases h
    refine keeps_pure ⟨sig, rfl, hr', fun hst => ?_⟩
    obtain ⟨rfl, rfl⟩ := Ground.func.inj (hp hst)
    exact ⟨rfl, rfl⟩

/-- If nothing is said about types, values are of any others as well. -/
theorem forall₂_agrees_congr {vs : List Value} {gs gs' : List Ground}
    (h : List.Forall₂ (Value.Agrees strict ρ Φ) vs gs) (hlen : gs.length = gs'.length)
    (hgs : strict → gs = gs') : List.Forall₂ (Value.Agrees strict ρ Φ) vs gs' := by
  induction h generalizing gs' with
  | nil => rw [List.length_eq_zero_iff.mp hlen.symm]; exact .nil
  | cons h _ ih =>
    cases gs' with
    | nil => cases hlen
    | cons g' gs' =>
      exact .cons (h.congr fun hst => (List.cons.inj (hgs hst)).1)
        (ih (by simpa using hlen) fun hst => (List.cons.inj (hgs hst)).2)

/-! ### All code at once -/

/-- What holds of all code that is run on a given fuel. -/
structure SoundAt (strict : Prop) (ρ : Valuation) (Φ : Signatures) (fuel : Nat) :
    Prop where
  eval : ∀ {e : Expr} {Γ g Δ r}, Setting strict ρ Φ (e.mentions ·) e.hasCall Γ Δ r → e.HasType Γ g →
    Sound strict ρ Φ Δ (e.eval fuel r) (·.Agrees strict ρ Φ g)
  evalAll : ∀ {es : List Expr} {Γ gs Δ r}, Setting strict ρ Φ (exprsMention · es) true Γ Δ r →
    HaveTypes Γ es gs →
    Sound strict ρ Φ Δ (evalAll fuel r es) (List.Forall₂ (Value.Agrees strict ρ Φ) · gs)
  invoke : ∀ {r sig} {vs : List Value} {Δ : Stacks Ground}, Φ.Valid strict ρ Δ.size →
    Φ r = some sig → Φ.Intact strict Δ →
    List.Forall₂ (Value.Agrees strict ρ Φ) vs (groundDecls ρ sig.first sig.function.params) →
    Sound strict ρ Φ Δ (sig.function.invoke fuel r vs)
      (·.Agrees strict ρ Φ (sig.function.result ρ sig.first))
  exec : ∀ {s : Stmt} {Γ n result Δ r}, Setting strict ρ Φ (s.mentions ·) s.hasCall Γ Δ r →
    s.Typed ρ result n Γ → (strict → s.Guarded ρ (Φ.Allows r) n) →
    Sound strict ρ Φ Δ (s.exec fuel r) (·.Fits strict ρ Φ result)
  execAll : ∀ {ss : List Stmt} {Γ n result Δ r},
    Setting strict ρ Φ (stmtsMention · ss) (stmtsHaveCall ss) Γ Δ r → StmtsTyped ρ result n Γ ss →
    (strict → StmtsGuarded ρ (Φ.Allows r) n ss) →
    Sound strict ρ Φ Δ (execAll fuel r ss) (·.Fits strict ρ Φ result)

variable {fuel : Nat}

theorem soundAt_zero : SoundAt strict ρ Φ 0 where
  eval _ _ := by rw [Expr.eval]; exact triple_outOfFuel
  evalAll _ _ := by rw [evalAll]; exact triple_outOfFuel
  invoke _ _ _ _ := by rw [FunDef.invoke]; exact triple_outOfFuel
  exec _ _ _ := by rw [Stmt.exec]; exact triple_outOfFuel
  execAll _ _ _ := by rw [execAll]; exact triple_outOfFuel

namespace SoundAt

theorem eval_succ (ih : SoundAt strict ρ Φ fuel) {e : Expr} {g : Ground}
    (h : Setting strict ρ Φ (e.mentions ·) e.hasCall Γ Δ r) (ht : e.HasType Γ g) :
    Sound strict ρ Φ Δ (e.eval (fuel + 1) r) (·.Agrees strict ρ Φ g) := by
  cases e with
  | integer n span =>
    rw [Expr.eval]
    exact keeps_pure (Value.HasType.agrees ht)
  | boolean b span =>
    rw [Expr.eval]
    exact keeps_pure (Value.HasType.agrees ht)
  | ident id =>
    rw [Expr.eval]
    exact sound_read (h.agrees (by simp [Expr.mentions]) ht)
  | binary op left right span =>
    obtain ⟨operand, hop, hl, hr⟩ := ht
    rw [Expr.eval]
    refine (ih.eval h.left hl).bind fun a ha => ?_
    refine (ih.eval h.right hr).bind fun b hb => ?_
    exact keeps_apply hop ha hb
  | call func args span =>
    obtain ⟨params, hf, hargs⟩ := ht
    rw [Expr.eval]
    refine (sound_readFunction (h.agrees (by simp [Expr.mentions]) hf)).bind ?_
    rintro ⟨f, r'⟩ ⟨sig, rfl, hr', hst⟩
    -- the numbers can differ only if nothing is said about types
    by_cases hlen : sig.function.params.length = args.length
    · simp only [if_pos hlen]
      refine (ih.evalAll (h.mono (fun x => by simp +contextual [Expr.mentions])
        (by simp [Expr.hasCall])) hargs).bind fun vs hvs => ?_
      have hvs : List.Forall₂ (Value.Agrees strict ρ Φ) vs
          (groundDecls ρ sig.first sig.function.params) := forall₂_agrees_congr hvs
        (by rw [hargs.length_eq, length_groundDecls, hlen]) fun h => (hst h).1
      exact Keeps.mono (ih.invoke h.valid hr' (h.intact rfl) hvs)
        (fun v hv => hv.congr fun h => (hst h).2.symm) fun _ h => h
    · simp only [if_neg hlen]
      refine keeps_fail fun h => hlen ?_
      rw [← hargs.length_eq, (hst h).1, length_groundDecls]

theorem evalAll_succ (ih : SoundAt strict ρ Φ fuel) {es : List Expr} {gs : List Ground}
    (h : Setting strict ρ Φ (exprsMention · es) true Γ Δ r) (ht : HaveTypes Γ es gs) :
    Sound strict ρ Φ Δ (Implet.evalAll (fuel + 1) r es)
      (List.Forall₂ (Value.Agrees strict ρ Φ) · gs) := by
  cases es with
  | nil =>
    obtain rfl : gs = [] := ht
    rw [Implet.evalAll]
    exact keeps_pure .nil
  | cons e es =>
    obtain ⟨g, gs, rfl, he, hes⟩ := ht
    rw [Implet.evalAll]
    refine (ih.eval (h.mono (fun x => by simp +contextual [exprsMention]) fun _ => rfl) he).bind
      fun v hv => ?_
    exact (ih.evalAll (h.mono (fun x => by simp +contextual [exprsMention]) id) hes).bind
      fun vs hvs => keeps_pure (.cons hv hvs)

theorem invoke_succ (ih : SoundAt strict ρ Φ fuel) {sig : Signature} {vs : List Value}
    (hΦ : Φ.Valid strict ρ Δ.size) (hr : Φ r = some sig) (hi : Φ.Intact strict Δ)
    (hvs : List.Forall₂ (Value.Agrees strict ρ Φ) vs
      (groundDecls ρ sig.first sig.function.params)) :
    Sound strict ρ Φ Δ (sig.function.invoke (fuel + 1) r vs)
      (·.Agrees strict ρ Φ (sig.function.result ρ sig.first)) := by
  have ht := hΦ.typed hr
  -- an environment belongs to one closure, so only its function can meet what
  -- is put there
  have hallows : Φ.Allows r = fun x g => sig.function.usesOuter x → ∀ g',
      sig.globals.get? x = some g' → g = g' := by
    funext x g
    exact propext ⟨fun h => h sig hr, fun h sig' hr' =>
      Option.some.inj (hr.symm.trans hr') ▸ h⟩
  have hself : (Value.closure sig.function r).HasType ρ Φ (sig.function.ground ρ sig.first) :=
    ⟨sig, hr, rfl, rfl⟩
  refine keeps_invoke (B := (·.Fits strict ρ Φ (some (sig.function.result ρ sig.first))))
    (hΦ.inRange hr) ht.nodup_params ht.nodup_declarations ht.disjoint
    (length_groundDecls ..) (hvs.imp fun _ _ h => h.fits)
    hself.agrees.fits
    (fits_defaults (sig.function.bodyFirst sig.first) sig.function.body.declarations) (fun _ => ?_)
    (fun hd span => ⟨sig.function, ⟨r, sig, hr, rfl⟩, hd, rfl⟩) (fun v hv => ?_) fun _ => trivial
  · refine ih.execAll ((setting_call hΦ hr hi).mono (fun _ h => h) fun _ => rfl) ht.body
      fun hst => ?_
    have hg := hΦ.agree hst hr
    rwa [FunDef.ShadowsAgree, ← hallows] at hg
  · obtain ⟨g, hg, hv⟩ := hv
    exact Option.some.inj hg ▸ hv

/-- A branch is run in a frame of its own. -/
theorem branch (ih : SoundAt strict ρ Φ fuel) {s : Stmt} {n : Nat}
    {result : Option Ground}
    (h : Setting strict ρ Φ (s.mentions ·) s.hasCall Γ Δ r) (ht : s.Typed ρ result n Γ.enter)
    (hg : strict → s.Guarded ρ (Φ.Allows r) n) :
    Sound strict ρ Φ Δ (inFrame r (s.exec fuel r)) (·.Fits strict ρ Φ result) := by
  have hs : Setting strict ρ Φ (s.mentions ·) s.hasCall Γ.enter (Δ.push r []) r :=
    h.push (fun _ _ x g hx => by simp at hx) (fun _ _ hx => hx) id
  exact keeps_inFrame h.inRange (Triple.mono (ih.exec hs ht hg) (fun _ h => h)
    (fun _ _ h => ⟨h.1, [], h.2⟩) fun _ _ h => ⟨h.1, [], h.2⟩)

/-- A block is run in a frame with its variables. -/
theorem block (ih : SoundAt strict ρ Φ fuel) {ds : List Decl} {ss : List Stmt}
    {span : Span} {n : Nat} {result : Option Ground}
    (h : Setting strict ρ Φ ((Stmt.block ds ss span).mentions ·) (stmtsHaveCall ss) Γ Δ r)
    (ht : (Stmt.block ds ss span).Typed ρ result n Γ)
    (hg : strict → (Stmt.block ds ss span).Guarded ρ (Φ.Allows r) n) :
    Sound strict ρ Φ Δ (inFrame r do
      runDecls r ds
      Implet.execAll fuel r ss) (·.Fits strict ρ Φ result) := by
  obtain ⟨hnd, hss⟩ := ht
  have hs : Setting strict ρ Φ (stmtsMention · ss) (stmtsHaveCall ss)
      ⟨Frame.declared [] ds (groundDecls ρ n ds) :: Γ.frames⟩
      (Δ.push r (Frame.declared [] ds (groundDecls ρ n ds))) r := by
    refine h.push (fun hc hst => (hg hst).1 hc) (fun x hx hm => ?_) id
    rw [Frame.names_declared _ (length_groundDecls ..), Frame.names_nil, List.append_nil,
      List.mem_reverse] at hx
    simp [Stmt.mentions, hx, hm]
  refine keeps_inFrame h.inRange (((triple_runDecls h.inRange hnd (fits_defaults n ds)).mono
    (fun _ h => h) (fun _ _ h => h) ?_).bind fun _ => ?_)
  · rintro e s ⟨⟨d, -, hd, -⟩, -⟩
    simp at hd
  · exact Triple.mono (ih.execAll hs hss fun hst => (hg hst).2) (fun _ h => h.2)
      (fun _ _ h => ⟨h.1, _, h.2⟩) fun _ _ h => ⟨h.1, _, h.2⟩

theorem sound_condition (ih : SoundAt strict ρ Φ fuel) {condition : Expr}
    (h : Setting strict ρ Φ (condition.mentions ·) condition.hasCall Γ Δ r)
    (ht : condition.HasType Γ .bool) {α : Type} {f : Bool → Run α} {A : α → Prop}
    (hf : ∀ b, Sound strict ρ Φ Δ (f b) A) :
    Sound strict ρ Φ Δ (do
      let value ← condition.eval fuel r
      f (← value.expectBool condition.span)) A :=
  (ih.eval h ht).bind fun _ hv => (keeps_expectBool hv).bind fun b _ => hf b

theorem exec_succ (ih : SoundAt strict ρ Φ fuel) {s : Stmt} {n : Nat}
    {result : Option Ground}
    (h : Setting strict ρ Φ (s.mentions ·) s.hasCall Γ Δ r) (ht : s.Typed ρ result n Γ)
    (hg : strict → s.Guarded ρ (Φ.Allows r) n) :
    Sound strict ρ Φ Δ (s.exec (fuel + 1) r) (·.Fits strict ρ Φ result) := by
  cases s with
  | block ds ss span =>
    rw [Stmt.exec]
    exact ih.block h ht hg
  | cond condition thenBranch elseBranch span =>
    cases elseBranch with
    | none =>
      rw [Stmt.exec]
      obtain ⟨hc, hthen⟩ := ht
      refine ih.sound_condition h.left hc fun b => ?_
      cases b with
      | true => exact ih.branch h.right hthen hg
      | false => exact keeps_pure trivial
    | some elseBranch =>
      rw [Stmt.exec]
      obtain ⟨hc, hthen, helse⟩ := ht
      refine ih.sound_condition h.left.left hc fun b => ?_
      cases b with
      | true => exact ih.branch h.left.right hthen fun hst => (hg hst).1
      | false => exact ih.branch h.right helse fun hst => (hg hst).2
  | loop condition body span =>
    rw [Stmt.exec]
    refine ih.sound_condition h.left ht.1 fun b => ?_
    cases b with
    | true =>
      refine (ih.branch h.right ht.2 hg).bind fun flow hflow => ?_
      cases flow with
      | returning v => exact keeps_pure hflow
      | completed =>
        -- the next round is the same statement, on less fuel
        exact ih.exec h ht hg
    | false => exact keeps_pure trivial
  | assign target value span =>
    rw [Stmt.exec]
    obtain ⟨g, hx, hv⟩ := ht
    refine (ih.eval (h.mono (fun x => by simp +contextual [Stmt.mentions])
      (by simp [Stmt.hasCall])) hv).bind fun v hv => ?_
    obtain ⟨g', hx', hgg⟩ := h.agrees (by simp [Stmt.mentions]) hx
    exact (keeps_assign h.inRange hx' (hv.congr fun hst => (hgg hst).symm).fits).bind
      fun _ _ => keeps_pure trivial
  | ret value span =>
    rw [Stmt.exec]
    obtain ⟨g, hr, hv⟩ := ht
    exact (ih.eval (h.mono (fun x => by simp [Stmt.mentions]) (by simp [Stmt.hasCall])) hv).bind
      fun v hv => keeps_pure ⟨g, hr, hv⟩

theorem execAll_succ (ih : SoundAt strict ρ Φ fuel) {ss : List Stmt} {n : Nat}
    {result : Option Ground} (h : Setting strict ρ Φ (stmtsMention · ss) (stmtsHaveCall ss) Γ Δ r)
    (ht : StmtsTyped ρ result n Γ ss) (hg : strict → StmtsGuarded ρ (Φ.Allows r) n ss) :
    Sound strict ρ Φ Δ (Implet.execAll (fuel + 1) r ss) (·.Fits strict ρ Φ result) := by
  cases ss with
  | nil =>
    rw [Implet.execAll]
    exact keeps_pure trivial
  | cons s ss =>
    obtain ⟨hs, hss⟩ := ht
    rw [Implet.execAll]
    refine (ih.exec h.left hs fun hst => (hg hst).1).bind fun flow hflow => ?_
    cases flow with
    | returning v => exact keeps_pure hflow
    | completed => exact ih.execAll h.right hss fun hst => (hg hst).2

end SoundAt

/-- Well-typed code keeps its types, whatever the fuel. -/
theorem sound (strict : Prop) (ρ : Valuation) (Φ : Signatures) (fuel : Nat) :
    SoundAt strict ρ Φ fuel := by
  induction fuel with
  | zero => exact soundAt_zero
  | succ fuel ih => exact ⟨ih.eval_succ, ih.evalAll_succ, ih.invoke_succ, ih.exec_succ,
      ih.execAll_succ⟩

end Implet
