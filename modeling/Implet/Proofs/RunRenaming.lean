/-
Implet/Proofs/RunRenaming.lean

Running renamed code.  Two runs of some code and of the code with renamed
variables go side by side, and their values are the same, but for closures,
whose functions are counterparts of each other (`twins`).

What a function sees of the frames that were there before it was called is not
what its text says: calls of a closure stack their frames on one environment,
and the blocks of a call that has not returned are among them.  While a block
with a renamed variable is open, the function must not be looking for a global
of the old name (`Counterparts.Steady`).  That is so if it has no use for one,
or if nothing is called from the block.
-/
import Implet.Proofs.Pairs

namespace Implet

open Run

/-! ### Values -/

/-- A function and the function with renamed variables, for the environments
that closures of them own. -/
abbrev Counterparts := EnvRef → Option (FunDef × FunDef)

/-- Two values are the same, where closures are of functions that are counterparts. -/
inductive Value.Twin (Φ : Counterparts) : Value → Value → Prop
  | integer (n : Int64) : Twin Φ (.integer n) (.integer n)
  | boolean (b : Bool) : Twin Φ (.boolean b) (.boolean b)
  | uninitialized : Twin Φ .uninitialized .uninitialized
  | closure {f f' : FunDef} {r : EnvRef} : Φ r = some (f, f') →
    Twin Φ (.closure f r) (.closure f' r)

theorem Value.twin_default (Φ : Counterparts) (t : Option BaseType) :
    Twin Φ (.default t) (.default t) := by
  rcases t with - | _ | _
  · exact .uninitialized
  · exact .integer 0
  · exact .boolean false

variable {ν : Renaming} {Φ : Counterparts} {I : Store → Store → Prop} {a a' b b' : Value}

theorem twins_expectInt {span : Span} (h : a.Twin Φ a') :
    Twins ν I (a.expectInt span) (a'.expectInt span) Eq := by
  cases h with
  | integer n => exact twins_pure rfl
  | boolean | uninitialized | closure => exact twins_fail (.same _)

theorem twins_expectBool {span : Span} (h : a.Twin Φ a') :
    Twins ν I (a.expectBool span) (a'.expectBool span) Eq := by
  cases h with
  | boolean b => exact twins_pure rfl
  | integer | uninitialized | closure => exact twins_fail (.same _)

theorem twins_arithmetic {ls rs : Span} {op : Int64 → Int64 → Value}
    (hop : ∀ m n, (op m n).Twin Φ (op m n)) (ha : a.Twin Φ a') (hb : b.Twin Φ b') :
    Twins ν I (arithmetic ls rs op a b) (arithmetic ls rs op a' b') (Value.Twin Φ) := by
  refine (twins_expectInt ha).bind ?_
  rintro m _ rfl
  refine (twins_expectInt hb).bind ?_
  rintro n _ rfl
  exact twins_pure (hop m n)

theorem twins_logical {ls rs : Span} {op : Bool → Bool → Bool} (ha : a.Twin Φ a')
    (hb : b.Twin Φ b') :
    Twins ν I (logical ls rs op a b) (logical ls rs op a' b') (Value.Twin Φ) := by
  refine (twins_expectBool ha).bind ?_
  rintro x _ rfl
  refine (twins_expectBool hb).bind ?_
  rintro y _ rfl
  exact twins_pure (.boolean _)

/-- Operators do not tell values that are the same from each other. -/
theorem twins_apply {op : BinOp} {span ls rs : Span} (ha : a.Twin Φ a')
    (hb : b.Twin Φ b') :
    Twins ν I (op.apply span ls rs a b) (op.apply span ls rs a' b') (Value.Twin Φ) := by
  cases op with
  | add | sub | mul => exact twins_arithmetic (fun _ _ => .integer _) ha hb
  | lt | gt => exact twins_arithmetic (fun _ _ => .boolean _) ha hb
  | and | or => exact twins_logical ha hb
  | div =>
    refine (twins_expectInt ha).bind ?_
    rintro m _ rfl
    refine (twins_expectInt hb).bind ?_
    rintro n _ rfl
    by_cases hn : n = 0
    · rw [if_pos hn]
      exact twins_fail (.same _)
    · rw [if_neg hn]
      exact twins_pure (.integer _)
  | eq =>
    cases ha <;> cases hb <;>
      first | exact twins_pure (.boolean _) | exact twins_fail (.same _)

/-! ### What is open while code is run -/

/-- Closures have environments of their own, and where they are of functions
with renamed variables, these are renamed in a way that calls do not notice. -/
structure Counterparts.Valid (ν : Renaming) (Φ : Counterparts) (n : Nat) : Prop where
  inRange : ∀ {r f f'}, Φ r = some (f, f') → r < n
  renames : ∀ {r f f'}, Φ r = some (f, f') → f.Renames ν (¬ f.usesOuter ν.old) f'
  fresh : ∀ {r f f'}, Φ r = some (f, f') → ν.new ∉ f.names

/-- No function that looks for a global of the old name finds a renamed variable. -/
def Counterparts.Steady (ν : Renaming) (Φ : Counterparts) (K : Layers) : Prop :=
  ∀ {r f f'}, Φ r = some (f, f') → f.usesOuter ν.old → ν.isOn (K r) = false

/-- Where code is run: if it uses the old name, then it finds it in a layer that
is renamed as the code is, and if it calls something, then no function is led
astray. -/
structure Place (ν : Renaming) (Φ : Counterparts) (n : Nat) (K : Layers) (uses calls on : Bool)
    (r : EnvRef) : Prop where
  inRange : r < n
  isOn : uses = true → ν.isOn (K r) = on
  steady : calls = true → Φ.Steady ν K

namespace Place

variable {n : Nat} {K : Layers} {uses uses' calls calls' on : Bool} {r : EnvRef}

theorem mono (h : Place ν Φ n K uses calls on r) (huses : uses' = true → uses = true)
    (hcalls : calls' = true → calls = true) : Place ν Φ n K uses' calls' on r :=
  ⟨h.inRange, fun hu => h.isOn (huses hu), fun hc => h.steady (hcalls hc)⟩

/-- Of two parts of a text, each is in the place where both are. -/
theorem left (h : Place ν Φ n K (uses || uses') (calls || calls') on r) :
    Place ν Φ n K uses calls on r :=
  h.mono (fun hu => by rw [hu, Bool.true_or]) fun hc => by rw [hc, Bool.true_or]

theorem right (h : Place ν Φ n K (uses || uses') (calls || calls') on r) :
    Place ν Φ n K uses' calls' on r :=
  h.mono (fun hu => by rw [hu, Bool.or_true]) fun hc => by rw [hc, Bool.or_true]

/-- A branch has a frame of its own in which nothing is declared. -/
theorem branch (h : Place ν Φ n K uses calls on r) :
    Place ν Φ n (K.push r ⟨[], false⟩) uses calls on r := by
  refine ⟨h.inRange, ?_, ?_⟩
  · intro hu
    rw [Layers.push, Function.update_self, Renaming.isOn_enter]
    exact h.isOn hu
  · intro hc r' f f' hf hu
    by_cases hr : r' = r
    · subst hr
      rw [Layers.push, Function.update_self, Renaming.isOn_enter]
      exact h.steady hc hf hu
    · rw [Layers.push, Function.update_of_ne hr]
      exact h.steady hc hf hu

/-- A block has a frame with its variables.  If it is renamed and something is
called from it, then the function that it belongs to must have no use for a
global of the old name. -/
theorem block {ds : List Decl} {ss : List Stmt} {span : Span} {on' : Bool} {safe : Prop}
    (h : Place ν Φ n K ((Stmt.block ds ss span).mentions ν.old) (stmtsHaveCall ss) on r)
    (hsafe : safe → ∀ {f f'}, Φ r = some (f, f') → ¬ f.usesOuter ν.old)
    (hon' : on' = true → ν.old ∈ declaredNames ds ∧ (stmtsHaveCall ss → safe)) :
    Place ν Φ n (K.push r (Layer.declared ⟨[], on'⟩ ds)) (stmtsMention ν.old ss)
      (stmtsHaveCall ss) (if ν.old ∈ declaredNames ds then on' else on) r := by
  have hlayer : ν.isOn (Layer.declared ⟨[], on'⟩ ds :: K r) =
      if ν.old ∈ declaredNames ds then on' else ν.isOn (K r) := Renaming.isOn_block rfl
  refine ⟨h.inRange, ?_, ?_⟩
  · intro hu
    rw [Layers.push, Function.update_self, hlayer]
    by_cases hm : ν.old ∈ declaredNames ds
    · rw [if_pos hm, if_pos hm]
    · rw [if_neg hm, if_neg hm]
      exact h.isOn (by simp [Stmt.mentions, hm, hu])
  · intro hc r' f f' hf hu
    by_cases hr : r' = r
    · subst hr
      rw [Layers.push, Function.update_self, hlayer]
      by_cases hm : ν.old ∈ declaredNames ds
      · -- a call from a renamed block: its function has no use for the old name
        rw [if_pos hm]
        exact Bool.eq_false_iff.mpr fun ho => hsafe ((hon' ho).2 hc) hf hu
      · rw [if_neg hm]
        exact h.steady hc hf hu
    · rw [Layers.push, Function.update_of_ne hr]
      exact h.steady hc hf hu

end Place

/-! ### Names -/

variable {n : Nat} {K : Layers} {on : Bool} {r : EnvRef} {id : Ident}

theorem twins_read (hnew : id.name ≠ ν.new) (hon : id.name = ν.old → ν.isOn (K r) = on) :
    Twins ν (Store.Renamed ν (Value.Twin Φ) n K) (id.read r) ((id.rename ν on).read r)
      (Value.Twin Φ) := by
  refine twins_env.bind fun e e' he => ?_
  rcases he.get? hnew hon with ⟨h, h'⟩ | ⟨v, v', h, h', hv⟩
  · rw [Scope.lookup_of_not_get? h, Ident.rename, Scope.lookup_of_not_get? h']
    exact twins_fail (.undeclared on id.name id.span)
  · rw [Scope.lookup_of_get? h, Ident.rename, Scope.lookup_of_get? h']
    cases hv with
    | uninitialized => exact twins_fail (.uninitialized on id.name id.span)
    | integer n => exact twins_pure (.integer n)
    | boolean b => exact twins_pure (.boolean b)
    | closure hr => exact twins_pure (.closure hr)

theorem twins_readFunction (hnew : id.name ≠ ν.new)
    (hon : id.name = ν.old → ν.isOn (K r) = on) :
    Twins ν (Store.Renamed ν (Value.Twin Φ) n K) (id.readFunction r)
      ((id.rename ν on).readFunction r)
      (fun p p' => p.2 = p'.2 ∧ Φ p.2 = some (p.1, p'.1)) := by
  refine twins_env.bind fun e e' he => ?_
  rcases he.get? hnew hon with ⟨h, h'⟩ | ⟨v, v', h, h', hv⟩
  · rw [Scope.lookup_of_not_get? h, Ident.rename, Scope.lookup_of_not_get? h']
    exact twins_fail (.undeclared on id.name id.span)
  · rw [Scope.lookup_of_get? h, Ident.rename, Scope.lookup_of_get? h']
    cases hv with
    | closure hr => exact twins_pure ⟨rfl, hr⟩
    | uninitialized | integer | boolean =>
      exact twins_fail (.notAFunction on id.name _ id.span)

/-! ### All code at once -/

/-- Two ways to finish a statement are the same. -/
inductive Flow.Twin (Φ : Counterparts) : Flow → Flow → Prop
  | completed : Twin Φ .completed .completed
  | returning {v v' : Value} : v.Twin Φ v' → Twin Φ (.returning v) (.returning v')

/-- What holds of all code that is run on a given fuel. -/
structure TwinsAt (ν : Renaming) (Φ : Counterparts) (n fuel : Nat) : Prop where
  eval : ∀ {e : Expr} {K on r}, Place ν Φ n K (e.mentions ν.old) e.hasCall on r →
    ν.new ∉ e.names → Twins ν (Store.Renamed ν (Value.Twin Φ) n K) (e.eval fuel r)
      ((e.rename ν on).eval fuel r) (Value.Twin Φ)
  evalAll : ∀ {es : List Expr} {K on r}, Place ν Φ n K (exprsMention ν.old es) true on r →
    ν.new ∉ exprsNames es → Twins ν (Store.Renamed ν (Value.Twin Φ) n K) (evalAll fuel r es)
      (evalAll fuel r (renameExprs ν on es))
      (fun vs vs' => vs.length = es.length ∧ List.Forall₂ (Value.Twin Φ) vs vs')
  invoke : ∀ {r f f'} {vs vs' : List Value} {K}, Φ r = some (f, f') → Φ.Steady ν K →
    vs.length = f.params.length → List.Forall₂ (Value.Twin Φ) vs vs' →
    Twins ν (Store.Renamed ν (Value.Twin Φ) n K) (f.invoke fuel r vs) (f'.invoke fuel r vs')
      (Value.Twin Φ)
  exec : ∀ {s s' : Stmt} {safe K on r}, Place ν Φ n K (s.mentions ν.old) s.hasCall on r →
    (safe → ∀ {f f'}, Φ r = some (f, f') → ¬ f.usesOuter ν.old) → s.Renames ν safe on s' →
    ν.new ∉ s.names → Twins ν (Store.Renamed ν (Value.Twin Φ) n K) (s.exec fuel r)
      (s'.exec fuel r) (Flow.Twin Φ)
  execAll : ∀ {ss ss' : List Stmt} {safe K on r},
    Place ν Φ n K (stmtsMention ν.old ss) (stmtsHaveCall ss) on r →
    (safe → ∀ {f f'}, Φ r = some (f, f') → ¬ f.usesOuter ν.old) → StmtsRename ν safe on ss ss' →
    ν.new ∉ stmtsNames ss → Twins ν (Store.Renamed ν (Value.Twin Φ) n K) (execAll fuel r ss)
      (execAll fuel r ss') (Flow.Twin Φ)

variable {fuel : Nat}

theorem twinsAt_zero : TwinsAt ν Φ n 0 where
  eval _ _ := by rw [Expr.eval, Expr.eval]; exact alike_outOfFuel
  evalAll _ _ := by rw [evalAll, evalAll]; exact alike_outOfFuel
  invoke _ _ _ _ := by rw [FunDef.invoke, FunDef.invoke]; exact alike_outOfFuel
  exec _ _ _ _ := by rw [Stmt.exec, Stmt.exec]; exact alike_outOfFuel
  execAll _ _ _ _ := by rw [execAll, execAll]; exact alike_outOfFuel

namespace TwinsAt

theorem eval_succ (hΦ : Φ.Valid ν n) (ih : TwinsAt ν Φ n fuel) {e : Expr}
    (h : Place ν Φ n K (e.mentions ν.old) e.hasCall on r) (hnew : ν.new ∉ e.names) :
    Twins ν (Store.Renamed ν (Value.Twin Φ) n K) (e.eval (fuel + 1) r)
      ((e.rename ν on).eval (fuel + 1) r) (Value.Twin Φ) := by
  cases e with
  | integer n span =>
    rw [Expr.rename, Expr.eval]
    exact twins_pure (.integer n)
  | boolean b span =>
    rw [Expr.rename, Expr.eval]
    exact twins_pure (.boolean b)
  | ident id =>
    rw [Expr.names, List.mem_singleton] at hnew
    rw [Expr.rename, Expr.eval, Expr.eval]
    exact twins_read (Ne.symm hnew) fun he => h.isOn (by simp [Expr.mentions, he])
  | binary op left right span =>
    rw [Expr.names, List.mem_append, not_or] at hnew
    rw [Expr.rename, Expr.eval, Expr.eval, Expr.span_rename, Expr.span_rename]
    refine (ih.eval h.left hnew.1).bind fun a a' ha => ?_
    refine (ih.eval h.right hnew.2).bind fun b b' hb => ?_
    exact twins_apply ha hb
  | call func args span =>
    rw [Expr.names, List.mem_cons, not_or] at hnew
    rw [Expr.rename, Expr.eval, Expr.eval, length_renameExprs]
    refine (twins_readFunction (Ne.symm hnew.1) fun he =>
      h.isOn (by simp [Expr.mentions, he])).bind ?_
    rintro ⟨f, owned⟩ ⟨f', _⟩ ⟨rfl, hr⟩
    -- counterparts take the same number of arguments
    change Φ owned = some (f, f') at hr
    have hparams : f'.params = f.params := (hΦ.renames hr).fields.2.1
    simp only [hparams]
    by_cases hlen : f.params.length = args.length
    · rw [if_pos hlen, if_pos hlen]
      refine (ih.evalAll (h.mono (by simp +contextual [Expr.mentions])
        (by simp [Expr.hasCall])) hnew.2).bind fun vs vs' hvs => ?_
      exact ih.invoke hr (h.steady rfl) (hvs.1.trans hlen.symm) hvs.2
    · rw [if_neg hlen, if_neg hlen]
      exact twins_fail (.arity on func.name _ _ span)

theorem evalAll_succ (ih : TwinsAt ν Φ n fuel) {es : List Expr}
    (h : Place ν Φ n K (exprsMention ν.old es) true on r) (hnew : ν.new ∉ exprsNames es) :
    Twins ν (Store.Renamed ν (Value.Twin Φ) n K) (Implet.evalAll (fuel + 1) r es)
      (Implet.evalAll (fuel + 1) r (renameExprs ν on es))
      (fun vs vs' => vs.length = es.length ∧ List.Forall₂ (Value.Twin Φ) vs vs') := by
  cases es with
  | nil =>
    rw [renameExprs, Implet.evalAll]
    exact twins_pure ⟨rfl, .nil⟩
  | cons e es =>
    rw [exprsNames, List.mem_append, not_or] at hnew
    rw [renameExprs, Implet.evalAll, Implet.evalAll]
    refine (ih.eval (h.mono (by simp +contextual [exprsMention]) fun _ => rfl) hnew.1).bind
      fun v v' hv => ?_
    refine (ih.evalAll (h.mono (by simp +contextual [exprsMention]) id) hnew.2).bind
      fun vs vs' hvs => ?_
    exact twins_pure ⟨by rw [List.length_cons, List.length_cons, hvs.1], .cons hv hvs.2⟩

/-- In the frame of a call the function finds what it declares itself, and
globals of the old name only if there is no renamed variable in front of
them. -/
theorem place_call (hΦ : Φ.Valid ν n) {f f' : FunDef} (hr : Φ r = some (f, f'))
    (hs : Φ.Steady ν K) {l : Layer} (hl : l.renamed = false)
    (hm : ∀ x, x ∈ l.names ↔ x = f.name.name ∨ x ∈ declaredNames f.params ∨
      x ∈ declaredNames f.body.declarations) :
    Place ν Φ n (K.push r l) (stmtsMention ν.old f.body.statements)
      (stmtsHaveCall f.body.statements) false r := by
  have hpush : f.usesOuter ν.old → ν.isOn (l :: K r) = false :=
    fun hu => Renaming.isOn_plain hl (hs hr hu)
  refine ⟨hΦ.inRange hr, ?_, ?_⟩
  · intro hu
    rw [Layers.push, Function.update_self]
    by_cases hx : ν.old ∈ l.names
    · rw [Renaming.isOn, if_pos hx, hl]
    · refine hpush ?_
      rw [hm, not_or, not_or] at hx
      simp [FunDef.usesOuter, hu, hx.2.1, hx.2.2, Ne.symm hx.1]
  · intro _ r' g g' hg hu
    by_cases hr' : r' = r
    · subst hr'
      rw [Layers.push, Function.update_self]
      obtain ⟨rfl, -⟩ := Prod.mk.inj (Option.some.inj (hr.symm.trans hg))
      exact hpush hu
    · rw [Layers.push, Function.update_of_ne hr']
      exact hs hg hu

theorem invoke_succ (hΦ : Φ.Valid ν n) (ih : TwinsAt ν Φ n fuel) {f f' : FunDef}
    {vs vs' : List Value} (hr : Φ r = some (f, f')) (hs : Φ.Steady ν K)
    (hlen : vs.length = f.params.length) (hvs : List.Forall₂ (Value.Twin Φ) vs vs') :
    Twins ν (Store.Renamed ν (Value.Twin Φ) n K) (f.invoke (fuel + 1) r vs)
      (f'.invoke (fuel + 1) r vs') (Value.Twin Φ) := by
  have hnew := hΦ.fresh hr
  simp only [FunDef.names, List.mem_cons, List.mem_append, not_or] at hnew
  obtain ⟨hname, ⟨hparams, hdecls⟩, hstmts⟩ := hnew
  obtain ⟨hname', hparams', hdecls', hspan', hss⟩ := (hΦ.renames hr).fields
  have hrange := hΦ.inRange hr
  rw [FunDef.invoke, FunDef.invoke, hparams', hdecls', hname', hspan']
  refine (twins_inFrame (A := Flow.Twin Φ) hrange false ?_).bind fun flow flow' hflow => ?_
  · refine (alike_bindParams hrange rfl hparams hvs hlen).bind fun _ _ => ?_
    refine (alike_bindSelf hrange rfl hname' (Ne.symm hname) (Value.Twin.closure hr)).bind
      fun _ _ => ?_
    -- the frame of a call is never renamed, only blocks inside the body are
    have hrun := alike_runDecls_inner (ν := ν) (K := K)
      (l := (Layer.declared ⟨[], false⟩ f.params).declareNew f.name.name) hrange
      (Value.twin_default Φ) hdecls
    rw [Layer.renamed_declareNew, Layer.declared, Decl.rename_false, List.map_id] at hrun
    refine Alike.bind hrun fun _ _ => ?_
    have hplace := place_call hΦ hr hs (l := (((Layer.declared ⟨[], false⟩ f.params).declareNew
      f.name.name).declared f.body.declarations)) ?_ ?_
    · have hsafe : ¬ f.usesOuter ν.old → ∀ {g g'}, Φ r = some (g, g') → ¬ g.usesOuter ν.old := by
        intro h g g' hg
        obtain ⟨rfl, -⟩ := Prod.mk.inj (Option.some.inj (hr.symm.trans hg))
        exact h
      exact Alike.mono (ih.execAll hplace hsafe hss hstmts) (fun _ _ h => h)
        (fun _ _ _ _ h => ⟨h.1, _, h.2⟩) fun _ _ _ _ h => ⟨h.1, _, h.2⟩
    · exact Layer.renamed_declareNew
    · intro x
      rw [Layer.declared, List.mem_append, Layer.mem_names_declareNew]
      simp only [Layer.declared, List.append_nil, List.mem_reverse]
      tauto
  · cases hflow with
    | completed => exact twins_fail (.same _)
    | returning hv => exact twins_pure hv

/-- A branch is run in a frame of its own. -/
theorem branch (ih : TwinsAt ν Φ n fuel) {s s' : Stmt} {safe : Prop}
    (h : Place ν Φ n K (s.mentions ν.old) s.hasCall on r)
    (hsafe : safe → ∀ {f f'}, Φ r = some (f, f') → ¬ f.usesOuter ν.old)
    (hs : s.Renames ν safe on s') (hnew : ν.new ∉ s.names) :
    Twins ν (Store.Renamed ν (Value.Twin Φ) n K) (inFrame r (s.exec fuel r))
      (inFrame r (s'.exec fuel r)) (Flow.Twin Φ) :=
  twins_inFrame h.inRange false (Alike.mono (ih.exec h.branch hsafe hs hnew) (fun _ _ h => h)
    (fun _ _ _ _ h => ⟨h.1, _, h.2⟩) fun _ _ _ _ h => ⟨h.1, _, h.2⟩)

theorem twins_condition (ih : TwinsAt ν Φ n fuel) {condition : Expr}
    (h : Place ν Φ n K (condition.mentions ν.old) condition.hasCall on r)
    (hnew : ν.new ∉ condition.names) {α : Type} {f f' : Bool → Run α} {A : α → α → Prop}
    (hf : ∀ b, Twins ν (Store.Renamed ν (Value.Twin Φ) n K) (f b) (f' b) A) :
    Twins ν (Store.Renamed ν (Value.Twin Φ) n K)
      (do
        let value ← condition.eval fuel r
        f (← value.expectBool condition.span))
      (do
        let value ← (condition.rename ν on).eval fuel r
        f' (← value.expectBool (condition.rename ν on).span)) A := by
  rw [Expr.span_rename]
  refine (ih.eval h hnew).bind fun v v' hv => (twins_expectBool hv).bind ?_
  rintro b _ rfl
  exact hf b

theorem exec_succ (ih : TwinsAt ν Φ n fuel) {s s' : Stmt} {safe : Prop}
    (h : Place ν Φ n K (s.mentions ν.old) s.hasCall on r)
    (hsafe : safe → ∀ {f f'}, Φ r = some (f, f') → ¬ f.usesOuter ν.old)
    (hs : s.Renames ν safe on s') (hnew : ν.new ∉ s.names) :
    Twins ν (Store.Renamed ν (Value.Twin Φ) n K) (s.exec (fuel + 1) r) (s'.exec (fuel + 1) r)
      (Flow.Twin Φ) := by
  cases s with
  | block ds ss span =>
    obtain ⟨on', ss', rfl, hon', hss⟩ := hs
    rw [Stmt.names, List.mem_append, not_or] at hnew
    rw [Stmt.exec, Stmt.exec]
    refine twins_inFrame h.inRange on' ((alike_runDecls_inner (l := ⟨[], on'⟩) h.inRange
      (Value.twin_default Φ) hnew.1).bind fun _ _ => ?_)
    exact Alike.mono (ih.execAll (h.block hsafe hon') hsafe hss hnew.2) (fun _ _ h => h)
      (fun _ _ _ _ h => ⟨h.1, _, h.2⟩) fun _ _ _ _ h => ⟨h.1, _, h.2⟩
  | cond condition thenBranch elseBranch span =>
    cases elseBranch with
    | none =>
      obtain ⟨thenBranch', rfl, hthen⟩ := hs
      rw [Stmt.names, List.mem_append, not_or] at hnew
      rw [Stmt.exec, Stmt.exec]
      refine ih.twins_condition h.left hnew.1 fun b => ?_
      cases b with
      | true => exact ih.branch h.right hsafe hthen hnew.2
      | false => exact twins_pure .completed
    | some elseBranch =>
      obtain ⟨thenBranch', elseBranch', rfl, hthen, helse⟩ := hs
      rw [Stmt.names, List.mem_append, List.mem_append, not_or, not_or] at hnew
      rw [Stmt.exec, Stmt.exec]
      refine ih.twins_condition h.left.left hnew.1.1 fun b => ?_
      cases b with
      | true => exact ih.branch h.left.right hsafe hthen hnew.1.2
      | false => exact ih.branch h.right hsafe helse hnew.2
  | loop condition body span =>
    obtain ⟨body', rfl, hbody⟩ := id hs
    have hnew' := hnew
    rw [Stmt.names, List.mem_append, not_or] at hnew
    rw [Stmt.exec, Stmt.exec]
    refine ih.twins_condition h.left hnew.1 fun b => ?_
    cases b with
    | true =>
      refine (ih.branch h.right hsafe hbody hnew.2).bind fun flow flow' hflow => ?_
      cases hflow with
      | returning hv => exact twins_pure (.returning hv)
      | completed =>
        -- both runs are in for another round of the same loop
        exact ih.exec h hsafe hs hnew'
    | false => exact twins_pure .completed
  | assign target value span =>
    rw [Stmt.Renames] at hs
    subst hs
    rw [Stmt.names, List.mem_cons, not_or] at hnew
    rw [Stmt.exec, Stmt.exec]
    refine (ih.eval (h.mono (by simp +contextual [Stmt.mentions]) (by simp [Stmt.hasCall]))
      hnew.2).bind fun v v' hv => ?_
    refine (twins_assign h.inRange (Ne.symm hnew.1) (fun he => h.isOn ?_) hv _).bind
      fun _ _ _ => twins_pure .completed
    simp [Stmt.mentions, he]
  | ret value span =>
    rw [Stmt.Renames] at hs
    subst hs
    rw [Stmt.names] at hnew
    rw [Stmt.exec, Stmt.exec]
    exact (ih.eval (h.mono (by simp [Stmt.mentions]) (by simp [Stmt.hasCall])) hnew).bind
      fun v v' hv => twins_pure (.returning hv)

theorem execAll_succ (ih : TwinsAt ν Φ n fuel) {ss ss' : List Stmt} {safe : Prop}
    (h : Place ν Φ n K (stmtsMention ν.old ss) (stmtsHaveCall ss) on r)
    (hsafe : safe → ∀ {f f'}, Φ r = some (f, f') → ¬ f.usesOuter ν.old)
    (hss : StmtsRename ν safe on ss ss') (hnew : ν.new ∉ stmtsNames ss) :
    Twins ν (Store.Renamed ν (Value.Twin Φ) n K) (Implet.execAll (fuel + 1) r ss)
      (Implet.execAll (fuel + 1) r ss') (Flow.Twin Φ) := by
  cases ss with
  | nil =>
    rw [StmtsRename] at hss
    subst hss
    rw [Implet.execAll]
    exact twins_pure .completed
  | cons s ss =>
    obtain ⟨s', ss', rfl, hs, hss⟩ := hss
    rw [stmtsNames, List.mem_append, not_or] at hnew
    rw [Implet.execAll, Implet.execAll]
    refine (ih.exec h.left hsafe hs hnew.1).bind fun flow flow' hflow => ?_
    cases hflow with
    | returning hv => exact twins_pure (.returning hv)
    | completed => exact ih.execAll h.right hsafe hss hnew.2

end TwinsAt

/-- Code and renamed code go side by side, whatever the fuel. -/
theorem twins (hΦ : Φ.Valid ν n) (fuel : Nat) : TwinsAt ν Φ n fuel := by
  induction fuel with
  | zero => exact twinsAt_zero
  | succ fuel ih =>
    exact ⟨ih.eval_succ hΦ, ih.evalAll_succ, ih.invoke_succ hΦ, ih.exec_succ, ih.execAll_succ⟩

end Implet
