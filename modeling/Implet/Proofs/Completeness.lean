/-
Implet/Proofs/Completeness.lean

What is well typed is accepted, unless the check comes to a call of a variable
of which it does not know yet that it is a function (`Checker.run_complete`).
That is the one thing the check decides before it knows enough; whatever else it
asks for is asked by the typing rules as well.

The statements run along one valuation under which the code is well typed.  A
step asks only for what the rules ask for, so it keeps the valuation and cannot
fail (`Checker.Completes`).  What a step leaves behind besides is known from the
specifications of `Checking`.
-/
import Implet.Proofs.Careful

namespace Implet

/-! ### Types are unique -/

theorem BinOp.HasTypes.result_unique {op : BinOp} {a b r u : Ground} (h : op.HasTypes a r)
    (h' : op.HasTypes b u) : r = u := by
  cases op <;> exact h.2.trans h'.2.symm

theorem Expr.HasType.unique {Γ : Context} {e : Expr} {g g' : Ground} (h : e.HasType Γ g)
    (h' : e.HasType Γ g') : g = g' := by
  cases e with
  | integer | boolean => exact Eq.trans h (Eq.symm h')
  | ident id => exact Option.some.inj (h.symm.trans h')
  | binary op left right span =>
    obtain ⟨_, hop, -, -⟩ := h
    obtain ⟨_, hop', -, -⟩ := h'
    exact hop.result_unique hop'
  | call func args span =>
    obtain ⟨_, hf, -⟩ := h
    obtain ⟨_, hf', -⟩ := h'
    exact (Ground.func.inj (Option.some.inj (hf.symm.trans hf'))).2

/-- Something is called of which it is not known yet that it is a function. -/
def TypeError.CallsUnknown : TypeError → Prop
  | .notAFunction _ (.var _) _ => True
  | .notAFunction _ .int _ | .notAFunction _ .bool _ | .notAFunction _ (.func _ _) _
  | .undeclared _ _ | .duplicate _ _ | .mismatch _ _ _ _ | .arity _ _ _ _ | .occursCheck _ _ _
  | .returnOutsideFunction _ | .internal _ _ => False

theorem TypeError.callsUnknown_withNote {note : String} {e : TypeError} :
    (e.withNote note).CallsUnknown ↔ e.CallsUnknown := by
  cases e <;> exact Iff.rfl

namespace Checker

open Subst

variable {α β : Type} {c c' : Checker} {ρ : Valuation}

/-! ### Checks that succeed or call something unknown -/

/-- The check `x` keeps the valuation `ρ`, or comes to a call of something of
which it is not known that it is a function. -/
def Completes (ρ : Valuation) (x : CheckM α) (c : Checker) : Prop :=
  match x c with
  | .ok (_, c') => c'.subst.Holds ρ
  | .error err => err.CallsUnknown

theorem completes_of_eq {x : CheckM α} {a : α} (h : x c = .ok (a, c'))
    (hρ : c'.subst.Holds ρ) :
    Completes ρ x c := by
  rw [Completes, h]
  exact hρ

theorem Completes.ok {x : CheckM α} (h : Completes ρ x c) {a : α}
    (hr : x c = .ok (a, c')) :
    c'.subst.Holds ρ := by
  rwa [Completes, hr] at h

theorem Completes.error {x : CheckM α} (h : Completes ρ x c) {err : TypeError}
    (hr : x c = .error err) : err.CallsUnknown := by
  rwa [Completes, hr] at h

theorem completes_pure {a : α} (hρ : c.subst.Holds ρ) : Completes ρ (pure a) c := hρ

theorem completes_throw {err : TypeError} (h : err.CallsUnknown) :
    Completes ρ (throw err : CheckM α) c := h

theorem Completes.bind {x : CheckM α} {f : α → CheckM β} (hx : Completes ρ x c)
    (hf : ∀ {a c₁}, x c = .ok (a, c₁) → c₁.subst.Holds ρ → Completes ρ (f a) c₁) :
    Completes ρ (x >>= f) c := by
  have hrun : (x >>= f) c = (x c >>= fun p => f p.1 p.2) := rfl
  rw [Completes, hrun]
  rcases hr : x c with err | ⟨a, c₁⟩
  · exact hx.error hr
  · exact hf hr (hx.ok hr)

/-! ### Steps -/

theorem completes_onSubst {action : StateM Subst α} (h : (action c.subst).2.Holds ρ) :
    Completes ρ (onSubst action) c :=
  completes_of_eq (onSubst_eq_ok.mpr ⟨rfl, rfl⟩) h

theorem completes_fresh (hρ : c.subst.Holds ρ) : Completes ρ (onSubst fresh) c :=
  completes_onSubst ⟨hρ.link, hρ.base⟩

theorem completes_apply (hs : c.subst.WellFormed) (hρ : c.subst.Holds ρ) (t : Ty) :
    Completes ρ (onSubst (apply t)) c :=
  completes_onSubst ((hs.shortens_apply t).holds.mpr hρ)

/-- What is asked of the substitution is granted if the valuation has it. -/
theorem completes_onSubstAt {P : Valuation → Prop} {action : UnifyM α} (span : Span)
    (h : Subst.Complete P action c.subst) (hρ : c.subst.Holds ρ) (hP : P ρ) :
    Completes ρ (onSubstAt span action) c := by
  rcases hr : action.run c.subst with ⟨err | a, s⟩
  · exact absurd hP ((h.refuses hr).2 hρ)
  · exact completes_of_eq (onSubstAt_of_ok hr) (h.keeps hr hρ hP)

theorem completes_unifyAt (hs : c.subst.WellFormed) (hρ : c.subst.Holds ρ) {span : Span}
    {note : String} {a b : Ty} (h : a.ground ρ = b.ground ρ) :
    Completes ρ (unifyAt span note a b) c := by
  have hx := completes_onSubstAt span (complete_unify hs a b) hρ h
  rcases hr : onSubstAt span (unify a b) c with err | ⟨u, c₁⟩
  · rw [Completes, unifyAt_of_error hr]
    exact TypeError.callsUnknown_withNote.mpr (hx.error hr)
  · exact completes_of_eq (unifyAt_of_ok hr) (hx.ok hr)

theorem completes_onScopeAt (hρ : c.subst.Holds ρ) {span : Span}
    {action : Scope Ty → Except ScopeError (Scope Ty)} {env : Scope Ty}
    (h : action c.env = .ok env) : Completes ρ (onScopeAt span action) c :=
  completes_of_eq (onScopeAt_of_ok h) hρ

/-- A name in scope has its type, and the rest goes on with it. -/
theorem completes_typeOfName_bind (hρ : c.subst.Holds ρ) {id : Ident} {t : Ty}
    {f : Ty → CheckM α} (ht : c.env.get? id.name = some t) (h : Completes ρ (f t) c) :
    Completes ρ (typeOfName id >>= f) c := by
  apply (completes_of_eq (typeOfName_of_get? ht) hρ).bind
  intro _ _ h₁ _
  obtain ⟨rfl, rfl⟩ := pure_eq_ok.mp ((typeOfName_of_get? ht).symm.trans h₁)
  exact h

/-- A name that has a type under the valuation has a type in the scope. -/
theorem exists_of_get?_ground {name : String} {g : Ground}
    (h : (c.env.ground ρ).get? name = some g) : ∃ t, c.env.get? name = some t ∧ t.ground ρ = g := by
  rw [Scope.get?_ground] at h
  exact Option.map_eq_some_iff.mp h

/-- What has been careful can be left again. -/
theorem completes_inFrame (hs : c.subst.WellFormed) (hρ : c.subst.Holds ρ)
    {check : CheckM Unit}
    (hcheck : Careful check) (h : Completes ρ check c.enter) : Completes ρ (inFrame check) c := by
  have henter : (modify fun c => { c with env := c.env.enter } : CheckM Unit) c
      = .ok ((), c.enter) := rfl
  rw [inFrame]
  apply (completes_of_eq henter hρ).bind
  intro _ c₁ h₁ _
  obtain rfl : c.enter = c₁ := (Prod.mk.inj (Except.ok.inj h₁)).2
  apply h.bind
  intro _ c₂ h₂ hρ₂
  obtain ⟨env, he, -⟩ := hcheck.exit hs h₂
  exact completes_onScopeAt hρ₂ he

/-! ### Expressions -/

theorem HasTypes.of_operatorTypes {op : BinOp} {operand result : Ty} {a r : Ground}
    (h : operatorTypes op = some (operand, result)) (h' : op.HasTypes a r) :
    operand.ground ρ = a := by
  cases op <;> cases h <;> exact h'.1.symm

/-- The type that is inferred is the one that the expression has. -/
theorem ground_infer (hs : c.subst.WellFormed) {e : Expr} {t : Ty} {g : Ground}
    (h : infer e c = .ok (t, c')) (hρ : c'.subst.Holds ρ) (hg : e.HasType (c.env.ground ρ) g) :
    t.ground ρ = g := ((infer_spec hs h).2 hρ).unique hg

mutual

/-- An expression that has a type passes the check. -/
theorem completes_infer {c : Checker} (hs : c.subst.WellFormed) (hρ : c.subst.Holds ρ)
    {e : Expr} {g : Ground} (h : e.HasType (c.env.ground ρ) g) : Completes ρ (infer e) c := by
  cases e with
  | integer | boolean => exact completes_pure hρ
  | ident id =>
    obtain ⟨t, ht, -⟩ := exists_of_get?_ground h
    exact completes_of_eq (typeOfName_of_get? ht) hρ
  | binary op left right span =>
    obtain ⟨a, hop, hl, hr⟩ := h
    rw [infer]
    apply (completes_infer hs hρ hl).bind
    intro t₁ c₁ h₁ hρ₁
    have hk₁ := (infer_spec hs h₁).1
    have hs₁ := hk₁.subst.wellFormed
    have ht₁ := ground_infer hs h₁ hρ₁ hl
    rw [← hk₁.env] at hr
    apply (completes_infer hs₁ hρ₁ hr).bind
    intro t₂ c₂ h₂ hρ₂
    have hs₂ := (infer_spec hs₁ h₂).1.subst.wellFormed
    have ht₂ := ground_infer hs₁ h₂ hρ₂ hr
    rcases hops : operatorTypes op with - | ⟨operand, result⟩
    · -- the operands of an equality have one type, and a base type
      obtain rfl := eq_of_operatorTypes hops
      apply (completes_unifyAt hs₂ hρ₂ (ht₁.trans ht₂.symm)).bind
      intro _ c₃ h₃ hρ₃
      have hs₃ := (unifyAt_spec hs₂ h₃).1.subst.wellFormed
      apply (completes_onSubstAt _ (complete_requireBase hs₃ t₁) hρ₃ (ht₁ ▸ hop.1)).bind
      exact fun _ hρ₄ => completes_pure hρ₄
    · have ha := HasTypes.of_operatorTypes (ρ := ρ) hops hop
      apply (completes_unifyAt hs₂ hρ₂ (ha.trans ht₁.symm)).bind
      intro _ c₃ h₃ hρ₃
      have hs₃ := (unifyAt_spec hs₂ h₃).1.subst.wellFormed
      apply (completes_unifyAt hs₃ hρ₃ (ha.trans ht₂.symm)).bind
      exact fun _ hρ₄ => completes_pure hρ₄
  | call func args span =>
    obtain ⟨gs, hf, hargs⟩ := h
    obtain ⟨callee, hcallee, hg⟩ := exists_of_get?_ground hf
    rw [infer]
    apply completes_typeOfName_bind hρ hcallee
    have hx : c.subst.Shortens (resolve callee c.subst).2 := hs.shortens_relink callee
    have hroot := (ground_root hρ callee).trans hg
    apply (completes_onSubst (hx.holds.mpr hρ)).bind
    intro u c₁ h₂ hρ₁
    obtain ⟨hu, rfl⟩ := onSubst_eq_ok.mp h₂
    have hu : u = root c.subst callee := hu
    rw [← hu] at hroot
    cases u with
    | int | bool => cases hroot
    | var n =>
      -- a root is no linked variable, so it is reported as the variable that it is
      have hn := (hx.free n).mpr (hs.root_free hu.symm)
      apply (completes_apply hx.wellFormed hρ₁ _).bind
      intro t c₂ h₃ _
      obtain ⟨ht, -⟩ := onSubst_eq_ok.mp h₃
      obtain rfl := ht.trans ((hx.wellFormed.apply_eq_expand _).trans (WellFormed.expand_free hn))
      exact completes_throw trivial
    | func params ret =>
      rw [Ty.ground_func] at hroot
      obtain ⟨rfl, rfl⟩ := Ground.func.inj hroot
      have hlen : params.length = args.length := by simpa using hargs.length_eq
      simp only [if_pos hlen]
      apply (completes_checkArguments hx.wellFormed hρ₁ hargs).bind
      exact fun _ hρ₂ => completes_pure hρ₂

/-- Arguments that have the types of the parameters pass the check. -/
theorem completes_checkArguments {c : Checker} (hs : c.subst.WellFormed)
    (hρ : c.subst.Holds ρ)
    {name : String} {index : Nat} {params : List Ty} {args : List Expr}
    (h : HaveTypes (c.env.ground ρ) args (params.map (Ty.ground ρ))) :
    Completes ρ (checkArguments name index params args) c := by
  cases args with
  | nil =>
    obtain rfl := List.map_eq_nil_iff.mp h
    exact completes_pure hρ
  | cons arg args =>
    obtain ⟨g, gs, hgs, harg, hargs⟩ := h
    cases params with
    | nil => cases hgs
    | cons param params =>
      obtain ⟨rfl, rfl⟩ := List.cons.inj hgs
      rw [checkArguments]
      apply (completes_infer hs hρ harg).bind
      intro t c₁ h₁ hρ₁
      have hk₁ := (infer_spec hs h₁).1
      have hs₁ := hk₁.subst.wellFormed
      apply (completes_unifyAt hs₁ hρ₁ (ground_infer hs h₁ hρ₁ harg).symm).bind
      intro _ c₂ h₂ hρ₂
      have hk₂ := (unifyAt_spec hs₁ h₂).1
      rw [← (hk₁.trans hk₂).env] at hargs
      exact completes_checkArguments hk₂.subst.wellFormed hρ₂ hargs

end

/-! ### Declarations -/

theorem completes_declaredType (hρ : c.subst.Holds ρ) (d : Decl) :
    Completes ρ (declaredType d) c := by
  rw [declaredType]
  cases d.type with
  | some type => exact completes_pure hρ
  | none =>
    apply (completes_fresh hρ).bind
    exact fun _ hρ₁ => completes_pure hρ₁

theorem completes_declareAt (hρ : c.subst.Holds ρ) {span : Span} {name : String} {t : Ty}
    {f : Frame Ty} {fs : List (Frame Ty)} (hf : c.env.frames = f :: fs) (hn : name ∉ f.names) :
    Completes ρ (declareAt span name t) c := by
  obtain ⟨⟨frames⟩, s⟩ := c
  obtain rfl : frames = f :: fs := hf
  exact completes_onScopeAt hρ (Scope.declare_of_not_mem t hn)

theorem completes_declareVar (hs : c.subst.WellFormed) (hρ : c.subst.Holds ρ) {d : Decl}
    {f : Frame Ty} {fs : List (Frame Ty)} (hf : c.env.frames = f :: fs)
    (hn : d.name.name ∉ f.names) : Completes ρ (declareVar d) c := by
  apply (completes_declaredType hρ d).bind
  intro t c₁ h₁ hρ₁
  have hk₁ := (declaredType_spec hs h₁).1
  exact completes_declareAt hρ₁ (hk₁.env ▸ hf) hn

/-- Variables that do not clash can be declared. -/
theorem completes_declareVars (hs : c.subst.WellFormed) (hρ : c.subst.Holds ρ)
    {ds : List Decl} {f : Frame Ty} {fs : List (Frame Ty)} (hf : c.env.frames = f :: fs)
    (hnd : (declaredNames ds).Nodup) (hdis : f.names.Disjoint (declaredNames ds)) :
    Completes ρ (ds.forM declareVar) c := by
  induction ds generalizing c f with
  | nil => exact completes_pure hρ
  | cons d ds ih =>
    have hn : d.name.name ∉ f.names := fun hm => hdis hm List.mem_cons_self
    obtain ⟨hn', hnd⟩ := List.nodup_cons.mp hnd
    show Completes ρ (do declareVar d; ds.forM declareVar) c
    apply (completes_declareVar hs hρ hf hn).bind
    intro _ c₂ h hρ₂
    obtain ⟨t, c₁, h₁, h₂⟩ := bind_eq_ok.mp h
    have hk₁ := (declaredType_spec hs h₁).1
    obtain ⟨f₁, fs₁, hf₁, -, rfl⟩ := declareAt_eq_ok h₂
    rw [hk₁.env, hf] at hf₁
    obtain ⟨rfl, rfl⟩ := List.cons.inj hf₁
    refine ih hk₁.subst.wellFormed hρ₂ rfl hnd ?_
    rw [Frame.names_cons, List.disjoint_cons_left]
    exact ⟨hn', (List.disjoint_cons_right.mp hdis).2⟩

/-- Parameters that do not clash can be declared. -/
theorem completes_declareParams (hρ : c.subst.Holds ρ) {ds : List Decl} {ts : List Ty}
    {f : Frame Ty} {fs : List (Frame Ty)} (hf : c.env.frames = f :: fs)
    (hnd : (declaredNames ds).Nodup) (hdis : f.names.Disjoint (declaredNames ds)) :
    Completes ρ (declareParams ds ts) c := by
  induction ds generalizing c f ts with
  | nil => exact completes_pure hρ
  | cons d ds ih =>
    cases ts with
    | nil => exact completes_pure hρ
    | cons t ts =>
      have hn : d.name.name ∉ f.names := fun hm => hdis hm List.mem_cons_self
      obtain ⟨hn', hnd⟩ := List.nodup_cons.mp hnd
      rw [declareParams]
      apply (completes_declareAt hρ hf hn).bind
      intro _ c₁ h₁ hρ₁
      obtain ⟨f₁, fs₁, hf₁, -, rfl⟩ := declareAt_eq_ok h₁
      rw [hf] at hf₁
      obtain ⟨rfl, rfl⟩ := List.cons.inj hf₁
      refine ih hρ₁ rfl hnd ?_
      rw [Frame.names_cons, List.disjoint_cons_left]
      exact ⟨hn', (List.disjoint_cons_right.mp hdis).2⟩

/-! ### Statements -/

theorem completes_checkCondition (hs : c.subst.WellFormed) (hρ : c.subst.Holds ρ)
    {e : Expr}
    (h : e.HasType (c.env.ground ρ) .bool) : Completes ρ (checkCondition e) c := by
  apply (completes_infer hs hρ h).bind
  intro t c₁ h₁ hρ₁
  exact completes_unifyAt (infer_spec hs h₁).1.subst.wellFormed hρ₁ (ground_infer hs h₁ hρ₁ h).symm

mutual

/-- A statement that is well typed passes the check. -/
theorem completes_checkStmt {c : Checker} (hs : c.subst.WellFormed) (hρ : c.subst.Holds ρ)
    {result : Option Ty} {s : Stmt}
    (h : s.Typed ρ (result.map (Ty.ground ρ)) c.subst.next (c.env.ground ρ)) :
    Completes ρ (checkStmt result s) c := by
  cases s with
  | block ds ss span =>
    obtain ⟨hnd, hss⟩ := h
    rw [checkStmt]
    apply completes_inFrame hs hρ (careful_closed.block result ds ss)
    have hdecl := completes_declareVars (c := c.enter) hs hρ c.env.frames_enter hnd
      (List.disjoint_nil_left _)
    apply hdecl.bind
    intro _ c₁ h₁ hρ₁
    obtain ⟨f', he, hd⟩ := declareVars_spec (by exact hs) c.env.frames_enter h₁
    refine completes_checkStmts hd.subst.wellFormed hρ₁ ?_
    rw [he, hd.subst.next]
    show StmtsTyped _ _ _ ⟨f'.ground ρ :: (c.env.ground ρ).frames⟩ ss
    rw [hd.ground]
    exact hss
  | cond condition thenBranch elseBranch span =>
    cases elseBranch with
    | none =>
      obtain ⟨hc, ht⟩ := h
      rw [checkStmt]
      apply (completes_checkCondition hs hρ hc).bind
      intro _ c₁ h₁ hρ₁
      have hk₁ := (checkCondition_spec hs h₁).1
      rw [← hk₁.env, ← hk₁.next] at ht
      exact completes_branch hk₁.subst.wellFormed hρ₁ ht
    | some elseBranch =>
      obtain ⟨hc, ht, he⟩ := h
      rw [checkStmt]
      apply (completes_checkCondition hs hρ hc).bind
      intro _ c₁ h₁ hρ₁
      have hk₁ := (checkCondition_spec hs h₁).1
      have hs₁ := hk₁.subst.wellFormed
      rw [← hk₁.env, ← hk₁.next] at ht he
      apply (completes_branch hs₁ hρ₁ ht).bind
      intro _ c₂ h₂ hρ₂
      have hk₂ := (inFrame_keeps (checkStmt_spec (c := c₁.enter) hs₁) h₂).1
      rw [← hk₂.env, ← hk₂.subst.next] at he
      exact completes_branch hk₂.subst.wellFormed hρ₂ he
  | loop condition body span =>
    obtain ⟨hc, hb⟩ := h
    rw [checkStmt]
    apply (completes_checkCondition hs hρ hc).bind
    intro _ c₁ h₁ hρ₁
    have hk₁ := (checkCondition_spec hs h₁).1
    rw [← hk₁.env, ← hk₁.next] at hb
    exact completes_branch hk₁.subst.wellFormed hρ₁ hb
  | assign target value span =>
    obtain ⟨g, hg, hv⟩ := h
    obtain ⟨t, ht, rfl⟩ := exists_of_get?_ground hg
    rw [checkStmt]
    apply completes_typeOfName_bind hρ ht
    apply (completes_infer hs hρ hv).bind
    intro u c₁ h₁ hρ₁
    exact completes_unifyAt (infer_spec hs h₁).1.subst.wellFormed hρ₁
      (ground_infer hs h₁ hρ₁ hv).symm
  | ret value span =>
    obtain ⟨g, hg, hv⟩ := h
    obtain ⟨t, rfl, rfl⟩ := Option.map_eq_some_iff.mp hg
    rw [checkStmt]
    apply (completes_infer hs hρ hv).bind
    intro u c₁ h₁ hρ₁
    exact completes_unifyAt (infer_spec hs h₁).1.subst.wellFormed hρ₁
      (ground_infer hs h₁ hρ₁ hv).symm

/-- A branch is checked in a frame of its own. -/
theorem completes_branch {c : Checker} (hs : c.subst.WellFormed) (hρ : c.subst.Holds ρ)
    {result : Option Ty} {s : Stmt}
    (h : s.Typed ρ (result.map (Ty.ground ρ)) c.subst.next (c.env.ground ρ).enter) :
    Completes ρ (inFrame (checkStmt result s)) c := by
  apply completes_inFrame hs hρ (careful_closed.checkStmt result s)
  exact completes_checkStmt (c := c.enter) hs hρ h

/-- Statements that are well typed pass the check. -/
theorem completes_checkStmts {c : Checker} (hs : c.subst.WellFormed)
    (hρ : c.subst.Holds ρ) {result : Option Ty} {ss : List Stmt}
    (h : StmtsTyped ρ (result.map (Ty.ground ρ)) c.subst.next (c.env.ground ρ) ss) :
    Completes ρ (checkStmts result ss) c := by
  cases ss with
  | nil => exact completes_pure hρ
  | cons s ss =>
    obtain ⟨hst, hss⟩ := h
    rw [checkStmts]
    apply (completes_checkStmt hs hρ hst).bind
    intro _ c₁ h₁ hρ₁
    have hk₁ := (checkStmt_spec hs h₁).1
    rw [← hk₁.env, ← hk₁.subst.next] at hss
    exact completes_checkStmts hk₁.subst.wellFormed hρ₁ hss

end

/-! ### Functions -/

theorem completes_declaredTypes (hs : c.subst.WellFormed) (hρ : c.subst.Holds ρ)
    (ds : List Decl) :
    Completes ρ (ds.mapM declaredType) c := by
  induction ds generalizing c with
  | nil => exact completes_pure hρ
  | cons d ds ih =>
    rw [List.mapM_cons]
    apply (completes_declaredType hρ d).bind
    intro t c₁ h₁ hρ₁
    apply (ih (declaredType_spec hs h₁).1.subst.wellFormed hρ₁).bind
    exact fun _ hρ₂ => completes_pure hρ₂

/-- A body that is well typed passes the check, in the frame of its function. -/
theorem completes_checkBody (hs : c.subst.WellFormed) (hρ : c.subst.Holds ρ) {f : FunDef}
    {n : Nat} {params : List Ty} {ret : Ty} (hlen : params.length = f.params.length)
    (hp : ∀ ρ, params.map (Ty.ground ρ) = groundDecls ρ n f.params)
    (hn : c.subst.next = f.bodyFirst n) (hnd : (declaredNames f.params).Nodup)
    (hnd' : (declaredNames f.body.declarations).Nodup)
    (hdis : (declaredNames f.params).Disjoint (declaredNames f.body.declarations))
    (hss : StmtsTyped ρ (some (ret.ground ρ)) (f.bodyFirst n + mintedDecls f.body.declarations)
      ⟨f.frame ρ n :: (c.env.ground ρ).frames⟩ f.body.statements) :
    Completes ρ (inFrame do
      declareParams f.params params
      f.body.declarations.forM declareVar
      checkStmts (some ret) f.body.statements) c := by
  have henter := c.env.frames_enter
  apply completes_inFrame hs hρ (careful_closed.body f params ret)
  apply (completes_declareParams (c := c.enter) hρ henter hnd (List.disjoint_nil_left _)).bind
  intro _ c₁ h₁ hρ₁
  obtain ⟨rfl, -, -⟩ := declareParams_spec hlen henter h₁
  have hdis₁ : (Frame.declared [] f.params params).names.Disjoint
      (declaredNames f.body.declarations) := by
    rw [Frame.names_declared _ hlen]
    intro x hx hm
    simp only [Frame.names_nil, List.append_nil, List.mem_reverse] at hx
    exact hdis hx hm
  have hdecl : Completes ρ (f.body.declarations.forM declareVar)
      { c with env := ⟨Frame.declared [] f.params params :: c.env.frames⟩ } :=
    completes_declareVars (by exact hs) hρ₁ rfl hnd' hdis₁
  apply hdecl.bind
  intro _ c₂ h₂ hρ₂
  obtain ⟨F, he, hd⟩ := declareVars_spec (by exact hs) rfl h₂
  refine completes_checkStmts hd.subst.wellFormed hρ₂ ?_
  have hF := hd.ground ρ
  simp only [hn] at hF
  rw [he, hd.subst.next, hn]
  show StmtsTyped _ _ _ ⟨F.ground ρ :: (c.env.ground ρ).frames⟩ _
  rw [ground_frame (hp ρ) hF]
  exact hss

/-- A function that is well typed passes the check. -/
theorem completes_checkFunction (hs : c.subst.WellFormed) (hρ : c.subst.Holds ρ)
    {G : Frame Ty}
    (hc : c.env = ⟨[G]⟩) {f : FunDef} (h : f.Typed ρ c.subst.next (G.ground ρ)) :
    Completes ρ (checkFunction f) c := by
  rw [checkFunction]
  apply (completes_declaredTypes hs hρ f.params).bind
  intro params c₁ h₁ hρ₁
  obtain ⟨hk₁, hp⟩ := declaredTypes_spec hs h₁
  apply (completes_fresh hρ₁).bind
  intro r c₂ h₂ hρ₂
  obtain ⟨hr, rfl⟩ := onSubst_eq_ok.mp h₂
  obtain rfl : r = c₁.subst.next := hr
  have hx₂ := hk₁.subst.trans hk₁.subst.wellFormed.extends_fresh
  have hfresh := h.fresh
  rw [Frame.names_ground] at hfresh
  have hf : c₁.env.frames = [G] := by rw [hk₁.env, hc]
  apply (completes_declareAt hρ₂ hf hfresh).bind
  intro _ c₃ h₃ hρ₃
  obtain ⟨G₀, fs, hG, -, rfl⟩ := declareAt_eq_ok h₃
  obtain ⟨rfl, rfl⟩ := List.cons.inj (hf.symm.trans hG)
  have hG' : Frame.ground ρ ((f.name.name, Ty.func params (.var c₁.subst.next)) :: G)
      = f.globals ρ c.subst.next (G.ground ρ) := by
    rw [Frame.ground_cons, hk₁.subst.next, ground_function (hp ρ)]
    rfl
  have hbody := h.body
  rw [← hG', FunDef.result, ← hk₁.subst.next] at hbody
  have hlen := length_of_ground (hp fun _ => .int)
  refine Completes.bind ?_ ?_
  · exact completes_checkBody (by exact hx₂.wellFormed) hρ₃ hlen hp hx₂.next h.nodup_params
      h.nodup_declarations h.disjoint hbody
  · intro _ c₄ h₄ hρ₄
    have hs₄ := (checkBody_spec (by exact hx₂.wellFormed) hlen hp hx₂.next h₄).1.subst.wellFormed
    exact completes_apply hs₄ hρ₄ _

/-! ### Entries -/

theorem completes_checkFunctions (hs : c.subst.WellFormed) (hρ : c.subst.Holds ρ)
    {G : Frame Ty} (hc : c.env = ⟨[G]⟩) {fs : List FunDef}
    (h : FunctionsTyped ρ c.subst.next (G.ground ρ) fs) :
    Completes ρ (fs.forM fun f => do let _ ← checkFunction f : CheckM Unit) c := by
  induction fs generalizing c G with
  | nil => exact completes_pure hρ
  | cons f fs ih =>
    obtain ⟨hf, hfs⟩ := h
    show Completes ρ ((do let _ ← checkFunction f) >>= fun _ => fs.forM _) c
    rw [bind_assoc]
    apply (completes_checkFunction hs hρ hc hf).bind
    intro t c₁ h₁ hρ₁
    obtain ⟨G₁, hc₁, hx₁, hG₁, -⟩ := checkFunction_spec hs hc h₁
    rw [← hx₁.next, ← hG₁] at hfs
    exact ih hx₁.wellFormed hρ₁ hc₁ hfs

theorem completes_checkProgram (hs : c.subst.WellFormed) (hρ : c.subst.Holds ρ)
    {G : Frame Ty} (hc : c.env = ⟨[G]⟩) {p : Program} {type : Option Ground}
    (h : (Entry.program p).Typed ρ c.subst.next (G.ground ρ) type) :
    Completes ρ (checkEntry (.program p)) c := by
  obtain ⟨-, hfs, hnd, hdis, hmain⟩ := h
  rw [checkEntry]
  apply (completes_checkFunctions hs hρ hc hfs).bind
  intro _ c₁ h₁ hρ₁
  obtain ⟨G₁, hc₁, hx₁, hG₁, -⟩ := checkFunctions_spec hs hc h₁
  rw [← hG₁, Frame.names_ground] at hdis
  apply (completes_declareVars hx₁.wellFormed hρ₁ (by rw [hc₁]) hnd hdis).bind
  intro _ c₂ h₂ hρ₂
  obtain ⟨G₂, hc₂, hd⟩ := declareVars_spec hx₁.wellFormed (by rw [hc₁]) h₂
  have hG₂ : G₂.ground ρ = (Entry.program p).globals ρ c.subst.next (G.ground ρ) := by
    rw [hd.ground, hG₁, hx₁.next]
    rfl
  rw [← hG₂, ← hx₁.next, ← hd.subst.next] at hmain
  refine Completes.bind (completes_checkStmts hd.subst.wellFormed hρ₂ ?_)
    fun _ hρ₃ => completes_pure hρ₃
  rw [hc₂]
  exact hmain

/-- An entry that is well typed passes the check. -/
theorem completes_checkEntry (hs : c.subst.WellFormed) (hρ : c.subst.Holds ρ)
    {G : Frame Ty} (hc : c.env = ⟨[G]⟩) {e : Entry} {type : Option Ground}
    (h : e.Typed ρ c.subst.next (G.ground ρ) type) : Completes ρ (checkEntry e) c := by
  have hground : c.env.ground ρ = ⟨[G.ground ρ]⟩ := by rw [hc]; rfl
  cases e with
  | program p => exact completes_checkProgram hs hρ hc h
  | function f =>
    rw [checkEntry]
    apply (completes_checkFunction hs hρ hc h.2).bind
    exact fun _ hρ₁ => completes_pure hρ₁
  | declaration d =>
    have hn := h.2
    rw [Frame.names_ground] at hn
    rw [checkEntry]
    apply (completes_declareVar hs hρ (by rw [hc]) hn).bind
    exact fun _ hρ₁ => completes_pure hρ₁
  | statement s =>
    rw [checkEntry]
    apply (completes_checkStmt hs hρ (hground ▸ h.2)).bind
    exact fun _ hρ₁ => completes_pure hρ₁
  | expression e =>
    obtain ⟨g, -, hg⟩ := h
    rw [checkEntry]
    apply (completes_infer hs hρ (hground ▸ hg)).bind
    exact fun _ hρ₁ => completes_pure hρ₁

theorem completes_checkResolved (hs : c.subst.WellFormed) (hρ : c.subst.Holds ρ)
    {G : Frame Ty} (hc : c.env = ⟨[G]⟩) {e : Entry} {type : Option Ground}
    (h : e.Typed ρ c.subst.next (G.ground ρ) type) : Completes ρ (checkResolved e) c := by
  apply (completes_checkEntry hs hρ hc h).bind
  intro t c₁ h₁ hρ₁
  obtain ⟨G', ha⟩ := checkEntry_spec hs hc h₁
  cases t with
  | none => exact completes_pure hρ₁
  | some t =>
    apply (completes_apply ha.subst.wellFormed hρ₁ t).bind
    exact fun _ hρ₂ => completes_pure hρ₂

/-- An entry that is well typed is accepted, or calls something of which it is
not known that it is a function. -/
theorem run_complete (hs : c.subst.WellFormed) (hρ : c.subst.Holds ρ) {G : Frame Ty}
    (hc : c.env = ⟨[G]⟩) {e : Entry} {type : Option Ground}
    (h : e.Typed ρ c.subst.next (G.ground ρ) type) {r : Except TypeError (Option Ty)}
    (hr : c.run e = (r, c')) :
    match r with
    | .ok _ => c'.subst.Holds ρ
    | .error err => err.CallsUnknown := by
  have hcheck := completes_checkResolved hs hρ hc h
  cases r with
  | ok t => exact hcheck.ok (run_ok_iff.mp hr)
  | error err => exact hcheck.error (run_error_iff.mp hr).1

end Checker

end Implet
