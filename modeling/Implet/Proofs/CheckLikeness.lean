/-
Implet/Proofs/CheckLikeness.lean

Checking entries that are alike.  A check looks at spans only to say where
something is wrong, so the checks of two entries that are alike go the same way:
both are accepted with the same type and lead to the same checker, or both are
rejected with the same message, at spans that are related
(`Checker.run_of_like`).
-/
import Implet.Proofs.CheckPairs
import Implet.Proofs.Likeness

namespace Implet

variable {R : Span → Span → Prop}

/-- Two type errors have the same message, and their spans are related. -/
structure TypeError.Like (R : Span → Span → Prop) (e e' : TypeError) : Prop where
  message : e'.message = e.message
  span : R e.span e'.span

theorem TypeError.like_ofScope {s s' : Span} (h : R s s') (e : ScopeError) :
    (ofScope s e).Like R (ofScope s' e) := by
  cases e <;> exact ⟨rfl, h⟩

theorem TypeError.like_ofUnify {s s' : Span} (h : R s s') (e : UnifyError) :
    (ofUnify s e).Like R (ofUnify s' e) := by
  cases e <;> exact ⟨rfl, h⟩

theorem TypeError.like_ofUnify_withNote {s s' : Span} (h : R s s') (note : String)
    (e : UnifyError) : ((ofUnify s e).withNote note).Like R ((ofUnify s' e).withNote note) := by
  cases e <;> exact ⟨rfl, h⟩

namespace Checker

variable {α β : Type}

/-- From the same checker, two checks fail with errors that are alike, or
succeed with the same result and lead to the same checker. -/
abbrev Agree (R : Span → Span → Prop) (p p' : CheckM α) : Prop := Same (TypeError.Like R) Eq Eq p p'

/-! ### Steps -/

theorem agree_onSubst (action : StateM Subst α) :
    Agree R (onSubst action) (onSubst action) := by
  rintro c _ rfl
  exact ⟨rfl, rfl⟩

theorem agree_onSubstAt {s s' : Span} (hs : R s s') (action : Subst.UnifyM α) :
    Agree R (onSubstAt s action) (onSubstAt s' action) := by
  refine (agree_onSubst _).bind fun r => ?_
  cases r with
  | ok a => exact same_pure a
  | error e => exact same_throw (TypeError.like_ofUnify hs e)

theorem agree_unifyAt {s s' : Span} (hs : R s s') (note : String) (expected found : Ty) :
    Agree R (unifyAt s note expected found) (unifyAt s' note expected found) := by
  rintro c _ rfl
  rcases h : (Subst.unify expected found).run c.subst with ⟨e | ⟨⟩, subst⟩
  · rw [unifyAt_of_error (onSubstAt_of_error h), unifyAt_of_error (onSubstAt_of_error h)]
    exact TypeError.like_ofUnify_withNote hs note e
  · rw [unifyAt_of_ok (onSubstAt_of_ok h), unifyAt_of_ok (onSubstAt_of_ok h)]
    exact ⟨rfl, rfl⟩

theorem agree_onScopeAt {s s' : Span} (hs : R s s')
    (action : Scope Ty → Except ScopeError (Scope Ty)) :
    Agree R (onScopeAt s action) (onScopeAt s' action) := by
  rintro c _ rfl
  rcases h : action c.env with e | env
  · rw [onScopeAt_of_error h, onScopeAt_of_error h]
    exact TypeError.like_ofScope hs e
  · rw [onScopeAt_of_ok h, onScopeAt_of_ok h]
    exact ⟨rfl, rfl⟩

theorem agree_typeOfName {id id' : Ident} (h : id.Like R id') :
    Agree R (typeOfName id) (typeOfName id') := by
  rintro c _ rfl
  unfold typeOfName
  rw [get_bind, get_bind, h.name]
  rcases c.env.lookup id.name with e | t
  · exact TypeError.like_ofScope h.span e
  · exact ⟨rfl, rfl⟩

theorem agree_declareAt {s s' : Span} (hs : R s s') (name : String) (t : Ty) :
    Agree R (declareAt s name t) (declareAt s' name t) := agree_onScopeAt hs _

theorem agree_inFrame (hempty : R .empty .empty) {p p' : CheckM Unit} (h : Agree R p p') :
    Agree R (inFrame p) (inFrame p') := by
  have henter : Agree R (modify fun c => { c with env := c.env.enter } : CheckM Unit)
      (modify fun c => { c with env := c.env.enter }) := by
    rintro c _ rfl
    exact ⟨rfl, rfl⟩
  exact henter.bind fun _ => h.bind fun _ => agree_onScopeAt hempty _

theorem agree_forM {A : β → β → Prop} {f : β → CheckM Unit} {bs bs' : List β}
    (h : List.Forall₂ A bs bs') (hf : ∀ b b', A b b' → Agree R (f b) (f b')) :
    Agree R (bs.forM f) (bs'.forM f) := by
  induction h with
  | nil => exact same_pure _
  | cons hb _ ih => exact (hf _ _ hb).bind fun _ => ih

/-! ### Expressions -/

mutual

theorem agree_infer : {e e' : Expr} → e.Like R e' → Agree R (infer e) (infer e')
  | _, _, .integer _ _ | _, _, .boolean _ _ => by
    rw [infer, infer]
    exact same_pure _
  | _, _, .ident hid => by
    rw [infer, infer]
    exact agree_typeOfName hid
  | _, _, .binary op hl hr hs => by
    rw [infer, infer]
    refine (agree_infer hl).bind fun t => (agree_infer hr).bind fun t' => ?_
    cases operatorTypes op with
    | some types =>
      exact (agree_unifyAt hl.span _ _ _).bind fun _ => (agree_unifyAt hr.span _ _ _).bind fun _ =>
        same_pure _
    | none =>
      exact (agree_unifyAt hs _ _ _).bind fun _ => (agree_onSubstAt hl.span _).bind fun _ =>
        same_pure _
  | _, _, .call hf hargs hs => by
    rw [infer, infer, hf.name, ← hargs.length_eq]
    refine (agree_typeOfName hf).bind fun callee => (agree_onSubst _).bind fun t => ?_
    cases t with
    | func params ret =>
      dsimp only
      split
      · exact (agree_checkArguments _ _ params hargs).bind fun _ => same_pure _
      · exact same_throw ⟨rfl, hs⟩
    | int | bool | var => exact (agree_onSubst _).bind fun t => same_throw ⟨rfl, hf.span⟩

theorem agree_checkArguments (name : String) (index : Nat) : (params : List Ty) →
    {args args' : List Expr} → List.Forall₂ (Expr.Like R) args args' →
    Agree R (checkArguments name index params args) (checkArguments name index params args')
  | params, _, _, .nil => by cases params <;> exact same_pure _
  | [], _, _, .cons _ _ => same_pure _
  | param :: params, _, _, .cons harg hargs => by
    rw [checkArguments, checkArguments]
    exact (agree_infer harg).bind fun t => (agree_unifyAt harg.span _ _ _).bind fun _ =>
      agree_checkArguments name (index + 1) params hargs

end

/-! ### Statements -/

theorem agree_declaredType {d d' : Decl} (h : d.Like R d') :
    Agree R (declaredType d) (declaredType d') := by
  rw [declaredType, declaredType, h.type]
  cases d.type with
  | some type => exact same_pure _
  | none => exact (agree_onSubst _).bind fun n => same_pure _

theorem agree_declareVar {d d' : Decl} (h : d.Like R d') :
    Agree R (declareVar d) (declareVar d') := by
  rw [declareVar, declareVar, h.name.name]
  exact (agree_declaredType h).bind fun t => agree_declareAt h.span _ t

theorem agree_checkCondition {e e' : Expr} (h : e.Like R e') :
    Agree R (checkCondition e) (checkCondition e') :=
  (agree_infer h).bind fun t => agree_unifyAt h.span _ _ t

mutual

theorem agree_checkStmt (hempty : R .empty .empty) (result : Option Ty) :
    {s s' : Stmt} → s.Like R s' → Agree R (checkStmt result s) (checkStmt result s')
  | _, _, .block hds hss _ => by
    rw [checkStmt, checkStmt]
    exact agree_inFrame hempty ((agree_forM hds fun _ _ hd => agree_declareVar hd).bind fun _ =>
      agree_checkStmts hempty result hss)
  | _, _, .cond hc ht _ => by
    rw [checkStmt, checkStmt]
    exact (agree_checkCondition hc).bind fun _ =>
      agree_inFrame hempty (agree_checkStmt hempty result ht)
  | _, _, .condElse hc ht he _ => by
    rw [checkStmt, checkStmt]
    exact (agree_checkCondition hc).bind fun _ =>
      Same.bind (agree_inFrame hempty (agree_checkStmt hempty result ht)) fun _ =>
        agree_inFrame hempty (agree_checkStmt hempty result he)
  | _, _, .loop hc hb _ => by
    rw [checkStmt, checkStmt]
    exact (agree_checkCondition hc).bind fun _ =>
      agree_inFrame hempty (agree_checkStmt hempty result hb)
  | _, _, .assign ht hv hs => by
    rw [checkStmt, checkStmt, ht.name]
    exact (agree_typeOfName ht).bind fun t => (agree_infer hv).bind fun t' =>
      agree_unifyAt hs _ _ _
  | _, _, .ret hv hs => by
    rw [checkStmt.eq_def, checkStmt.eq_def]
    cases result with
    | some expected => exact (agree_infer hv).bind fun t => agree_unifyAt hs _ _ _
    | none => exact same_throw ⟨rfl, hs⟩

theorem agree_checkStmts (hempty : R .empty .empty) (result : Option Ty) :
    {ss ss' : List Stmt} →
    List.Forall₂ (Stmt.Like R) ss ss' → Agree R (checkStmts result ss) (checkStmts result ss')
  | _, _, .nil => same_pure _
  | _, _, .cons hs hss => by
    rw [checkStmts, checkStmts]
    exact (agree_checkStmt hempty result hs).bind fun _ => agree_checkStmts hempty result hss

end

/-! ### Entries -/

theorem agree_declaredTypes {ds ds' : List Decl} (h : List.Forall₂ (Decl.Like R) ds ds') :
    Agree R (ds.mapM declaredType) (ds'.mapM declaredType) := by
  induction h with
  | nil => exact same_pure _
  | cons hd _ ih =>
    rw [List.mapM_cons, List.mapM_cons]
    exact (agree_declaredType hd).bind fun t => ih.bind fun ts => same_pure _

theorem agree_declareParams {ds ds' : List Decl} (h : List.Forall₂ (Decl.Like R) ds ds')
    (ts : List Ty) : Agree R (declareParams ds ts) (declareParams ds' ts) := by
  induction h generalizing ts with
  | nil => exact same_pure _
  | cons hd _ ih =>
    cases ts with
    | nil => exact same_pure _
    | cons t ts =>
      rw [declareParams, declareParams, hd.name.name]
      exact (agree_declareAt hd.span _ t).bind fun _ => ih ts

section

variable (hempty : R .empty .empty)
include hempty

theorem agree_checkFunction {f f' : FunDef} (h : f.Like R f') :
    Agree R (checkFunction f) (checkFunction f') := by
  rw [checkFunction, checkFunction, h.name.name]
  refine (agree_declaredTypes h.params).bind fun params => (agree_onSubst _).bind fun n => ?_
  refine (agree_declareAt h.name.span _ _).bind fun _ => Same.bind ?_ fun _ => agree_onSubst _
  exact agree_inFrame hempty ((agree_declareParams h.params params).bind fun _ =>
    (agree_forM h.body.declarations fun _ _ hd => agree_declareVar hd).bind fun _ =>
      agree_checkStmts hempty _ h.body.statements)

theorem agree_checkEntry {e e' : Entry} (h : e.Like R e') :
    Agree R (checkEntry e) (checkEntry e') := by
  cases h with
  | program hp =>
    have hfunctions := agree_forM (f := fun f => do let _ ← checkFunction f) hp.functions
      fun _ _ hf => (agree_checkFunction hempty hf).bind fun _ => same_pure ()
    exact hfunctions.bind fun _ =>
      (agree_forM hp.globals fun _ _ hd => agree_declareVar hd).bind fun _ =>
        (agree_checkStmts hempty none hp.main).bind fun _ => same_pure _
  | function hf => exact (agree_checkFunction hempty hf).bind fun t => same_pure _
  | declaration hd => exact (agree_declareVar hd).bind fun _ => same_pure _
  | statement hs => exact (agree_checkStmt hempty none hs).bind fun _ => same_pure _
  | expression he => exact (agree_infer he).bind fun t => same_pure _

theorem agree_checkResolved {e e' : Entry} (h : e.Like R e') :
    Agree R (checkResolved e) (checkResolved e') := by
  refine (agree_checkEntry hempty h).bind fun t => ?_
  cases t with
  | none => exact same_pure _
  | some t => exact (agree_onSubst _).bind fun t => same_pure _

/-- Entries that are alike are accepted with the same type and lead to the same
checker, or are rejected with errors that are alike. -/
theorem run_of_like {e e' : Entry} (h : e.Like R e') (c : Checker) :
    (∃ t c', c.run e = (.ok t, c') ∧ c.run e' = (.ok t, c')) ∨
      ∃ err err', c.run e = (.error err, c) ∧ c.run e' = (.error err', c) ∧ err.Like R err' := by
  rcases (agree_checkResolved hempty h).cases (rfl : c = c) with
    ⟨err, err', herr, herr', hlike⟩ | ⟨t, c', _, hok, hok', rfl⟩
  · exact .inr ⟨err, err', run_error_iff.mpr ⟨herr, rfl⟩, run_error_iff.mpr ⟨herr', rfl⟩, hlike⟩
  · exact .inl ⟨t, c', run_ok_iff.mpr hok, run_ok_iff.mpr hok'⟩

end

end Checker

end Implet
