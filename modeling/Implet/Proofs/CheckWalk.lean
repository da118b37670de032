/-
Implet/Proofs/CheckWalk.lean

Walking through a check.  A property of checks that the single steps have, and
that what is put together from checks with the property has, is one of the check
of every entry (`Checker.Closed.checkResolved`).
-/
import Implet.Proofs.Checking

namespace Implet

/-- A failure that no entry leads to. -/
def TypeError.IsInternal : TypeError → Prop
  | .internal _ _ => True
  | .undeclared _ _ | .duplicate _ _ | .mismatch _ _ _ _ | .arity _ _ _ _ | .notAFunction _ _ _
  | .occursCheck _ _ _ | .returnOutsideFunction _ => False

namespace Checker

/-- A property of checks that the steps of a check have, and what is put
together from checks that have it. -/
structure Closed (P : ∀ {α : Type}, CheckM α → Prop) : Prop where
  pure : ∀ {α : Type} (a : α), P (Pure.pure a : CheckM α)
  throw : ∀ {α : Type} {err : TypeError}, ¬ err.IsInternal → P (MonadExcept.throw err : CheckM α)
  bind : ∀ {α β : Type} {x : CheckM α} {f : α → CheckM β}, P x → (∀ a, P (f a)) → P (x >>= f)
  fresh : P (onSubst Subst.fresh)
  resolve : ∀ t, P (onSubst (Subst.resolve t))
  apply : ∀ t, P (onSubst (Subst.apply t))
  unifyAt : ∀ span note a b, P (Checker.unifyAt span note a b)
  requireBaseAt : ∀ span t, P (onSubstAt span (Subst.requireBase t))
  typeOfName : ∀ x, P (Checker.typeOfName x)
  declareAt : ∀ span name t, P (Checker.declareAt span name t)
  inFrame : ∀ {check : CheckM Unit}, P check → P (Checker.inFrame check)

namespace Closed

variable {P : ∀ {α : Type}, CheckM α → Prop} {α : Type}

/-! ### Expressions -/

mutual

theorem infer (h : Closed P) (e : Expr) : P (Checker.infer e) := by
  cases e with
  | integer | boolean => exact h.pure _
  | ident id => exact h.typeOfName id
  | binary op left right span =>
    rw [Checker.infer]
    refine h.bind (h.infer left) fun t₁ => h.bind (h.infer right) fun t₂ => ?_
    cases operatorTypes op with
    | some types =>
      exact h.bind (h.unifyAt _ _ _ _) fun _ => h.bind (h.unifyAt _ _ _ _) fun _ => h.pure _
    | none =>
      exact h.bind (h.unifyAt _ _ _ _) fun _ => h.bind (h.requireBaseAt _ _) fun _ => h.pure _
  | call func args span =>
    rw [Checker.infer]
    refine h.bind (h.typeOfName func) fun callee => h.bind (h.resolve callee) fun t => ?_
    cases t with
    | func params ret =>
      dsimp only
      split
      · exact h.bind (h.checkArguments _ _ _ args) fun _ => h.pure _
      · exact h.throw id
    | int | bool | var => exact h.bind (h.apply _) fun _ => h.throw id

theorem checkArguments (h : Closed P) (name : String) (index : Nat) (params : List Ty)
    (args : List Expr) : P (Checker.checkArguments name index params args) := by
  cases args with
  | nil => cases params <;> exact h.pure _
  | cons arg args =>
    cases params with
    | nil => exact h.pure _
    | cons param params =>
      rw [Checker.checkArguments]
      exact h.bind (h.infer arg) fun t => h.bind (h.unifyAt _ _ _ _) fun _ =>
        h.checkArguments name (index + 1) params args

end

/-! ### Statements -/

theorem declaredType (h : Closed P) (d : Decl) : P (Checker.declaredType d) := by
  rw [Checker.declaredType]
  cases d.type with
  | some type => exact h.pure _
  | none => exact h.bind h.fresh fun _ => h.pure _

theorem declareVar (h : Closed P) (d : Decl) : P (Checker.declareVar d) :=
  h.bind (h.declaredType d) fun t => h.declareAt _ _ t

theorem forM (h : Closed P) {f : α → CheckM Unit} (hf : ∀ a, P (f a)) (as : List α) :
    P (as.forM f) := by
  induction as with
  | nil => exact h.pure _
  | cons a as ih => exact h.bind (hf a) fun _ => ih

theorem checkCondition (h : Closed P) (e : Expr) : P (Checker.checkCondition e) :=
  h.bind (h.infer e) fun t => h.unifyAt _ _ _ t

mutual

theorem checkStmt (h : Closed P) (result : Option Ty) (s : Stmt) :
    P (Checker.checkStmt result s) := by
  cases s with
  | block ds ss span =>
    rw [Checker.checkStmt]
    exact h.inFrame (h.block result ds ss)
  | cond condition thenBranch elseBranch span =>
    cases elseBranch with
    | none =>
      rw [Checker.checkStmt]
      exact h.bind (h.checkCondition condition) fun _ => h.inFrame (h.checkStmt result thenBranch)
    | some elseBranch =>
      rw [Checker.checkStmt]
      exact h.bind (h.checkCondition condition) fun _ =>
        h.bind (h.inFrame (h.checkStmt result thenBranch)) fun _ =>
          h.inFrame (h.checkStmt result elseBranch)
  | loop condition body span =>
    rw [Checker.checkStmt]
    exact h.bind (h.checkCondition condition) fun _ => h.inFrame (h.checkStmt result body)
  | assign target value span =>
    rw [Checker.checkStmt]
    exact h.bind (h.typeOfName target) fun expected => h.bind (h.infer value) fun found =>
      h.unifyAt _ _ expected found
  | ret value span =>
    cases result with
    | none => exact h.throw id
    | some expected =>
      rw [Checker.checkStmt]
      exact h.bind (h.infer value) fun found => h.unifyAt _ _ expected found

theorem block (h : Closed P) (result : Option Ty) (ds : List Decl) (ss : List Stmt) :
    P (do ds.forM Checker.declareVar; Checker.checkStmts result ss) :=
  h.bind (h.forM h.declareVar ds) fun _ => h.checkStmts result ss

theorem checkStmts (h : Closed P) (result : Option Ty) (ss : List Stmt) :
    P (Checker.checkStmts result ss) := by
  cases ss with
  | nil => exact h.pure _
  | cons s ss =>
    rw [Checker.checkStmts]
    exact h.bind (h.checkStmt result s) fun _ => h.checkStmts result ss

end

/-! ### Entries -/

theorem declareParams (h : Closed P) (ds : List Decl) (ts : List Ty) :
    P (Checker.declareParams ds ts) := by
  induction ds generalizing ts with
  | nil => exact h.pure _
  | cons d ds ih =>
    cases ts with
    | nil => exact h.pure _
    | cons t ts => exact h.bind (h.declareAt _ _ t) fun _ => ih ts

theorem declaredTypes (h : Closed P) (ds : List Decl) :
    P (ds.mapM Checker.declaredType) := by
  induction ds with
  | nil => exact h.pure _
  | cons d ds ih =>
    rw [List.mapM_cons]
    exact h.bind (h.declaredType d) fun t => h.bind ih fun ts => h.pure _

theorem body (h : Closed P) (f : FunDef) (params : List Ty) (ret : Ty) : P (do
    Checker.declareParams f.params params
    f.body.declarations.forM Checker.declareVar
    Checker.checkStmts (some ret) f.body.statements) :=
  h.bind (h.declareParams f.params params) fun _ => h.block (some ret) _ _

theorem checkFunction (h : Closed P) (f : FunDef) : P (Checker.checkFunction f) :=
  h.bind (h.declaredTypes f.params) fun params => h.bind h.fresh fun _ =>
    h.bind (h.declareAt _ _ _) fun _ => h.bind (h.inFrame (h.body f params _)) fun _ => h.apply _

theorem checkEntry (h : Closed P) (e : Entry) : P (Checker.checkEntry e) := by
  cases e with
  | program p =>
    have hfunctions := h.forM (fun f => h.bind (h.checkFunction f) fun _ => h.pure ()) p.functions
    exact h.bind hfunctions fun _ => h.bind (h.forM h.declareVar p.globals) fun _ =>
      h.bind (h.checkStmts none p.main) fun _ => h.pure _
  | function f => exact h.bind (h.checkFunction f) fun _ => h.pure _
  | declaration d => exact h.bind (h.declareVar d) fun _ => h.pure _
  | statement s => exact h.bind (h.checkStmt none s) fun _ => h.pure _
  | expression e => exact h.bind (h.infer e) fun _ => h.pure _

theorem checkResolved (h : Closed P) (e : Entry) : P (Checker.checkResolved e) := by
  refine h.bind (h.checkEntry e) fun t => ?_
  cases t with
  | none => exact h.pure _
  | some t => exact h.bind (h.apply t) fun _ => h.pure _

end Closed

end Checker

end Implet
