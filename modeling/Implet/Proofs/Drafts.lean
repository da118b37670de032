/-
Implet/Proofs/Drafts.lean

Checking in place.  `Checker.run` leads from a checker to another one, or to
none if the entry is rejected.  A `Draft` is a checker that is written to as the
check goes along.  What a check has declared, linked and marked, and the
variables that it has made, are there when it fails, and so is all that the
construct around it had done by then.  On the way out frames are left and
expected types are dropped.  Only when an entry is rejected as a whole is the
checker put back that was there before.

A draft also keeps a list of the variables made for an entry, each with what
there was when it was made (`Minting`).  The list is written and never read.

Main result: checking in place comes to the same type or the same error and to
the same checker, and leaves no type behind that a `return` would have to agree
with (`Draft.run_checker`).
-/
import Implet.Proofs.Checking

namespace Implet

/-- A variable, and the checker and the expected types that it was made with. -/
structure Minting where
  number : Nat
  checker : Checker
  expected : List Ty

/-- A check in progress. -/
structure Draft where
  checker : Checker
  /-- The types that a `return` has to agree with, for each function whose body
  is being checked, the innermost first. -/
  expected : List Ty
  /-- The variables made for the entry, in order. -/
  minted : List Minting

namespace Draft

/-- A draft that knows no names. -/
def initial : Draft := ⟨.initial, [], []⟩

/-- A check in place, which leaves a draft behind also if it fails. -/
abbrev DraftM := ExceptT TypeError (StateM Draft)

variable {α β : Type}

/-- A draft with another substitution. -/
def withSubst (d : Draft) (subst : Subst) : Draft :=
  { d with checker := { d.checker with subst } }

/-- A draft with another scope. -/
def withEnv (d : Draft) (env : Scope Ty) : Draft :=
  { d with checker := { d.checker with env } }

/-! ### Steps -/

/-- Do something with the substitution that cannot fail. -/
def onSubst (action : StateM Subst α) : DraftM α :=
  modifyGet fun d =>
    let (a, subst) := action d.checker.subst
    (a, d.withSubst subst)

/-- Make a variable, and make a note of it. -/
def mint : DraftM Nat :=
  modifyGet fun d =>
    let (n, subst) := Subst.fresh d.checker.subst
    (n, { d.withSubst subst with minted := d.minted ++ [⟨n, d.checker, d.expected⟩] })

/-- Do something with the substitution on behalf of the construct at `span`. -/
def onSubstAt (span : Span) (action : Subst.UnifyM α) : DraftM α := do
  match ← onSubst action.run with
  | .ok a => return a
  | .error e => throw (.ofUnify span e)

/-- Do something with the scope on behalf of the construct at `span`. -/
def onScopeAt (span : Span) (action : Scope Ty → Except ScopeError (Scope Ty)) :
    DraftM Unit := do
  match action (← get).checker.env with
  | .ok env => modify fun d => d.withEnv env
  | .error e => throw (.ofScope span e)

/-- Make two types agree, and say on failure what asked for it. -/
def unifyAt (span : Span) (note : String) (expected found : Ty) : DraftM Unit :=
  tryCatch (onSubstAt span (Subst.unify expected found)) fun e => throw (e.withNote note)

/-- The type of a name where it is used. -/
def typeOfName (id : Ident) : DraftM Ty := do
  match (← get).checker.env.lookup id.name with
  | .ok t => return t
  | .error e => throw (.ofScope id.span e)

/-- The type that a `return` at `span` has to agree with. -/
def expectedType (span : Span) : DraftM Ty := do
  match (← get).expected with
  | type :: _ => return type
  | [] => throw (.returnOutsideFunction span)

/-- The type of a declared variable: its annotation, or a fresh variable. -/
def declaredType (d : Decl) : DraftM Ty :=
  match d.type with
  | some type => return .ofBase type
  | none => return .var (← mint)

/-- Give a name a type in the innermost frame. -/
def declareAt (span : Span) (name : String) (type : Ty) : DraftM Unit :=
  onScopeAt span (·.declare name type)

/-- Declare a variable. -/
def declareVar (d : Decl) : DraftM Unit := do
  declareAt d.span d.name.name (← declaredType d)

/-- Check something in a fresh frame, which is left whatever comes of it.  A
failure of the check is reported before a failure to leave the frame. -/
def inFrame (check : DraftM Unit) : DraftM Unit := ExceptT.mk do
  modify fun d => d.withEnv d.checker.env.enter
  let checked ← check.run
  let left ← (onScopeAt .empty Scope.exit).run
  return do checked; left

/-- Check something in which a `return` has to agree with a type.  Whatever
comes of it, the type is dropped afterwards. -/
def expecting (result : Ty) (check : DraftM Unit) : DraftM Unit := ExceptT.mk do
  modify fun d => { d with expected := result :: d.expected }
  let checked ← check.run
  modify fun d => { d with expected := d.expected.tail }
  return checked

/-! ### Expressions -/

mutual

/-- The type of an expression. -/
def infer : Expr → DraftM Ty
  | .integer _ _ => return .int
  | .boolean _ _ => return .bool
  | .ident id => typeOfName id
  | .binary op left right span => do
    let leftType ← infer left
    let rightType ← infer right
    match Checker.operatorTypes op with
    | some (operand, result) =>
      let note := "in operands of '" ++ op.text ++ "'"
      unifyAt left.span note operand leftType
      unifyAt right.span note operand rightType
      return result
    | none =>
      unifyAt span "both sides of '==' must have the same type" leftType rightType
      onSubstAt left.span (Subst.requireBase leftType)
      return .bool
  | .call func args span => do
    let callee ← typeOfName func
    match ← onSubst (Subst.resolve callee) with
    | .func params ret =>
      if params.length = args.length then
        checkArguments func.name 1 params args
        return ret
      else throw (.arity func.name params.length args.length span)
    | other => throw (.notAFunction func.name (← onSubst (Subst.apply other)) func.span)

/-- Check the arguments of a call from the one with number `index` on. -/
def checkArguments (name : String) (index : Nat) : List Ty → List Expr → DraftM Unit
  | param :: params, arg :: args => do
    let type ← infer arg
    unifyAt arg.span ("in argument " ++ toString index ++ " of call to '" ++ name ++ "'") param type
    checkArguments name (index + 1) params args
  | _, _ => return

end

/-! ### Statements -/

/-- Check that an expression can be a condition. -/
def checkCondition (condition : Expr) : DraftM Unit := do
  let type ← infer condition
  unifyAt condition.span "conditions must be boolean" .bool type

mutual

/-- Check a statement. -/
def checkStmt : Stmt → DraftM Unit
  | .block declarations statements _ => inFrame do
    declarations.forM declareVar
    checkStmts statements
  | .cond condition thenBranch none _ => do
    checkCondition condition
    inFrame (checkStmt thenBranch)
  | .cond condition thenBranch (some elseBranch) _ => do
    checkCondition condition
    inFrame (checkStmt thenBranch)
    inFrame (checkStmt elseBranch)
  | .loop condition body _ => do
    checkCondition condition
    inFrame (checkStmt body)
  | .assign target value span => do
    let expected ← typeOfName target
    let found ← infer value
    unifyAt span ("in assignment to '" ++ target.name ++ "'") expected found
  | .ret value span => do
    let expected ← expectedType span
    let found ← infer value
    unifyAt span "all return statements of a function must agree" expected found

/-- Check statements that follow each other. -/
def checkStmts : List Stmt → DraftM Unit
  | [] => return
  | s :: ss => do
    checkStmt s
    checkStmts ss

end

/-! ### Entries -/

/-- Declare parameters with their types. -/
def declareParams : List Decl → List Ty → DraftM Unit
  | d :: ds, t :: ts => do
    declareAt d.span d.name.name t
    declareParams ds ts
  | _, _ => return

/-- Check a function and return its type. -/
def checkFunction (f : FunDef) : DraftM Ty := do
  let params ← f.params.mapM declaredType
  let ret := Ty.var (← mint)
  let type := Ty.func params ret
  declareAt f.name.span f.name.name type
  expecting ret (inFrame do
    declareParams f.params params
    f.body.declarations.forM declareVar
    checkStmts f.body.statements)
  onSubst (Subst.apply type)

/-- Check an entry.  A bare expression and a function have a type. -/
def checkEntry : Entry → DraftM (Option Ty)
  | .program p => do
    p.functions.forM fun f => do let _ ← checkFunction f
    p.globals.forM declareVar
    checkStmts p.main
    return none
  | .function f => return some (← checkFunction f)
  | .declaration d => do
    declareVar d
    return none
  | .statement s => do
    checkStmt s
    return none
  | .expression e => return some (← infer e)

/-- Check an entry and resolve its type. -/
def checkResolved (e : Entry) : DraftM (Option Ty) := do
  match ← checkEntry e with
  | some type => return some (← onSubst (Subst.apply type))
  | none => return none

/-- Check an entry, up to where the check stops.  The list of the variables made
begins anew. -/
def check (d : Draft) (e : Entry) : Except TypeError (Option Ty) × Draft :=
  (checkResolved e).run { d with minted := [] }

/-- Check an entry.  If it is rejected the checker from before is put back, and
nothing is expected any more. -/
def run (d : Draft) (e : Entry) : Except TypeError (Option Ty) × Draft :=
  match d.check e with
  | (.ok type, d') => (.ok type, d')
  | (.error err, d') => (.error err, { d' with checker := d.checker, expected := [] })

/-- Ask the checker something. -/
def ask (question : StateM Checker α) (d : Draft) : Draft :=
  { d with checker := (question d.checker).2 }

/-! ### Following a check -/

theorem run_onSubst (action : StateM Subst α) (d : Draft) :
    (onSubst action).run d =
      (.ok (action d.checker.subst).1, d.withSubst (action d.checker.subst).2) :=
  rfl

theorem run_onSubstAt (span : Span) (action : Subst.UnifyM α) (d : Draft) :
    (onSubstAt span action).run d = ((action.run d.checker.subst).1.mapError (.ofUnify span),
      d.withSubst (action.run d.checker.subst).2) := by
  rw [onSubstAt, run_bind_match, run_onSubst]
  dsimp only
  cases (action.run d.checker.subst).1 <;> rfl

theorem run_unifyAt (span : Span) (note : String) (expected found : Ty) (d : Draft) :
    (unifyAt span note expected found).run d =
      (((Subst.unify expected found).run d.checker.subst).1.mapError
        (fun e => (TypeError.ofUnify span e).withNote note),
      d.withSubst ((Subst.unify expected found).run d.checker.subst).2) := by
  rw [unifyAt, run_tryCatch, run_onSubstAt]
  cases ((Subst.unify expected found).run d.checker.subst).1 <;> rfl

theorem run_onScopeAt (span : Span) (action : Scope Ty → Except ScopeError (Scope Ty))
    (d : Draft) : (onScopeAt span action).run d = match action d.checker.env with
      | .ok env => (.ok (), d.withEnv env)
      | .error e => (.error (.ofScope span e), d) := by
  show (match action d.checker.env with | .ok env => _ | .error e => _ : DraftM Unit).run d = _
  cases action d.checker.env <;> rfl

theorem run_typeOfName (id : Ident) (d : Draft) :
    (typeOfName id).run d = ((d.checker.env.lookup id.name).mapError (.ofScope id.span), d) := by
  show (match d.checker.env.lookup id.name with | .ok t => _ | .error e => _ : DraftM Ty).run d = _
  cases d.checker.env.lookup id.name <;> rfl

theorem run_expectedType (span : Span) (d : Draft) :
    (expectedType span).run d = match d.expected with
      | type :: _ => (.ok type, d)
      | [] => (.error (.returnOutsideFunction span), d) := by
  show (match d.expected with | type :: _ => _ | [] => _ : DraftM Ty).run d = _
  cases d.expected <;> rfl

theorem run_inFrame (check : DraftM Unit) (d : Draft) :
    (inFrame check).run d =
      let (checked, d₁) := check.run (d.withEnv d.checker.env.enter)
      let (left, d₂) := (onScopeAt .empty Scope.exit).run d₁
      (do checked; left, d₂) := rfl

theorem run_expecting (type : Ty) (check : DraftM Unit) (d : Draft) :
    (expecting type check).run d =
      let (checked, d₁) := check.run { d with expected := type :: d.expected }
      (checked, { d₁ with expected := d₁.expected.tail }) := rfl

/-- A check in place goes as a check does where a `return` has to agree with
`result`: it comes to the same result and to the same checker, or to the same
error.  Either way the types that are expected are those from before. -/
def Follows (result : Option Ty) (p : DraftM α) (q : Checker.CheckM α) : Prop :=
  ∀ d : Draft, d.expected.head? = result →
    (p.run d).2.expected = d.expected ∧
    q d.checker = (p.run d).1.map fun a => (a, (p.run d).2.checker)

namespace Follows

variable {result : Option Ty}

/-! #### Steps -/

theorem pure (a : α) : Follows result (Pure.pure a) (Pure.pure a) := fun _ _ => ⟨rfl, rfl⟩

theorem throw (e : TypeError) :
    Follows result (MonadExcept.throw e : DraftM α) (MonadExcept.throw e) := fun _ _ => ⟨rfl, rfl⟩

theorem bind {p : DraftM α} {q : Checker.CheckM α} {f : α → DraftM β}
    {g : α → Checker.CheckM β}
    (h : Follows result p q) (hf : ∀ a, Follows result (f a) (g a)) :
    Follows result (p >>= f) (q >>= g) := by
  intro d hd
  obtain ⟨he, hq⟩ := h d hd
  have hbind : (q >>= g) d.checker = q d.checker >>= fun r => g r.1 r.2 := rfl
  rw [run_bind_match, hbind, hq]
  rcases hp : p.run d with ⟨e | a, d₁⟩ <;> rw [hp] at he
  · exact ⟨he, rfl⟩
  · obtain ⟨he₁, hg⟩ := hf a d₁ (he ▸ hd)
    exact ⟨he₁.trans he, hg⟩

theorem onSubst (action : StateM Subst α) :
    Follows result (Draft.onSubst action) (Checker.onSubst action) := fun _ _ => ⟨rfl, rfl⟩

theorem mint : Follows result Draft.mint (Checker.onSubst Subst.fresh) := fun _ _ => ⟨rfl, rfl⟩

theorem onSubstAt (span : Span) (action : Subst.UnifyM α) :
    Follows result (Draft.onSubstAt span action) (Checker.onSubstAt span action) := by
  refine (onSubst _).bind fun r => ?_
  cases r with
  | ok a => exact pure a
  | error e => exact throw _

theorem unifyAt (span : Span) (note : String) (expected found : Ty) :
    Follows result (Draft.unifyAt span note expected found)
      (Checker.unifyAt span note expected found) := by
  intro d _
  rw [run_unifyAt]
  rcases h : (Subst.unify expected found).run d.checker.subst with ⟨e | _, s⟩
  · exact ⟨rfl, Checker.unifyAt_of_error (Checker.onSubstAt_of_error h)⟩
  · exact ⟨rfl, Checker.unifyAt_of_ok (Checker.onSubstAt_of_ok h)⟩

theorem onScopeAt (span : Span) (action : Scope Ty → Except ScopeError (Scope Ty)) :
    Follows result (Draft.onScopeAt span action) (Checker.onScopeAt span action) := by
  intro d _
  rw [run_onScopeAt]
  rcases h : action d.checker.env with e | env
  · exact ⟨rfl, Checker.onScopeAt_of_error h⟩
  · exact ⟨rfl, Checker.onScopeAt_of_ok h⟩

theorem typeOfName (id : Ident) :
    Follows result (Draft.typeOfName id) (Checker.typeOfName id) := by
  intro d _
  rw [run_typeOfName]
  refine ⟨rfl, ?_⟩
  unfold Checker.typeOfName
  rw [Checker.get_bind]
  cases d.checker.env.lookup id.name <;> rfl

/-- A frame is left whatever comes of the check inside, and where that fails so
does the whole. -/
theorem inFrame {p : DraftM Unit} {q : Checker.CheckM Unit} (h : Follows result p q) :
    Follows result (Draft.inFrame p) (Checker.inFrame q) := by
  intro d hd
  obtain ⟨he, hq⟩ := h (d.withEnv d.checker.env.enter) hd
  have hinner : Checker.inFrame q d.checker
      = q d.checker.enter >>= fun r => Checker.onScopeAt .empty Scope.exit r.2 := rfl
  rw [run_inFrame, hinner, show q d.checker.enter = _ from hq]
  rcases hp : p.run (d.withEnv d.checker.env.enter) with ⟨e | _, d₁⟩ <;> rw [hp] at he
  · exact ⟨(onScopeAt .empty Scope.exit d₁ rfl).1.trans he, rfl⟩
  · obtain ⟨he₁, hexit⟩ := onScopeAt .empty Scope.exit d₁ rfl
    exact ⟨he₁.trans he, hexit⟩

/-- What a `return` inside has to agree with is the type that is put on top. -/
theorem expecting {p : DraftM Unit} {q : Checker.CheckM Unit} {type : Ty}
    (h : Follows (some type) p q) : Follows result (Draft.expecting type p) q := by
  intro d _
  obtain ⟨he, hq⟩ := h { d with expected := type :: d.expected } rfl
  rw [run_expecting]
  exact ⟨congrArg List.tail he, hq⟩

theorem forM {f : α → DraftM Unit} {g : α → Checker.CheckM Unit}
    (h : ∀ a, Follows result (f a) (g a)) (as : List α) :
    Follows result (as.forM f) (as.forM g) := by
  induction as with
  | nil => exact pure ()
  | cons a as ih => exact (h a).bind fun _ => ih

/-! #### Expressions -/

mutual

theorem infer (e : Expr) : Follows result (Draft.infer e) (Checker.infer e) := by
  cases e with
  | integer | boolean => exact pure _
  | ident id => exact typeOfName id
  | binary op left right span =>
    rw [Draft.infer, Checker.infer]
    refine (infer left).bind fun _ => (infer right).bind fun _ => ?_
    cases Checker.operatorTypes op with
    | some types => exact (unifyAt _ _ _ _).bind fun _ => (unifyAt _ _ _ _).bind fun _ => pure _
    | none => exact (unifyAt _ _ _ _).bind fun _ => (onSubstAt _ _).bind fun _ => pure _
  | call func args span =>
    rw [Draft.infer, Checker.infer]
    refine (typeOfName func).bind fun callee => (onSubst _).bind fun t => ?_
    cases t with
    | func params ret =>
      dsimp only
      split
      · exact (checkArguments _ _ _ args).bind fun _ => pure _
      · exact throw _
    | int | bool | var => exact (onSubst _).bind fun _ => throw _

theorem checkArguments (name : String) (index : Nat) (params : List Ty)
    (args : List Expr) :
    Follows result (Draft.checkArguments name index params args)
      (Checker.checkArguments name index params args) := by
  cases args with
  | nil => cases params <;> exact pure _
  | cons arg args =>
    cases params with
    | nil => exact pure _
    | cons param params =>
      rw [Draft.checkArguments, Checker.checkArguments]
      exact (infer arg).bind fun _ => (unifyAt _ _ _ _).bind fun _ =>
        checkArguments name (index + 1) params args

end

/-! #### Statements -/

theorem declaredType (d : Decl) :
    Follows result (Draft.declaredType d) (Checker.declaredType d) := by
  rw [Draft.declaredType, Checker.declaredType]
  cases d.type with
  | some type => exact pure _
  | none => exact mint.bind fun _ => pure _

theorem declareVar (d : Decl) :
    Follows result (Draft.declareVar d) (Checker.declareVar d) :=
  (declaredType d).bind fun _ => onScopeAt _ _

theorem checkCondition (e : Expr) :
    Follows result (Draft.checkCondition e) (Checker.checkCondition e) :=
  (infer e).bind fun _ => unifyAt _ _ _ _

/-- A `return` looks up what it has to agree with. -/
theorem ret (value : Expr) (span : Span) :
    Follows result (Draft.checkStmt (.ret value span))
      (Checker.checkStmt result (.ret value span)) := by
  intro d hd
  rw [Draft.checkStmt, run_bind_match, run_expectedType]
  rcases he : d.expected with - | ⟨type, types⟩
  · obtain rfl : none = result := by simpa [he] using hd
    exact ⟨he, rfl⟩
  · obtain rfl : some type = result := by simpa [he] using hd
    rw [Checker.checkStmt]
    obtain ⟨he', hq⟩ := ((infer value).bind fun found => unifyAt span
      "all return statements of a function must agree" type found) d hd
    exact ⟨he'.trans he, hq⟩

mutual

theorem checkStmt (s : Stmt) :
    Follows result (Draft.checkStmt s) (Checker.checkStmt result s) := by
  cases s with
  | block ds ss span =>
    rw [Draft.checkStmt, Checker.checkStmt]
    exact ((forM declareVar ds).bind fun _ => checkStmts ss).inFrame
  | cond condition thenBranch elseBranch span =>
    cases elseBranch with
    | none =>
      rw [Draft.checkStmt, Checker.checkStmt]
      exact (checkCondition condition).bind fun _ => (checkStmt thenBranch).inFrame
    | some elseBranch =>
      rw [Draft.checkStmt, Checker.checkStmt]
      exact (checkCondition condition).bind fun _ => (checkStmt thenBranch).inFrame.bind fun _ =>
        (checkStmt elseBranch).inFrame
  | loop condition body span =>
    rw [Draft.checkStmt, Checker.checkStmt]
    exact (checkCondition condition).bind fun _ => (checkStmt body).inFrame
  | assign target value span =>
    rw [Draft.checkStmt, Checker.checkStmt]
    exact (typeOfName target).bind fun _ => (infer value).bind fun _ => unifyAt _ _ _ _
  | ret value span => exact ret value span

theorem checkStmts (ss : List Stmt) :
    Follows result (Draft.checkStmts ss) (Checker.checkStmts result ss) := by
  cases ss with
  | nil => exact pure _
  | cons s ss =>
    rw [Draft.checkStmts, Checker.checkStmts]
    exact (checkStmt s).bind fun _ => checkStmts ss

end

/-! #### Entries -/

theorem declareParams (ds : List Decl) (ts : List Ty) :
    Follows result (Draft.declareParams ds ts) (Checker.declareParams ds ts) := by
  induction ds generalizing ts with
  | nil => exact pure _
  | cons d ds ih =>
    cases ts with
    | nil => exact pure _
    | cons t ts => exact (onScopeAt _ _).bind fun _ => ih ts

theorem declaredTypes (ds : List Decl) :
    Follows result (ds.mapM Draft.declaredType) (ds.mapM Checker.declaredType) := by
  induction ds with
  | nil => exact pure _
  | cons d ds ih =>
    rw [List.mapM_cons, List.mapM_cons]
    exact (declaredType d).bind fun t => ih.bind fun ts => pure _

theorem checkFunction (f : FunDef) :
    Follows result (Draft.checkFunction f) (Checker.checkFunction f) := by
  refine (declaredTypes f.params).bind fun params => mint.bind fun n =>
    (onScopeAt _ _).bind fun _ => ?_
  refine (expecting (inFrame ?_)).bind fun _ => onSubst _
  exact (declareParams _ _).bind fun _ => (forM declareVar _).bind fun _ => checkStmts _

theorem checkEntry (e : Entry) :
    Follows none (Draft.checkEntry e) (Checker.checkEntry e) := by
  cases e with
  | program p =>
    exact (forM (fun f => (checkFunction f).bind fun _ => pure _) p.functions).bind fun _ =>
      (forM declareVar p.globals).bind fun _ => (checkStmts p.main).bind fun _ => pure _
  | function f => exact (checkFunction f).bind fun _ => pure _
  | declaration d => exact (declareVar d).bind fun _ => pure _
  | statement s => exact (checkStmt s).bind fun _ => pure _
  | expression e => exact (infer e).bind fun _ => pure _

theorem checkResolved (e : Entry) :
    Follows none (Draft.checkResolved e) (Checker.checkResolved e) := by
  refine (checkEntry e).bind fun type => ?_
  cases type with
  | none => exact pure _
  | some type => exact (onSubst _).bind fun _ => pure _

end Follows

/-- Up to where it stops, a check in place comes to what the check comes to. -/
theorem check_checker {d : Draft} (hd : d.expected = []) (e : Entry) :
    (d.check e).2.expected = [] ∧
      Checker.checkResolved e d.checker =
        (d.check e).1.map fun t => (t, (d.check e).2.checker) := by
  obtain ⟨he, hq⟩ := Follows.checkResolved e { d with minted := [] } (by simp [hd])
  exact ⟨he.trans hd, hq⟩

/-- What is accepted leads to where the check in place stops. -/
theorem check_of_accepted {d : Draft} (hd : d.expected = []) {e : Entry} {t : Option Ty}
    {c : Checker}
    (h : d.checker.run e = (.ok t, c)) : (d.check e).2.checker = c := by
  have hq := (check_checker hd e).2
  rw [Checker.run_ok_iff.mp h] at hq
  rcases hr : d.check e with ⟨err | u, d'⟩ <;> rw [hr] at hq <;> cases hq
  rfl

/-- Checking in place comes to what checking comes to, and leads to the same
checker.  Nothing is expected afterwards. -/
theorem run_checker {d : Draft} (hd : d.expected = []) (e : Entry) :
    (d.run e).1 = (d.checker.run e).1 ∧ (d.run e).2.checker = (d.checker.run e).2 ∧
      (d.run e).2.expected = [] := by
  obtain ⟨he, hq⟩ := check_checker hd e
  rw [Checker.run_eq, hq, run]
  rcases hr : d.check e with ⟨err | type, d'⟩ <;> rw [hr] at he
  · exact ⟨rfl, rfl, rfl⟩
  · exact ⟨rfl, rfl, he⟩

end Draft

end Implet
