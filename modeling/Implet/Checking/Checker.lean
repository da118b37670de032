/-
Implet/Checking/Checker.lean

Checking entries.  A `Checker` holds the types of all names in scope and the
substitution.  Each construct asks for some types to agree, and a `var`
declaration, a `var` parameter and the result of a function begin as fresh
variables.

A check either leads to a new checker or fails without one, so an entry that is
rejected leaves the checker as it was before the entry, whatever the check had
declared or linked by then.
-/
import Implet.Checking.Error

namespace Implet

/-- The types of the names in scope, and what is known about type variables. -/
structure Checker where
  env : Scope Ty
  subst : Subst
  deriving DecidableEq

namespace Checker

/-- A checker that knows no names. -/
def initial : Checker := ⟨.initial, .empty⟩

instance : Inhabited Checker := ⟨initial⟩

/-- A check, which fails or leads to a new checker. -/
abbrev CheckM := StateT Checker (Except TypeError)

/-! ### Steps -/

/-- Do something with the substitution that cannot fail. -/
def onSubst {α : Type} (action : StateM Subst α) : CheckM α :=
  modifyGet fun c =>
    let (a, subst) := action c.subst
    (a, { c with subst })

/-- Do something with the substitution on behalf of the construct at `span`. -/
def onSubstAt {α : Type} (span : Span) (action : Subst.UnifyM α) : CheckM α := do
  match ← onSubst action.run with
  | .ok a => return a
  | .error e => throw (.ofUnify span e)

/-- Do something with the scope on behalf of the construct at `span`. -/
def onScopeAt (span : Span) (action : Scope Ty → Except ScopeError (Scope Ty)) :
    CheckM Unit := do
  match action (← get).env with
  | .ok env => modify ({ · with env })
  | .error e => throw (.ofScope span e)

/-- Make two types agree, and say on failure what asked for it. -/
def unifyAt (span : Span) (note : String) (expected found : Ty) : CheckM Unit :=
  tryCatch (onSubstAt span (Subst.unify expected found)) fun e => throw (e.withNote note)

/-- The type of a name where it is used. -/
def typeOfName (id : Ident) : CheckM Ty := do
  match (← get).env.lookup id.name with
  | .ok t => return t
  | .error e => throw (.ofScope id.span e)

/-- The type of a declared variable: its annotation, or a fresh variable. -/
def declaredType (d : Decl) : CheckM Ty :=
  match d.type with
  | some type => return .ofBase type
  | none => return .var (← onSubst Subst.fresh)

/-- Give a name a type in the innermost frame. -/
def declareAt (span : Span) (name : String) (type : Ty) : CheckM Unit :=
  onScopeAt span (·.declare name type)

/-- Declare a variable. -/
def declareVar (d : Decl) : CheckM Unit := do
  declareAt d.span d.name.name (← declaredType d)

/-- Check something in a fresh frame. -/
def inFrame (check : CheckM Unit) : CheckM Unit := do
  modify fun c => { c with env := c.env.enter }
  check
  onScopeAt .empty Scope.exit

/-! ### Expressions -/

/-- The type of the operands of an operator and of its result; there is none for
`==`, whose operands only have to agree. -/
def operatorTypes : BinOp → Option (Ty × Ty)
  | .add | .sub | .mul | .div => some (.int, .int)
  | .lt | .gt => some (.int, .bool)
  | .and | .or => some (.bool, .bool)
  | .eq => none

mutual

/-- The type of an expression. -/
def infer : Expr → CheckM Ty
  | .integer _ _ => return .int
  | .boolean _ _ => return .bool
  | .ident id => typeOfName id
  | .binary op left right span => do
    let leftType ← infer left
    let rightType ← infer right
    match operatorTypes op with
    | some (operand, result) =>
      let note := "in operands of '" ++ op.text ++ "'"
      unifyAt left.span note operand leftType
      unifyAt right.span note operand rightType
      return result
    | none =>
      unifyAt span "both sides of '==' must have the same type" leftType rightType
      onSubstAt left.span (Subst.requireBase leftType)
      return .bool
  | .call func args span => do
    let callee ← typeOfName func
    match ← onSubst (Subst.resolve callee) with
    | .func params ret =>
      if params.length = args.length then
        checkArguments func.name 1 params args
        return ret
      else throw (.arity func.name params.length args.length span)
    | other => throw (.notAFunction func.name (← onSubst (Subst.apply other)) func.span)

/-- Check the arguments of a call from the one with number `index` on. -/
def checkArguments (name : String) (index : Nat) : List Ty → List Expr → CheckM Unit
  | param :: params, arg :: args => do
    let type ← infer arg
    unifyAt arg.span ("in argument " ++ toString index ++ " of call to '" ++ name ++ "'") param type
    checkArguments name (index + 1) params args
  | _, _ => return

end

/-! ### Statements -/

/-- Check that an expression can be a condition. -/
def checkCondition (condition : Expr) : CheckM Unit := do
  let type ← infer condition
  unifyAt condition.span "conditions must be boolean" .bool type

mutual

/-- Check a statement.  `result` is the type to be returned, inside a function. -/
def checkStmt (result : Option Ty) : Stmt → CheckM Unit
  | .block declarations statements _ => inFrame do
    declarations.forM declareVar
    checkStmts result statements
  | .cond condition thenBranch none _ => do
    checkCondition condition
    inFrame (checkStmt result thenBranch)
  | .cond condition thenBranch (some elseBranch) _ => do
    checkCondition condition
    inFrame (checkStmt result thenBranch)
    inFrame (checkStmt result elseBranch)
  | .loop condition body _ => do
    checkCondition condition
    inFrame (checkStmt result body)
  | .assign target value span => do
    let expected ← typeOfName target
    let found ← infer value
    unifyAt span ("in assignment to '" ++ target.name ++ "'") expected found
  | .ret value span =>
    match result with
    | some expected => do
      let found ← infer value
      unifyAt span "all return statements of a function must agree" expected found
    | none => throw (.returnOutsideFunction span)

/-- Check statements that follow each other. -/
def checkStmts (result : Option Ty) : List Stmt → CheckM Unit
  | [] => return
  | s :: ss => do
    checkStmt result s
    checkStmts result ss

end

/-! ### Entries -/

/-- Declare parameters with their types. -/
def declareParams : List Decl → List Ty → CheckM Unit
  | d :: ds, t :: ts => do
    declareAt d.span d.name.name t
    declareParams ds ts
  | _, _ => return

/-- Check a function and return its type.  Its name is declared before its body
is checked, in a frame with the parameters, so that the body can call it. -/
def checkFunction (f : FunDef) : CheckM Ty := do
  let params ← f.params.mapM declaredType
  let ret := Ty.var (← onSubst Subst.fresh)
  let type := Ty.func params ret
  declareAt f.name.span f.name.name type
  inFrame do
    declareParams f.params params
    f.body.declarations.forM declareVar
    checkStmts (some ret) f.body.statements
  onSubst (Subst.apply type)

/-- Check an entry.  A bare expression and a function have a type. -/
def checkEntry : Entry → CheckM (Option Ty)
  | .program p => do
    p.functions.forM fun f => do let _ ← checkFunction f
    p.globals.forM declareVar
    checkStmts none p.main
    return none
  | .function f => return some (← checkFunction f)
  | .declaration d => do
    declareVar d
    return none
  | .statement s => do
    checkStmt none s
    return none
  | .expression e => return some (← infer e)

/-- Check an entry and resolve its type.  If it is rejected the checker stays as
it was. -/
def run (c : Checker) (entry : Entry) : Except TypeError (Option Ty) × Checker :=
  let check : CheckM (Option Ty) := do
    match ← checkEntry entry with
    | some type => return some (← onSubst (Subst.apply type))
    | none => return none
  match check c with
  | .ok (type, c) => (.ok type, c)
  | .error e => (.error e, c)

/-! ### Queries -/

/-- The type of a name, as far as it is known. -/
def typeOf (name : String) : StateM Checker (Option Ty) := fun c =>
  match c.env.get? name with
  | some t =>
    let (t, subst) := Subst.apply t c.subst
    (some t, { c with subst })
  | none => (none, c)

/-- The globals with their types as far as they are known, sorted by name. -/
def globals : StateM Checker (List (String × Ty)) := fun c =>
  let action : StateM Subst (List (String × Ty)) :=
    c.env.globals.mapM fun (name, t) => return (name, ← Subst.apply t)
  let (bindings, subst) := action c.subst
  (bindings, { c with subst })

end Checker

end Implet
