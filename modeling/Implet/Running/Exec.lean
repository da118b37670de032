/-
Implet/Running/Exec.lean

Running expressions, statements and entries.  Both operands of an operator are
always run, left before right.  A call runs the arguments in the environment of
the caller and the body in a fresh frame of the environment that the closure
owns; calls of a closure from within a call of it stack their frames there.

Every definition runs on fuel, which each step into a part, a call or another
round of a loop takes one of.  An outcome does not depend on how much fuel was
given beyond what it needed.
-/
import Implet.Running.Run

namespace Implet

open Implet.Run

/-- How a statement finishes. -/
inductive Flow where
  | completed
  /-- A `return` is on its way to the call it belongs to. -/
  | returning (value : Value)

namespace Value

/-- The number that a value is. -/
def expectInt (span : Span) : Value → Run Int64
  | integer n => return n
  | other => fail (.wrongKind "integer" other.kind span)

/-- The truth value that a value is. -/
def expectBool (span : Span) : Value → Run Bool
  | boolean b => return b
  | other => fail (.wrongKind "boolean" other.kind span)

end Value

/-- Apply an arithmetic operation, after both operands have been checked. -/
def arithmetic (leftSpan rightSpan : Span) (op : Int64 → Int64 → Value)
    (left right : Value) :
    Run Value := do
  let m ← left.expectInt leftSpan
  let n ← right.expectInt rightSpan
  return op m n

/-- Apply a logical operation, after both operands have been checked. -/
def logical (leftSpan rightSpan : Span) (op : Bool → Bool → Bool) (left right : Value) :
    Run Value := do
  let a ← left.expectBool leftSpan
  let b ← right.expectBool rightSpan
  return .boolean (op a b)

/-- Apply an operator.  Numbers wrap around at 64 bits and division goes toward zero. -/
def BinOp.apply (op : BinOp) (span leftSpan rightSpan : Span) (left right : Value) :
    Run Value :=
  match op with
  | .add => arithmetic leftSpan rightSpan (fun m n => .integer (m + n)) left right
  | .sub => arithmetic leftSpan rightSpan (fun m n => .integer (m - n)) left right
  | .mul => arithmetic leftSpan rightSpan (fun m n => .integer (m * n)) left right
  | .div => do
    let m ← left.expectInt leftSpan
    let n ← right.expectInt rightSpan
    if n = 0 then fail (.divisionByZero span) else return .integer (m / n)
  | .lt => arithmetic leftSpan rightSpan (fun m n => .boolean (decide (m < n))) left right
  | .gt => arithmetic leftSpan rightSpan (fun m n => .boolean (decide (n < m))) left right
  | .and => logical leftSpan rightSpan Bool.and left right
  | .or => logical leftSpan rightSpan Bool.or left right
  | .eq =>
    match left, right with
    | .integer m, .integer n => return .boolean (m = n)
    | .boolean a, .boolean b => return .boolean (a = b)
    | .integer _, other | .boolean _, other => fail (.wrongKind "comparable" other.kind rightSpan)
    | other, _ => fail (.wrongKind "comparable" other.kind leftSpan)

/-- The value of a variable, which must have been assigned. -/
def Ident.read (r : EnvRef) (id : Ident) : Run Value := do
  match (← env r).lookup id.name with
  | .ok .uninitialized => fail (.uninitialized id.name id.span)
  | .ok value => return value
  | .error e => fail (.ofScope id.span e)

/-- The function that a name stands for where it is called, and the environment
that its closure owns. -/
def Ident.readFunction (r : EnvRef) (id : Ident) : Run (FunDef × EnvRef) := do
  match (← env r).lookup id.name with
  | .ok (.closure function owned) => return (function, owned)
  | .ok other => fail (.notAFunction id.name other.kind id.span)
  | .error e => fail (.ofScope id.span e)

/-- Declare a variable with the value it holds at first. -/
def Decl.run (r : EnvRef) (d : Decl) : Run Unit :=
  onEnvAt r d.span (·.declare d.name.name (.default d.type))

/-- Declare variables in order. -/
def runDecls (r : EnvRef) : List Decl → Run Unit
  | [] => return
  | d :: ds => do
    d.run r
    runDecls r ds

/-- Declare parameters with the values of the arguments. -/
def bindParams (r : EnvRef) : List Decl → List Value → Run Unit
  | d :: ds, v :: vs => do
    onEnvAt r d.span (·.declare d.name.name v)
    bindParams r ds vs
  | _, _ => return

namespace FunDef

/-- Declare the name of a function in the frame of a call of it, unless a
parameter has that name, so that the body can call it. -/
def bindSelf (r : EnvRef) (f : FunDef) : Run Unit := do
  unless (← env r).isDeclaredLocally f.name.name do
    onEnvAt r .empty (·.declare f.name.name (.closure f r))

/-- Make a closure over a copy of an environment and declare it there. -/
def define (r : EnvRef) (f : FunDef) : Run Value := fun s =>
  let captured := s.env r
  let (owned, s') := s.allocate captured
  let closure := Value.closure f owned
  match captured.declare f.name.name closure with
  | .ok e => some (.ok closure, s'.setEnv r e)
  | .error e => some (.error (.ofScope f.name.span e), s)

end FunDef

mutual

/-- Run an expression. -/
def Expr.eval (fuel : Nat) (r : EnvRef) (e : Expr) : Run Value :=
  match fuel with
  | 0 => outOfFuel
  | fuel + 1 =>
    match e with
    | .integer n _ => return .integer n
    | .boolean b _ => return .boolean b
    | .ident id => id.read r
    | .binary op left right span => do
      let a ← left.eval fuel r
      let b ← right.eval fuel r
      op.apply span left.span right.span a b
    | .call func args span => do
      let (function, owned) ← func.readFunction r
      if function.params.length = args.length then
        let values ← evalAll fuel r args
        function.invoke fuel owned values
      else fail (.arity func.name function.params.length args.length span)

/-- Run expressions in order. -/
def evalAll (fuel : Nat) (r : EnvRef) (es : List Expr) : Run (List Value) :=
  match fuel with
  | 0 => outOfFuel
  | fuel + 1 =>
    match es with
    | [] => return []
    | e :: es => do
      let v ← e.eval fuel r
      return v :: (← evalAll fuel r es)

/-- Call a closure, of which `r` is the environment. -/
def FunDef.invoke (fuel : Nat) (r : EnvRef) (f : FunDef) (args : List Value) :
    Run Value :=
  match fuel with
  | 0 => outOfFuel
  | fuel + 1 => do
    let flow ← inFrame r do
      bindParams r f.params args
      f.bindSelf r
      runDecls r f.body.declarations
      execAll fuel r f.body.statements
    match flow with
    | .returning value => return value
    | .completed => fail (.missingReturn f.name.name f.span)

/-- Run a statement. -/
def Stmt.exec (fuel : Nat) (r : EnvRef) (s : Stmt) : Run Flow :=
  match fuel with
  | 0 => outOfFuel
  | fuel + 1 =>
    match s with
    | .block declarations statements _ => inFrame r do
      runDecls r declarations
      execAll fuel r statements
    | .cond condition thenBranch elseBranch _ => do
      let value ← condition.eval fuel r
      if ← value.expectBool condition.span then inFrame r (thenBranch.exec fuel r)
      else
        match elseBranch with
        | some elseBranch => inFrame r (elseBranch.exec fuel r)
        | none => return .completed
    | .loop condition body span => do
      let value ← condition.eval fuel r
      if ← value.expectBool condition.span then
        match ← inFrame r (body.exec fuel r) with
        | .returning value => return .returning value
        | .completed => (Stmt.loop condition body span).exec fuel r
      else return .completed
    | .assign target value _ => do
      let v ← value.eval fuel r
      onEnvAt r target.span (·.assign target.name v)
      return .completed
    | .ret value _ => return .returning (← value.eval fuel r)

/-- Run statements in order, up to the first `return`. -/
def execAll (fuel : Nat) (r : EnvRef) (ss : List Stmt) : Run Flow :=
  match fuel with
  | 0 => outOfFuel
  | fuel + 1 =>
    match ss with
    | [] => return .completed
    | s :: ss => do
      match ← s.exec fuel r with
      | .returning value => return .returning value
      | .completed => execAll fuel r ss

end

/-! ### Entries -/

/-- Run a statement outside any function, where nothing can be returned to. -/
def Stmt.execOutside (fuel : Nat) (r : EnvRef) (s : Stmt) : Run Unit := do
  match ← s.exec fuel r with
  | .completed => return
  | .returning _ => fail (.returnOutsideFunction s.span)

/-- Define functions in order. -/
def defineAll (r : EnvRef) : List FunDef → Run Unit
  | [] => return
  | f :: fs => do
    let _ ← f.define r
    defineAll r fs

/-- Run statements outside any function in order. -/
def execAllOutside (fuel : Nat) (r : EnvRef) : List Stmt → Run Unit
  | [] => return
  | s :: ss => do
    s.execOutside fuel r
    execAllOutside fuel r ss

/-- Run an entry.  A bare expression has a value. -/
def Entry.run (fuel : Nat) (r : EnvRef) : Entry → Run (Option Value)
  | .program p => do
    defineAll r p.functions
    runDecls r p.globals
    execAllOutside fuel r p.main
    return none
  | .function f => do
    let _ ← f.define r
    return none
  | .declaration d => do
    d.run r
    return none
  | .statement s => do
    s.execOutside fuel r
    return none
  | .expression e => return some (← e.eval fuel r)

end Implet
