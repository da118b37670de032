/-
Implet/Proofs/Deeds.lean

What is done.  All that a run does to the store, the calls that it makes and the
values that it returns are read off the runs of its parts, one thing after the
other (`Expr.deeds`, `Stmt.deeds`, `Entry.deeds`).  Each deed comes with the
store that it is done in, which is the one that the run is in at that point.  A
run that has no outcome, since its fuel does not suffice, has done something
too.

The closures that are called are among it (`Entry.called`).  A closure is told
by the environment that it owns.
-/
import Implet.Running.Exec

namespace Implet

open Run

/-- What a run does, one thing at a time. -/
inductive Deed where
  /-- A frame of an environment is entered. -/
  | enter (r : EnvRef)
  | leave (r : EnvRef)
  /-- A variable is declared. -/
  | declare (r : EnvRef) (d : Decl)
  /-- A parameter is declared with its argument. -/
  | pass (r : EnvRef) (d : Decl) (v : Value)
  /-- The name of a function is declared with the closure that owns an environment. -/
  | define (r : EnvRef) (f : FunDef) (owned : EnvRef)
  | assign (r : EnvRef) (x : String) (v : Value)
  /-- An environment is copied for a closure. -/
  | capture (r : EnvRef)
  /-- The closure that owns an environment is called. -/
  | call (r : EnvRef)
  /-- A `return` yields a value. -/
  | yield (v : Value)

/-- Change an environment, if it can be done. -/
def Store.update (s : Store) (r : EnvRef)
    (action : Environment → Except ScopeError Environment) : Store :=
  match action (s.env r) with
  | .ok e => s.setEnv r e
  | .error _ => s

/-- The store after a deed. -/
def Deed.perform : Deed → Store → Store
  | .enter r, s => s.setEnv r (s.env r).enter
  | .leave r, s => s.update r Scope.exit
  | .declare r d, s => s.update r (·.declare d.name.name (.default d.type))
  | .pass r d v, s => s.update r (·.declare d.name.name v)
  | .define r f owned, s => s.update r (·.declare f.name.name (.closure f owned))
  | .assign r x v, s => s.update r (·.assign x v)
  | .capture r, s => (s.allocate (s.env r)).2
  | .call _, s | .yield _, s => s

/-- What is done from a store on, in order, each deed with the store that it is
done in. -/
abbrev Deeds := Store → List (Store × Deed)

/-! ### What is done, put together -/

namespace Deeds

variable {α : Type}

/-- Nothing is done. -/
def none : Deeds := fun _ => []

def one (d : Deed) : Deeds := fun s => [(s, d)]

/-- What is done on the way of the run `p`, and then with the value it comes to,
if any. -/
def andThen (k : Deeds) (p : Run α) (next : α → Deeds) : Deeds := fun s =>
  k s ++ match p s with
    | some (.ok a, s') => next a s'
    | _ => []

/-- What the run `p` does in a fresh frame, which is left when it ends. -/
def within (r : EnvRef) (p : Run α) (k : Deeds) : Deeds := fun s =>
  let entered := s.setEnv r (s.env r).enter
  (s, .enter r) :: k entered ++ match p entered with
    | some (_, s') => [(s', .leave r)]
    | .none => []

/-- A call of the closure that owns `r`, and what is done for it. -/
def calling (r : EnvRef) (k : Deeds) : Deeds := fun s => (s, .call r) :: k s

/-- Nothing is added by a run after which nothing is done. -/
theorem andThen_none (k : Deeds) (p : Run α) : k.andThen p (fun _ => none) = k := by
  funext s
  rw [andThen]
  rcases p s with - | ⟨_ | a, s'⟩ <;> exact List.append_nil _

end Deeds

/-! ### Declarations -/

/-- What is done to declare variables in order. -/
def declarationDeeds (r : EnvRef) : List Decl → Deeds
  | [] => .none
  | d :: ds => (Deeds.one (.declare r d)).andThen (d.run r) fun _ => declarationDeeds r ds

/-- What is done to declare parameters with the values of the arguments. -/
def parameterDeeds (r : EnvRef) : List Decl → List Value → Deeds
  | d :: ds, v :: vs =>
    (Deeds.one (.pass r d v)).andThen (onEnvAt r d.span (·.declare d.name.name v)) fun _ =>
      parameterDeeds r ds vs
  | _, _ => .none

/-- What is done to declare the name of a function in the frame of a call of it. -/
def FunDef.selfDeeds (r : EnvRef) (f : FunDef) : Deeds :=
  Deeds.none.andThen (env r) fun e =>
    if e.isDeclaredLocally f.name.name then .none else .one (.define r f r)

/-! ### Expressions and statements -/

mutual

/-- What an expression does. -/
def Expr.deeds (fuel : Nat) (r : EnvRef) (e : Expr) : Deeds :=
  match fuel with
  | 0 => .none
  | fuel + 1 =>
    match e with
    | .integer _ _ | .boolean _ _ | .ident _ => .none
    | .binary _ left right _ =>
      (left.deeds fuel r).andThen (left.eval fuel r) fun _ => right.deeds fuel r
    | .call func args _ =>
      Deeds.none.andThen (func.readFunction r) fun p =>
        if p.1.params.length = args.length then
          (argumentDeeds fuel r args).andThen (evalAll fuel r args) fun values =>
            p.1.deeds fuel p.2 values
        else .none

/-- What expressions do that are run in order. -/
def argumentDeeds (fuel : Nat) (r : EnvRef) (es : List Expr) : Deeds :=
  match fuel with
  | 0 => .none
  | fuel + 1 =>
    match es with
    | [] => .none
    | e :: es => (e.deeds fuel r).andThen (e.eval fuel r) fun _ => argumentDeeds fuel r es

/-- What a call does. -/
def FunDef.deeds (fuel : Nat) (r : EnvRef) (f : FunDef) (args : List Value) : Deeds :=
  match fuel with
  | 0 => .none
  | fuel + 1 =>
    Deeds.calling r <|
      Deeds.within r (do
        bindParams r f.params args
        f.bindSelf r
        runDecls r f.body.declarations
        execAll fuel r f.body.statements) <|
      (parameterDeeds r f.params args).andThen (bindParams r f.params args) fun _ =>
        (f.selfDeeds r).andThen (f.bindSelf r) fun _ =>
          (declarationDeeds r f.body.declarations).andThen (runDecls r f.body.declarations)
            fun _ => statementDeeds fuel r f.body.statements

/-- What a statement does. -/
def Stmt.deeds (fuel : Nat) (r : EnvRef) (s : Stmt) : Deeds :=
  match fuel with
  | 0 => .none
  | fuel + 1 =>
    match s with
    | .block declarations statements _ =>
      Deeds.within r (do
        runDecls r declarations
        execAll fuel r statements) <|
      (declarationDeeds r declarations).andThen (runDecls r declarations) fun _ =>
        statementDeeds fuel r statements
    | .cond condition thenBranch elseBranch _ =>
      (condition.deeds fuel r).andThen (condition.eval fuel r) fun value =>
        Deeds.none.andThen (value.expectBool condition.span) fun b =>
          if b then Deeds.within r (thenBranch.exec fuel r) (thenBranch.deeds fuel r)
          else
            match elseBranch with
            | some elseBranch =>
              Deeds.within r (elseBranch.exec fuel r) (elseBranch.deeds fuel r)
            | none => .none
    | .loop condition body span =>
      (condition.deeds fuel r).andThen (condition.eval fuel r) fun value =>
        Deeds.none.andThen (value.expectBool condition.span) fun b =>
          if b then
            (Deeds.within r (body.exec fuel r) (body.deeds fuel r)).andThen
              (inFrame r (body.exec fuel r)) fun flow =>
                match flow with
                | .returning _ => .none
                | .completed => (Stmt.loop condition body span).deeds fuel r
          else .none
    | .assign target value _ =>
      (value.deeds fuel r).andThen (value.eval fuel r) fun v => .one (.assign r target.name v)
    | .ret value _ =>
      (value.deeds fuel r).andThen (value.eval fuel r) fun v => .one (.yield v)

/-- What statements do that are run in order, up to the first `return`. -/
def statementDeeds (fuel : Nat) (r : EnvRef) (ss : List Stmt) : Deeds :=
  match fuel with
  | 0 => .none
  | fuel + 1 =>
    match ss with
    | [] => .none
    | s :: ss =>
      (s.deeds fuel r).andThen (s.exec fuel r) fun flow =>
        match flow with
        | .returning _ => .none
        | .completed => statementDeeds fuel r ss

end

/-! ### Entries -/

/-- What is done to define a function: nothing if its name is declared already. -/
def FunDef.definitionDeeds (r : EnvRef) (f : FunDef) : Deeds := fun s =>
  let (owned, s') := s.allocate (s.env r)
  match (s.env r).declare f.name.name (.closure f owned) with
  | .ok _ => [(s, .capture r), (s', .define r f owned)]
  | .error _ => []

/-- What is done to define functions in order. -/
def definitionDeeds (r : EnvRef) : List FunDef → Deeds
  | [] => .none
  | f :: fs => (f.definitionDeeds r).andThen (f.define r) fun _ => definitionDeeds r fs

/-- What statements outside any function do. -/
def outsideDeeds (fuel : Nat) (r : EnvRef) : List Stmt → Deeds
  | [] => .none
  | s :: ss => (s.deeds fuel r).andThen (s.execOutside fuel r) fun _ => outsideDeeds fuel r ss

/-- What an entry does. -/
def Entry.deeds (fuel : Nat) (r : EnvRef) : Entry → Deeds
  | .program p =>
    (definitionDeeds r p.functions).andThen (defineAll r p.functions) fun _ =>
      (declarationDeeds r p.globals).andThen (runDecls r p.globals) fun _ =>
        outsideDeeds fuel r p.main
  | .function f => f.definitionDeeds r
  | .declaration d => .one (.declare r d)
  | .statement s => s.deeds fuel r
  | .expression e => e.deeds fuel r

/-! ### Calls -/

/-- The environment of the closure that is called. -/
def Deed.callee? : Deed → Option EnvRef
  | .call r => some r
  | .enter _ | .leave _ | .declare _ _ | .pass _ _ _ | .define _ _ _ | .assign _ _ _
  | .capture _ | .yield _ => none

/-- The environments of the closures that are called from a store on, in order. -/
def Deeds.calls (k : Deeds) (s : Store) : List EnvRef := (k s).filterMap (·.2.callee?)

namespace Deeds

variable {α : Type} {k : Deeds} {s : Store}

theorem calls_andThen (p : Run α) (next : α → Deeds) :
    (k.andThen p next).calls s = k.calls s ++ match p s with
      | some (.ok a, s') => (next a).calls s'
      | _ => [] := by
  rw [calls, andThen, List.filterMap_append]
  rcases p s with - | ⟨_ | a, s'⟩ <;> rfl

theorem calls_within (r : EnvRef) (p : Run α) :
    (k.within r p).calls s = k.calls (s.setEnv r (s.env r).enter) := by
  rw [calls, within, List.cons_append, List.filterMap_cons_none rfl, List.filterMap_append]
  split <;> exact List.append_nil _

theorem calls_calling (r : EnvRef) : (k.calling r).calls s = r :: k.calls s :=
  List.filterMap_cons_some rfl

end Deeds

/-- What an entry calls, on its own or through others. -/
def Entry.called (fuel : Nat) (r : EnvRef) (e : Entry) (s : Store) : List EnvRef :=
  (e.deeds fuel r).calls s

end Implet
