/-
Implet/Proofs/RunWalk.lean

Walking through a run.  A property of runs that the single steps have, and that
what is put together from runs with the property has, is one of the run of every
expression and of every statement, on any fuel (`Run.Closed.all`).

A property can make a difference between code that only looks at the environment
it is run in, code that assigns there, and code that also declares things there
(`Run.Access`).  It can also be about the values that runs come to, about what
they do on the way (`Deeds`) and about the closures that they call.
-/
import Implet.Proofs.Deeds

namespace Implet

/-- A statement that returns a value returns one that `V` holds of. -/
def Flow.Yields (V : Value → Prop) : Flow → Prop
  | .completed => True
  | .returning v => V v

namespace Run

/-- What a run does to the environment that it is run in, the calls it makes and
the frames that are entered on the way left aside. -/
inductive Access where
  /-- It only looks at it, as an expression does. -/
  | reads
  /-- It assigns there, as a statement does. -/
  | assigns (r : EnvRef)
  /-- It also declares things in the innermost frame. -/
  | declares (r : EnvRef)

/-- A property of runs that the steps of a run have, and what is put together
from runs that have it, for runs with values that `V` holds of and closures that
own environments `O` holds of. -/
structure Closed (P : ∀ {α : Type}, Access → (α → Prop) → Run α → Deeds → Prop)
    (V : Value → Prop) (O : EnvRef → Prop) : Prop where
  pure : ∀ {α : Type} {access : Access} {A : α → Prop} {a : α}, A a →
    P access A (Pure.pure a) .none
  fail : ∀ {α : Type} {access : Access} {A : α → Prop} (e : RuntimeError),
    P access A (Run.fail e) .none
  outOfFuel : ∀ {α : Type} {access : Access} {A : α → Prop}, P access A Run.outOfFuel .none
  bind : ∀ {α β : Type} {access : Access} {A : α → Prop} {B : β → Prop} {p : Run α}
    {f : α → Run β} {k : Deeds} {next : α → Deeds}, P access A p k →
    (∀ a, A a → P access B (f a) (next a)) → P access B (p >>= f) (k.andThen p next)
  /-- What only looks at an environment is among what may assign there. -/
  assigns : ∀ {α : Type} {A : α → Prop} {p : Run α} {k : Deeds} (r : EnvRef),
    P .reads A p k → P (.assigns r) A p k
  declares : ∀ {α : Type} {A : α → Prop} {p : Run α} {k : Deeds} {r : EnvRef},
    P (.assigns r) A p k → P (.declares r) A p k
  integer : ∀ n, V (.integer n)
  boolean : ∀ b, V (.boolean b)
  read : ∀ (r : EnvRef) (id : Ident), P .reads V (id.read r) .none
  readFunction : ∀ (r : EnvRef) (id : Ident), P .reads (fun p => O p.2) (id.readFunction r) .none
  declareVar : ∀ (r : EnvRef) (d : Decl),
    P (.declares r) (fun _ => True) (d.run r) (.one (.declare r d))
  pass : ∀ (r : EnvRef) (d : Decl) {v : Value}, V v →
    P (.declares r) (fun _ => True) (onEnvAt r d.span (·.declare d.name.name v))
      (.one (.pass r d v))
  bindSelf : ∀ {r : EnvRef} (f : FunDef), O r →
    P (.declares r) (fun _ => True) (f.bindSelf r) (f.selfDeeds r)
  assign : ∀ (r : EnvRef) (target : Ident) {v : Value}, V v →
    P (.assigns r) (fun _ => True) (onEnvAt r target.span (·.assign target.name v))
      (.one (.assign r target.name v))
  /-- A `return` comes to the value that it yields. -/
  yield : ∀ (r : EnvRef) {v : Value}, V v →
    P (.assigns r) (Flow.Yields V) (Pure.pure (Flow.returning v)) (.one (.yield v))
  inFrame : ∀ {α : Type} {A : α → Prop} {p : Run α} {k : Deeds} {r : EnvRef},
    P (.declares r) A p k → P (.assigns r) A (Run.inFrame r p) (k.within r p)
  /-- What is done in the environment of a closure is done by a call of it. -/
  calling : ∀ {α : Type} {A : α → Prop} {p : Run α} {k : Deeds} {r : EnvRef}, O r →
    P (.assigns r) A p k → P .reads A p (k.calling r)

/-- All code that is run on a given fuel has a property. -/
structure ClosedAt (P : ∀ {α : Type}, Access → (α → Prop) → Run α → Deeds → Prop)
    (V : Value → Prop) (O : EnvRef → Prop) (fuel : Nat) : Prop where
  eval : ∀ (r : EnvRef) (e : Expr), P .reads V (e.eval fuel r) (e.deeds fuel r)
  evalAll : ∀ (r : EnvRef) (es : List Expr),
    P .reads (∀ v ∈ ·, V v) (evalAll fuel r es) (argumentDeeds fuel r es)
  invoke : ∀ (r : EnvRef) (f : FunDef) (vs : List Value), O r → (∀ v ∈ vs, V v) →
    P .reads V (f.invoke fuel r vs) (f.deeds fuel r vs)
  exec : ∀ (r : EnvRef) (s : Stmt),
    P (.assigns r) (Flow.Yields V) (s.exec fuel r) (s.deeds fuel r)
  execAll : ∀ (r : EnvRef) (ss : List Stmt),
    P (.assigns r) (Flow.Yields V) (execAll fuel r ss) (statementDeeds fuel r ss)

namespace Closed

variable {P : ∀ {α : Type}, Access → (α → Prop) → Run α → Deeds → Prop} {V : Value → Prop}
  {O : EnvRef → Prop} {α β : Type} {access : Access} {A : α → Prop} {B : β → Prop} {p : Run α}
  {k : Deeds} {r : EnvRef} {fuel : Nat}

/-- A run that is followed by one that does nothing. -/
theorem bind_none (h : Closed P V O) {f : α → Run β} (hp : P access A p k)
    (hf : ∀ a, A a → P access B (f a) .none) : P access B (p >>= f) k := by
  have hbind := h.bind hp hf
  rwa [Deeds.andThen_none] at hbind

/-! ### Operators -/

theorem expectInt (h : Closed P V O) (v : Value) (span : Span) :
    P access (fun _ => True) (v.expectInt span) .none := by
  cases v with
  | integer n => exact h.pure trivial
  | boolean | uninitialized | closure => exact h.fail _

theorem expectBool (h : Closed P V O) (v : Value) (span : Span) :
    P access (fun _ => True) (v.expectBool span) .none := by
  cases v with
  | boolean b => exact h.pure trivial
  | integer | uninitialized | closure => exact h.fail _

theorem arithmetic (h : Closed P V O) (ls rs : Span) {op : Int64 → Int64 → Value}
    (hop : ∀ m n, V (op m n)) (a b : Value) : P access V (Implet.arithmetic ls rs op a b) .none :=
  h.bind_none (h.expectInt a ls) fun _ _ => h.bind_none (h.expectInt b rs) fun _ _ =>
    h.pure (hop _ _)

theorem logical (h : Closed P V O) (ls rs : Span) (op : Bool → Bool → Bool)
    (a b : Value) :
    P access V (Implet.logical ls rs op a b) .none :=
  h.bind_none (h.expectBool a ls) fun _ _ => h.bind_none (h.expectBool b rs) fun _ _ =>
    h.pure (h.boolean _)

/-- Operators come to numbers and truth values only. -/
theorem apply (h : Closed P V O) (op : BinOp) (span ls rs : Span) (a b : Value) :
    P access V (op.apply span ls rs a b) .none := by
  cases op with
  | add | sub | mul => exact h.arithmetic ls rs (fun _ _ => h.integer _) a b
  | lt | gt => exact h.arithmetic ls rs (fun _ _ => h.boolean _) a b
  | and | or => exact h.logical ls rs _ a b
  | div =>
    refine h.bind_none (h.expectInt a ls) fun m _ => h.bind_none (h.expectInt b rs) fun n _ => ?_
    split
    · exact h.fail _
    · exact h.pure (h.integer _)
  | eq => cases a <;> cases b <;> first | exact h.pure (h.boolean _) | exact h.fail _

/-! ### Declarations -/

theorem runDecls (h : Closed P V O) (r : EnvRef) (ds : List Decl) :
    P (.declares r) (fun _ => True) (Implet.runDecls r ds) (declarationDeeds r ds) := by
  induction ds with
  | nil => exact h.pure trivial
  | cons d ds ih => exact h.bind (h.declareVar r d) fun _ _ => ih

theorem bindParams (h : Closed P V O) (r : EnvRef) (ds : List Decl) {vs : List Value}
    (hvs : ∀ v ∈ vs, V v) :
    P (.declares r) (fun _ => True) (Implet.bindParams r ds vs) (parameterDeeds r ds vs) := by
  induction ds generalizing vs with
  | nil => exact h.pure trivial
  | cons d ds ih =>
    cases vs with
    | nil => exact h.pure trivial
    | cons v vs =>
      obtain ⟨hv, hvs⟩ := List.forall_mem_cons.mp hvs
      exact h.bind (h.pass r d hv) fun _ _ => ih hvs

/-! ### All code at once -/

theorem zero (h : Closed P V O) : ClosedAt P V O 0 where
  eval _ _ := by rw [Expr.eval, Expr.deeds]; exact h.outOfFuel
  evalAll _ _ := by rw [Implet.evalAll, argumentDeeds]; exact h.outOfFuel
  invoke _ _ _ _ _ := by rw [FunDef.invoke, FunDef.deeds]; exact h.outOfFuel
  exec _ _ := by rw [Stmt.exec, Stmt.deeds]; exact h.outOfFuel
  execAll _ _ := by rw [Implet.execAll, statementDeeds]; exact h.outOfFuel

theorem eval_succ (h : Closed P V O) (ih : ClosedAt P V O fuel) (r : EnvRef) (e : Expr) :
    P .reads V (e.eval (fuel + 1) r) (e.deeds (fuel + 1) r) := by
  cases e with
  | integer n => rw [Expr.eval, Expr.deeds]; exact h.pure (h.integer n)
  | boolean b => rw [Expr.eval, Expr.deeds]; exact h.pure (h.boolean b)
  | ident id => rw [Expr.eval, Expr.deeds]; exact h.read r id
  | binary op left right span =>
    rw [Expr.eval, Expr.deeds]
    exact h.bind (ih.eval r left) fun a _ => h.bind_none (ih.eval r right) fun b _ => h.apply ..
  | call func args span =>
    rw [Expr.eval, Expr.deeds]
    refine h.bind (h.readFunction r func) fun p hp => ?_
    obtain ⟨f, owned⟩ := p
    dsimp only
    split
    · exact h.bind (ih.evalAll r args) fun vs hvs => ih.invoke owned f vs hp hvs
    · exact h.fail _

theorem evalAll_succ (h : Closed P V O) (ih : ClosedAt P V O fuel) (r : EnvRef)
    (es : List Expr) :
    P .reads (∀ v ∈ ·, V v) (Implet.evalAll (fuel + 1) r es) (argumentDeeds (fuel + 1) r es) := by
  cases es with
  | nil => rw [Implet.evalAll, argumentDeeds]; exact h.pure (List.forall_mem_nil _)
  | cons e es =>
    rw [Implet.evalAll, argumentDeeds]
    exact h.bind (ih.eval r e) fun v hv => h.bind_none (ih.evalAll r es) fun vs hvs =>
      h.pure (List.forall_mem_cons.mpr ⟨hv, hvs⟩)

/-- A call declares its parameters, its name and its variables in a frame of its
own, which is on top of the environment of the closure, whoever calls it and
whatever else is running there. -/
theorem invoke_succ (h : Closed P V O) (ih : ClosedAt P V O fuel) (r : EnvRef)
    (f : FunDef) (vs : List Value) (hr : O r) (hvs : ∀ v ∈ vs, V v) :
    P .reads V (f.invoke (fuel + 1) r vs) (f.deeds (fuel + 1) r vs) := by
  rw [FunDef.invoke, FunDef.deeds]
  refine h.calling hr (h.bind_none (A := Flow.Yields V) (h.inFrame ?_) fun flow hflow => ?_)
  · exact h.bind (h.bindParams r f.params hvs) fun _ _ => h.bind (h.bindSelf f hr) fun _ _ =>
      h.bind (h.runDecls r _) fun _ _ => h.declares (ih.execAll r _)
  · cases flow with
    | returning v => exact h.pure hflow
    | completed => exact h.fail _

theorem exec_succ (h : Closed P V O) (ih : ClosedAt P V O fuel) (r : EnvRef) (s : Stmt) :
    P (.assigns r) (Flow.Yields V) (s.exec (fuel + 1) r) (s.deeds (fuel + 1) r) := by
  have heval : ∀ e : Expr, P (.assigns r) V (e.eval fuel r) (e.deeds fuel r) :=
    fun e => h.assigns r (ih.eval r e)
  have hbranch : ∀ s : Stmt, P (.assigns r) (Flow.Yields V) (Run.inFrame r (s.exec fuel r))
      ((s.deeds fuel r).within r (s.exec fuel r)) := fun s => h.inFrame (h.declares (ih.exec r s))
  cases s with
  | block ds ss span =>
    rw [Stmt.exec, Stmt.deeds]
    exact h.inFrame (h.bind (h.runDecls r ds) fun _ _ => h.declares (ih.execAll r ss))
  | cond condition thenBranch elseBranch span =>
    cases elseBranch with
    | none =>
      rw [Stmt.exec, Stmt.deeds]
      refine h.bind (heval condition) fun v _ => h.bind (h.expectBool v _) fun b _ => ?_
      cases b with
      | true => exact hbranch thenBranch
      | false => exact h.pure trivial
    | some elseBranch =>
      rw [Stmt.exec, Stmt.deeds]
      refine h.bind (heval condition) fun v _ => h.bind (h.expectBool v _) fun b _ => ?_
      cases b with
      | true => exact hbranch thenBranch
      | false => exact hbranch elseBranch
  | loop condition body span =>
    rw [Stmt.exec, Stmt.deeds]
    refine h.bind (heval condition) fun v _ => h.bind (h.expectBool v _) fun b _ => ?_
    cases b with
    | true =>
      refine h.bind (hbranch body) fun flow hflow => ?_
      cases flow with
      | returning v => exact h.pure hflow
      | completed => exact ih.exec r _
    | false => exact h.pure trivial
  | assign target value span =>
    rw [Stmt.exec, Stmt.deeds]
    exact h.bind (heval value) fun v hv =>
      h.bind_none (h.assign r target hv) fun _ _ => h.pure trivial
  | ret value span =>
    rw [Stmt.exec, Stmt.deeds]
    exact h.bind (heval value) fun v hv => h.yield r hv

theorem execAll_succ (h : Closed P V O) (ih : ClosedAt P V O fuel) (r : EnvRef)
    (ss : List Stmt) :
    P (.assigns r) (Flow.Yields V) (Implet.execAll (fuel + 1) r ss)
      (statementDeeds (fuel + 1) r ss) := by
  cases ss with
  | nil => rw [Implet.execAll, statementDeeds]; exact h.pure trivial
  | cons s ss =>
    rw [Implet.execAll, statementDeeds]
    refine h.bind (ih.exec r s) fun flow hflow => ?_
    cases flow with
    | returning v => exact h.pure hflow
    | completed => exact ih.execAll r ss

/-- Code is made of the steps and of what is put together from them, whatever is
called in between, so all of it has the property. -/
theorem all (h : Closed P V O) (fuel : Nat) : ClosedAt P V O fuel := by
  induction fuel with
  | zero => exact h.zero
  | succ fuel ih =>
    exact ⟨h.eval_succ ih, h.evalAll_succ ih, h.invoke_succ ih, h.exec_succ ih, h.execAll_succ ih⟩

end Closed

end Run

end Implet
