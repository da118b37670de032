/-
Implet/Proofs/Fuel.lean

What a run comes to does not depend on the fuel.  A run that has an outcome has
the same one on more fuel (`Entry.run_mono`), so two runs of an entry that both
have an outcome have the same one, whatever fuel they were given
(`Entry.run_unique`).
-/
import Implet.Proofs.Runs

namespace Implet

namespace Run

variable {α β : Type} {p q : Run α}

/-- `q` has every outcome that `p` has. -/
def Le (p q : Run α) : Prop := ∀ ⦃s r⦄, p s = some r → q s = some r

theorem Le.refl (p : Run α) : Le p p := fun _ _ h => h

theorem Le.trans {r : Run α} (h : Le p q) (h' : Le q r) :
    Le p r := fun _ _ hp => h' (h hp)

theorem le_of_outOfFuel (q : Run α) : Le outOfFuel q := fun _ _ h => nomatch h

theorem Le.bind {f g : α → Run β} (h : Le p q) (hf : ∀ a, Le (f a) (g a)) :
    Le (p >>= f) (q >>= g) := by
  rintro s ⟨res, s'⟩ hr
  rcases bind_cases hr with ⟨a, s₁, hp, hf'⟩ | ⟨e, hp, rfl⟩
  · rw [bind_eq (h hp)]
    exact hf a hf'
  · exact bind_eq_error (h hp)

theorem Le.inFrame (h : Le p q) (r : EnvRef) : Le (inFrame r p) (inFrame r q) := by
  intro s res hr
  unfold Run.inFrame at hr ⊢
  rcases hp : p (s.setEnv r (s.env r).enter) with - | ⟨res₁, s₁⟩
  · rw [hp] at hr
    cases hr
  · rw [hp] at hr
    rw [h hp]
    exact hr

end Run

open Run

/-! ### One more step -/

/-- All code has the outcomes on one more step that it has on a given fuel. -/
structure MonoAt (fuel : Nat) : Prop where
  eval : ∀ (r : EnvRef) (e : Expr), Le (e.eval fuel r) (e.eval (fuel + 1) r)
  evalAll : ∀ (r : EnvRef) (es : List Expr), Le (evalAll fuel r es) (evalAll (fuel + 1) r es)
  invoke : ∀ (r : EnvRef) (f : FunDef) (vs : List Value),
    Le (f.invoke fuel r vs) (f.invoke (fuel + 1) r vs)
  exec : ∀ (r : EnvRef) (s : Stmt), Le (s.exec fuel r) (s.exec (fuel + 1) r)
  execAll : ∀ (r : EnvRef) (ss : List Stmt), Le (execAll fuel r ss) (execAll (fuel + 1) r ss)

theorem monoAt_zero : MonoAt 0 where
  eval _ _ := by rw [Expr.eval]; exact le_of_outOfFuel _
  evalAll _ _ := by rw [evalAll]; exact le_of_outOfFuel _
  invoke _ _ _ := by rw [FunDef.invoke]; exact le_of_outOfFuel _
  exec _ _ := by rw [Stmt.exec]; exact le_of_outOfFuel _
  execAll _ _ := by rw [execAll]; exact le_of_outOfFuel _

namespace MonoAt

variable {fuel : Nat}

theorem eval_succ (ih : MonoAt fuel) (r : EnvRef) (e : Expr) :
    Le (e.eval (fuel + 1) r) (e.eval (fuel + 1 + 1) r) := by
  cases e with
  | integer | boolean | ident => rw [Expr.eval, Expr.eval]; exact Le.refl _
  | binary op left right span =>
    rw [Expr.eval, Expr.eval]
    exact (ih.eval r left).bind fun a => (ih.eval r right).bind fun b => Le.refl _
  | call func args span =>
    rw [Expr.eval, Expr.eval]
    apply (Le.refl _).bind
    rintro ⟨f, owned⟩
    dsimp only
    split
    · exact (ih.evalAll r args).bind fun vs => ih.invoke owned f vs
    · exact Le.refl _

theorem evalAll_succ (ih : MonoAt fuel) (r : EnvRef) (es : List Expr) :
    Le (Implet.evalAll (fuel + 1) r es) (Implet.evalAll (fuel + 1 + 1) r es) := by
  cases es with
  | nil => rw [Implet.evalAll, Implet.evalAll]; exact Le.refl _
  | cons e es =>
    rw [Implet.evalAll, Implet.evalAll]
    exact (ih.eval r e).bind fun v => (ih.evalAll r es).bind fun vs => Le.refl _

theorem invoke_succ (ih : MonoAt fuel) (r : EnvRef) (f : FunDef) (vs : List Value) :
    Le (f.invoke (fuel + 1) r vs) (f.invoke (fuel + 1 + 1) r vs) := by
  rw [FunDef.invoke, FunDef.invoke]
  have hbody := (Le.refl (bindParams r f.params vs)).bind fun _ =>
    (Le.refl (f.bindSelf r)).bind fun _ =>
      (Le.refl (runDecls r f.body.declarations)).bind fun _ => ih.execAll r f.body.statements
  exact (hbody.inFrame r).bind fun flow => Le.refl _

theorem exec_succ (ih : MonoAt fuel) (r : EnvRef) (s : Stmt) :
    Le (s.exec (fuel + 1) r) (s.exec (fuel + 1 + 1) r) := by
  have hbranch : ∀ s : Stmt, Le (inFrame r (s.exec fuel r)) (inFrame r (s.exec (fuel + 1) r)) :=
    fun s => (ih.exec r s).inFrame r
  -- a condition that holds leads on to `p`, one that does not to `p'`
  have hcond : ∀ {condition : Expr} {p p' q q' : Run Flow}, Le p q → Le p' q' →
      Le (do
        let value ← condition.eval fuel r
        if ← value.expectBool condition.span then p else p') (do
        let value ← condition.eval (fuel + 1) r
        if ← value.expectBool condition.span then q else q') := by
    intro condition p p' q q' hp hp'
    apply (ih.eval r condition).bind
    intro v
    apply (Le.refl _).bind
    intro b
    cases b with
    | true => exact hp
    | false => exact hp'
  cases s with
  | block ds ss span =>
    rw [Stmt.exec, Stmt.exec]
    exact ((Le.refl (runDecls r ds)).bind fun _ => ih.execAll r ss).inFrame r
  | cond condition thenBranch elseBranch span =>
    cases elseBranch with
    | none => rw [Stmt.exec, Stmt.exec]; exact hcond (hbranch thenBranch) (Le.refl _)
    | some elseBranch =>
      rw [Stmt.exec, Stmt.exec]
      exact hcond (hbranch thenBranch) (hbranch elseBranch)
  | loop condition body span =>
    rw [Stmt.exec, Stmt.exec]
    refine hcond ((hbranch body).bind fun flow => ?_) (Le.refl _)
    cases flow with
    | returning v => exact Le.refl _
    | completed => exact ih.exec r _
  | assign target value span =>
    rw [Stmt.exec, Stmt.exec]
    exact (ih.eval r value).bind fun v => Le.refl _
  | ret value span =>
    rw [Stmt.exec, Stmt.exec]
    exact (ih.eval r value).bind fun v => Le.refl _

theorem execAll_succ (ih : MonoAt fuel) (r : EnvRef) (ss : List Stmt) :
    Le (Implet.execAll (fuel + 1) r ss) (Implet.execAll (fuel + 1 + 1) r ss) := by
  cases ss with
  | nil => rw [Implet.execAll, Implet.execAll]; exact Le.refl _
  | cons s ss =>
    rw [Implet.execAll, Implet.execAll]
    apply (ih.exec r s).bind
    intro flow
    cases flow with
    | returning v => exact Le.refl _
    | completed => exact ih.execAll r ss

end MonoAt

theorem monoAt (fuel : Nat) : MonoAt fuel := by
  induction fuel with
  | zero => exact monoAt_zero
  | succ fuel ih =>
    exact ⟨ih.eval_succ, ih.evalAll_succ, ih.invoke_succ, ih.exec_succ, ih.execAll_succ⟩

/-! ### Any fuel -/

section Entries

variable {fuel more : Nat} {r : EnvRef}

theorem Expr.eval_mono (h : fuel ≤ more) (r : EnvRef) (e : Expr) :
    Le (e.eval fuel r) (e.eval more r) := by
  induction h with
  | refl => exact Le.refl _
  | step _ ih => exact ih.trans ((monoAt _).eval r e)

theorem Stmt.exec_mono (h : fuel ≤ more) (r : EnvRef) (s : Stmt) :
    Le (s.exec fuel r) (s.exec more r) := by
  induction h with
  | refl => exact Le.refl _
  | step _ ih => exact ih.trans ((monoAt _).exec r s)

theorem Stmt.execOutside_mono (h : fuel ≤ more) (r : EnvRef) (s : Stmt) :
    Le (s.execOutside fuel r) (s.execOutside more r) :=
  (s.exec_mono h r).bind fun _ => Le.refl _

theorem execAllOutside_mono (h : fuel ≤ more) (r : EnvRef) (ss : List Stmt) :
    Le (execAllOutside fuel r ss) (execAllOutside more r ss) := by
  induction ss with
  | nil => exact Le.refl _
  | cons s ss ih => exact (s.execOutside_mono h r).bind fun _ => ih

/-- What an entry comes to, it comes to on more fuel as well. -/
theorem Entry.run_mono (h : fuel ≤ more) (r : EnvRef) (e : Entry) :
    Le (e.run fuel r) (e.run more r) := by
  cases e with
  | program p =>
    exact (Le.refl _).bind fun _ => (Le.refl _).bind fun _ =>
      (execAllOutside_mono h r p.main).bind fun _ => Le.refl _
  | function f => exact Le.refl _
  | declaration d => exact Le.refl _
  | statement s => exact (s.execOutside_mono h r).bind fun _ => Le.refl _
  | expression e => exact (e.eval_mono h r).bind fun _ => Le.refl _

/-- An entry comes to one thing only, on whatever fuel. -/
theorem Entry.run_unique {e : Entry} {s : Store}
    {o o' : Except RuntimeError (Option Value) × Store}
    (h : e.run fuel r s = some o) (h' : e.run more r s = some o') : o = o' := by
  have hmax := e.run_mono (Nat.le_max_left fuel more) r h
  have hmax' := e.run_mono (Nat.le_max_right fuel more) r h'
  exact Option.some.inj (hmax.symm.trans hmax')

end Entries

end Implet
