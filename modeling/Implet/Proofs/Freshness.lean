/-
Implet/Proofs/Freshness.lean

Fresh variables are fresh.  They are numbered in the order in which they are
made, and a rejected entry gives its numbers back.  These can be used again
because nothing is left of the entry that they occur in: at every moment all
variables in the types of the names, in the links and among the marks are below
the next one (`Draft.Bounded`).

The invariant is about checks in place, since a check makes variables in the
midst of what it has declared and linked so far, and that is where it fails.  A
judgement on such checks, with one rule for each construct (`Draft.Safe`), says
that they keep the invariant whether they fail or succeed.  It also says that
the types they come to are made of variables below the next one, which the steps
after them rely on.

Main result: in every checker that can come about the variables in use are below
the next one, nothing is expected by a `return`, and each variable made for an
entry, accepted or rejected, is unbound, unmarked and unlike all that were in
use when it was made (`Checker.Reachable.mints_fresh`).
-/
import Implet.Proofs.Bounds
import Implet.Proofs.Drafts
import Implet.Proofs.Principal

namespace Implet

/-! ### Variables in use -/

/-- The variable `n` occurs in the type of a name, in a link or among the marks. -/
def Checker.Uses (c : Checker) (n : Nat) : Prop :=
  (∃ f ∈ c.env.frames, ∃ b ∈ f, n ∈ b.2.vars) ∨
    (∃ l ∈ c.subst.links, n = l.1 ∨ n ∈ l.2.vars) ∨ n ∈ c.subst.baseOnly

/-- A variable is fresh where it is made. -/
structure Minting.Fresh (m : Minting) : Prop where
  unbound : m.checker.subst.isBound m.number = false
  unmarked : m.number ∉ m.checker.subst.baseOnly
  unused : ¬ m.checker.Uses m.number
  unexpected : ∀ t ∈ m.expected, m.number ∉ t.vars

/-- All types and marks of a checker are made of variables below `n`, the next one. -/
structure Checker.Bounded (n : Nat) (c : Checker) : Prop where
  env : c.env.All (Ty.Below n)
  subst : c.subst.Bounded n

theorem Checker.Bounded.lt {c : Checker} {n m : Nat} (h : c.Bounded n) (hm : c.Uses m) :
    m < n := by
  rcases hm with ⟨f, hf, b, hb, hm⟩ | ⟨l, hl, rfl | hm⟩ | hm
  · exact h.env f hf b hb m hm
  · exact (h.subst.links l hl).1
  · exact (h.subst.links l hl).2 m hm
  · exact h.subst.marks m hm

namespace Draft

/-- The next variable to be made. -/
def next (d : Draft) : Nat := d.checker.subst.next

/-- All types and marks of a draft are made of variables below the next one.
The variables made for the entry are numbered from `first` on, and each was
fresh. -/
structure Bounded (first : Nat) (d : Draft) : Prop where
  checker : d.checker.Bounded d.next
  expected : ∀ t ∈ d.expected, t.Below d.next
  next : d.next = first + d.minted.length
  numbers : d.minted.map Minting.number = List.range' first d.minted.length
  fresh : ∀ m ∈ d.minted, m.Fresh

variable {first k : Nat} {d : Draft} {α β : Type}

namespace Bounded

theorem withSubst {s : Subst} (h : d.Bounded first) (hs : s.Bounded d.next) :
    (d.withSubst s).Bounded first ∧ (d.withSubst s).next = d.next := by
  have hnext : (d.withSubst s).next = d.next := hs.next
  refine ⟨⟨?_, ?_, ?_, h.numbers, h.fresh⟩, hnext⟩
  · rw [hnext]
    exact ⟨h.checker.env, hs⟩
  · rw [hnext]
    exact h.expected
  · rw [hnext]
    exact h.next

theorem withEnv {env : Scope Ty} (h : d.Bounded first)
    (henv : env.All (Ty.Below d.next)) : (d.withEnv env).Bounded first :=
  ⟨⟨henv, h.checker.subst⟩, h.expected, h.next, h.numbers, h.fresh⟩

/-- The next variable is fresh. -/
theorem fresh_next (h : d.Bounded first) :
    Minting.Fresh ⟨d.next, d.checker, d.expected⟩ where
  unbound := by
    rw [Subst.isBound, Option.isSome_eq_false_iff, Option.isNone_iff_eq_none]
    by_contra hl
    obtain ⟨t, ht⟩ := Option.ne_none_iff_exists'.mp hl
    exact absurd (h.checker.subst.link ht).1 (Nat.lt_irrefl _)
  unmarked hm := absurd (h.checker.subst.marks _ hm) (Nat.lt_irrefl _)
  unused hm := absurd (h.checker.lt hm) (Nat.lt_irrefl _)
  unexpected t ht hm := absurd (h.expected t ht _ hm) (Nat.lt_irrefl _)

end Bounded

/-! ### Checks that make fresh variables -/

/-- From a draft in which the variables below `k` have been made, a check in
place leads to a draft that is bounded too, whether it fails or succeeds.  What
it comes to meets `Q`, which is told the next variable there. -/
def Safe (k : Nat) (p : DraftM α) (Q : Nat → α → Prop) : Prop :=
  ∀ ⦃first : Nat⦄ ⦃d : Draft⦄, d.Bounded first → k ≤ d.next →
    (p.run d).2.Bounded first ∧ d.next ≤ (p.run d).2.next ∧
      ∀ a, (p.run d).1 = .ok a → Q (p.run d).2.next a

namespace Safe

variable {Q : Nat → α → Prop} {R : Nat → β → Prop}

/-! #### Steps -/

theorem pure {a : α} (ha : ∀ n, k ≤ n → Q n a) : Safe k (Pure.pure a) Q :=
  fun _ _ hd hk => ⟨hd, Nat.le_refl _, fun _ h => Except.ok.inj h ▸ ha _ hk⟩

theorem throw {e : TypeError} : Safe k (MonadExcept.throw e : DraftM α) Q :=
  fun _ _ hd _ => ⟨hd, Nat.le_refl _, nofun⟩

theorem bind {p : DraftM α} {f : α → DraftM β} (h : Safe k p Q)
    (hf : ∀ n a, k ≤ n → Q n a → Safe n (f a) R) : Safe k (p >>= f) R := by
  intro first d hd hk
  obtain ⟨hd₁, hnext, hQ⟩ := h hd hk
  rw [run_bind_match]
  rcases hp : p.run d with ⟨e | a, d₁⟩ <;> rw [hp] at hd₁ hnext hQ
  · exact ⟨hd₁, hnext, nofun⟩
  · obtain ⟨hd₂, hnext₂, hR⟩ := hf _ a (hk.trans hnext) (hQ a rfl) hd₁ (Nat.le_refl _)
    exact ⟨hd₂, hnext.trans hnext₂, hR⟩

theorem mint : Safe k Draft.mint fun n m => m < n := by
  intro first d hd _
  have hrun : Draft.mint.run d = (.ok d.next, { d.withSubst (Subst.fresh d.checker.subst).2 with
    minted := d.minted ++ [⟨d.next, d.checker, d.expected⟩] }) := rfl
  rw [hrun]
  have hle : ∀ t : Ty, t.Below d.next → t.Below (d.next + 1) := fun t ht => ht.mono (Nat.le_succ _)
  refine ⟨⟨⟨hd.checker.env.mono hle, hd.checker.subst.fresh⟩, fun t ht => hle t (hd.expected t ht),
    ?_, ?_, ?_⟩, Nat.le_succ _, fun a h => Except.ok.inj h ▸ Nat.lt_succ_self _⟩
  · show d.next + 1 = _
    rw [hd.next, List.length_append]
    rfl
  · simp only [List.map_append, List.map_singleton, List.length_append, List.length_singleton]
    rw [hd.numbers, List.range'_1_concat, hd.next]
  · exact List.forall_mem_append.mpr ⟨hd.fresh, List.forall_mem_singleton.mpr hd.fresh_next⟩

theorem onSubst {action : StateM Subst α}
    (h : ∀ {n s}, s.Bounded n → k ≤ n → (action s).2.Bounded n ∧ Q n (action s).1) :
    Safe k (Draft.onSubst action) Q := by
  intro first d hd hk
  obtain ⟨hs, hQ⟩ := h hd.checker.subst hk
  obtain ⟨hd₁, hnext⟩ := hd.withSubst hs
  rw [run_onSubst]
  exact ⟨hd₁, hnext.ge, fun a ha => Except.ok.inj ha ▸ hnext ▸ hQ⟩

theorem resolve {t : Ty} (ht : t.Below k) :
    Safe k (Draft.onSubst (Subst.resolve t)) fun n t => t.Below n :=
  onSubst fun hs hk => hs.resolve (ht.mono hk)

theorem apply {t : Ty} (ht : t.Below k) :
    Safe k (Draft.onSubst (Subst.apply t)) fun n t => t.Below n :=
  onSubst fun hs hk => hs.apply (ht.mono hk)

theorem requireBaseAt {span : Span} {t : Ty} (ht : t.Below k) :
    Safe k (onSubstAt span (Subst.requireBase t)) fun _ _ => True := by
  intro first d hd hk
  obtain ⟨hd₁, hnext⟩ := hd.withSubst (hd.checker.subst.requireBase (ht.mono hk))
  rw [run_onSubstAt]
  exact ⟨hd₁, hnext.ge, fun _ _ => trivial⟩

theorem unifyAt {span : Span} {note : String} {a b : Ty} (ha : a.Below k)
    (hb : b.Below k) :
    Safe k (Draft.unifyAt span note a b) fun _ _ => True := by
  intro first d hd hk
  obtain ⟨hd₁, hnext⟩ := hd.withSubst (hd.checker.subst.unify (ha.mono hk) (hb.mono hk))
  rw [run_unifyAt]
  exact ⟨hd₁, hnext.ge, fun _ _ => trivial⟩

theorem typeOfName {id : Ident} : Safe k (Draft.typeOfName id) fun n t => t.Below n := by
  intro first d hd _
  rw [run_typeOfName]
  refine ⟨hd, Nat.le_refl _, fun t ht => ?_⟩
  rcases hl : d.checker.env.lookup id.name with e | u <;> rw [hl] at ht <;> cases ht
  exact hd.checker.env.lookup hl

theorem expectedType {span : Span} :
    Safe k (Draft.expectedType span) fun n t => t.Below n := by
  intro first d hd _
  rw [run_expectedType]
  rcases he : d.expected with - | ⟨t, ts⟩
  · exact ⟨hd, Nat.le_refl _, nofun⟩
  · exact ⟨hd, Nat.le_refl _, fun a ha =>
      Except.ok.inj ha ▸ hd.expected t (he ▸ List.mem_cons_self)⟩

theorem onScopeAt {span : Span} {action : Scope Ty → Except ScopeError (Scope Ty)}
    (h : ∀ {n env env'}, env.All (Ty.Below n) → k ≤ n → action env = .ok env' →
      env'.All (Ty.Below n)) : Safe k (Draft.onScopeAt span action) fun _ _ => True := by
  intro first d hd hk
  rw [run_onScopeAt]
  rcases ha : action d.checker.env with e | env
  · exact ⟨hd, Nat.le_refl _, nofun⟩
  · exact ⟨hd.withEnv (h hd.checker.env hk ha), Nat.le_refl _, fun _ _ => trivial⟩

theorem declareAt {span : Span} {name : String} {t : Ty} (ht : t.Below k) :
    Safe k (Draft.declareAt span name t) fun _ _ => True :=
  onScopeAt fun henv hk he => henv.declare (ht.mono hk) he

theorem inFrame {p : DraftM Unit} (h : Safe k p fun _ _ => True) :
    Safe k (Draft.inFrame p) fun _ _ => True := by
  intro first d hd hk
  obtain ⟨hd₁, hnext, -⟩ := h (hd.withEnv hd.checker.env.enter) hk
  have hexit : Safe 0 (Draft.onScopeAt .empty Scope.exit) fun _ _ => True :=
    onScopeAt fun henv _ he => henv.exit he
  obtain ⟨hd₂, hnext₂, -⟩ := hexit hd₁ (Nat.zero_le _)
  rw [run_inFrame]
  exact ⟨hd₂, hnext.trans hnext₂, fun _ _ => trivial⟩

theorem expecting {t : Ty} {p : DraftM Unit} (ht : t.Below k)
    (h : Safe k p fun _ _ => True) :
    Safe k (Draft.expecting t p) fun _ _ => True := by
  intro first d hd hk
  have hd₀ : Bounded first { d with expected := t :: d.expected } :=
    ⟨hd.checker, List.forall_mem_cons.mpr ⟨ht.mono hk, hd.expected⟩, hd.next, hd.numbers, hd.fresh⟩
  obtain ⟨hd₁, hnext, -⟩ := h hd₀ hk
  rw [run_expecting]
  exact ⟨⟨hd₁.checker, fun t ht => hd₁.expected t (List.mem_of_mem_tail ht), hd₁.next, hd₁.numbers,
    hd₁.fresh⟩, hnext, fun _ _ => trivial⟩

theorem forM {f : α → DraftM Unit} (h : ∀ {n} a, k ≤ n → Safe n (f a) fun _ _ => True)
    (as : List α) : Safe k (as.forM f) fun _ _ => True := by
  induction as generalizing k with
  | nil => exact pure fun _ _ => trivial
  | cons a as ih =>
    exact (h a (Nat.le_refl k)).bind fun n _ hn _ => ih fun a ha => h a (hn.trans ha)

/-! #### Expressions -/

mutual

theorem infer {k : Nat} (e : Expr) : Safe k (Draft.infer e) fun n t => t.Below n := by
  cases e with
  | integer | boolean => exact pure fun _ _ => by simp
  | ident id => exact typeOfName
  | binary op left right span =>
    rw [Draft.infer]
    refine (infer left).bind fun n t _ ht => (infer right).bind fun m u hm hu => ?_
    rcases hop : Checker.operatorTypes op with - | ⟨operand, result⟩
    · exact (unifyAt (ht.mono hm) hu).bind fun i _ hi _ =>
        (requireBaseAt ((ht.mono hm).mono hi)).bind fun _ _ _ _ => pure fun _ _ => by simp
    · obtain ⟨ho, hr⟩ : (∀ n, operand.Below n) ∧ ∀ n, result.Below n := by
        cases op <;> cases hop <;> simp
      exact (unifyAt (ho _) (ht.mono hm)).bind fun i _ hi _ =>
        (unifyAt (ho _) (hu.mono hi)).bind fun _ _ _ _ => pure fun _ _ => hr _
  | call func args span =>
    rw [Draft.infer]
    refine typeOfName.bind fun n callee _ hcallee => (resolve hcallee).bind fun m t _ ht => ?_
    cases t with
    | func params ret =>
      obtain ⟨hparams, hret⟩ := Ty.below_func.mp ht
      dsimp only
      split
      · exact (checkArguments _ _ args hparams).bind fun i _ hi _ =>
          pure fun j hj => hret.mono (hi.trans hj)
      · exact throw
    | int | bool | var => exact (apply ht).bind fun _ _ _ _ => throw

theorem checkArguments {k : Nat} (name : String) (index : Nat) {params : List Ty}
    (args : List Expr) (h : ∀ p ∈ params, p.Below k) :
    Safe k (Draft.checkArguments name index params args) fun _ _ => True := by
  cases args with
  | nil => cases params <;> exact pure fun _ _ => trivial
  | cons arg args =>
    cases params with
    | nil => exact pure fun _ _ => trivial
    | cons param params =>
      obtain ⟨hparam, hparams⟩ := List.forall_mem_cons.mp h
      rw [Draft.checkArguments]
      exact (infer arg).bind fun n t hn ht => (unifyAt (hparam.mono hn) ht).bind fun m _ hm _ =>
        checkArguments name (index + 1) args fun p hp => (hparams p hp).mono (hn.trans hm)

end

/-! #### Statements -/

theorem declaredType (d : Decl) : Safe k (Draft.declaredType d) fun n t => t.Below n := by
  rw [Draft.declaredType]
  cases d.type with
  | some type => exact pure fun _ _ => Ty.below_ofBase type
  | none => exact mint.bind fun n m _ hm => pure fun i hi => Ty.below_var.mpr (hm.trans_le hi)

theorem declareVar (d : Decl) : Safe k (Draft.declareVar d) fun _ _ => True :=
  (declaredType d).bind fun _ _ _ ht => declareAt ht

theorem checkCondition (e : Expr) : Safe k (Draft.checkCondition e) fun _ _ => True :=
  (infer e).bind fun _ _ _ ht => unifyAt Ty.below_bool ht

mutual

theorem checkStmt {k : Nat} (s : Stmt) : Safe k (Draft.checkStmt s) fun _ _ => True := by
  cases s with
  | block ds ss span =>
    rw [Draft.checkStmt]
    exact ((forM (fun d _ => declareVar d) ds).bind fun _ _ _ _ => checkStmts ss).inFrame
  | cond condition thenBranch elseBranch span =>
    cases elseBranch with
    | none =>
      rw [Draft.checkStmt]
      exact (checkCondition condition).bind fun _ _ _ _ => (checkStmt thenBranch).inFrame
    | some elseBranch =>
      rw [Draft.checkStmt]
      exact (checkCondition condition).bind fun _ _ _ _ =>
        (checkStmt thenBranch).inFrame.bind fun _ _ _ _ => (checkStmt elseBranch).inFrame
  | loop condition body span =>
    rw [Draft.checkStmt]
    exact (checkCondition condition).bind fun _ _ _ _ => (checkStmt body).inFrame
  | assign target value span =>
    rw [Draft.checkStmt]
    exact typeOfName.bind fun _ _ _ ht => (infer value).bind fun _ _ hn hu =>
      unifyAt (ht.mono hn) hu
  | ret value span =>
    rw [Draft.checkStmt]
    exact expectedType.bind fun _ _ _ ht => (infer value).bind fun _ _ hn hu =>
      unifyAt (ht.mono hn) hu

theorem checkStmts {k : Nat} (ss : List Stmt) :
    Safe k (Draft.checkStmts ss) fun _ _ => True := by
  cases ss with
  | nil => exact pure fun _ _ => trivial
  | cons s ss =>
    rw [Draft.checkStmts]
    exact (checkStmt s).bind fun _ _ _ _ => checkStmts ss

end

/-! #### Entries -/

theorem declareParams (ds : List Decl) {ts : List Ty} (h : ∀ t ∈ ts, t.Below k) :
    Safe k (Draft.declareParams ds ts) fun _ _ => True := by
  induction ds generalizing k ts with
  | nil => exact pure fun _ _ => trivial
  | cons d ds ih =>
    cases ts with
    | nil => exact pure fun _ _ => trivial
    | cons t ts =>
      obtain ⟨ht, hts⟩ := List.forall_mem_cons.mp h
      exact (declareAt ht).bind fun n _ hn _ => ih fun u hu => (hts u hu).mono hn

theorem declaredTypes (ds : List Decl) :
    Safe k (ds.mapM Draft.declaredType) fun n ts => ∀ t ∈ ts, t.Below n := by
  induction ds generalizing k with
  | nil => exact pure fun _ _ => nofun
  | cons d ds ih =>
    rw [List.mapM_cons]
    exact (declaredType d).bind fun n t _ ht => ih.bind fun m ts hm hts => pure fun i hi =>
      List.forall_mem_cons.mpr ⟨ht.mono (hm.trans hi), fun u hu => (hts u hu).mono hi⟩

theorem checkFunction (f : FunDef) :
    Safe k (Draft.checkFunction f) fun n t => t.Below n := by
  refine (declaredTypes f.params).bind fun n params _ hparams => mint.bind fun m r hm hr => ?_
  -- the types of the parameters, and that of the function with the variable for
  -- its result
  have hparams : ∀ p ∈ params, p.Below m := fun p hp => (hparams p hp).mono hm
  have hret : (Ty.var r).Below m := Ty.below_var.mpr hr
  have hfunc : (Ty.func params (.var r)).Below m := Ty.below_func.mpr ⟨hparams, hret⟩
  refine (declareAt hfunc).bind fun i _ hi _ => ?_
  refine (expecting (hret.mono hi) (inFrame ?_)).bind fun j _ hj _ =>
    apply (hfunc.mono (hi.trans hj))
  exact (declareParams _ fun p hp => (hparams p hp).mono hi).bind fun _ _ _ _ =>
    (forM (fun d _ => declareVar d) _).bind fun _ _ _ _ => checkStmts _

theorem checkEntry (e : Entry) :
    Safe k (Draft.checkEntry e) fun n t => ∀ u ∈ t, u.Below n := by
  cases e with
  | program p =>
    have hfunction :
        ∀ {n} f, k ≤ n → Safe n (do let _ ← Draft.checkFunction f) fun _ _ => True :=
      fun f _ => (checkFunction f).bind fun _ _ _ _ => pure fun _ _ => trivial
    exact (forM hfunction p.functions).bind fun _ _ _ _ =>
      (forM (fun d _ => declareVar d) p.globals).bind fun _ _ _ _ =>
        (checkStmts p.main).bind fun _ _ _ _ => pure fun _ _ => nofun
  | function f =>
    exact (checkFunction f).bind fun _ _ _ ht =>
      pure fun _ hn _ hu => Option.mem_some.mp hu ▸ ht.mono hn
  | declaration d => exact (declareVar d).bind fun _ _ _ _ => pure fun _ _ => nofun
  | statement s => exact (checkStmt s).bind fun _ _ _ _ => pure fun _ _ => nofun
  | expression e =>
    exact (infer e).bind fun _ _ _ ht => pure fun _ hn _ hu => Option.mem_some.mp hu ▸ ht.mono hn

theorem checkResolved (e : Entry) : Safe k (Draft.checkResolved e) fun _ _ => True := by
  refine (checkEntry e).bind fun n t _ ht => ?_
  cases t with
  | none => exact pure fun _ _ => trivial
  | some t => exact (apply (ht t rfl)).bind fun _ _ _ _ => pure fun _ _ => trivial

end Safe

/-! ### Drafts that can come about -/

/-- The drafts that entries, accepted or rejected, and questions lead to. -/
inductive Reachable : Draft → Prop
  | initial : Reachable .initial
  | run {d : Draft} (e : Entry) : Reachable d → Reachable (d.run e).2
  | typeOf {d : Draft} (name : String) : Reachable d → Reachable (d.ask (Checker.typeOf name))
  | globals {d : Draft} : Reachable d → Reachable (d.ask Checker.globals)

/-- Nothing is expected between entries, and the checkers are those that can
come about. -/
theorem Reachable.checker (h : d.Reachable) : d.checker.Reachable ∧ d.expected = [] := by
  induction h with
  | initial => exact ⟨.initial, rfl⟩
  | @run d e _ ih =>
    obtain ⟨-, hc, he⟩ := run_checker ih.2 e
    exact ⟨hc ▸ ih.1.run e, he⟩
  | typeOf name _ ih => exact ⟨ih.1.typeOf name, ih.2⟩
  | globals _ ih => exact ⟨ih.1.globals, ih.2⟩

/-- All checkers that can come about do so in drafts. -/
theorem exists_reachable {c : Checker} (h : c.Reachable) :
    ∃ d : Draft, d.Reachable ∧ d.checker = c := by
  induction h with
  | initial => exact ⟨initial, .initial, rfl⟩
  | @run c e _ ih =>
    obtain ⟨d, hd, rfl⟩ := ih
    exact ⟨_, hd.run e, (run_checker hd.checker.2 e).2.1⟩
  | typeOf name _ ih =>
    obtain ⟨d, hd, rfl⟩ := ih
    exact ⟨_, hd.typeOf name, rfl⟩
  | globals _ ih =>
    obtain ⟨d, hd, rfl⟩ := ih
    exact ⟨_, hd.globals, rfl⟩

/-- A check keeps within bounds up to where it stops. -/
theorem bounded_check (hc : d.checker.Bounded d.next) (he : d.expected = []) (e : Entry) :
    (d.check e).2.Bounded d.next :=
  have hd : Bounded d.next { d with minted := [] } := ⟨hc, by simp [he], rfl, rfl, nofun⟩
  (Safe.checkResolved (k := 0) e hd (Nat.zero_le _)).1

/-- The variables that are made for an entry are the next ones, in order, and
each is fresh.  Where the check stops, all variables in use are below the next
one and nothing is expected.  If the entry is rejected nothing is left of it, so
that its numbers come again. -/
structure Mints (d : Draft) (e : Entry) : Prop where
  numbers : (d.check e).2.minted.map Minting.number
    = List.range' d.next (d.check e).2.minted.length
  next : (d.check e).2.next = d.next + (d.check e).2.minted.length
  fresh : ∀ m ∈ (d.check e).2.minted, m.Fresh
  used : ∀ n, (d.check e).2.checker.Uses n → n < (d.check e).2.next
  expected : (d.check e).2.expected = []
  rejected : ∀ err, (d.run e).1 = .error err → (d.run e).2.checker = d.checker

end Draft

namespace Checker

variable {c : Checker}

theorem Bounded.withSubst {n : Nat} {s : Subst} (h : c.Bounded n) (hs : s.Bounded n) :
    ({ c with subst := s } : Checker).Bounded n := ⟨h.env, hs⟩

theorem Bounded.at_next {n : Nat} (h : c.Bounded n) : c.Bounded c.subst.next :=
  h.subst.next.symm ▸ h

theorem Reachable.bounded (h : c.Reachable) : c.Bounded c.subst.next := by
  induction h with
  | initial => exact ⟨Scope.all_initial, Subst.bounded_empty⟩
  | @run c e _ ih =>
    rcases hr : c.run e with ⟨err | t, c'⟩
    · exact run_eq_error hr ▸ ih
    · have hd := Draft.bounded_check (d := ⟨c, [], []⟩) ih rfl e
      exact Draft.check_of_accepted (d := ⟨c, [], []⟩) rfl hr ▸ hd.checker.at_next
  | @typeOf c name _ ih =>
    rw [Checker.typeOf]
    rcases hx : c.env.get? name with - | t
    · exact ih
    · have ht := ih.env.lookup (Scope.lookup_of_get? hx)
      exact (ih.withSubst (ih.subst.apply ht).1).at_next
  | @globals c _ ih =>
    have hs := (Subst.mapM_induction (I := Subst.Bounded c.subst.next) (P := fun _ => True)
      (f := fun b : String × Ty => do return (b.1, ← Subst.apply b.2)) c.env.globals
      (fun hb hs => ⟨(hs.apply (ih.env.globals _ hb)).1, trivial⟩) ih.subst).1
    exact (ih.withSubst hs).at_next

/-- In all checkers that can come about, after entries that were accepted or
rejected, the variables in use are below the next one and nothing is expected by
a `return`.  So the variables that are made for an entry are fresh, also where a
rejected entry has had the same numbers, and where the entry itself is rejected
in the end. -/
theorem Reachable.mints_fresh (h : c.Reachable) :
    (∀ n, c.Uses n → n < c.subst.next) ∧
    (∃ d : Draft, d.Reachable ∧ d.checker = c) ∧
    ∀ d : Draft, d.Reachable → d.checker = c →
      d.expected = [] ∧
      ∀ e, (d.run e).1 = (c.run e).1 ∧ (d.run e).2.checker = (c.run e).2 ∧ d.Mints e := by
  refine ⟨fun n hn => h.bounded.lt hn, Draft.exists_reachable h, ?_⟩
  rintro d hd rfl
  have he := hd.checker.2
  refine ⟨he, fun e => ?_⟩
  obtain ⟨hresult, hchecker, -⟩ := Draft.run_checker he e
  have hb := Draft.bounded_check h.bounded he e
  refine ⟨hresult, hchecker, hb.numbers, hb.next, hb.fresh, fun n hn => hb.checker.lt hn,
    (Draft.check_checker he e).1, fun err herr => ?_⟩
  have hrun : d.checker.run e = (.error err, (d.checker.run e).2) :=
    Prod.ext (hresult ▸ herr) rfl
  exact hchecker.trans (run_eq_error hrun)

/-- It compares its parameters, and then it adds the second one to a truth value. -/
def clash : String := "function f(var x, var y) \x7b if x == y return x; return y + true; \x7d"

def echo : String := "function g(var x) \x7b return x; \x7d"

/-- The rejected function has linked and marked variables with the numbers that
are used again. -/
theorem mints_fresh_after_clash : ∃ e₀ e e' : Entry, Entry.parse "var a;" = .ok e₀ ∧
    Entry.parse clash = .ok e ∧ Entry.parse echo = .ok e' ∧
    let d := (Draft.initial.run e₀).2
    (d.run e).1.isOk = false ∧
    (d.check e).2.checker.subst.links = [(2, .int), (3, .var 2), (1, .var 2)] ∧
    (d.check e).2.checker.subst.baseOnly = [2] ∧
    ((d.run e).2.check e').2.minted.map Minting.number = [1, 2] ∧
    (d.run e).2.Reachable ∧ (d.run e).2.expected = [] ∧
    (∀ n, (d.run e).2.checker.Uses n → n < (d.run e).2.next) ∧ (d.run e).2.Mints e' := by
  have hdecide : ((Entry.parse "var a;").toOption.any fun e₀ =>
      decide (((Entry.parse clash).toOption.any fun e =>
        decide (((Entry.parse echo).toOption.any fun e' =>
          let d := (Draft.initial.run e₀).2
          decide ((d.run e).1.isOk = false ∧
            (d.check e).2.checker.subst.links = [(2, .int), (3, .var 2), (1, .var 2)] ∧
            (d.check e).2.checker.subst.baseOnly = [2] ∧
            ((d.run e).2.check e').2.minted.map Minting.number =
              [1, 2])) = true)) = true)) = true := by
    decide +kernel
  obtain ⟨e₀, he₀, h⟩ := exists_entry _ _ hdecide
  obtain ⟨e, he, h⟩ := exists_entry _ _ h
  obtain ⟨e', he', hok, hlinks, hmarks, hnumbers⟩ := exists_entry _ _ h
  have hd : ((Draft.initial.run e₀).2.run e).2.Reachable :=
    (Draft.Reachable.initial.run e₀).run e
  obtain ⟨hused, -, hfresh⟩ := hd.checker.1.mints_fresh
  obtain ⟨hexpected, hmints⟩ := hfresh _ hd rfl
  exact ⟨e₀, e, e', he₀, he, he', hok, hlinks, hmarks, hnumbers, hd, hexpected, hused,
    (hmints e').2.2⟩

end Checker

end Implet
