/-
Implet/Proofs/Batch.lean

A program as a whole and item by item.  A program checks all its items before it
runs the first of them; given one by one, each item is checked, and its type
resolved, when those before it have been run.  Both ways succeed for the same
programs, and what they lead to cannot be told apart
(`Session.Reachable.batch`).

The check does not look at the store nor the run at the types.  So a program
goes through if its items go through the check one after the other and go
through the run one after the other (`Session.advances_program`), in whatever
way the two are interleaved.
-/
import Implet.Proofs.Asking
import Implet.Proofs.ScopeAgreement

namespace Implet

/-! ### Steps in a row -/

/-- Steps that take the members of a list one after the other. -/
inductive Steps {σ α : Type} (R : σ → α → σ → Prop) : σ → List α → σ → Prop
  | nil (s : σ) : Steps R s [] s
  | cons {s s' t : σ} {a : α} {as : List α} : R s a s' → Steps R s' as t → Steps R s (a :: as) t

namespace Steps

variable {σ τ α β : Type} {R : σ → α → σ → Prop} {s t t' : σ} {as bs : List α}

theorem nil_iff : Steps R s [] t ↔ s = t := by
  constructor
  · rintro ⟨⟩
    rfl
  · rintro rfl
    exact .nil s

theorem cons_iff {a : α} : Steps R s (a :: as) t ↔ ∃ s', R s a s' ∧ Steps R s' as t := by
  constructor
  · rintro (_ | ⟨h, h'⟩)
    exact ⟨_, h, h'⟩
  · rintro ⟨s', h, h'⟩
    exact .cons h h'

theorem append_iff :
    Steps R s (as ++ bs) t ↔ ∃ s', Steps R s as s' ∧ Steps R s' bs t := by
  induction as generalizing s with
  | nil => simp [nil_iff]
  | cons a as ih =>
    simp only [List.cons_append, cons_iff, ih]
    constructor
    · rintro ⟨s₁, h₁, s₂, h₂, h⟩
      exact ⟨s₂, ⟨s₁, h₁, h₂⟩, h⟩
    · rintro ⟨s₂, ⟨s₁, h₁, h₂⟩, h⟩
      exact ⟨s₁, h₁, s₂, h₂, h⟩

theorem map_iff {f : β → α} {xs : List β} :
    Steps R s (xs.map f) t ↔ Steps (fun s x t => R s (f x) t) s xs t := by
  induction xs generalizing s with
  | nil => simp [nil_iff]
  | cons x xs ih => simp only [List.map_cons, cons_iff, ih]

/-- What each step allows the members of a relation to do, many steps allow as well. -/
theorem simulate {Q : τ → α → τ → Prop} {S : σ → τ → Prop}
    (hstep : ∀ {s a s' u}, S s u → R s a s' → ∃ u', Q u a u' ∧ S s' u') {u : τ} (hu : S s u)
    (h : Steps R s as t) : ∃ u', Steps Q u as u' ∧ S t u' := by
  induction h generalizing u with
  | nil => exact ⟨u, .nil u, hu⟩
  | cons h _ ih =>
    obtain ⟨u₁, h₁, hu₁⟩ := hstep hu h
    obtain ⟨u', h', hu'⟩ := ih hu₁
    exact ⟨u', .cons h₁ h', hu'⟩

theorem unique (h : Steps R s as t) (h' : Steps R s as t')
    (hR : ∀ {s a t t'}, R s a t → R s a t' → t = t') : t = t' := by
  induction h with
  | nil => exact nil_iff.mp h'
  | cons h _ ih =>
    obtain ⟨s₁, h₁, h'⟩ := cons_iff.mp h'
    exact ih (hR h h₁ ▸ h')

end Steps

/-! ### The check, item by item -/

namespace Checker

variable {α : Type} {c c' d : Checker}

/-- The check of an entry goes through. -/
def Passes (c : Checker) (e : Entry) (c' : Checker) : Prop :=
  ∃ type, checkEntry e c = .ok (type, c')

theorem forM_eq_ok {f : α → CheckM Unit} {as : List α} :
    as.forM f c = .ok ((), c') ↔ Steps (fun c a c' => f a c = .ok ((), c')) c as c' := by
  induction as generalizing c with
  | nil =>
    rw [Steps.nil_iff]
    exact pure_eq_ok.trans (and_iff_right rfl)
  | cons a as ih =>
    rw [Steps.cons_iff]
    refine bind_eq_ok.trans ?_
    simp only [← ih]
    constructor
    · rintro ⟨_, c₁, h, hrest⟩
      exact ⟨c₁, h, hrest⟩
    · rintro ⟨c₁, h, hrest⟩
      exact ⟨(), c₁, h, hrest⟩

theorem checkStmts_eq_forM (result : Option Ty) (ss : List Stmt) :
    checkStmts result ss = ss.forM (checkStmt result) := by
  induction ss with
  | nil => rw [checkStmts]; rfl
  | cons s ss ih => rw [checkStmts, ih]; rfl

theorem passes_function {f : FunDef} :
    Passes c (.function f) c' ↔ (do let _ ← checkFunction f : CheckM Unit) c = .ok ((), c') := by
  simp only [Passes, checkEntry, bind_eq_ok, pure_eq_ok]
  constructor
  · rintro ⟨_, t, c₁, h, -, rfl⟩
    exact ⟨t, c₁, h, trivial, rfl⟩
  · rintro ⟨t, c₁, h, -, rfl⟩
    exact ⟨some t, t, c₁, h, rfl, rfl⟩

theorem passes_declaration {d : Decl} :
    Passes c (.declaration d) c' ↔ declareVar d c = .ok ((), c') := by
  simp only [Passes, checkEntry, bind_eq_ok, pure_eq_ok]
  constructor
  · rintro ⟨_, _, c₁, h, -, rfl⟩
    exact h
  · exact fun h => ⟨none, (), c', h, rfl, rfl⟩

theorem passes_statement {s : Stmt} :
    Passes c (.statement s) c' ↔ checkStmt none s c = .ok ((), c') := by
  simp only [Passes, checkEntry, bind_eq_ok, pure_eq_ok]
  constructor
  · rintro ⟨_, _, c₁, h, -, rfl⟩
    exact h
  · exact fun h => ⟨none, (), c', h, rfl, rfl⟩

/-- A program passes the check if its items do one after the other. -/
theorem passes_program {p : Program} :
    Passes c (.program p) c' ↔ Steps Passes c p.entries c' := by
  simp only [Program.entries, Steps.append_iff, Steps.map_iff, passes_function, passes_declaration,
    passes_statement, ← forM_eq_ok]
  simp only [Passes, checkEntry, checkStmts_eq_forM, bind_eq_ok, pure_eq_ok]
  constructor
  · rintro ⟨type, _, c₁, h₁, _, c₂, h₂, _, c₃, h₃, -, rfl⟩
    exact ⟨c₂, ⟨c₁, h₁, h₂⟩, h₃⟩
  · rintro ⟨c₂, ⟨c₁, h₁, h₂⟩, h₃⟩
    exact ⟨none, (), c₁, h₁, (), c₂, h₂, (), c', h₃, rfl, rfl⟩

/-- Checkers that are alike pass the same entries. -/
theorem Alike.passes (h : Alike c d) {e : Entry} (hp : Passes c e c') :
    ∃ d', Passes d e d' ∧ Alike c' d' := by
  obtain ⟨type, hp⟩ := hp
  rcases (alike_closed.checkEntry e).cases h with ⟨err, _, hr, -, -⟩ | ⟨t, c₁, d₁, hr, hr', hd⟩
  · rw [hp] at hr
    cases hr
  · rw [hp] at hr
    obtain ⟨rfl, rfl⟩ := Prod.mk.inj (Except.ok.inj hr)
    exact ⟨d₁, ⟨type, hr'⟩, hd⟩

/-- An entry is accepted if it passes the check; resolving its type only
shortens chains. -/
theorem run_of_passes (hs : c.subst.WellFormed) {e : Entry} (h : Passes c e c') :
    ∃ type d, c.run e = (.ok type, d) ∧ Alike c' d := by
  obtain ⟨c₁, ⟨_, hc₁⟩, h₁⟩ := (alike_self hs).passes h
  obtain ⟨type, h⟩ := h
  obtain ⟨rfl, rfl⟩ := Prod.mk.inj (Except.ok.inj (h.symm.trans hc₁))
  cases type with
  | none =>
    refine ⟨none, c', run_ok_iff.mpr (bind_eq_ok.mpr ⟨none, c', h, rfl⟩), h₁⟩
  | some t =>
    refine ⟨some (Subst.apply t c'.subst).1, { c' with subst := (Subst.apply t c'.subst).2 },
      run_ok_iff.mpr (bind_eq_ok.mpr ⟨some t, c', h, rfl⟩), rfl, h₁.subst.left.sameRoots_apply t⟩

theorem passes_of_run {e : Entry} {type : Option Ty} (h : c.run e = (.ok type, d)) :
    ∃ c', Passes c e c' := by
  obtain ⟨t, c', hc, -⟩ := run_eq_ok h
  exact ⟨c', t, hc⟩

end Checker

/-! ### The run, item by item -/

namespace Run

variable {α β : Type} {p : Run α} {s s' : Store}

theorem bind_eq_ok {f : α → Run β} {b : β} : (p >>= f) s = some (.ok b, s') ↔
    ∃ a s₁, p s = some (.ok a, s₁) ∧ f a s₁ = some (.ok b, s') := by
  constructor
  · intro h
    rcases bind_cases h with h | ⟨e, -, he⟩
    · exact h
    · cases he
  · rintro ⟨a, s₁, hp, hf⟩
    rw [bind_eq hp, hf]

theorem pure_eq_ok {a b : α} :
    (pure a : Run α) s = some (.ok b, s') ↔ a = b ∧ s = s' := by
  show some (Except.ok a, s) = some (.ok b, s') ↔ _
  simp

end Run

namespace Store

variable {s s' : Store} {fuel : Nat}

/-- The run of an entry goes through, on a given fuel. -/
def CompletesOn (fuel : Nat) (s : Store) (e : Entry) (s' : Store) : Prop :=
  ∃ v, e.run fuel base s = some (.ok v, s')

/-- The run of an entry goes through. -/
def Completes (s : Store) (e : Entry) (s' : Store) : Prop :=
  ∃ fuel, s.CompletesOn fuel e s'

theorem CompletesOn.mono {more : Nat} {e : Entry} (h : s.CompletesOn fuel e s')
    (hle : fuel ≤ more) : s.CompletesOn more e s' := by
  obtain ⟨v, h⟩ := h
  exact ⟨v, e.run_mono hle base h⟩

theorem defineAll_eq_ok {fs : List FunDef} : defineAll base fs s = some (.ok (), s') ↔
    Steps (fun s f s' => s.CompletesOn fuel (.function f) s') s fs s' := by
  induction fs generalizing s with
  | nil =>
    rw [Steps.nil_iff]
    exact Run.pure_eq_ok.trans (and_iff_right rfl)
  | cons f fs ih =>
    rw [Steps.cons_iff, defineAll, Run.bind_eq_ok]
    simp only [ih, CompletesOn, Entry.run, Run.bind_eq_ok, Run.pure_eq_ok]
    constructor
    · rintro ⟨v, s₁, h, hrest⟩
      exact ⟨s₁, ⟨none, v, s₁, h, rfl, rfl⟩, hrest⟩
    · rintro ⟨s₁, ⟨_, v, s₁', h, rfl, rfl⟩, hrest⟩
      exact ⟨v, s₁', h, hrest⟩

theorem runDecls_eq_ok {ds : List Decl} : runDecls base ds s = some (.ok (), s') ↔
    Steps (fun s d s' => s.CompletesOn fuel (.declaration d) s') s ds s' := by
  induction ds generalizing s with
  | nil =>
    rw [Steps.nil_iff]
    exact Run.pure_eq_ok.trans (and_iff_right rfl)
  | cons d ds ih =>
    rw [Steps.cons_iff, runDecls, Run.bind_eq_ok]
    simp only [ih, CompletesOn, Entry.run, Run.bind_eq_ok, Run.pure_eq_ok]
    constructor
    · rintro ⟨_, s₁, h, hrest⟩
      exact ⟨s₁, ⟨none, (), s₁, h, rfl, rfl⟩, hrest⟩
    · rintro ⟨s₁, ⟨_, _, s₁', h, -, rfl⟩, hrest⟩
      exact ⟨(), s₁', h, hrest⟩

theorem execAllOutside_eq_ok {ss : List Stmt} :
    execAllOutside fuel base ss s = some (.ok (), s') ↔
      Steps (fun s st s' => s.CompletesOn fuel (.statement st) s') s ss s' := by
  induction ss generalizing s with
  | nil =>
    rw [Steps.nil_iff]
    exact Run.pure_eq_ok.trans (and_iff_right rfl)
  | cons st ss ih =>
    rw [Steps.cons_iff, execAllOutside, Run.bind_eq_ok]
    simp only [ih, CompletesOn, Entry.run, Run.bind_eq_ok, Run.pure_eq_ok]
    constructor
    · rintro ⟨_, s₁, h, hrest⟩
      exact ⟨s₁, ⟨none, (), s₁, h, rfl, rfl⟩, hrest⟩
    · rintro ⟨s₁, ⟨_, _, s₁', h, -, rfl⟩, hrest⟩
      exact ⟨(), s₁', h, hrest⟩

theorem completesOn_program {p : Program} :
    s.CompletesOn fuel (.program p) s' ↔ Steps (CompletesOn fuel) s p.entries s' := by
  simp only [Program.entries, Steps.append_iff, Steps.map_iff, ← defineAll_eq_ok,
    ← runDecls_eq_ok, ← execAllOutside_eq_ok]
  simp only [CompletesOn, Entry.run, Run.bind_eq_ok, Run.pure_eq_ok]
  constructor
  · rintro ⟨v, _, s₁, h₁, _, s₂, h₂, _, s₃, h₃, -, rfl⟩
    exact ⟨s₂, ⟨s₁, h₁, h₂⟩, h₃⟩
  · rintro ⟨s₂, ⟨s₁, h₁, h₂⟩, h₃⟩
    exact ⟨none, (), s₁, h₁, (), s₂, h₂, (), s', h₃, rfl, rfl⟩

/-- The items can be given as much fuel as the one that needs most of it. -/
theorem steps_completesOn {es : List Entry} (h : Steps Completes s es s') :
    ∃ fuel, Steps (CompletesOn fuel) s es s' := by
  induction h with
  | nil s => exact ⟨0, .nil s⟩
  | cons h _ ih =>
    obtain ⟨fuel, h⟩ := h
    obtain ⟨fuel', hrest⟩ := ih
    refine ⟨max fuel fuel', .cons (h.mono (Nat.le_max_left ..)) ?_⟩
    obtain ⟨_, hrest', rfl⟩ := hrest.simulate (S := Eq) (Q := CompletesOn (max fuel fuel'))
      (fun he h => ⟨_, he ▸ h.mono (Nat.le_max_right ..), rfl⟩) rfl
    exact hrest'

/-- The run of a program goes through if the runs of its items do one after the
other. -/
theorem completes_program {p : Program} :
    s.Completes (.program p) s' ↔ Steps Completes s p.entries s' := by
  constructor
  · rintro ⟨fuel, h⟩
    obtain ⟨_, h', rfl⟩ := (completesOn_program.mp h).simulate (S := Eq) (Q := Completes)
      (fun he h => ⟨_, ⟨fuel, he ▸ h⟩, rfl⟩) rfl
    exact h'
  · intro h
    obtain ⟨fuel, h⟩ := steps_completesOn h
    exact ⟨fuel, completesOn_program.mpr h⟩

end Store

/-! ### Sessions -/

namespace Session

variable {s s' t t' u : Session} {e : Entry} {es : List Entry}

/-- An entry is run and nothing fails. -/
def Succeeds (s : Session) (e : Entry) (s' : Session) : Prop :=
  ∃ fuel o, s.runEntry fuel e = some (.ok o, s')

/-- The check and the run of an entry go through.  Its type is not resolved. -/
def Advances (s : Session) (e : Entry) (s' : Session) : Prop :=
  s.checker.Passes e s'.checker ∧ s.store.Completes e s'.store

theorem Succeeds.unique (h : s.Succeeds e t) (h' : s.Succeeds e t') : t = t' := by
  obtain ⟨fuel, o, h⟩ := h
  obtain ⟨fuel', o', h'⟩ := h'
  exact (Prod.mk.inj (runEntry_unique h h')).2

theorem succeeds_iff : s.Succeeds e s' ↔
    ∃ type, s.checker.run e = (.ok type, s'.checker) ∧ s.store.Completes e s'.store := by
  constructor
  · rintro ⟨fuel, o, h⟩
    rcases runEntry_cases h with ⟨err, -, ho, -⟩ | ⟨type, hc, ⟨v, hr, -⟩ | ⟨err, -, ho⟩⟩
    · cases ho
    · exact ⟨type, hc, fuel, v, hr⟩
    · cases ho
  · rintro ⟨type, hc, fuel, v, hr⟩
    refine ⟨fuel, ⟨type, v⟩, ?_⟩
    rw [runEntry, hc]
    dsimp only
    rw [hr]

theorem steps_advances : Steps Advances s es t ↔
    Steps Checker.Passes s.checker es t.checker ∧ Steps Store.Completes s.store es t.store := by
  induction es generalizing s with
  | nil =>
    simp only [Steps.nil_iff]
    obtain ⟨c, st⟩ := s
    obtain ⟨c', st'⟩ := t
    exact Session.mk.injEq .. ▸ Iff.rfl
  | cons e es ih =>
    simp only [Steps.cons_iff, ih]
    constructor
    · rintro ⟨s₁, ⟨hc, hs⟩, hcs, hss⟩
      exact ⟨⟨_, hc, hcs⟩, _, hs, hss⟩
    · rintro ⟨⟨c₁, hc, hcs⟩, st₁, hs, hss⟩
      exact ⟨⟨c₁, st₁⟩, ⟨hc, hs⟩, hcs, hss⟩

/-- Check and run of a program go through if those of its items do, one item
after the other. -/
theorem advances_program {p : Program} :
    s.Advances (.program p) t ↔ Steps Advances s p.entries t := by
  rw [steps_advances, Advances, Checker.passes_program, Store.completes_program]

/-- Sessions that are alike succeed alike, whether the type is resolved or not. -/
theorem Alike.advances (h : Alike s u) (hs : s.Succeeds e s') :
    ∃ u', u.Advances e u' ∧ Alike s' u' := by
  obtain ⟨type, hc, hr⟩ := succeeds_iff.mp hs
  obtain ⟨c', hp⟩ := Checker.passes_of_run hc
  obtain ⟨type', d, hc', hd⟩ := Checker.run_of_passes h.checker.subst.left hp
  obtain ⟨-, rfl⟩ := Prod.mk.inj (hc'.symm.trans hc)
  obtain ⟨d', hp', hd'⟩ := h.checker.passes hp
  exact ⟨⟨d', s'.store⟩, ⟨hp', h.store ▸ hr⟩, hd.symm.trans hd', rfl⟩

theorem Alike.succeeds (h : Alike s u) (hs : s.Advances e s') :
    ∃ u', u.Succeeds e u' ∧ Alike s' u' := by
  obtain ⟨hp, hr⟩ := hs
  obtain ⟨d', hp', hd'⟩ := h.checker.passes hp
  obtain ⟨type, d, hc, hd⟩ := Checker.run_of_passes h.checker.subst.right hp'
  exact ⟨⟨d, s'.store⟩, succeeds_iff.mpr ⟨type, hc, h.store ▸ hr⟩, hd'.trans hd, rfl⟩

theorem Reachable.alike_self (h : s.Reachable) : Alike s s := by
  obtain ⟨es, hes⟩ := h.exists_history
  exact ⟨Checker.alike_self hes.rest.subst, rfl⟩

/-- In every session, a program can be run as a whole if and only if its items
can be run one after the other, each as an entry of its own.  The two sessions
that this leads to have the same globals with the same types and values, and
answer all that is asked later in the same way. -/
theorem Reachable.batch (h : s.Reachable) (p : Program) :
    ((∃ t, s.Succeeds (.program p) t) ↔ ∃ t', Steps Succeeds s p.entries t') ∧
    ∀ t t', s.Succeeds (.program p) t → Steps Succeeds s p.entries t' →
      (Session.globals t').1 = (Session.globals t).1 ∧
      (∀ x, (Session.typeOf x t').1 = (Session.typeOf x t).1 ∧ t'.valueOf x = t.valueOf x) ∧
      ∀ l, (∃ u, Log t l u) ↔ ∃ u, Log t' l u := by
  have hbatch : ∀ {t}, s.Succeeds (.program p) t →
      ∃ t', Steps Succeeds s p.entries t' ∧ Alike t t' := by
    intro t ht
    obtain ⟨t₁, h₁, ha₁⟩ := h.alike_self.advances ht
    obtain ⟨t', h', ha'⟩ := (advances_program.mp h₁).simulate Alike.succeeds h.alike_self
    exact ⟨t', h', ha₁.trans ha'⟩
  have hitems : ∀ {t'}, Steps Succeeds s p.entries t' → ∃ t, s.Succeeds (.program p) t := by
    intro t' ht'
    obtain ⟨t₁, h₁, -⟩ := ht'.simulate Alike.advances h.alike_self
    obtain ⟨t, ht, -⟩ := h.alike_self.succeeds (advances_program.mpr h₁)
    exact ⟨t, ht⟩
  refine ⟨⟨fun ⟨t, ht⟩ => ?_, fun ⟨t', ht'⟩ => hitems ht'⟩, ?_⟩
  · obtain ⟨t', ht', -⟩ := hbatch ht
    exact ⟨t', ht'⟩
  · intro t t' ht ht'
    obtain ⟨t'', ht'', ha⟩ := hbatch ht
    obtain rfl := ht''.unique ht' Succeeds.unique
    exact ⟨ha.globals.1, fun x => ⟨(ha.typeOf x).1, ha.valueOf x⟩, ha.log_iff⟩

/-- Two functions, the second of which captures the first, a global of unknown
type, and statements that call them. -/
def twoFunctions : String :=
  "function f(var a) \x7b k := k + a; return k; \x7d var x; x := f(3); "
    ++ "function g(var b) \x7b return f(b) == b; \x7d y := g(x);"

theorem batch_captures : ∃ s p, Session.feed 60 ["var y;", "int k;"] .initial = some s ∧
    s.Reachable ∧ p.entries.length = 5 ∧ ∃ t t', s.Succeeds (.program p) t ∧
      Steps Succeeds s p.entries t' ∧ (Session.globals t').1 = (Session.globals t).1 ∧
      ∀ l, (∃ u, Log t l u) ↔ ∃ u, Log t' l u := by
  have hrun : ((Session.feed 60 ["var y;", "int k;"] .initial).any fun s =>
      (Entry.parse twoFunctions).toOption.any fun e => e.casesOn
        (fun p => decide (p.entries.length = 5) &&
          (s.runEntry 60 (.program p)).any fun q => q.1.isOk)
        (fun _ => false) (fun _ => false) (fun _ => false) fun _ => false) = true := by
    decide +kernel
  obtain ⟨s, hs, hrun⟩ := (Option.any_eq_true _ _).mp hrun
  obtain ⟨e, -, hrun⟩ := (Option.any_eq_true _ _).mp hrun
  have hreach := Reachable.initial.feed hs
  cases e with
  | function | declaration | statement | expression => cases hrun
  | program p =>
    obtain ⟨hlen, hrun⟩ := Bool.and_eq_true_iff.mp hrun
    obtain ⟨⟨res, t⟩, hres, hok⟩ := (Option.any_eq_true _ _).mp hrun
    cases res with
    | error err => cases hok
    | ok o =>
      have ht : s.Succeeds (.program p) t := ⟨60, o, hres⟩
      obtain ⟨hiff, hsame⟩ := hreach.batch p
      obtain ⟨t', ht'⟩ := hiff.mp ⟨t, ht⟩
      obtain ⟨hglobals, -, hlater⟩ := hsame t t' ht ht'
      exact ⟨s, p, hs, hreach, of_decide_eq_true hlen, t, t', ht, ht', hglobals, hlater⟩

end Session

end Implet
