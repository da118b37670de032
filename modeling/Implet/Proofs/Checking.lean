/-
Implet/Proofs/Checking.lean

What has been accepted is well typed: an entry that passes the check is well
typed under every valuation that the substitution holds of in the end
(`Checker.run_spec`).

A check that succeeds may learn something about types and make variables, but
leaves the scope as it was, except for what it declares in the innermost frame.
-/
import Implet.Checking.Checker
import Implet.Proofs.Typing
import Implet.Proofs.Unifying

namespace Implet.Checker

open Subst

variable {α β : Type} {c c₁ c' c'' : Checker} {ρ : Valuation}

/-! ### Checks that succeed -/

theorem bind_eq_ok {x : CheckM α} {f : α → CheckM β} {b : β} :
    (x >>= f) c = .ok (b, c') ↔ ∃ a c₁, x c = .ok (a, c₁) ∧ f a c₁ = .ok (b, c') := by
  show (x c >>= fun p => f p.1 p.2) = .ok (b, c') ↔ _
  rcases x c with e | ⟨a, c₁⟩
  · constructor
    · intro h
      cases h
    · rintro ⟨a, c₁, h, -⟩
      cases h
  · constructor
    · exact fun h => ⟨a, c₁, rfl, h⟩
    · rintro ⟨a', c₁', h, h'⟩
      cases h
      exact h'

theorem pure_eq_ok {a b : α} : (pure a : CheckM α) c = .ok (b, c') ↔ a = b ∧ c = c' := by
  show (Except.ok (a, c) : Except TypeError _) = .ok (b, c') ↔ _
  rw [Except.ok.injEq, Prod.mk.injEq]

theorem get_eq_ok : (get : CheckM Checker) c = .ok (c₁, c') ↔ c = c₁ ∧ c = c' :=
  pure_eq_ok (α := Checker)

theorem throw_ne_ok {e : TypeError} {a : α} : (throw e : CheckM α) c ≠ .ok (a, c') := by
  intro h
  cases h

theorem onSubst_eq_ok {action : StateM Subst α} {a : α} :
    onSubst action c = .ok (a, c') ↔
      a = (action c.subst).1 ∧ c' = { c with subst := (action c.subst).2 } := by
  show (Except.ok ((action c.subst).1, { c with subst := (action c.subst).2 }) :
    Except TypeError (α × Checker)) = .ok (a, c') ↔ _
  rw [Except.ok.injEq, Prod.mk.injEq, eq_comm, @eq_comm _ c']

theorem onSubstAt_eq_ok {span : Span} {action : UnifyM α} {a : α}
    (h : onSubstAt span action c = .ok (a, c')) :
    action.run c.subst = (.ok a, c'.subst) ∧ c'.env = c.env := by
  obtain ⟨r, c₁, h₁, h⟩ := bind_eq_ok.mp h
  obtain ⟨hr, rfl⟩ := onSubst_eq_ok.mp h₁
  cases r with
  | ok b =>
    obtain ⟨rfl, rfl⟩ := pure_eq_ok.mp h
    exact ⟨Prod.ext hr.symm rfl, rfl⟩
  | error e => exact absurd h throw_ne_ok

theorem tryCatch_throw_eq_ok {x : CheckM α} {f : TypeError → TypeError} {a : α}
    (h : tryCatch x (fun e => throw (f e)) c = .ok (a, c')) : x c = .ok (a, c') := by
  have hrun : tryCatch x (fun e => throw (f e)) c = tryCatch (x c) fun e => .error (f e) := rfl
  rw [hrun] at h
  rcases hx : x c with e | p
  · rw [hx] at h
    cases h
  · rw [hx] at h
    exact h

theorem onScopeAt_eq_ok {span : Span} {action : Scope Ty → Except ScopeError (Scope Ty)}
    (h : onScopeAt span action c = .ok ((), c')) :
    action c.env = .ok c'.env ∧ c'.subst = c.subst := by
  obtain ⟨_, _, h₁, h⟩ := bind_eq_ok.mp h
  obtain ⟨rfl, rfl⟩ := get_eq_ok.mp h₁
  rcases ha : action c.env with e | env
  · rw [ha] at h
    exact absurd h throw_ne_ok
  · rw [ha] at h
    obtain rfl : { c with env } = c' := (Prod.mk.inj (Except.ok.inj h)).2
    exact ⟨rfl, rfl⟩

theorem typeOfName_eq_ok {id : Ident} {t : Ty} (h : typeOfName id c = .ok (t, c')) :
    c.env.get? id.name = some t ∧ c' = c := by
  obtain ⟨_, _, h₁, h⟩ := bind_eq_ok.mp h
  obtain ⟨rfl, rfl⟩ := get_eq_ok.mp h₁
  rcases hl : c.env.lookup id.name with e | u
  · rw [hl] at h
    exact absurd h throw_ne_ok
  · rw [hl] at h
    obtain ⟨rfl, rfl⟩ := pure_eq_ok.mp h
    exact ⟨Scope.lookup_eq_ok_iff.mp hl, rfl⟩

/-! ### Steps, by what they ask for -/

/-- Reading the checker first. -/
theorem get_bind (f : Checker → CheckM α) (c : Checker) : (get >>= f) c = f c c := rfl

theorem onSubst_bind (action : StateM Subst α) (f : α → CheckM β) (c : Checker) :
    (onSubst action >>= f) c = f (action c.subst).1 { c with subst := (action c.subst).2 } := rfl

theorem onSubstAt_of_ok {span : Span} {action : UnifyM α} {a : α} {s : Subst}
    (h : action.run c.subst = (.ok a, s)) :
    onSubstAt span action c = .ok (a, { c with subst := s }) := by
  unfold onSubstAt
  rw [onSubst_bind, h]
  rfl

theorem onSubstAt_of_error {span : Span} {action : UnifyM α} {e : UnifyError} {s : Subst}
    (h : action.run c.subst = (.error e, s)) :
    onSubstAt span action c = .error (.ofUnify span e) := by
  unfold onSubstAt
  rw [onSubst_bind, h]
  rfl

theorem onScopeAt_of_ok {span : Span} {action : Scope Ty → Except ScopeError (Scope Ty)}
    {env : Scope Ty} (h : action c.env = .ok env) :
    onScopeAt span action c = .ok ((), { c with env }) := by
  unfold onScopeAt
  rw [get_bind, h]
  rfl

theorem onScopeAt_of_error {span : Span}
    {action : Scope Ty → Except ScopeError (Scope Ty)}
    {e : ScopeError} (h : action c.env = .error e) :
    onScopeAt span action c = .error (.ofScope span e) := by
  unfold onScopeAt
  rw [get_bind, h]
  rfl

theorem typeOfName_of_get? {id : Ident} {t : Ty} (h : c.env.get? id.name = some t) :
    typeOfName id c = .ok (t, c) := by
  unfold typeOfName
  rw [get_bind, Scope.lookup_of_get? h]
  rfl

theorem typeOfName_of_not_get? {id : Ident} (h : c.env.get? id.name = none) :
    typeOfName id c = .error (.undeclared id.name id.span) := by
  unfold typeOfName
  rw [get_bind, Scope.lookup_of_not_get? h]
  rfl

/-- A failure to make two types agree is reported with a note. -/
theorem unifyAt_of_error {span : Span} {note : String} {a b : Ty} {err : TypeError}
    (h : onSubstAt span (unify a b) c = .error err) :
    unifyAt span note a b c = .error (err.withNote note) := by
  have hrun : unifyAt span note a b c = tryCatch (onSubstAt span (unify a b) c) fun e =>
    .error (e.withNote note) := rfl
  rw [hrun, h]
  rfl

theorem unifyAt_of_ok {span : Span} {note : String} {a b : Ty}
    (h : onSubstAt span (unify a b) c = .ok ((), c')) :
    unifyAt span note a b c = .ok ((), c') := by
  have hrun : unifyAt span note a b c = tryCatch (onSubstAt span (unify a b) c) fun e =>
    .error (e.withNote note) := rfl
  rw [hrun, h]
  rfl

/-! ### Checks that keep the scope -/

/-- The scope is as it was, and the substitution knows all that it knew;
`minted` variables have been made. -/
structure Keeps (minted : Nat) (c c' : Checker) : Prop where
  env : c'.env = c.env
  subst : c.subst.Extends minted c'.subst

theorem Keeps.refl (hs : c.subst.WellFormed) : Keeps 0 c c := ⟨rfl, hs.extends_self⟩

theorem Keeps.trans {j k : Nat} (h : Keeps j c c') (h' : Keeps k c' c'') :
    Keeps (j + k) c c'' :=
  ⟨h'.env.trans h.env, h.subst.trans h'.subst⟩

theorem Keeps.next (h : Keeps 0 c c') : c'.subst.next = c.subst.next := h.subst.next

theorem unifyAt_spec (hs : c.subst.WellFormed) {span : Span} {note : String} {a b : Ty}
    (h : unifyAt span note a b c = .ok ((), c')) :
    Keeps 0 c c' ∧ ∀ {ρ}, c'.subst.Holds ρ → a.ground ρ = b.ground ρ := by
  obtain ⟨h, he⟩ := onSubstAt_eq_ok (tryCatch_throw_eq_ok h)
  obtain ⟨hx, heq⟩ := unify_spec hs h
  exact ⟨⟨he, hx⟩, heq⟩

/-! ### Expressions -/

/-- The operands that an operator asks for, and its result. -/
theorem hasTypes_of_operatorTypes {op : BinOp} {operand result : Ty}
    (h : operatorTypes op = some (operand, result)) :
    op.HasTypes (operand.ground ρ) (result.ground ρ) := by
  cases op <;> cases h <;> exact ⟨rfl, rfl⟩

theorem eq_of_operatorTypes {op : BinOp} (h : operatorTypes op = none) : op = .eq := by
  cases op <;> first | rfl | cases h

mutual

/-- The type that is inferred for an expression is a type of it. -/
theorem infer_spec {c c' : Checker} (hs : c.subst.WellFormed) {e : Expr} {t : Ty}
    (h : infer e c = .ok (t, c')) :
    Keeps 0 c c' ∧ ∀ {ρ}, c'.subst.Holds ρ → e.HasType (c.env.ground ρ) (t.ground ρ) := by
  cases e with
  | integer | boolean =>
    obtain ⟨rfl, rfl⟩ := pure_eq_ok.mp h
    exact ⟨.refl hs, fun _ => rfl⟩
  | ident id =>
    obtain ⟨ht, rfl⟩ := typeOfName_eq_ok h
    refine ⟨.refl hs, ?_⟩
    intro ρ _
    rw [Expr.HasType, Scope.get?_ground, ht]
    rfl
  | binary op left right span =>
    simp only [infer, bind_eq_ok] at h
    obtain ⟨t₁, c₁, h₁, t₂, c₂, h₂, h⟩ := h
    obtain ⟨hk₁, hl⟩ := infer_spec hs h₁
    obtain ⟨hk₂, hr⟩ := infer_spec hk₁.subst.wellFormed h₂
    have hk := hk₁.trans hk₂
    rcases hop : operatorTypes op with - | ⟨operand, result⟩
    · -- equality takes operands of one type, whichever base type it is
      obtain rfl := eq_of_operatorTypes hop
      simp only [hop, bind_eq_ok] at h
      obtain ⟨_, c₃, h₃, _, c₄, h₄, h⟩ := h
      obtain ⟨rfl, rfl⟩ := pure_eq_ok.mp h
      obtain ⟨hk₃, heq⟩ := unifyAt_spec hk₂.subst.wellFormed h₃
      obtain ⟨h₄, he₄⟩ := onSubstAt_eq_ok h₄
      obtain ⟨hx₄, hb⟩ := requireBase_spec hk₃.subst.wellFormed h₄
      refine ⟨(hk.trans hk₃).trans ⟨he₄, hx₄⟩, ?_⟩
      intro ρ hρ
      -- what holds in the end held at each step before
      have hρ₃ := hx₄.holds hρ
      have hρ₂ := hk₃.subst.holds hρ₃
      refine ⟨t₁.ground ρ, ⟨hb hρ, rfl⟩, hl (hk₂.subst.holds hρ₂), ?_⟩
      rw [heq hρ₃, ← hk₁.env]
      exact hr hρ₂
    · -- the other operators name the type that they take
      simp only [hop, bind_eq_ok] at h
      obtain ⟨_, c₃, h₃, _, c₄, h₄, h⟩ := h
      obtain ⟨rfl, rfl⟩ := pure_eq_ok.mp h
      obtain ⟨hk₃, heq₃⟩ := unifyAt_spec hk₂.subst.wellFormed h₃
      obtain ⟨hk₄, heq₄⟩ := unifyAt_spec hk₃.subst.wellFormed h₄
      refine ⟨(hk.trans hk₃).trans hk₄, ?_⟩
      intro ρ hρ
      have hρ₃ := hk₄.subst.holds hρ
      have hρ₂ := hk₃.subst.holds hρ₃
      refine ⟨operand.ground ρ, hasTypes_of_operatorTypes hop, ?_, ?_⟩
      · rw [heq₃ hρ₃]
        exact hl (hk₂.subst.holds hρ₂)
      · rw [heq₄ hρ, ← hk₁.env]
        exact hr hρ₂
  | call func args span =>
    simp only [infer, bind_eq_ok] at h
    obtain ⟨callee, _, h₁, u, c₁, h₂, h⟩ := h
    obtain ⟨ht, rfl⟩ := typeOfName_eq_ok h₁
    obtain ⟨hu, rfl⟩ := onSubst_eq_ok.mp h₂
    -- what is called must have a function type at its root
    have hu : _ = root _ callee := hu
    have hx := hs.extends_relink callee
    cases u with
    | int | bool | var =>
      obtain ⟨_, _, -, h⟩ := bind_eq_ok.mp h
      exact absurd h throw_ne_ok
    | func params ret =>
      simp only at h
      split at h
      · next hlen =>
        rw [bind_eq_ok] at h
        obtain ⟨_, c₂, h₂, h⟩ := h
        obtain ⟨rfl, rfl⟩ := pure_eq_ok.mp h
        obtain ⟨hk₂, hargs⟩ := checkArguments_spec hx.wellFormed hlen h₂
        refine ⟨⟨hk₂.env, hx.trans hk₂.subst⟩, ?_⟩
        intro ρ hρ
        have hρ₁ := hx.holds (hk₂.subst.holds hρ)
        refine ⟨params.map (Ty.ground ρ), ?_, hargs hρ⟩
        rw [Scope.get?_ground, ht, Option.map_some, ← ground_root hρ₁, ← hu, Ty.ground_func]
      · exact absurd h throw_ne_ok

/-- Arguments that have been checked have the types of the parameters. -/
theorem checkArguments_spec {c c' : Checker} (hs : c.subst.WellFormed) {name : String}
    {index : Nat}
    {params : List Ty} {args : List Expr} (hlen : params.length = args.length)
    (h : checkArguments name index params args c = .ok ((), c')) :
    Keeps 0 c c' ∧ ∀ {ρ}, c'.subst.Holds ρ →
      HaveTypes (c.env.ground ρ) args (params.map (Ty.ground ρ)) := by
  cases args with
  | nil =>
    obtain rfl := List.length_eq_zero_iff.mp hlen
    obtain ⟨-, rfl⟩ := pure_eq_ok.mp h
    exact ⟨.refl hs, fun _ => rfl⟩
  | cons arg args =>
    cases params with
    | nil => cases hlen
    | cons param params =>
      simp only [checkArguments, bind_eq_ok] at h
      obtain ⟨t, c₁, h₁, _, c₂, h₂, h⟩ := h
      obtain ⟨hk₁, harg⟩ := infer_spec hs h₁
      obtain ⟨hk₂, heq⟩ := unifyAt_spec hk₁.subst.wellFormed h₂
      obtain ⟨hk₃, hargs⟩ := checkArguments_spec hk₂.subst.wellFormed (by simpa using hlen) h
      refine ⟨(hk₁.trans hk₂).trans hk₃, ?_⟩
      intro ρ hρ
      have hρ₂ := hk₃.subst.holds hρ
      refine ⟨param.ground ρ, params.map (Ty.ground ρ), rfl, ?_, ?_⟩
      · rw [heq hρ₂]
        exact harg (hk₂.subst.holds hρ₂)
      · rw [← (hk₁.trans hk₂).env]
        exact hargs hρ

end

/-! ### Declarations -/

/-- Names have been declared in the innermost frame `f`, which has become `f'`,
with the types that the declarations `ds` give them. -/
structure Declares (ds : List Decl) (c c' : Checker) (f f' : Frame Ty) : Prop where
  subst : c.subst.Extends (mintedDecls ds) c'.subst
  nodup : (declaredNames ds).Nodup
  disjoint : f.names.Disjoint (declaredNames ds)
  ground : ∀ ρ, f'.ground ρ = (f.ground ρ).declared ds (groundDecls ρ c.subst.next ds)

theorem declareAt_eq_ok {span : Span} {name : String} {t : Ty}
    (h : declareAt span name t c = .ok ((), c')) :
    ∃ f fs, c.env.frames = f :: fs ∧ name ∉ f.names ∧
      c' = { c with env := ⟨((name, t) :: f) :: fs⟩ } := by
  obtain ⟨h, hs⟩ := onScopeAt_eq_ok h
  obtain ⟨f, fs, hf, hn, he⟩ := Scope.declare_eq_ok h
  obtain ⟨env, s⟩ := c'
  exact ⟨f, fs, hf, hn, by rw [← he, ← hs]⟩

theorem declaredType_spec (hs : c.subst.WellFormed) {d : Decl} {t : Ty}
    (h : declaredType d c = .ok (t, c')) :
    Keeps d.minted c c' ∧ ∀ ρ, t.ground ρ = d.ground ρ c.subst.next := by
  rcases hd : d.type with - | b
  · simp only [declaredType, hd, bind_eq_ok] at h
    obtain ⟨n, c₁, h₁, h⟩ := h
    obtain ⟨rfl, rfl⟩ := onSubst_eq_ok.mp h₁
    obtain ⟨rfl, rfl⟩ := pure_eq_ok.mp h
    refine ⟨⟨rfl, ?_⟩, fun ρ => ?_⟩
    · rw [Decl.minted, hd]
      exact hs.extends_fresh
    · rw [Decl.ground, hd]
      rfl
  · simp only [declaredType, hd] at h
    obtain ⟨rfl, rfl⟩ := pure_eq_ok.mp h
    refine ⟨?_, fun ρ => ?_⟩
    · rw [Decl.minted, hd]
      exact .refl hs
    · rw [Decl.ground, hd]
      rfl

theorem declareVars_spec (hs : c.subst.WellFormed) {ds : List Decl} {f : Frame Ty}
    {fs : List (Frame Ty)} (hf : c.env.frames = f :: fs)
    (h : ds.forM declareVar c = .ok ((), c')) :
    ∃ f', c'.env = ⟨f' :: fs⟩ ∧ Declares ds c c' f f' := by
  induction ds generalizing c f with
  | nil =>
    obtain ⟨-, rfl⟩ := pure_eq_ok.mp h
    exact ⟨f, by rw [← hf], hs.extends_self, List.nodup_nil, List.disjoint_nil_right _,
      fun _ => rfl⟩
  | cons d ds ih =>
    have h : (do declareVar d; ds.forM declareVar : CheckM Unit) c = .ok ((), c') := h
    simp only [declareVar, bind_eq_ok] at h
    obtain ⟨_, c₂, ⟨t, c₁, h₁, h₂⟩, h⟩ := h
    obtain ⟨hk, ht⟩ := declaredType_spec hs h₁
    obtain ⟨f₁, fs₁, hf₁, hn, rfl⟩ := declareAt_eq_ok h₂
    rw [hk.env, hf] at hf₁
    obtain ⟨rfl, rfl⟩ := List.cons.inj hf₁
    obtain ⟨f', he, hd⟩ := ih (c := { c₁ with env := ⟨((d.name.name, t) :: f) :: fs⟩ })
      hk.subst.wellFormed rfl h
    refine ⟨f', he, ?_, ?_, ?_, fun ρ => ?_⟩
    · rw [mintedDecls_cons]
      exact hk.subst.trans hd.subst
    · refine List.nodup_cons.mpr ⟨fun hm => ?_, hd.nodup⟩
      exact hd.disjoint List.mem_cons_self hm
    · intro x hx hm
      rcases List.mem_cons.mp hm with rfl | hm
      · exact hn hx
      · exact hd.disjoint (List.mem_cons_of_mem _ hx) hm
    · have hnext : c₁.subst.next = c.subst.next + d.minted := hk.subst.next
      rw [hd.ground, groundDecls, Frame.declared_cons, Frame.ground_cons, ht, hnext]

/-- A checker in a fresh frame. -/
abbrev enter (c : Checker) : Checker := { c with env := c.env.enter }

theorem inFrame_eq_ok {check : CheckM Unit} (h : inFrame check c = .ok ((), c')) :
    ∃ c₁, check c.enter = .ok ((), c₁) ∧ c₁.env.exit = .ok c'.env ∧
      c'.subst = c₁.subst := by
  simp only [inFrame, bind_eq_ok] at h
  obtain ⟨_, c₁, h₁, _, c₂, h₂, h⟩ := h
  obtain rfl : c.enter = c₁ := (Prod.mk.inj (Except.ok.inj h₁)).2
  exact ⟨c₂, h₂, onScopeAt_eq_ok h⟩

/-! ### Statements -/

theorem checkCondition_spec (hs : c.subst.WellFormed) {e : Expr}
    (h : checkCondition e c = .ok ((), c')) :
    Keeps 0 c c' ∧ ∀ {ρ}, c'.subst.Holds ρ → e.HasType (c.env.ground ρ) .bool := by
  obtain ⟨t, c₁, h₁, h⟩ := bind_eq_ok.mp h
  obtain ⟨hk₁, he⟩ := infer_spec hs h₁
  obtain ⟨hk₂, heq⟩ := unifyAt_spec hk₁.subst.wellFormed h
  refine ⟨hk₁.trans hk₂, ?_⟩
  intro ρ hρ
  rw [← Ty.ground_bool, heq hρ]
  exact he (hk₂.subst.holds hρ)

/-- A frame that is entered and left again leaves the scope as it was. -/
theorem inFrame_spec {k : Nat} {check : CheckM Unit} {P : Valuation → Prop}
    (hcheck : ∀ {c₁}, check c.enter = .ok ((), c₁) →
      c.subst.Extends k c₁.subst ∧ c₁.env.exit = .ok c.env ∧ ∀ {ρ}, c₁.subst.Holds ρ → P ρ)
    (h : inFrame check c = .ok ((), c')) :
    Keeps k c c' ∧ ∀ {ρ}, c'.subst.Holds ρ → P ρ := by
  obtain ⟨c₁, h₁, he, hs⟩ := inFrame_eq_ok h
  obtain ⟨hx, he', hP⟩ := hcheck h₁
  rw [he'] at he
  refine ⟨⟨(Except.ok.inj he).symm, hs ▸ hx⟩, fun {ρ} hρ => hP (hs ▸ hρ)⟩

theorem inFrame_keeps {k : Nat} {check : CheckM Unit} {P : Valuation → Prop}
    (hcheck : ∀ {c₁}, check c.enter = .ok ((), c₁) →
      Keeps k c.enter c₁ ∧ ∀ {ρ}, c₁.subst.Holds ρ → P ρ)
    (h : inFrame check c = .ok ((), c')) :
    Keeps k c c' ∧ ∀ {ρ}, c'.subst.Holds ρ → P ρ := by
  refine inFrame_spec (fun {c₁} h => ?_) h
  obtain ⟨hk, hP⟩ := hcheck h
  exact ⟨hk.subst, by rw [hk.env]; rfl, hP⟩

mutual

/-- A statement that has been checked is well typed. -/
theorem checkStmt_spec {c c' : Checker} (hs : c.subst.WellFormed) {result : Option Ty}
    {s : Stmt} (h : checkStmt result s c = .ok ((), c')) :
    Keeps s.minted c c' ∧ ∀ {ρ}, c'.subst.Holds ρ →
      s.Typed ρ (result.map (Ty.ground ρ)) c.subst.next (c.env.ground ρ) := by
  cases s with
  | block ds ss span =>
    rw [checkStmt] at h
    refine inFrame_spec (fun {c₂} h => ?_) h
    obtain ⟨_, c₁, h₁, h⟩ := bind_eq_ok.mp h
    obtain ⟨f', he, hd⟩ := declareVars_spec (c := c.enter) hs
      c.env.frames_enter h₁
    obtain ⟨hk, hss⟩ := checkStmts_spec hd.subst.wellFormed h
    refine ⟨hd.subst.trans hk.subst, by rw [hk.env, he]; rfl, fun {ρ} hρ => ⟨hd.nodup, ?_⟩⟩
    -- the statements were checked with the variables of the block in the innermost frame
    have hss := hss hρ
    rw [he, hd.subst.next] at hss
    rw [← Frame.ground_nil ρ, ← hd.ground]
    exact hss
  | cond condition thenBranch elseBranch span =>
    cases elseBranch with
    | none =>
      simp only [checkStmt, bind_eq_ok] at h
      obtain ⟨_, c₁, h₁, h⟩ := h
      obtain ⟨hk₁, hc⟩ := checkCondition_spec hs h₁
      obtain ⟨hk₂, ht⟩ := inFrame_keeps (checkStmt_spec (c := c₁.enter) hk₁.subst.wellFormed) h
      rw [Stmt.minted, ← Nat.zero_add thenBranch.minted]
      refine ⟨hk₁.trans hk₂, fun {ρ} hρ => ⟨hc (hk₂.subst.holds hρ), ?_⟩⟩
      rw [← hk₁.env, ← hk₁.next]
      exact ht hρ
    | some elseBranch =>
      simp only [checkStmt, bind_eq_ok] at h
      obtain ⟨_, c₁, h₁, _, c₂, h₂, h⟩ := h
      obtain ⟨hk₁, hc⟩ := checkCondition_spec hs h₁
      obtain ⟨hk₂, ht⟩ := inFrame_keeps (checkStmt_spec (c := c₁.enter) hk₁.subst.wellFormed) h₂
      obtain ⟨hk₃, he⟩ := inFrame_keeps (checkStmt_spec (c := c₂.enter) hk₂.subst.wellFormed) h
      rw [Stmt.minted, ← Nat.zero_add (thenBranch.minted + _), ← Nat.add_assoc]
      refine ⟨(hk₁.trans hk₂).trans hk₃, ?_⟩
      intro ρ hρ
      have hρ₂ := hk₃.subst.holds hρ
      refine ⟨hc (hk₂.subst.holds hρ₂), ?_, ?_⟩
      · rw [← hk₁.env, ← hk₁.next]
        exact ht hρ₂
      · rw [← (hk₁.trans hk₂).env, ← hk₁.next, ← hk₂.subst.next]
        exact he hρ
  | loop condition body span =>
    simp only [checkStmt, bind_eq_ok] at h
    obtain ⟨_, c₁, h₁, h⟩ := h
    obtain ⟨hk₁, hc⟩ := checkCondition_spec hs h₁
    obtain ⟨hk₂, hb⟩ := inFrame_keeps (checkStmt_spec (c := c₁.enter) hk₁.subst.wellFormed) h
    rw [Stmt.minted, ← Nat.zero_add body.minted]
    refine ⟨hk₁.trans hk₂, fun {ρ} hρ => ⟨hc (hk₂.subst.holds hρ), ?_⟩⟩
    rw [← hk₁.env, ← hk₁.next]
    exact hb hρ
  | assign target value span =>
    simp only [checkStmt, bind_eq_ok] at h
    obtain ⟨expected, _, h₁, found, c₁, h₂, h⟩ := h
    obtain ⟨ht, rfl⟩ := typeOfName_eq_ok h₁
    obtain ⟨hk₁, he⟩ := infer_spec hs h₂
    obtain ⟨hk₂, heq⟩ := unifyAt_spec hk₁.subst.wellFormed h
    refine ⟨hk₁.trans hk₂, fun {ρ} hρ => ⟨expected.ground ρ, ?_, ?_⟩⟩
    · rw [Scope.get?_ground, ht]
      rfl
    · rw [heq hρ]
      exact he (hk₂.subst.holds hρ)
  | ret value span =>
    cases result with
    | none => exact absurd h throw_ne_ok
    | some expected =>
      simp only [checkStmt, bind_eq_ok] at h
      obtain ⟨found, c₁, h₁, h⟩ := h
      obtain ⟨hk₁, he⟩ := infer_spec hs h₁
      obtain ⟨hk₂, heq⟩ := unifyAt_spec hk₁.subst.wellFormed h
      refine ⟨hk₁.trans hk₂, fun {ρ} hρ => ⟨expected.ground ρ, rfl, ?_⟩⟩
      rw [heq hρ]
      exact he (hk₂.subst.holds hρ)

/-- Statements that have been checked are well typed. -/
theorem checkStmts_spec {c c' : Checker} (hs : c.subst.WellFormed) {result : Option Ty}
    {ss : List Stmt} (h : checkStmts result ss c = .ok ((), c')) :
    Keeps (mintedStmts ss) c c' ∧ ∀ {ρ}, c'.subst.Holds ρ →
      StmtsTyped ρ (result.map (Ty.ground ρ)) c.subst.next (c.env.ground ρ) ss := by
  cases ss with
  | nil =>
    obtain ⟨-, rfl⟩ := pure_eq_ok.mp h
    exact ⟨.refl hs, fun _ => trivial⟩
  | cons s ss =>
    rw [checkStmts, bind_eq_ok] at h
    obtain ⟨_, c₁, h₁, h⟩ := h
    obtain ⟨hk₁, hst⟩ := checkStmt_spec hs h₁
    obtain ⟨hk₂, hss⟩ := checkStmts_spec hk₁.subst.wellFormed h
    refine ⟨hk₁.trans hk₂, fun {ρ} hρ => ⟨hst (hk₂.subst.holds hρ), ?_⟩⟩
    rw [← hk₁.env, ← hk₁.subst.next]
    exact hss hρ

end

/-! ### Functions -/

theorem declaredTypes_spec (hs : c.subst.WellFormed) {ds : List Decl} {ts : List Ty}
    (h : ds.mapM declaredType c = .ok (ts, c')) :
    Keeps (mintedDecls ds) c c' ∧ ∀ ρ, ts.map (Ty.ground ρ) = groundDecls ρ c.subst.next ds := by
  induction ds generalizing c ts with
  | nil =>
    obtain ⟨rfl, rfl⟩ := pure_eq_ok.mp h
    exact ⟨.refl hs, fun _ => rfl⟩
  | cons d ds ih =>
    simp only [List.mapM_cons, bind_eq_ok] at h
    obtain ⟨t, c₁, h₁, ts', c₂, h₂, h⟩ := h
    obtain ⟨rfl, rfl⟩ := pure_eq_ok.mp h
    obtain ⟨hk₁, ht⟩ := declaredType_spec hs h₁
    obtain ⟨hk₂, hts⟩ := ih hk₁.subst.wellFormed h₂
    rw [mintedDecls_cons]
    refine ⟨hk₁.trans hk₂, ?_⟩
    intro ρ
    rw [List.map_cons, groundDecls, ht, hts, hk₁.subst.next]

/-- Parameters are declared like variables, but their types are made before. -/
theorem declareParams_spec {ds : List Decl} {ts : List Ty} {f : Frame Ty}
    {fs : List (Frame Ty)} (hlen : ts.length = ds.length) (hf : c.env.frames = f :: fs)
    (h : declareParams ds ts c = .ok ((), c')) :
    c' = { c with env := ⟨f.declared ds ts :: fs⟩ } ∧ (declaredNames ds).Nodup ∧
      f.names.Disjoint (declaredNames ds) := by
  induction ds generalizing c f ts with
  | nil =>
    obtain ⟨-, rfl⟩ := pure_eq_ok.mp h
    exact ⟨by rw [Frame.declared_nil, ← hf], List.nodup_nil, List.disjoint_nil_right _⟩
  | cons d ds ih =>
    cases ts with
    | nil => cases hlen
    | cons t ts =>
      rw [declareParams, bind_eq_ok] at h
      obtain ⟨_, c₁, h₁, h⟩ := h
      obtain ⟨f₁, fs₁, hf₁, hn, rfl⟩ := declareAt_eq_ok h₁
      rw [hf] at hf₁
      obtain ⟨rfl, rfl⟩ := List.cons.inj hf₁
      obtain ⟨hc, hnd, hdis⟩ := ih (c := { c with env := ⟨((d.name.name, t) :: f) :: fs⟩ })
        (by simpa using hlen) rfl h
      refine ⟨by rw [hc, Frame.declared_cons], ?_, ?_⟩
      · exact List.nodup_cons.mpr ⟨fun hm => hdis List.mem_cons_self hm, hnd⟩
      · intro x hx hm
        rcases List.mem_cons.mp hm with rfl | hm
        · exact hn hx
        · exact hdis (List.mem_cons_of_mem _ hx) hm

theorem ground_declared (f : Frame Ty) (ds : List Decl) (ts : List Ty) (ρ : Valuation) :
    (f.declared ds ts).ground ρ = (f.ground ρ).declared ds (ts.map (Ty.ground ρ)) := by
  induction ds generalizing f ts with
  | nil => rfl
  | cons d ds ih =>
    cases ts with
    | nil => rfl
    | cons t ts => rw [Frame.declared_cons, ih, List.map_cons, Frame.declared_cons]; rfl

theorem length_of_ground {ds : List Decl} {ts : List Ty} {n : Nat}
    (h : ts.map (Ty.ground ρ) = groundDecls ρ n ds) : ts.length = ds.length := by
  simpa using congrArg List.length h

/-- The type of a function, whose parameters have been given types before. -/
theorem ground_function {f : FunDef} {n : Nat} {params : List Ty}
    (hp : params.map (Ty.ground ρ) = groundDecls ρ n f.params) :
    (Ty.func params (.var (n + mintedDecls f.params))).ground ρ = f.ground ρ n := by
  rw [Ty.ground_func, hp]
  rfl

/-- The frame of a function, whose parameters have been given types before. -/
theorem ground_frame {f : FunDef} {n : Nat} {params : List Ty} {F : Frame Ty}
    (hp : params.map (Ty.ground ρ) = groundDecls ρ n f.params)
    (hF : F.ground ρ = ((Frame.declared [] f.params params).ground ρ).declared
      f.body.declarations (groundDecls ρ (f.bodyFirst n) f.body.declarations)) :
    F.ground ρ = f.frame ρ n := by
  rw [hF, ground_declared, hp]
  rfl

/-- The body of a function is checked in a frame with the parameters. -/
theorem checkBody_spec (hs : c.subst.WellFormed) {f : FunDef} {n : Nat} {params : List Ty}
    {ret : Ty} (hlen : params.length = f.params.length)
    (hp : ∀ ρ, params.map (Ty.ground ρ) = groundDecls ρ n f.params)
    (hn : c.subst.next = f.bodyFirst n)
    (h : inFrame (do
      declareParams f.params params
      f.body.declarations.forM declareVar
      checkStmts (some ret) f.body.statements) c = .ok ((), c')) :
    Keeps (mintedDecls f.body.declarations + mintedStmts f.body.statements) c c' ∧
      ∀ {ρ}, c'.subst.Holds ρ → (declaredNames f.params).Nodup ∧
        (declaredNames f.body.declarations).Nodup ∧
        (declaredNames f.params).Disjoint (declaredNames f.body.declarations) ∧
        StmtsTyped ρ (some (ret.ground ρ)) (f.bodyFirst n + mintedDecls f.body.declarations)
          ⟨f.frame ρ n :: (c.env.ground ρ).frames⟩ f.body.statements := by
  refine inFrame_spec (fun {c₃} h => ?_) h
  simp only [bind_eq_ok] at h
  obtain ⟨_, c₁, h₁, _, c₂, h₂, h⟩ := h
  obtain ⟨rfl, hnd, -⟩ := declareParams_spec hlen c.env.frames_enter h₁
  obtain ⟨F, he, hd⟩ := declareVars_spec (by exact hs) rfl h₂
  obtain ⟨hk, hss⟩ := checkStmts_spec hd.subst.wellFormed h
  refine ⟨hd.subst.trans hk.subst, by rw [hk.env, he]; rfl, fun {ρ} hρ => ⟨hnd, hd.nodup, ?_, ?_⟩⟩
  · have hdis := hd.disjoint
    rw [Frame.names_declared _ hlen] at hdis
    exact fun x hx hm => hdis (List.mem_append_left _ (List.mem_reverse.mpr hx)) hm
  · have hF := hd.ground ρ
    have hss := hss hρ
    simp only [hn] at hF
    rw [he, hd.subst.next, hn] at hss
    rw [← ground_frame (hp ρ) hF]
    exact hss

/-- A function that has been checked among the globals `G` is well typed there,
and its name has been declared. -/
theorem checkFunction_spec (hs : c.subst.WellFormed) {G : Frame Ty} (hc : c.env = ⟨[G]⟩)
    {f : FunDef} {t : Ty} (h : checkFunction f c = .ok (t, c')) :
    ∃ G', c'.env = ⟨[G']⟩ ∧ c.subst.Extends f.minted c'.subst ∧
      (∀ ρ, G'.ground ρ = f.globals ρ c.subst.next (G.ground ρ)) ∧
      ∀ {ρ}, c'.subst.Holds ρ →
        f.Typed ρ c.subst.next (G.ground ρ) ∧ t.ground ρ = f.ground ρ c.subst.next := by
  -- types for the parameters, a variable for the result, the name, and then the body
  simp only [checkFunction, bind_eq_ok] at h
  obtain ⟨params, c₁, h₁, r, c₂, h₂, _, c₃, h₃, _, c₄, h₄, h⟩ := h
  obtain ⟨hk₁, hp⟩ := declaredTypes_spec hs h₁
  obtain ⟨hr, rfl⟩ := onSubst_eq_ok.mp h₂
  obtain rfl : r = c₁.subst.next := hr
  obtain ⟨G₀, fs, hG, hfresh, rfl⟩ := declareAt_eq_ok h₃
  simp only [hk₁.env, hc, List.cons.injEq] at hG
  obtain ⟨rfl, rfl⟩ := hG
  have hx₂ := hk₁.subst.trans hk₁.subst.wellFormed.extends_fresh
  have hself : ∀ ρ, (Ty.func params (.var c₁.subst.next)).ground ρ = f.ground ρ c.subst.next :=
    fun ρ => hk₁.subst.next ▸ ground_function (hp ρ)
  have hG' : ∀ ρ, Frame.ground ρ ((f.name.name, Ty.func params (.var c₁.subst.next)) :: G)
      = f.globals ρ c.subst.next (G.ground ρ) := by
    intro ρ
    rw [Frame.ground_cons, hself]
    rfl
  obtain ⟨hk₄, hbody⟩ := checkBody_spec (by exact hx₂.wellFormed)
    (length_of_ground (hp fun _ => .int)) hp hx₂.next h₄
  have hx₄ := hx₂.trans hk₄.subst
  obtain ⟨rfl, rfl⟩ := onSubst_eq_ok.mp h
  have happ := applied_apply hk₄.subst.wellFormed (Ty.func params (.var c₁.subst.next))
  refine ⟨_, hk₄.env, ?_, hG', fun {ρ} hρ => ⟨?_, (happ.ground hρ).trans (hself ρ)⟩⟩
  · rw [FunDef.minted, Nat.add_assoc]
    exact hx₄.trans happ.extends_
  · obtain ⟨hnd, hnd', hdis, hss⟩ := hbody (happ.extends_.holds hρ)
    refine ⟨by rwa [Frame.names_ground], hnd, hnd', hdis, ?_⟩
    rw [← hG' ρ, FunDef.result, ← hk₁.subst.next]
    exact hss

/-! ### Entries -/

theorem checkFunctions_spec (hs : c.subst.WellFormed) {G : Frame Ty} (hc : c.env = ⟨[G]⟩)
    {fs : List FunDef}
    (h : (fs.forM fun f => do let _ ← checkFunction f : CheckM Unit) c = .ok ((), c')) :
    ∃ G', c'.env = ⟨[G']⟩ ∧ c.subst.Extends (mintedFunctions fs) c'.subst ∧
      (∀ ρ, G'.ground ρ = globalsAfter ρ c.subst.next (G.ground ρ) fs) ∧
      ∀ {ρ}, c'.subst.Holds ρ → FunctionsTyped ρ c.subst.next (G.ground ρ) fs := by
  induction fs generalizing c G with
  | nil =>
    obtain ⟨-, rfl⟩ := pure_eq_ok.mp h
    exact ⟨G, hc, hs.extends_self, fun _ => rfl, fun _ => trivial⟩
  | cons f fs ih =>
    obtain ⟨_, c₁, h₀, h⟩ := bind_eq_ok.mp h
    obtain ⟨t, _, h₁, h₀⟩ := bind_eq_ok.mp h₀
    obtain ⟨-, rfl⟩ := pure_eq_ok.mp h₀
    obtain ⟨G₁, hc₁, hx₁, hG₁, hf⟩ := checkFunction_spec hs hc h₁
    obtain ⟨G', hc', hx', hG', hfs⟩ := ih hx₁.wellFormed hc₁ h
    refine ⟨G', hc', ?_, fun ρ => ?_, fun {ρ} hρ => ⟨(hf (hx'.holds hρ)).1, ?_⟩⟩
    · have := hx₁.trans hx'
      rwa [mintedFunctions]
    · rw [globalsAfter, ← hx₁.next, ← hG₁, hG']
    · rw [← hx₁.next, ← hG₁]
      exact hfs hρ

/-- What an accepted entry has led to: the globals `G` have become `G'`, and the
entry is well typed with the type `t` whatever the variables stand for. -/
structure Accepts (e : Entry) (t : Option Ty) (c c' : Checker) (G G' : Frame Ty) :
    Prop where
  env : c'.env = ⟨[G']⟩
  subst : c.subst.Extends e.minted c'.subst
  globals : ∀ ρ, G'.ground ρ = e.globals ρ c.subst.next (G.ground ρ)
  typed : ∀ {ρ}, c'.subst.Holds ρ →
    e.Typed ρ c.subst.next (G.ground ρ) (t.map (Ty.ground ρ))

theorem checkProgram_spec (hs : c.subst.WellFormed) {G : Frame Ty} (hc : c.env = ⟨[G]⟩)
    {p : Program} {t : Option Ty} (h : checkEntry (.program p) c = .ok (t, c')) :
    ∃ G', Accepts (.program p) t c c' G G' := by
  simp only [checkEntry, bind_eq_ok] at h
  obtain ⟨_, c₁, h₁, _, c₂, h₂, _, c₃, h₃, h⟩ := h
  obtain ⟨rfl, rfl⟩ := pure_eq_ok.mp h
  obtain ⟨G₁, hc₁, hx₁, hG₁, hfs⟩ := checkFunctions_spec hs hc h₁
  obtain ⟨G₂, hc₂, hd⟩ := declareVars_spec hx₁.wellFormed (by rw [hc₁]) h₂
  obtain ⟨hk₃, hmain⟩ := checkStmts_spec hd.subst.wellFormed h₃
  have hG₂ : ∀ ρ, G₂.ground ρ = (Entry.program p).globals ρ c.subst.next (G.ground ρ) := by
    intro ρ
    rw [hd.ground, hG₁, hx₁.next]
    rfl
  refine ⟨G₂, hk₃.env.trans hc₂, (hx₁.trans hd.subst).trans hk₃.subst, hG₂, ?_⟩
  intro ρ hρ
  refine ⟨rfl, hfs (hd.subst.holds (hk₃.subst.holds hρ)), hd.nodup, ?_, ?_⟩
  · rw [← hG₁, Frame.names_ground]
    exact hd.disjoint
  · have hmain := hmain hρ
    rw [hc₂, hd.subst.next, hx₁.next] at hmain
    rw [← hG₂]
    exact hmain

theorem checkEntry_spec (hs : c.subst.WellFormed) {G : Frame Ty} (hc : c.env = ⟨[G]⟩)
    {e : Entry} {t : Option Ty} (h : checkEntry e c = .ok (t, c')) :
    ∃ G', Accepts e t c c' G G' := by
  have hground : ∀ ρ, c.env.ground ρ = ⟨[G.ground ρ]⟩ := fun ρ => by rw [hc]; rfl
  cases e with
  | program p => exact checkProgram_spec hs hc h
  | function f =>
    rw [checkEntry, bind_eq_ok] at h
    obtain ⟨t, c₁, h₁, h⟩ := h
    obtain ⟨rfl, rfl⟩ := pure_eq_ok.mp h
    obtain ⟨G', hc', hx, hG, hf⟩ := checkFunction_spec hs hc h₁
    exact ⟨G', hc', hx, hG, fun hρ => ⟨congrArg some (hf hρ).2, (hf hρ).1⟩⟩
  | declaration d =>
    rw [checkEntry, bind_eq_ok] at h
    obtain ⟨_, c₁, h₁, h⟩ := h
    obtain ⟨rfl, rfl⟩ := pure_eq_ok.mp h
    have h₁ : [d].forM declareVar c = .ok ((), c₁) := bind_eq_ok.mpr ⟨(), c₁, h₁, rfl⟩
    obtain ⟨G', hc', hd⟩ := declareVars_spec hs (by rw [hc]) h₁
    refine ⟨G', hc', hd.subst, hd.ground, fun {ρ} _ => ⟨rfl, fun hm => ?_⟩⟩
    rw [Frame.names_ground] at hm
    exact hd.disjoint hm List.mem_cons_self
  | statement s =>
    rw [checkEntry, bind_eq_ok] at h
    obtain ⟨_, c₁, h₁, h⟩ := h
    obtain ⟨rfl, rfl⟩ := pure_eq_ok.mp h
    obtain ⟨hk, hst⟩ := checkStmt_spec hs h₁
    exact ⟨G, hk.env.trans hc, hk.subst, fun _ => rfl, fun hρ => ⟨rfl, hground _ ▸ hst hρ⟩⟩
  | expression e =>
    rw [checkEntry, bind_eq_ok] at h
    obtain ⟨u, c₁, h₁, h⟩ := h
    obtain ⟨rfl, rfl⟩ := pure_eq_ok.mp h
    obtain ⟨hk, he⟩ := infer_spec hs h₁
    exact ⟨G, hk.env.trans hc, hk.subst, fun _ => rfl,
      fun {ρ} hρ => ⟨u.ground ρ, rfl, hground _ ▸ he hρ⟩⟩

/-- The check of an entry with its type resolved. -/
def checkResolved (e : Entry) : CheckM (Option Ty) := do
  match ← checkEntry e with
  | some type => return some (← onSubst (Subst.apply type))
  | none => return none

theorem run_eq (c : Checker) (e : Entry) : run c e = match checkResolved e c with
    | .ok (type, d) => (.ok type, d)
    | .error err => (.error err, c) := rfl

theorem run_ok_iff {e : Entry} {t : Option Ty} :
    c.run e = (.ok t, c') ↔ checkResolved e c = .ok (t, c') := by
  rw [run_eq]
  rcases checkResolved e c with err | ⟨u, d⟩ <;> simp

theorem run_error_iff {e : Entry} {err : TypeError} :
    c.run e = (.error err, c') ↔ checkResolved e c = .error err ∧ c' = c := by
  rw [run_eq]
  rcases checkResolved e c with err' | ⟨u, d⟩ <;> simp [eq_comm]

/-- An accepted entry has been checked, and its type has been resolved. -/
theorem run_eq_ok {e : Entry} {t : Option Ty} (h : c.run e = (.ok t, c')) :
    ∃ u c₁, checkEntry e c = .ok (u, c₁) ∧ c'.env = c₁.env ∧
      ((u = none ∧ t = none ∧ c'.subst = c₁.subst) ∨ ∃ type, u = some type ∧
        t = some (apply type c₁.subst).1 ∧ c'.subst = (apply type c₁.subst).2) := by
  obtain ⟨u, c₁, h₁, h₂⟩ := bind_eq_ok.mp (run_ok_iff.mp h)
  refine ⟨u, c₁, h₁, ?_⟩
  cases u with
  | none =>
    obtain ⟨rfl, rfl⟩ := pure_eq_ok.mp h₂
    exact ⟨rfl, Or.inl ⟨rfl, rfl, rfl⟩⟩
  | some u =>
    simp only [bind_eq_ok] at h₂
    obtain ⟨_, _, h₃, h₂⟩ := h₂
    obtain ⟨rfl, rfl⟩ := onSubst_eq_ok.mp h₃
    obtain ⟨rfl, rfl⟩ := pure_eq_ok.mp h₂
    exact ⟨rfl, Or.inr ⟨u, rfl, rfl, rfl⟩⟩

/-- An entry that is accepted is well typed under every valuation that the
substitution holds of afterwards. -/
theorem run_spec (hs : c.subst.WellFormed) {G : Frame Ty} (hc : c.env = ⟨[G]⟩) {e : Entry}
    {t : Option Ty} (h : c.run e = (.ok t, c')) : ∃ G', Accepts e t c c' G G' := by
  obtain ⟨u, c₁, h₁, he, ht⟩ := run_eq_ok h
  obtain ⟨G', ha⟩ := checkEntry_spec hs hc h₁
  rcases ht with ⟨rfl, rfl, hs'⟩ | ⟨type, rfl, rfl, hs'⟩
  · exact ⟨G', he.trans ha.env, hs' ▸ ha.subst, ha.globals, fun hρ => ha.typed (hs' ▸ hρ)⟩
  · have happ := applied_apply ha.subst.wellFormed type
    refine ⟨G', he.trans ha.env, hs' ▸ ha.subst.trans happ.extends_, ha.globals, ?_⟩
    intro ρ hρ
    rw [hs'] at hρ
    rw [Option.map_some, happ.ground hρ]
    exact ha.typed (happ.extends_.holds hρ)

/-- A variable that is reported as a type is free. -/
theorem run_free (hs : c.subst.WellFormed) {G : Frame Ty} (hc : c.env = ⟨[G]⟩) {e : Entry}
    {n : Nat} (h : c.run e = (.ok (some (.var n)), c')) : c'.subst.link? n = none := by
  obtain ⟨u, c₁, h₁, -, ht⟩ := run_eq_ok h
  obtain ⟨G', ha⟩ := checkEntry_spec hs hc h₁
  rcases ht with ⟨-, ht, -⟩ | ⟨type, -, ht, hs'⟩
  · cases ht
  · rw [hs']
    exact apply_free ha.subst.wellFormed (Option.some.inj ht).symm

theorem run_eq_error {e : Entry} {err : TypeError} (h : c.run e = (.error err, c')) :
    c' = c :=
  (run_error_iff.mp h).2

end Implet.Checker
