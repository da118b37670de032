/-
Implet/Proofs/Rechecking.lean

Checking an expression again changes nothing.  An expression that has been
accepted is accepted once more, with the same type, and the checker is as it was
but for the length of its chains (`Checker.Reachable.run_again`).

The first check may have linked and marked variables half way, which other parts
of the expression mention as well.  But in the end all that the typing rules ask
for is known: the expression is well typed under every valuation that is left.
And an operation that is asked for what is known has nothing to do
(`Subst.Idles`).  Types that have the same value under all valuations expand to
the same type, so unifying them goes down both at once and meets a free variable
only where the other side has the same one; and a free variable that has a base
type under all valuations is marked.
-/
import Implet.Proofs.CheckRoots
import Implet.Proofs.Principal
import Implet.Proofs.Recursion

namespace Implet

namespace Subst

variable {α β : Type} {s s' : Subst} {a b : Ty}

/-! ### What is known -/

/-- Two types expand to the same exactly if they are known to have the same value. -/
theorem WellFormed.expand_eq_iff (hs : s.WellFormed) :
    s.expand a = s.expand b ↔ ∀ ρ, s.Holds ρ → a.ground ρ = b.ground ρ := by
  constructor
  · intro h ρ hρ
    rw [← ground_expand hρ a, h, ground_expand hρ]
  · intro h
    apply hs.eq_of_ground (hs.free_expand a) (hs.free_expand b)
    intro ρ hρ
    rw [ground_expand hρ, ground_expand hρ, h ρ hρ]

/-- A free variable of which it is not known that it has a base type may be a
function. -/
theorem WellFormed.exists_func (hs : s.WellFormed) {n : Nat} (hn : s.link? n = none)
    (hb : n ∉ s.baseOnly) : ∃ ρ, s.Holds ρ ∧ ρ n = .func [] .int := by
  let σ : Valuation := fun m => if m = n then .func [] .int else .int
  refine ⟨s.valuation σ, holds_valuation hs fun m hm _ => ?_, ?_⟩
  · have hne : m ≠ n := fun h => hb (h ▸ hm)
    simp [σ, hne, Ground.IsBase]
  · rw [valuation_free σ hn]
    exact if_pos rfl

/-- A free variable may have a base type. -/
theorem WellFormed.exists_int (hs : s.WellFormed) {n : Nat} (hn : s.link? n = none) :
    ∃ ρ, s.Holds ρ ∧ ρ n = .int :=
  ⟨s.valuation fun _ => .int, holds_valuation hs fun _ _ _ => trivial, valuation_free _ hn⟩

/-! ### Roots -/

/-- A root that is no function type is all that it expands to. -/
theorem expand_of_root {e : Ty} (hfree : ∀ m, e = .var m → s.link? m = none)
    (hne : ∀ params ret, e ≠ .func params ret) : s.expand e = e := by
  cases e with
  | int | bool => exact WellFormed.expand_eq_subst _
  | var m => exact WellFormed.expand_free (hfree m rfl)
  | func params ret => exact absurd rfl (hne params ret)

/-- Roots that expand to the same are the same, or function types whose parts
expand to the same. -/
theorem roots_of_expand_eq {e f : Ty} (he : ∀ m, e = .var m → s.link? m = none)
    (hf : ∀ m, f = .var m → s.link? m = none) (h : s.expand e = s.expand f) :
    (e = f ∧ ∀ params ret, e ≠ .func params ret) ∨
      ∃ params ret params' ret', e = .func params ret ∧ f = .func params' ret' ∧
        params.map s.expand = params'.map s.expand ∧ s.expand ret = s.expand ret' := by
  cases e with
  | int | bool | var =>
    rw [expand_of_root he nofun] at h
    cases f with
    | int | bool | var =>
      rw [expand_of_root hf nofun] at h
      exact Or.inl ⟨h, nofun⟩
    | func =>
      rw [expand_func] at h
      cases h
  | func params ret =>
    rw [expand_func] at h
    cases f with
    | int | bool | var =>
      rw [expand_of_root hf nofun] at h
      cases h
    | func params' ret' =>
      rw [expand_func] at h
      exact Or.inr ⟨params, ret, params', ret', rfl, rfl, Ty.func.inj h⟩

/-! ### Operations with nothing to do -/

/-- The operation has nothing to do: it comes to `r`, and all types keep their roots. -/
def Idles (x : UnifyM α) (r : α) (s : Subst) : Prop :=
  ∃ s', x.run s = (.ok r, s') ∧ s.SameRoots s'

theorem idles_pure (hs : s.WellFormed) (r : α) : Idles (pure r) r s :=
  ⟨s, rfl, hs.sameRoots_self⟩

theorem Idles.bind {x : UnifyM α} {f : α → UnifyM β} {r : α} {q : β} (hx : Idles x r s)
    (hf : ∀ ⦃s₁⦄, s.SameRoots s₁ → Idles (f r) q s₁) : Idles (x >>= f) q s := by
  obtain ⟨s₁, h₁, hs₁⟩ := hx
  obtain ⟨s₂, h₂, hs₂⟩ := hf hs₁
  exact ⟨s₂, bind_eq_ok.mpr ⟨r, s₁, h₁, h₂⟩, hs₁.trans hs₂⟩

theorem idles_resolve (hs : s.WellFormed) (t : Ty) :
    Idles (liftM (resolve t) : UnifyM Ty) (s.root t) s :=
  ⟨_, lift_eq_ok.mpr (resolve_eq t s), hs.sameRoots_relink t⟩

theorem Idles.widening {x : UnifyM Unit} (h : Idles x () s) (expected found : Ty) :
    Idles (widening expected found x) () s := by
  obtain ⟨s', hx, hs'⟩ := h
  refine ⟨s', ?_, hs'⟩
  rw [Subst.widening, run_tryCatch, hx]

theorem idles_forEachPair {action : Ty → Ty → UnifyM Unit}
    (hact : ∀ {s : Subst} a b, s.WellFormed → s.expand a = s.expand b → Idles (action a b) () s)
    (hs : s.WellFormed) {as bs : List Ty} (h : as.map s.expand = bs.map s.expand) :
    Idles (forEachPair action as bs) () s := by
  induction as generalizing bs s with
  | nil => exact idles_pure hs ()
  | cons a as ih =>
    cases bs with
    | nil => cases h
    | cons b bs =>
      obtain ⟨hab, hrest⟩ := List.cons.inj h
      refine (hact a b hs hab).bind fun s₁ hs₁ => ih hs₁.right ?_
      rwa [funext hs₁.expand]

/-- Unifying types that expand to the same has nothing to do, however deep it goes. -/
theorem idles_unifyWithin (hs : s.WellFormed) (depth : Nat)
    (h : s.expand a = s.expand b) :
    Idles (unifyWithin depth a b) () s := by
  induction depth generalizing a b s with
  | zero => exact idles_pure hs ()
  | succ depth ih =>
    rw [unifyWithin]
    refine (idles_resolve hs a).bind fun s₁ hs₁ => ?_
    refine (idles_resolve hs₁.right b).bind fun s₂ hs₂ => ?_
    have hx := hs₁.trans hs₂
    have hroots : s₂.expand (s.root a) = s₂.expand (s₁.root b) := by
      rw [hx.expand, hs₁.root, hx.expand, hs.expand_root, hs.expand_root, h]
    have ha : ∀ m, s.root a = .var m → s₂.link? m = none := fun m hm =>
      (hx.free m).mpr (hs.root_free hm)
    have hb : ∀ m, s₁.root b = .var m → s₂.link? m = none := fun m hm =>
      (hs₂.free m).mpr (hs₁.right.root_free hm)
    -- from here on only the two roots matter
    generalize s.root a = e at hroots ha
    generalize s₁.root b = f at hroots hb
    rcases roots_of_expand_eq ha hb hroots with ⟨rfl, hne⟩ |
      ⟨params, ret, params', ret', rfl, rfl, hparams, hret⟩
    · cases e with
      | int | bool => exact idles_pure hs₂.right ()
      | var m =>
        simp only [if_true]
        exact idles_pure hs₂.right ()
      | func params ret => exact absurd rfl (hne params ret)
    · have hlen : params.length = params'.length := by simpa using congrArg List.length hparams
      simp only [if_pos hlen]
      refine (idles_forEachPair (fun p q hs h => (ih hs h).widening _ _) hs₂.right hparams).bind
        fun s₃ hs₃ => (ih hs₃.right ?_).widening _ _
      rw [hs₃.expand, hs₃.expand, hret]

theorem idles_unify (hs : s.WellFormed) (h : s.expand a = s.expand b) :
    Idles (unify a b) () s :=
  idles_unifyWithin hs _ h

/-- Requiring a base type has nothing to do if the type is known to be one. -/
theorem idles_requireBase (hs : s.WellFormed) (h : ∀ ρ, s.Holds ρ → (a.ground ρ).IsBase) :
    Idles (requireBase a) () s := by
  refine (idles_resolve hs a).bind fun s₁ hs₁ => ?_
  have hroot : ∀ ρ, s.Holds ρ → ((s.root a).ground ρ).IsBase := fun ρ hρ => by
    rw [ground_root hρ]
    exact h ρ hρ
  have hfree : ∀ n, s.root a = .var n → s.link? n = none := fun n => hs.root_free
  generalize s.root a = u at hroot hfree
  cases u with
  | int | bool => exact idles_pure hs₁.right ()
  | var n =>
    -- a free variable without a mark could be a function
    have hmark : n ∈ s.baseOnly := by
      by_contra hn
      obtain ⟨ρ, hρ, hfunc⟩ := hs.exists_func (hfree n rfl) hn
      have hbase := hroot ρ hρ
      rw [Ty.ground_var, hfunc] at hbase
      exact hbase
    refine ⟨_, modify_eq_ok.mpr rfl, ?_⟩
    have hsame : s₁.baseOnly.insert n = s₁.baseOnly :=
      List.insert_of_mem (hs₁.baseOnly ▸ hmark)
    rw [hsame]
    exact hs₁.right.sameRoots_self
  | func params ret =>
    obtain ⟨ρ, hρ⟩ := hs.exists_holds
    exact (hroot ρ hρ).elim

end Subst

namespace Checker

open Subst

variable {c c' c₁ c₂ : Checker} {ρ : Valuation}

/-! ### Steps with nothing to do -/

theorem Alike.holds_iff (h : Alike c c') : c'.subst.Holds ρ ↔ c.subst.Holds ρ :=
  h.subst.shortens.holds

theorem unifyAt_idle (hs : c.subst.WellFormed) {a b : Ty}
    (h : ∀ ρ, c.subst.Holds ρ → a.ground ρ = b.ground ρ) (span : Span) (note : String) :
    ∃ c', unifyAt span note a b c = .ok ((), c') ∧ Alike c c' := by
  obtain ⟨s', hrun, hs'⟩ := idles_unify hs (hs.expand_eq_iff.mpr h)
  exact ⟨_, unifyAt_of_ok (onSubstAt_of_ok hrun), rfl, hs'⟩

theorem requireBaseAt_idle (hs : c.subst.WellFormed) {t : Ty}
    (h : ∀ ρ, c.subst.Holds ρ → (t.ground ρ).IsBase) (span : Span) :
    ∃ c', onSubstAt span (requireBase t) c = .ok ((), c') ∧ Alike c c' := by
  obtain ⟨s', hrun, hs'⟩ := idles_requireBase hs h
  exact ⟨_, onSubstAt_of_ok hrun, rfl, hs'⟩

/-- What is known to be a function is one at its root. -/
theorem exists_root_func (hs : c.subst.WellFormed) {t : Ty}
    (h : ∀ ρ, c.subst.Holds ρ → ∃ gs g, t.ground ρ = .func gs g) :
    ∃ params ret, c.subst.root t = .func params ret := by
  have hroot : ∀ ρ, c.subst.Holds ρ → ∃ gs g, (c.subst.root t).ground ρ = .func gs g :=
    fun ρ hρ => by
      rw [ground_root hρ]
      exact h ρ hρ
  have hfree : ∀ n, c.subst.root t = .var n → c.subst.link? n = none := fun n => hs.root_free
  generalize c.subst.root t = u at hroot hfree
  cases u with
  | func params ret => exact ⟨params, ret, rfl⟩
  | int | bool =>
    obtain ⟨ρ, hρ⟩ := hs.exists_holds
    obtain ⟨_, _, hg⟩ := hroot ρ hρ
    cases hg
  | var n =>
    obtain ⟨ρ, hρ, hint⟩ := hs.exists_int (hfree n rfl)
    obtain ⟨_, _, hg⟩ := hroot ρ hρ
    cases hint.symm.trans hg

/-! ### Expressions -/

/-- The type inferred for an expression without a change is the one that it has. -/
theorem ground_infer_idle (hs : c.subst.WellFormed) {e : Expr} {t : Ty} {g : Ground}
    (h : infer e c = .ok (t, c')) (ha : Alike c c') (hρ : c.subst.Holds ρ)
    (hg : e.HasType (c.env.ground ρ) g) : t.ground ρ = g :=
  ground_infer hs h (ha.holds_iff.mpr hρ) hg

/-- With operands that change nothing, neither does an operator. -/
theorem infer_binary_idle (hs : c.subst.WellFormed) {op : BinOp} {left right : Expr}
    {span : Span} {t₁ t₂ : Ty} (h : ∀ ρ, c.subst.Holds ρ →
      ∃ g, (Expr.binary op left right span).HasType (c.env.ground ρ) g)
    (h₁ : infer left c = .ok (t₁, c₁)) (ha₁ : Alike c c₁)
    (h₂ : infer right c₁ = .ok (t₂, c₂)) (ha₂ : Alike c₁ c₂) :
    ∃ t c', infer (.binary op left right span) c = .ok (t, c') ∧ Alike c c' := by
  have ha := ha₁.trans ha₂
  -- it is known that both operands have the type that the operator takes
  have hoperands : ∀ ρ, c₂.subst.Holds ρ →
      ∃ g a, op.HasTypes a g ∧ t₁.ground ρ = a ∧ t₂.ground ρ = a := by
    intro ρ hρ
    obtain ⟨g, a, hop, hl, hr⟩ := h ρ (ha.holds_iff.mp hρ)
    rw [← ha₁.env] at hr
    exact ⟨g, a, hop, ground_infer_idle hs h₁ ha₁ (ha.holds_iff.mp hρ) hl,
      ground_infer_idle ha₁.subst.right h₂ ha₂ (ha₂.holds_iff.mp hρ) hr⟩
  rcases hop : operatorTypes op with - | ⟨operand, result⟩
  · obtain rfl := eq_of_operatorTypes hop
    have heq : ∀ ρ, c₂.subst.Holds ρ → t₁.ground ρ = t₂.ground ρ := by
      intro ρ hρ
      obtain ⟨g, a, -, ht₁, ht₂⟩ := hoperands ρ hρ
      rw [ht₁, ht₂]
    have hbase : ∀ ρ, c₂.subst.Holds ρ → (t₁.ground ρ).IsBase := by
      intro ρ hρ
      obtain ⟨g, a, hop, ht₁, -⟩ := hoperands ρ hρ
      exact ht₁ ▸ hop.1
    obtain ⟨c₃, h₃, ha₃⟩ := unifyAt_idle ha₂.subst.right heq span
      "both sides of '==' must have the same type"
    obtain ⟨c₄, h₄, ha₄⟩ := requireBaseAt_idle ha₃.subst.right
      (fun ρ hρ => hbase ρ (ha₃.holds_iff.mp hρ)) left.span
    refine ⟨.bool, c₄, ?_, (ha.trans ha₃).trans ha₄⟩
    simp only [infer, bind_eq_ok, hop]
    exact ⟨t₁, c₁, h₁, t₂, c₂, h₂, (), c₃, h₃, (), c₄, h₄, rfl⟩
  · have hask : ∀ ρ, c₂.subst.Holds ρ →
        operand.ground ρ = t₁.ground ρ ∧ operand.ground ρ = t₂.ground ρ := by
      intro ρ hρ
      obtain ⟨g, a, hop', ht₁, ht₂⟩ := hoperands ρ hρ
      have ha := HasTypes.of_operatorTypes (ρ := ρ) hop hop'
      exact ⟨ha.trans ht₁.symm, ha.trans ht₂.symm⟩
    obtain ⟨c₃, h₃, ha₃⟩ := unifyAt_idle ha₂.subst.right (fun ρ hρ => (hask ρ hρ).1)
      left.span ("in operands of '" ++ op.text ++ "'")
    obtain ⟨c₄, h₄, ha₄⟩ := unifyAt_idle ha₃.subst.right
      (fun ρ hρ => (hask ρ (ha₃.holds_iff.mp hρ)).2)
      right.span ("in operands of '" ++ op.text ++ "'")
    refine ⟨result, c₄, ?_, (ha.trans ha₃).trans ha₄⟩
    simp only [infer, bind_eq_ok, hop]
    exact ⟨t₁, c₁, h₁, t₂, c₂, h₂, (), c₃, h₃, (), c₄, h₄, rfl⟩

/-- In a call that is known to be well typed, the callee is a function at its
root, and the arguments are known to have the types of its parameters. -/
theorem exists_callee (hs : c.subst.WellFormed) {func : Ident} {args : List Expr}
    {span : Span}
    (h : ∀ ρ, c.subst.Holds ρ → ∃ g, (Expr.call func args span).HasType (c.env.ground ρ) g) :
    ∃ callee params ret, c.env.get? func.name = some callee ∧
      c.subst.root callee = .func params ret ∧ params.length = args.length ∧
      ∀ ρ, c.subst.Holds ρ → HaveTypes (c.env.ground ρ) args (params.map (Ty.ground ρ)) := by
  obtain ⟨ρ₀, hρ₀⟩ := hs.exists_holds
  obtain ⟨g₀, gs₀, hf₀, -⟩ := h ρ₀ hρ₀
  obtain ⟨callee, hcallee, -⟩ := exists_of_get?_ground hf₀
  have htyped : ∀ ρ, c.subst.Holds ρ → ∃ gs g, callee.ground ρ = .func gs g ∧
      HaveTypes (c.env.ground ρ) args gs := by
    intro ρ hρ
    obtain ⟨g, gs, hf, hargs⟩ := h ρ hρ
    obtain ⟨t, ht, hg⟩ := exists_of_get?_ground hf
    obtain rfl := Option.some.inj (hcallee.symm.trans ht)
    exact ⟨gs, g, hg, hargs⟩
  obtain ⟨params, ret, hroot⟩ := exists_root_func hs fun ρ hρ => by
    obtain ⟨gs, g, hg, -⟩ := htyped ρ hρ
    exact ⟨gs, g, hg⟩
  have hargs : ∀ ρ, c.subst.Holds ρ →
      HaveTypes (c.env.ground ρ) args (params.map (Ty.ground ρ)) := by
    intro ρ hρ
    obtain ⟨gs, g, hg, hargs⟩ := htyped ρ hρ
    rw [← ground_root hρ, hroot, Ty.ground_func] at hg
    rwa [(Ground.func.inj hg).1]
  exact ⟨callee, params, ret, hcallee, hroot, by simpa using (hargs ρ₀ hρ₀).length_eq, hargs⟩

mutual

/-- An expression that is known to be well typed is accepted, and the check
changes nothing. -/
theorem infer_idle {c : Checker} (hs : c.subst.WellFormed) {e : Expr}
    (h : ∀ ρ, c.subst.Holds ρ → ∃ g, e.HasType (c.env.ground ρ) g) :
    ∃ t c', infer e c = .ok (t, c') ∧ Alike c c' := by
  cases e with
  | integer | boolean => exact ⟨_, c, rfl, alike_self hs⟩
  | ident id =>
    obtain ⟨ρ, hρ⟩ := hs.exists_holds
    obtain ⟨g, hg⟩ := h ρ hρ
    obtain ⟨t, ht, -⟩ := exists_of_get?_ground hg
    exact ⟨t, c, typeOfName_of_get? ht, alike_self hs⟩
  | binary op left right span =>
    have hleft : ∀ ρ, c.subst.Holds ρ → ∃ g, left.HasType (c.env.ground ρ) g := by
      intro ρ hρ
      obtain ⟨g, a, -, hl, -⟩ := h ρ hρ
      exact ⟨a, hl⟩
    have hright : ∀ ρ, c.subst.Holds ρ → ∃ g, right.HasType (c.env.ground ρ) g := by
      intro ρ hρ
      obtain ⟨g, a, -, -, hr⟩ := h ρ hρ
      exact ⟨a, hr⟩
    obtain ⟨t₁, c₁, h₁, ha₁⟩ := infer_idle hs hleft
    obtain ⟨t₂, c₂, h₂, ha₂⟩ := infer_idle ha₁.subst.right
      fun ρ hρ => ha₁.env ▸ hright ρ (ha₁.holds_iff.mp hρ)
    exact infer_binary_idle hs h h₁ ha₁ h₂ ha₂
  | call func args span =>
    obtain ⟨callee, params, ret, hcallee, hroot, hlen, hargs⟩ := exists_callee hs h
    have ha₁ : Alike c { c with subst := (resolve callee c.subst).2 } :=
      ⟨rfl, hs.sameRoots_relink callee⟩
    obtain ⟨c₂, h₂, ha₂⟩ := checkArguments_idle ha₁.subst.right func.name 1
      fun ρ hρ => hargs ρ (ha₁.holds_iff.mp hρ)
    refine ⟨ret, c₂, ?_, ha₁.trans ha₂⟩
    simp only [infer, bind_eq_ok]
    refine ⟨callee, c, typeOfName_of_get? hcallee, _, _, onSubst_eq_ok.mpr ⟨hroot.symm, rfl⟩, ?_⟩
    simp only [if_pos hlen]
    exact bind_eq_ok.mpr ⟨(), c₂, h₂, rfl⟩

/-- So are arguments that are known to have the types of the parameters. -/
theorem checkArguments_idle {c : Checker} (hs : c.subst.WellFormed) (name : String)
    (index : Nat) {params : List Ty} {args : List Expr} (h : ∀ ρ, c.subst.Holds ρ →
      HaveTypes (c.env.ground ρ) args (params.map (Ty.ground ρ))) :
    ∃ c', checkArguments name index params args c = .ok ((), c') ∧ Alike c c' := by
  cases args with
  | nil =>
    obtain ⟨ρ, hρ⟩ := hs.exists_holds
    obtain rfl := List.map_eq_nil_iff.mp (h ρ hρ)
    exact ⟨c, rfl, alike_self hs⟩
  | cons arg args =>
    cases params with
    | nil =>
      obtain ⟨ρ, hρ⟩ := hs.exists_holds
      obtain ⟨_, _, hnil, -⟩ := h ρ hρ
      cases hnil
    | cons param params =>
      have hargs : ∀ ρ, c.subst.Holds ρ → arg.HasType (c.env.ground ρ) (param.ground ρ) ∧
          HaveTypes (c.env.ground ρ) args (params.map (Ty.ground ρ)) := by
        intro ρ hρ
        obtain ⟨g, gs, hgs, harg, hargs⟩ := h ρ hρ
        obtain ⟨rfl, rfl⟩ := List.cons.inj hgs
        exact ⟨harg, hargs⟩
      obtain ⟨t, c₁, h₁, ha₁⟩ := infer_idle hs fun ρ hρ => ⟨_, (hargs ρ hρ).1⟩
      have heq : ∀ ρ, c₁.subst.Holds ρ → param.ground ρ = t.ground ρ := by
        intro ρ hρ
        have hρ := ha₁.holds_iff.mp hρ
        exact (ground_infer_idle hs h₁ ha₁ hρ (hargs ρ hρ).1).symm
      obtain ⟨c₂, h₂, ha₂⟩ := unifyAt_idle ha₁.subst.right heq arg.span
        ("in argument " ++ toString index ++ " of call to '" ++ name ++ "'")
      have ha := ha₁.trans ha₂
      obtain ⟨c₃, h₃, ha₃⟩ := checkArguments_idle ha₂.subst.right name (index + 1)
        fun ρ hρ => ha.env ▸ (hargs ρ (ha.holds_iff.mp hρ)).2
      refine ⟨c₃, ?_, ha.trans ha₃⟩
      simp only [checkArguments, bind_eq_ok]
      exact ⟨t, c₁, h₁, (), c₂, h₂, h₃⟩

end

/-! ### Entries -/

/-- No linked variable is in a type that is reported. -/
theorem Rest.free_of_run (h : c.Rest) {e : Entry} {type : Ty}
    (hr : c.run e = (.ok (some type), c')) : c'.subst.Free type := by
  obtain ⟨u, d, hd, -, ht⟩ := run_eq_ok hr
  obtain ⟨G, ha⟩ := checkEntry_spec h.subst h.env hd
  have hs := ha.subst.wellFormed
  rcases ht with ⟨-, ht, -⟩ | ⟨u, -, ht, hsubst⟩
  · cases ht
  · rw [Option.some.inj ht, hsubst, (hs.shortens_apply u).free_iff, hs.apply_eq_expand]
    exact hs.free_expand u

/-- An expression with a known type is accepted with it, and the check changes
nothing. -/
theorem Rest.run_idle (h : c.Rest) {e : Expr} {type : Ty} (hfree : c.subst.Free type)
    (htyped : ∀ ρ, c.subst.Holds ρ → e.HasType (c.env.ground ρ) (type.ground ρ)) :
    ∃ c', c.run (.expression e) = (.ok (some type), c') ∧ Alike c c' := by
  obtain ⟨u, d, hd, had⟩ := infer_idle h.subst fun ρ hρ => ⟨_, htyped ρ hρ⟩
  have happly : (apply u d.subst).1 = type := by
    rw [had.subst.right.apply_eq_expand, had.subst.expand]
    apply h.subst.eq_of_ground (h.subst.free_expand u) hfree
    intro ρ hρ
    rw [ground_expand hρ]
    exact ground_infer_idle h.subst hd had hρ (htyped ρ hρ)
  have hentry : checkEntry (.expression e) c = .ok (some u, d) :=
    bind_eq_ok.mpr ⟨u, d, hd, rfl⟩
  refine ⟨{ d with subst := (apply u d.subst).2 }, run_ok_iff.mpr ?_,
    had.trans ⟨rfl, had.subst.right.sameRoots_apply u⟩⟩
  refine bind_eq_ok.mpr ⟨some u, d, hentry, bind_eq_ok.mpr ⟨type, _, ?_, rfl⟩⟩
  exact onSubst_eq_ok.mpr ⟨happly.symm, rfl⟩

/-- An expression that has been accepted is accepted once more, with the same
type, and the checker is as it was but for the length of its chains: the globals
have the same types, and the same variables are linked and marked and come
next. -/
theorem Reachable.run_again (h : c.Reachable) {e : Expr} {t : Option Ty}
    (hr : c.run (.expression e) = (.ok t, c₁)) :
    ∃ c₂, c₁.run (.expression e) = (.ok t, c₂) ∧ Alike c₁ c₂ ∧
      (Checker.globals c₂).1 = (Checker.globals c₁).1 ∧
      (∀ n, c₂.subst.isBound n = c₁.subst.isBound n) ∧
      c₂.subst.baseOnly = c₁.subst.baseOnly ∧ c₂.subst.next = c₁.subst.next := by
  obtain ⟨hrest, ha⟩ := h.rest.run hr
  -- what has been accepted is well typed under all valuations that are left
  have htyped : ∀ ρ, c₁.subst.Holds ρ →
      ∃ g, t.map (Ty.ground ρ) = some g ∧ e.HasType (c₁.env.ground ρ) g := by
    intro ρ hρ
    obtain ⟨g, hg, he⟩ := ha.typed hρ
    have hglobals : c₁.frame.ground ρ = c.frame.ground ρ := ha.globals ρ
    rw [← hglobals] at he
    rw [hrest.env]
    exact ⟨g, hg, he⟩
  have hsome : ∃ type, t = some type := by
    obtain ⟨ρ, hρ⟩ := hrest.subst.exists_holds
    obtain ⟨g, hg, -⟩ := htyped ρ hρ
    obtain ⟨type, rfl, -⟩ := Option.map_eq_some_iff.mp hg
    exact ⟨type, rfl⟩
  obtain ⟨type, rfl⟩ := hsome
  obtain ⟨c₂, hr₂, ha₂⟩ := hrest.run_idle (h.rest.free_of_run hr) fun ρ hρ => by
    obtain ⟨g, hg, he⟩ := htyped ρ hρ
    rwa [Option.some.inj hg]
  exact ⟨c₂, hr₂, ha₂, ha₂.globals.1, ha₂.subst.isBound, ha₂.subst.baseOnly, ha₂.subst.next⟩

/-- Two variables of which nothing is known, and a function with a result like
its first argument. -/
def undecided : List String :=
  ["var x;", "var y;", "function first(var a, var b) \x7b return a; \x7d"]

/-- The second argument makes one variable of the two of the first, and asks for
a base type. -/
def firstOfEqual : Expr :=
  .call ⟨"first", .empty⟩ [.ident ⟨"x", .empty⟩,
    .binary .eq (.ident ⟨"y", .empty⟩) (.ident ⟨"x", .empty⟩) .empty] .empty

theorem run_again_undecided : ∃ t c₁ c₂, (after undecided).Reachable ∧
    (after undecided).run (.expression firstOfEqual) = (.ok t, c₁) ∧
    c₁.run (.expression firstOfEqual) = (.ok t, c₂) ∧ Alike c₁ c₂ ∧
      (Checker.globals c₂).1 = (Checker.globals c₁).1 ∧
      (∀ n, c₂.subst.isBound n = c₁.subst.isBound n) ∧
      c₂.subst.baseOnly = c₁.subst.baseOnly ∧ c₂.subst.next = c₁.subst.next := by
  have h := reachable_after undecided
  have hok : ((after undecided).run (.expression firstOfEqual)).1 = .ok (some (.var 0)) := by
    decide +kernel
  obtain ⟨c₂, hagain⟩ := h.run_again (Prod.ext hok rfl)
  exact ⟨_, _, c₂, h, Prod.ext hok rfl, hagain⟩

end Checker

end Implet
