/-
Implet/Proofs/Operations.lean

What every operation on substitutions keeps, whether it succeeds or fails half
way.  It retains all that was known (`Subst.Retains`): the links stay free of
cycles, what the old links and marks require of a valuation is still required,
and no mark is lost.

Main result: in a substitution that has come about by operations, in any order
and on any types, no variable is mentioned by what it is linked to, directly or
through other links; so all operations end there, and what was once marked is a
base type or a marked free variable for good (`Reachable.invariant`).
-/
import Implet.Proofs.Recursion

namespace Implet.Subst

variable {s s' s'' : Subst}

/-! ### Retaining what is known -/

/-- `s'` is well formed and knows all that `s` knows, marks included. -/
structure Retains (s s' : Subst) : Prop where
  wellFormed : s'.WellFormed
  holds : ∀ {ρ}, s'.Holds ρ → s.Holds ρ
  marks : s.baseOnly ⊆ s'.baseOnly

theorem WellFormed.retains_self (hs : s.WellFormed) : s.Retains s :=
  ⟨hs, id, List.Subset.refl _⟩

theorem Retains.trans (h : s.Retains s') (h' : s'.Retains s'') : s.Retains s'' :=
  ⟨h'.wellFormed, fun hρ => h.holds (h'.holds hρ), fun _ hn => h'.marks (h.marks hn)⟩

theorem Shortens.retains (h : s.Shortens s') : s.Retains s' :=
  ⟨h.wellFormed, h.holds.mp, fun _ hn => h.baseOnly ▸ hn⟩

theorem Retains.expand_root (h : s.Retains s') (t : Ty) :
    s'.expand (s.root t) = s'.expand t :=
  expand_root_of_holds h.wellFormed h.holds t

theorem WellFormed.retains_mark (hs : s.WellFormed) {n : Nat} (hn : s.link? n = none) :
    s.Retains { s with baseOnly := s.baseOnly.insert n } :=
  have hx := hs.extends_mark hn
  ⟨hx.wellFormed, hx.holds, fun _ hk => List.mem_insert_of_mem hk⟩

theorem WellFormed.retains_cons (hs : s.WellFormed) {n : Nat} {t : Ty}
    (hn : s.link? n = none)
    (ht : n ∉ (s.expand t).vars) (hb : n ∈ s.baseOnly → s.BaseLike t) :
    s.Retains { s with links := (n, t) :: s.links } :=
  have hx := hs.extends_cons hn ht hb
  ⟨hx.wellFormed, hx.holds, List.Subset.refl _⟩

/-! ### The operations, also when they fail -/

theorem WellFormed.retains_mismatch (hs : s.WellFormed) (expected found : Ty) :
    s.Retains ((do throw (.mismatch (← apply expected) (← apply found)) : UnifyM Unit).run s).2 :=
  ((hs.shortens_apply expected).trans
    ((hs.shortens_apply expected).wellFormed.shortens_apply found)).retains

theorem WellFormed.retains_requireBase (hs : s.WellFormed) (t : Ty) :
    s.Retains ((requireBase t).run s).2 := by
  have hx := hs.shortens_relink t
  have hfree : ∀ n, s.root t = .var n → (s.relink (s.chain t) (s.root t)).link? n = none :=
    fun n hn => (isSome_link?_relink t n).mpr (hs.root_free hn)
  rw [requireBase_run]
  generalize s.root t = u at hx hfree ⊢
  cases u with
  | int | bool => exact hx.retains
  | var n => exact hx.retains.trans (hx.wellFormed.retains_mark (hfree n rfl))
  | func => exact (hx.trans (hx.wellFormed.shortens_apply _)).retains

theorem WellFormed.retains_bind (hs : s.WellFormed) (n : Nat) (t : Ty) :
    s.Retains ((Subst.bind n t).run s).2 := by
  have hx := hs.shortens_relink t
  have hfree : ∀ m, s.root t = .var m → (s.relink (s.chain t) (s.root t)).link? m = none :=
    fun m hm => (isSome_link?_relink t m).mpr (hs.root_free hm)
  rw [bind_run]
  split
  · exact hs.retains_self
  next hn =>
  have hn₁ : (s.relink (s.chain t) (s.root t)).link? n = none :=
    (isSome_link?_relink t n).mpr (by simpa [isBound] using hn)
  generalize s.root t = u at hx hfree hn₁ ⊢
  generalize s.relink (s.chain t) u = s₁ at hx hfree hn₁ ⊢
  dsimp only
  split
  · exact hx.retains
  have hx₂ := hx.trans (hx.wellFormed.shortens_occursIn n u)
  split
  · exact (hx₂.trans (hx₂.wellFormed.shortens_apply u)).retains
  next ho =>
  rw [Bool.not_eq_true] at ho
  split
  · next hm =>
    have hreq := hx₂.wellFormed.retains_requireBase u
    rw [run_bind_match]
    rcases hr : (requireBase u).run (occursIn n u s₁).2 with ⟨e | _, s₃⟩ <;> rw [hr] at hreq
    · exact hx₂.retains.trans hreq
    · -- only marks have changed, and the type has one if the variable has
      obtain ⟨-, -, hn₃, ho₃, hb⟩ :=
        bind_link hx.wellFormed hn₁ hfree ho (.inl ⟨by simpa using hm, hr⟩)
      exact (hx₂.retains.trans hreq).trans (hreq.wellFormed.retains_cons hn₃ ho₃ hb)
  · next hm =>
    obtain ⟨-, -, hn₃, ho₃, hb⟩ :=
      bind_link hx.wellFormed hn₁ hfree ho (.inr ⟨by simpa using hm, rfl⟩)
    exact hx₂.retains.trans (hx₂.wellFormed.retains_cons hn₃ ho₃ hb)

theorem Retains.widening {action : UnifyM Unit} (h : s.Retains (action.run s).2)
    (expected found : Ty) : s.Retains ((widening expected found action).run s).2 := by
  rw [Subst.widening, run_tryCatch]
  rcases hr : action.run s with ⟨e | _, s₁⟩ <;> rw [hr] at h
  · cases e with
    | mismatch => exact h.trans (h.wellFormed.retains_mismatch expected found)
    | occursCheck | alreadyBound | notBase => exact h
  · exact h

theorem retains_forEachPair {action : Ty → Ty → UnifyM Unit}
    (hact : ∀ {s : Subst} a b, s.WellFormed → s.Retains ((action a b).run s).2)
    (hs : s.WellFormed) (as bs : List Ty) : s.Retains ((forEachPair action as bs).run s).2 := by
  induction as generalizing bs s with
  | nil => exact hs.retains_self
  | cons a as ih =>
    cases bs with
    | nil => exact hs.retains_self
    | cons b bs =>
      have h := hact a b hs
      rw [forEachPair, run_bind_match]
      rcases hr : (action a b).run s with ⟨e | _, s₁⟩ <;> rw [hr] at h
      · exact h
      · exact h.trans (ih h.wellFormed bs)

theorem WellFormed.retains_unifyWithin (hs : s.WellFormed) (depth : Nat) (a b : Ty) :
    s.Retains ((unifyWithin depth a b).run s).2 := by
  induction depth generalizing a b s with
  | zero => exact hs.retains_self
  | succ depth ih =>
    have hx : s.Shortens (resolve b (resolve a s).2).2 :=
      (hs.shortens_relink a).trans ((hs.shortens_relink a).wellFormed.shortens_relink b)
    refine hx.retains.trans ?_
    have hs₂ := hx.wellFormed
    have hstep := unifyWithin_step depth a b s
    generalize (resolve b (resolve a s).2).2 = s₂ at hs₂ hstep ⊢
    generalize (resolve a s).1 = e at hstep
    generalize (resolve b (resolve a s).2).1 = f at hstep
    generalize (unifyWithin (depth + 1) a b).run s = r at hstep ⊢
    cases hstep with
    | same => exact hs₂.retains_self
    | left | right => exact hs₂.retains_bind _ _
    | parts => exact retains_forEachPair (fun a b hs => (ih hs a b).widening _ _) hs₂ _ _
    | clash => exact hs₂.retains_mismatch _ _

theorem WellFormed.retains_unify (hs : s.WellFormed) (a b : Ty) :
    s.Retains ((unify a b).run s).2 := by
  rw [hs.unify_eq a b 0]
  exact hs.retains_unifyWithin _ a b

/-! ### Sequences of operations -/

/-- The operations on substitutions. -/
inductive Operation where
  | fresh
  | bind (n : Nat) (t : Ty)
  | requireBase (t : Ty)
  | unify (expected found : Ty)
  | resolve (t : Ty)
  | apply (t : Ty)

/-- What an operation leaves behind, whether it succeeds or fails. -/
def perform (s : Subst) : Operation → Subst
  | .fresh => (Subst.fresh s).2
  | .bind n t => ((Subst.bind n t).run s).2
  | .requireBase t => ((Subst.requireBase t).run s).2
  | .unify expected found => ((Subst.unify expected found).run s).2
  | .resolve t => (Subst.resolve t s).2
  | .apply t => (Subst.apply t s).2

theorem WellFormed.retains_perform (hs : s.WellFormed) (op : Operation) :
    s.Retains (s.perform op) := by
  cases op with
  | fresh => exact ⟨hs.extends_fresh.wellFormed, hs.extends_fresh.holds, List.Subset.refl _⟩
  | bind n t => exact hs.retains_bind n t
  | requireBase t => exact hs.retains_requireBase t
  | unify expected found => exact hs.retains_unify expected found
  | resolve t => exact (hs.shortens_relink t).retains
  | apply t => exact (hs.shortens_apply t).retains

theorem WellFormed.retains_foldl (hs : s.WellFormed) (ops : List Operation) :
    s.Retains (ops.foldl perform s) := by
  induction ops generalizing s with
  | nil => exact hs.retains_self
  | cons op ops ih =>
    have h := hs.retains_perform op
    exact h.trans (ih h.wellFormed)

/-! ### Variables and what they mention -/

/-- The link of `n` leads to a type with `m` in it. -/
def Mentions (s : Subst) (n m : Nat) : Prop := ∃ t, s.link? n = some t ∧ m ∈ t.vars

theorem WellFormed.not_mentions_self (hs : s.WellFormed) (n : Nat) :
    ¬ Relation.TransGen s.Mentions n n := by
  obtain ⟨rank, hr⟩ := hs.acyclic
  -- what is mentioned is of smaller rank
  have hlt : ∀ {m}, Relation.TransGen s.Mentions n m → rank m < rank n := by
    intro m h
    induction h with
    | single h =>
      obtain ⟨t, hl, hm⟩ := h
      exact (hr hl).2 _ hm
    | tail _ h ih =>
      obtain ⟨t, hl, hm⟩ := h
      exact ((hr hl).2 _ hm).trans ih
  exact fun h => lt_irrefl _ (hlt h)

/-- What a marked variable resolves to is a base type or a marked free variable. -/
theorem WellFormed.root_of_marked (hs : s.WellFormed) {n : Nat} (hn : n ∈ s.baseOnly) :
    s.root (.var n) = .int ∨ s.root (.var n) = .bool ∨
      ∃ m ∈ s.baseOnly, s.link? m = none ∧ s.root (.var n) = .var m := by
  rcases hl : s.link? n with - | t
  · exact .inr (.inr ⟨n, hn, hl, (hs.free_iff_root n).mp hl⟩)
  · have hleads : s.Leads n (s.root (.var n)) := by
      rw [hs.root_link hl]
      exact (Leads.link hl).rootWithin _
    rcases hleads.baseLike hs hn with h | h | ⟨m, hm, h⟩
    · exact .inl h
    · exact .inr (.inl h)
    · exact .inr (.inr ⟨m, hm, hs.root_free h, h⟩)

/-! ### The invariant -/

/-- No walk along the links comes back to a variable, also not through parts of
function types, so that the operations end on every type, and looking for a
variable, which shortens chains on the way, gives the answer that reading alone
would give; and whatever operations follow, a marked variable resolves to a base
type or to a free variable that is marked itself. -/
structure Invariant (s : Subst) : Prop where
  acyclic : ∀ n, ¬ Relation.TransGen s.Mentions n n
  resolves : ∀ t, Resolves s t (resolve t s).1 (resolve t s).2
  applies : ∀ t, Applies s t (apply t s).1 (apply t s).2
  searches : ∀ n t, Searches n s t (occursIn n t s).1 (occursIn n t s).2 ∧
    (occursIn n t s).1 = s.occurs n t
  unifies : ∀ a b, Unifies s a b ((unify a b).run s).1 ((unify a b).run s).2
  marks : ∀ n ∈ s.baseOnly, ∀ ops : List Operation,
    let s' := ops.foldl perform s
    let u := (resolve (.var n) s').1
    u = .int ∨ u = .bool ∨ ∃ m ∈ s'.baseOnly, s'.isBound m = false ∧ u = .var m

theorem Reachable.invariant (h : s.Reachable) : s.Invariant := by
  have hs := h.wellFormed
  refine ⟨hs.not_mentions_self, hs.resolves, hs.applies,
    fun n t => ⟨hs.searches n t, hs.occursIn_eq n t⟩, hs.unifies, ?_⟩
  intro n hn ops
  have hops := hs.retains_foldl ops
  rcases hops.wellFormed.root_of_marked (hops.marks hn) with hu | hu | ⟨m, hm, hl, hu⟩
  · exact .inl hu
  · exact .inr (.inl hu)
  · exact .inr (.inr ⟨m, hm, by simp [isBound, hl], hu⟩)

theorem invariant_paired : paired.Reachable ∧ paired.Invariant := by
  have h : paired.Reachable := .requireBase _ (.unify _ _ .empty)
  exact ⟨h, h.invariant⟩

end Implet.Subst
