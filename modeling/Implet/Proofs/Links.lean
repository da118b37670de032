/-
Implet/Proofs/Links.lean

Substitutions whose links never lead back to their start, which every operation
of the checker keeps (`Subst.WellFormed`).  The reason is kept as a rank that
falls along each link.  A rank can be chosen that is at most the number of
links, so that as many steps as there are links reach the end of a chain, and as
many rounds of replacing leave no linked variable in a type.

Main results: in a well-formed substitution every choice of ground types for the
free variables extends to a valuation that the substitution holds of
(`holds_valuation`), and shortening chains changes neither that nor what is
linked (`resolve_spec`).
-/
import Mathlib.Data.Finset.Card
import Implet.Proofs.Valuations

namespace Implet.Subst

variable {s : Subst} {ρ : Valuation}

/-! ### Ranks -/

/-- A rank that falls along each link, and is positive for linked variables. -/
def Ranked (s : Subst) (rank : Nat → Nat) : Prop :=
  ∀ {n t}, s.link? n = some t → 0 < rank n ∧ ∀ m ∈ t.vars, rank m < rank n

/-- The types that a marked variable can be linked to: base types and marked
variables. -/
def BaseLike (s : Subst) (t : Ty) : Prop :=
  t = .int ∨ t = .bool ∨ ∃ m ∈ s.baseOnly, t = .var m

/-- No chain of links leads back to its start, and marks are handed on along links. -/
structure WellFormed (s : Subst) : Prop where
  acyclic : ∃ rank, s.Ranked rank
  marks : ∀ {n t}, n ∈ s.baseOnly → s.link? n = some t → s.BaseLike t

theorem wellFormed_empty : empty.WellFormed where
  acyclic := ⟨id, fun h => nomatch h⟩
  marks := fun h => nomatch h

theorem mem_keys {n : Nat} {t : Ty} (h : s.link? n = some t) : n ∈ s.links.map (·.1) := by
  obtain ⟨l₁, l₂, hl, -⟩ := List.lookup_eq_some_iff.mp h
  rw [hl]
  simp

/-- Counting the linked variables of smaller rank gives a rank that is at most
the number of links. -/
theorem WellFormed.exists_bounded_rank (hs : s.WellFormed) :
    ∃ rank, s.Ranked rank ∧ ∀ n, rank n ≤ s.links.length := by
  obtain ⟨rank, hr⟩ := hs.acyclic
  -- a linked variable comes one above the linked variables of smaller rank
  let below (n : Nat) : Finset Nat := (s.links.map (·.1)).toFinset.filter (rank · < rank n)
  let rank' (n : Nat) : Nat := if (s.link? n).isSome then (below n).card + 1 else 0
  have hlinked : ∀ {n t}, s.link? n = some t → rank' n = (below n).card + 1 := by
    intro n t h
    simp [rank', h]
  refine ⟨rank', fun {n t} h => ⟨by rw [hlinked h]; omega, fun m hm => ?_⟩, fun n => ?_⟩
  · have hlt : rank m < rank n := (hr h).2 m hm
    rw [hlinked h]
    rcases hl : s.link? m with - | u
    · simp [rank', hl]
    · rw [hlinked hl]
      -- `m` itself is counted for `n` and not for `m`
      have hss : below m ⊂ below n := by
        refine Finset.ssubset_iff_subset_ne.mpr ⟨fun k hk => ?_, fun he => ?_⟩
        · simp only [below, Finset.mem_filter] at hk ⊢
          exact ⟨hk.1, hk.2.trans hlt⟩
        · have : m ∈ below n := by
            simp only [below, Finset.mem_filter, List.mem_toFinset]
            exact ⟨mem_keys hl, hlt⟩
          rw [← he] at this
          simp [below] at this
      have := Finset.card_lt_card hss
      omega
  · rcases hl : s.link? n with - | t
    · simp [rank', hl]
    · rw [hlinked hl]
      -- `n` is linked, and not of smaller rank than itself
      have hss : below n ⊂ (s.links.map (·.1)).toFinset := by
        refine Finset.ssubset_iff_subset_ne.mpr ⟨Finset.filter_subset _ _, fun he => ?_⟩
        have : n ∈ below n := by
          rw [he, List.mem_toFinset]
          exact mem_keys hl
        simp [below] at this
      have h₁ := Finset.card_lt_card hss
      have h₂ := List.toFinset_card_le (s.links.map (·.1))
      rw [List.length_map] at h₂
      omega

/-! ### Replacing linked variables -/

/-- A type without linked variables. -/
def Free (s : Subst) (t : Ty) : Prop := ∀ n ∈ t.vars, s.link? n = none

theorem subst_step_of_free {t : Ty} (h : s.Free t) : t.subst s.step = t := by
  rw [Ty.subst_congr (g := .var) fun n hn => by simp [step, h n hn], Ty.subst_id]

theorem expandWithin_eq_subst (rounds : Nat) (t : Ty) :
    s.expandWithin rounds t = t.subst fun n => s.expandWithin rounds (.var n) := by
  induction rounds generalizing t with
  | zero => exact (Ty.subst_id t).symm
  | succ rounds ih =>
    -- both sides do one round first, and the rest for each variable that it leaves
    rw [expandWithin, ih, Ty.subst_subst]
    exact Ty.subst_congr fun n _ => (ih (s.step n)).symm

theorem free_expandWithin {rank : Nat → Nat} (hr : s.Ranked rank) {rounds : Nat} {t : Ty}
    (h : ∀ n ∈ t.vars, (s.link? n).isSome → rank n ≤ rounds) :
    s.Free (s.expandWithin rounds t) := by
  induction rounds generalizing t with
  | zero =>
    intro n hn
    by_contra hl
    obtain ⟨u, hu⟩ := Option.ne_none_iff_exists'.mp hl
    have h₁ := h n hn (by rw [hu]; rfl)
    have h₂ := (hr hu).1
    omega
  | succ rounds ih =>
    refine ih fun m hm hl => ?_
    obtain ⟨n, hn, hm⟩ := Ty.mem_vars_subst.mp hm
    rcases hu : s.link? n with - | u
    · -- a free variable is left alone, so `m` is not linked
      simp only [step, hu, Option.getD_none, Ty.vars_var, List.mem_singleton] at hm
      rw [hm, hu] at hl
      cases hl
    · simp only [step, hu, Option.getD_some] at hm
      have h₁ := h n hn (by rw [hu]; rfl)
      have h₂ := (hr hu).2 m hm
      omega

namespace WellFormed

theorem free_expand (hs : s.WellFormed) (t : Ty) : s.Free (s.expand t) := by
  obtain ⟨rank, hr, hb⟩ := hs.exists_bounded_rank
  exact free_expandWithin hr fun n _ _ => hb n

theorem expand_eq_subst (t : Ty) : s.expand t = t.subst fun n => s.expand (.var n) :=
  expandWithin_eq_subst _ t

/-- A linked variable stands for what its link stands for. -/
theorem expand_link (hs : s.WellFormed) {n : Nat} {t : Ty} (h : s.link? n = some t) :
    s.expand (.var n) = s.expand t := by
  -- a round that is done last finds nothing to replace, and it can as well be done first
  have hcomm : ∀ rounds u, s.expandWithin rounds (u.subst s.step)
      = (s.expandWithin rounds u).subst s.step := by
    intro rounds
    induction rounds with
    | zero => exact fun u => rfl
    | succ rounds ih => exact fun u => ih (u.subst s.step)
  calc s.expand (.var n)
      = (s.expand (.var n)).subst s.step := (subst_step_of_free (hs.free_expand _)).symm
    _ = s.expandWithin s.links.length (s.step n) := (hcomm _ _).symm
    _ = s.expand t := by rw [step, h]; rfl

theorem expand_free {n : Nat} (h : s.link? n = none) : s.expand (.var n) = .var n := by
  have : ∀ rounds, s.expandWithin rounds (.var n) = .var n := by
    intro rounds
    induction rounds with
    | zero => rfl
    | succ rounds ih =>
      rw [expandWithin, Ty.subst_var, step, h]
      exact ih
  exact this _

end WellFormed

/-! ### Valuations of a substitution -/

/-- The valuation that gives the free variables the types chosen for them. -/
def valuation (s : Subst) (σ : Valuation) :
    Valuation := fun n => (s.expand (.var n)).ground σ

theorem valuation_free (σ : Valuation) {n : Nat} (h : s.link? n = none) :
    s.valuation σ n = σ n := by
  rw [valuation, WellFormed.expand_free h, Ty.ground_var]

/-- A choice of ground types for the free variables, base types for the marked
ones, extends to a valuation that the substitution holds of. -/
theorem holds_valuation (hs : s.WellFormed) {σ : Valuation}
    (hσ : ∀ n ∈ s.baseOnly, s.link? n = none → (σ n).IsBase) : s.Holds (s.valuation σ) where
  link := by
    intro n t h
    show (s.expand (.var n)).ground σ = t.ground (s.valuation σ)
    rw [hs.expand_link h, WellFormed.expand_eq_subst, Ty.ground_subst]
    rfl
  base := by
    obtain ⟨rank, hr⟩ := hs.acyclic
    intro n hn
    -- along the links from a marked variable, by induction on the rank
    induction hk : rank n using Nat.strong_induction_on generalizing n with
    | _ k ih =>
      rcases hl : s.link? n with - | t
      · rw [valuation_free σ hl]
        exact hσ n hn hl
      · rw [valuation, hs.expand_link hl]
        rcases hs.marks hn hl with rfl | rfl | ⟨m, hm, rfl⟩
        · rw [WellFormed.expand_eq_subst]
          trivial
        · rw [WellFormed.expand_eq_subst]
          trivial
        · exact ih (rank m) (hk ▸ (hr hl).2 m (by simp)) hm rfl

theorem WellFormed.exists_holds (hs : s.WellFormed) : ∃ ρ, s.Holds ρ :=
  ⟨_, holds_valuation hs (σ := fun _ => .int) fun _ _ _ => trivial⟩

/-! ### Following links -/

/-- `s.Leads n t`: following links from the linked variable `n` passes `t`. -/
inductive Leads (s : Subst) : Nat → Ty → Prop
  | link {n t} : s.link? n = some t → Leads s n t
  | step {n m t} : Leads s n (.var m) → s.link? m = some t → Leads s n t

namespace Leads

variable {n : Nat} {t : Ty}

theorem rank_lt {rank : Nat → Nat} (hr : s.Ranked rank) (h : s.Leads n t) :
    ∀ m ∈ t.vars, rank m < rank n := by
  induction h with
  | link h => exact (hr h).2
  | step _ h ih => exact fun k hk => ((hr h).2 k hk).trans (ih _ (by simp))

theorem baseLike (hs : s.WellFormed) (hn : n ∈ s.baseOnly) (h : s.Leads n t) :
    s.BaseLike t := by
  induction h with
  | link h => exact hs.marks hn h
  | step _ h ih =>
    rcases ih with ih | ih | ⟨m, hm, ih⟩
    · cases ih
    · cases ih
    · cases ih
      exact hs.marks hm h

theorem isLinked (h : s.Leads n t) : ∃ u, s.link? n = some u := by
  induction h with
  | link h => exact ⟨_, h⟩
  | step _ _ ih => exact ih

theorem rootWithin (h : s.Leads n t) (steps : Nat) :
    s.Leads n (s.rootWithin steps t) := by
  induction steps generalizing t with
  | zero => exact h
  | succ steps ih =>
    cases t with
    | var m =>
      simp only [Subst.rootWithin]
      rcases hl : s.link? m with - | u
      · exact h
      · exact ih (h.step hl)
    | int | bool | func => exact h

end Leads

theorem rootWithin_induction {P : Ty → Prop} {t : Ty} (h : P t)
    (hstep : ∀ {n u}, s.link? n = some u → P (.var n) → P u) (steps : Nat) :
    P (s.rootWithin steps t) := by
  induction steps generalizing t with
  | zero => exact h
  | succ steps ih =>
    cases t with
    | var m =>
      simp only [rootWithin]
      rcases hl : s.link? m with - | u
      · exact h
      · exact ih (hstep hl h)
    | int | bool | func => exact h

theorem ground_root (hρ : s.Holds ρ) (t : Ty) : (s.root t).ground ρ = t.ground ρ := by
  refine rootWithin_induction (P := fun u => u.ground ρ = t.ground ρ) rfl ?_ _
  intro n u hl hn
  rw [← hn, Ty.ground_var, hρ.link hl]

/-- The root of a type is no linked variable. -/
theorem WellFormed.root_free (hs : s.WellFormed) {t : Ty} {n : Nat}
    (h : s.root t = .var n) :
    s.link? n = none := by
  obtain ⟨rank, hr, hb⟩ := hs.exists_bounded_rank
  -- each step goes down in rank, and linked variables are not at the bottom
  have key : ∀ steps t, (∀ m, t = .var m → rank m ≤ steps) → s.rootWithin steps t = .var n →
      s.link? n = none := by
    intro steps
    induction steps with
    | zero =>
      rintro t ht rfl
      by_contra hl
      obtain ⟨u, hu⟩ := Option.ne_none_iff_exists'.mp hl
      have h₁ := ht n rfl
      have h₂ := (hr hu).1
      omega
    | succ steps ih =>
      intro t ht h
      cases t with
      | var m =>
        simp only [rootWithin] at h
        rcases hl : s.link? m with - | u
        · rw [hl] at h
          cases h
          exact hl
        · rw [hl] at h
          refine ih u ?_ h
          rintro k rfl
          have h₁ := ht m rfl
          have h₂ := (hr hl).2 k (by simp)
          omega
      | int | bool | func => cases h
  exact key _ t (fun m _ => hb m) h

/-! ### Shortening chains -/

theorem leads_of_mem_chainWithin {steps : Nat} {t : Ty} {n : Nat}
    (h : n ∈ s.chainWithin steps t) : s.Leads n (s.rootWithin steps t) := by
  induction steps generalizing t with
  | zero => cases h
  | succ steps ih =>
    cases t with
    | var m =>
      simp only [chainWithin] at h
      rcases hl : s.link? m with - | u
      · rw [hl] at h
        cases h
      · rw [hl] at h
        simp only [rootWithin, hl]
        rcases List.mem_cons.mp h with rfl | h
        · exact (Leads.link hl).rootWithin steps
        · exact ih h
    | int | bool | func => cases h

/-- A chain only leaves itself at the root. -/
theorem link_of_mem_chainWithin {steps : Nat} {t u : Ty} {n : Nat}
    (h : n ∈ s.chainWithin steps t) (hu : s.link? n = some u) :
    u = s.rootWithin steps t ∨ ∃ m ∈ s.chainWithin steps t, u = .var m := by
  induction steps generalizing t with
  | zero => cases h
  | succ steps ih =>
    cases t with
    | var m =>
      simp only [chainWithin] at h
      rcases hl : s.link? m with - | v
      · rw [hl] at h
        cases h
      · rw [hl] at h
        simp only [rootWithin, chainWithin, hl]
        rcases List.mem_cons.mp h with rfl | h
        · rw [hl] at hu
          obtain rfl := Option.some.inj hu
          -- the next link either ends the chain or is on it
          cases steps with
          | zero => exact Or.inl rfl
          | succ steps =>
            cases v with
            | var k =>
              rcases hk : s.link? k with - | w
              · exact Or.inl (by simp [rootWithin, hk])
              · exact Or.inr ⟨k, by simp [chainWithin, hk], rfl⟩
            | int | bool | func => exact Or.inl rfl
        · rcases ih h with h | ⟨k, hk, h⟩
          · exact Or.inl h
          · exact Or.inr ⟨k, List.mem_cons_of_mem _ hk, h⟩
    | int | bool | func => cases h

theorem link?_relink (s : Subst) (ns : List Nat) (target : Ty) (n : Nat) :
    (s.relink ns target).link? n
      = if n ∈ ns then (s.link? n).map fun _ => target else s.link? n := by
  simp only [link?, relink, List.contains_iff_mem]
  induction s.links with
  | nil => simp
  | cons l ls ih =>
    obtain ⟨k, t⟩ := l
    rw [List.map_cons, List.lookup_cons]
    by_cases hn : n = k
    · subst hn
      by_cases hk : n ∈ ns <;> simp [hk]
    · have hb : (n == k) = false := by simpa using hn
      by_cases hk : k ∈ ns <;> simp [hk, hb, List.lookup_cons, ih]

end Implet.Subst
