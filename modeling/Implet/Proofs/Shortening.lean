/-
Implet/Proofs/Shortening.lean

Resolving and applying read a substitution, and so does looking for a variable.
What they write are shorter chains, and a substitution with shorter chains says
the same: it holds of the same valuations and leaves the same variables free
(`Subst.Shortens`), and types have the same expansions (`Shortens.expand_eq`).

That is shown by what the expansions stand for.  Both have the value of the type
under all valuations and no linked variable in them, and types without linked
variables that have the same value under all valuations are the same
(`WellFormed.eq_of_ground`).
-/
import Implet.Proofs.Extending

namespace Implet

/-! ### Types that stand for the same -/

/-- Types that have the same value whatever base types their variables stand for
are the same. -/
theorem Ty.eq_of_ground {a b : Ty}
    (h : ∀ σ : Valuation, (∀ n, (σ n).IsBase) → a.ground σ = b.ground σ) : a = b := by
  -- two valuations tell a variable from everything else but another variable
  have hint := h (fun _ => .int) fun _ => trivial
  have hbool := h (fun _ => .bool) fun _ => trivial
  induction a generalizing b with
  | int => cases b <;> simp_all
  | bool => cases b <;> simp_all
  | var m =>
    cases b with
    | var n =>
      by_contra hne
      have hmn := h (fun k => if k = m then .int else .bool) fun k => by
        by_cases hk : k = m <;> simp [hk, Ground.IsBase]
      have hn : n ≠ m := fun e => hne (by rw [e])
      simp [hn] at hmn
    | int | bool | func => simp_all
  | func params ret hp hr =>
    cases b with
    | int | bool | var => simp_all
    | func params' ret' =>
      simp only [ground_func, Ground.func.injEq] at h hint hbool
      rw [hr (fun σ hσ => (h σ hσ).2) hint.2 hbool.2]
      congr 1
      have hlen : params.length = params'.length := by
        simpa using congrArg List.length hint.1
      refine List.ext_getElem hlen fun i h₁ h₂ => ?_
      have hi : ∀ σ : Valuation, (∀ n, (σ n).IsBase) →
          params[i].ground σ = params'[i].ground σ := by
        intro σ hσ
        simpa [h₁, h₂] using congrArg (·[i]?) (h σ hσ).1
      exact hp _ (List.getElem_mem h₁) hi (hi _ fun _ => trivial) (hi _ fun _ => trivial)

theorem Ty.ground_congr {ρ ρ' : Valuation} {t : Ty} (h : ∀ n ∈ t.vars, ρ n = ρ' n) :
    t.ground ρ = t.ground ρ' := by
  induction t with
  | int | bool => rfl
  | var n => exact h n (by simp)
  | func params ret hp hr =>
    rw [ground_func, ground_func, hr fun n hn => h n (by simp [hn])]
    congr 1
    refine List.map_congr_left fun p hpm => hp p hpm fun n hn => h n ?_
    simp only [vars_func, List.mem_append, List.mem_flatMap]
    exact Or.inl ⟨p, hpm, hn⟩

namespace Subst

variable {s s' s'' : Subst} {ρ : Valuation} {U : List Ty}

/-! ### Expanding -/

theorem ground_expand (hρ : s.Holds ρ) (t : Ty) : (s.expand t).ground ρ = t.ground ρ := by
  have hstep : ∀ n, (s.step n).ground ρ = ρ n := by
    intro n
    rcases hl : s.link? n with - | u
    · simp [step, hl]
    · simp [step, hl, hρ.link hl]
  have hw : ∀ rounds t, (s.expandWithin rounds t).ground ρ = t.ground ρ := by
    intro rounds
    induction rounds with
    | zero => exact fun _ => rfl
    | succ rounds ih =>
      intro t
      rw [expandWithin, ih, Ty.ground_subst]
      simp [hstep]
  exact hw _ t

/-- Types without linked variables mean the same under a choice for the free
variables and under the valuation it extends to. -/
theorem ground_valuation {t : Ty} (ht : s.Free t) (σ : Valuation) :
    t.ground (s.valuation σ) = t.ground σ :=
  Ty.ground_congr fun n hn => valuation_free σ (ht n hn)

/-- Types without linked variables are told apart by the valuations of a
substitution. -/
theorem WellFormed.eq_of_ground (hs : s.WellFormed) {a b : Ty} (ha : s.Free a)
    (hb : s.Free b) (h : ∀ {ρ}, s.Holds ρ → a.ground ρ = b.ground ρ) : a = b := by
  apply Ty.eq_of_ground
  intro σ hσ
  have hval := h (holds_valuation hs (σ := σ) fun n _ _ => hσ n)
  rwa [ground_valuation ha, ground_valuation hb] at hval

theorem expand_func (params : List Ty) (ret : Ty) :
    s.expand (.func params ret) = .func (params.map s.expand) (s.expand ret) := by
  rw [WellFormed.expand_eq_subst, Ty.subst_func, ← WellFormed.expand_eq_subst]
  congr 1
  exact List.map_congr_left fun p _ => (WellFormed.expand_eq_subst p).symm

/-- A type expands as its root did when less was known. -/
theorem expand_root_of_holds (hs' : s'.WellFormed) (h : ∀ {ρ}, s'.Holds ρ → s.Holds ρ)
    (t : Ty) :
    s'.expand (s.root t) = s'.expand t := by
  apply hs'.eq_of_ground (hs'.free_expand _) (hs'.free_expand t)
  intro ρ hρ
  rw [ground_expand hρ, ground_expand hρ, ground_root (h hρ)]

/-- A type expands as its root does. -/
theorem WellFormed.expand_root (hs : s.WellFormed) (t : Ty) :
    s.expand (s.root t) = s.expand t :=
  expand_root_of_holds hs id t

/-! ### Shorter chains -/

/-- `s'` says what `s` says; all that may have changed are chains that are shorter. -/
structure Shortens (s s' : Subst) : Prop where
  wellFormed : s'.WellFormed
  holds : ∀ {ρ}, s'.Holds ρ ↔ s.Holds ρ
  free : ∀ n, s'.link? n = none ↔ s.link? n = none
  baseOnly : s'.baseOnly = s.baseOnly
  next : s'.next = s.next

theorem WellFormed.shortens_self (hs : s.WellFormed) : s.Shortens s :=
  ⟨hs, Iff.rfl, fun _ => Iff.rfl, rfl, rfl⟩

theorem Shortens.trans (h : s.Shortens s') (h' : s'.Shortens s'') : s.Shortens s'' where
  wellFormed := h'.wellFormed
  holds := h'.holds.trans h.holds
  free n := (h'.free n).trans (h.free n)
  baseOnly := h'.baseOnly.trans h.baseOnly
  next := h'.next.trans h.next

theorem Shortens.extends (h : s.Shortens s') : s.Extends 0 s' :=
  ⟨h.wellFormed, h.holds.mp, h.next⟩

theorem Shortens.free_iff (h : s.Shortens s') {t : Ty} : s'.Free t ↔ s.Free t :=
  forall₂_congr fun n _ => h.free n

theorem Leads.ground {n : Nat} {t : Ty} (h : s.Leads n t) (hρ : s.Holds ρ) :
    ρ n = t.ground ρ := by
  induction h with
  | link h => exact hρ.link h
  | step _ h ih => rw [ih, Ty.ground_var, hρ.link h]

theorem WellFormed.shortens_relink (hs : s.WellFormed) (t : Ty) :
    s.Shortens (s.relink (s.chain t) (s.root t)) where
  wellFormed := (hs.extends_relink t).wellFormed
  holds := by
    refine ⟨(hs.extends_relink t).holds, fun hρ => ⟨?_, hρ.base⟩⟩
    intro n u hu
    rw [link?_relink] at hu
    split at hu
    · next hn =>
      -- the new link goes where the old ones led
      obtain ⟨v, -, rfl⟩ := Option.map_eq_some_iff.mp hu
      exact (leads_of_mem_chainWithin hn).ground hρ
    · exact hρ.link hu
  free := isSome_link?_relink t
  baseOnly := rfl
  next := rfl

/-- What holds of the state before each member of a list holds after all of
them, and the results are what they should be. -/
theorem mapM_induction {α β : Type} {f : α → StateM Subst β} {I : Subst → Prop}
    {P : β → Prop}
    (as : List α) (hf : ∀ {s a}, a ∈ as → I s → I (f a s).2 ∧ P (f a s).1) (hs : I s) :
    I (as.mapM f s).2 ∧ ∀ b ∈ (as.mapM f s).1, P b := by
  induction as generalizing s with
  | nil => exact ⟨hs, fun _ hb => absurd hb List.not_mem_nil⟩
  | cons a as ih =>
    obtain ⟨ha, hPa⟩ := hf List.mem_cons_self hs
    obtain ⟨has, hPas⟩ := ih (fun h => hf (List.mem_cons_of_mem _ h)) ha
    rw [List.mapM_cons]
    exact ⟨has, List.forall_mem_cons.mpr ⟨hPa, hPas⟩⟩

/-- What says the same expands types to the same. -/
theorem Shortens.expand_eq (h : s.Shortens s') (hs : s.WellFormed) (t : Ty) :
    s'.expand t = s.expand t := by
  apply hs.eq_of_ground (h.free_iff.mp (h.wellFormed.free_expand t)) (hs.free_expand t)
  intro ρ hρ
  rw [ground_expand hρ, ground_expand (h.holds.mpr hρ)]

theorem shortens_applyWithin (hs : s.WellFormed) (depth : Nat) (t : Ty) :
    s.Shortens (applyWithin depth t s).2 := by
  induction depth generalizing s t with
  | zero => exact hs.shortens_self
  | succ depth ih =>
    have hx := hs.shortens_relink t
    rw [applyWithin_succ]
    generalize s.root t = u at hx ⊢
    cases u with
    | int | bool | var => exact hx
    | func params ret =>
      have hp := mapM_induction (I := s.Shortens) (P := fun _ => True) params
        (fun {_ p} _ h => ⟨h.trans (ih h.wellFormed p), trivial⟩) hx
      exact hp.1.trans (ih hp.1.wellFormed ret)

end Subst

end Implet
