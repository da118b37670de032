/-
Implet/Proofs/Applying.lean

The type that `apply` comes back with is the pure expansion of the type it was
given (`WellFormed.apply_eq_expand`), as both have the value of the type and no
linked variable in them.  What has to be shown besides is that `apply` goes deep
enough: it meets no type twice on the way down, so the depth that is fixed at
the start is never used up.
-/
import Implet.Proofs.Unifying

namespace Implet.Subst

variable {s s' s'' : Subst} {ρ : Valuation} {U : List Ty}

/-- `seen` are the function types above the type.  The depth that is left
exceeds the number of types that have not been met, so it is not used up. -/
theorem free_applyWithin (hP : Ty.PartsClosed U) {depth : Nat} {t : Ty} {seen : List Ty}
    (hs : s.WellFormed) (hU : s.Within U) (ht : t ∈ U) (hseen : Above U seen s t)
    (hdepth : U.length < depth + seen.length) :
    (applyWithin depth t s).2.Within U ∧ s.Free (applyWithin depth t s).1 := by
  induction depth generalizing s t seen with
  | zero =>
    have := hseen.length_le
    omega
  | succ depth ih =>
    have hx := hs.shortens_relink t
    have hU₁ := hU.relink ht
    have hroot : s.root t ∈ U := root_mem hU ht
    have hfree : ∀ n, s.root t = .var n → s.link? n = none := fun n hn => hs.root_free hn
    have hseen₁ := hseen.root hs
    rw [applyWithin_succ]
    generalize s.root t = u at hx hU₁ hroot hfree hseen₁ ⊢
    generalize s.relink (s.chain t) u = s₁ at hx hU₁ hseen₁ ⊢
    cases u with
    | int | bool => exact ⟨hU₁, fun n hn => by simp at hn⟩
    | var m =>
      refine ⟨hU₁, fun n hn => ?_⟩
      rw [Ty.vars_var, List.mem_singleton] at hn
      exact hn ▸ hfree m rfl
    | func params ret =>
      have hdepth' : U.length < depth + (Ty.func params ret :: seen).length := by
        rw [List.length_cons]
        omega
      -- each part lies one step further down
      have hpart : ∀ {s₂ p}, p ∈ params ++ [ret] → s₁.Shortens s₂ ∧ s₂.Within U →
          (s₁.Shortens (applyWithin depth p s₂).2 ∧ (applyWithin depth p s₂).2.Within U) ∧
            s.Free (applyWithin depth p s₂).1 := by
        intro s₂ p hp ⟨hx₂, hU₂⟩
        have habove := hseen₁.part hx.wellFormed hroot hp hx₂.extends
        obtain ⟨hW, hF⟩ := ih hx₂.wellFormed hU₂ (hP.part hroot hp) habove hdepth'
        exact ⟨⟨hx₂.trans (shortens_applyWithin hx₂.wellFormed depth p), hW⟩,
          (hx.trans hx₂).free_iff.mp hF⟩
      obtain ⟨hparams, hps⟩ := mapM_induction (I := fun s₂ => s₁.Shortens s₂ ∧ s₂.Within U)
        (P := s.Free) params (fun hp h => hpart (List.mem_append_left _ hp) h)
        ⟨hx.wellFormed.shortens_self, hU₁⟩
      obtain ⟨⟨-, hU₃⟩, hr⟩ := hpart List.mem_concat_self hparams
      refine ⟨hU₃, fun n hn => ?_⟩
      rcases List.mem_append.mp (Ty.vars_func _ _ ▸ hn) with hn | hn
      · obtain ⟨q, hq, hn⟩ := List.mem_flatMap.mp hn
        exact hps q hq n hn
      · exact hr n hn

theorem WellFormed.shortens_apply (hs : s.WellFormed) (t : Ty) :
    s.Shortens (apply t s).2 :=
  shortens_applyWithin hs _ t

/-- Applying a substitution expands a type. -/
theorem WellFormed.apply_eq_expand (hs : s.WellFormed) (t : Ty) :
    (apply t s).1 = s.expand t := by
  obtain ⟨U, hP, hU, ht, hlen⟩ := s.exists_parts [t]
  have hfree := (free_applyWithin hP hs hU (ht List.mem_cons_self) .nil hlen).2
  apply hs.eq_of_ground hfree (hs.free_expand t)
  intro ρ hρ
  rw [ground_expand hρ]
  exact (applied_apply hs t).ground ((hs.shortens_apply t).holds.mpr hρ)

/-- Applying a substitution to what the members of a list hold. -/
theorem WellFormed.mapM_apply {α β : Type} (hs : s.WellFormed) (ty : α → Ty)
    (put : α → Ty → β) (as : List α) :
    (as.mapM (fun a => do return put a (← apply (ty a))) s).1
        = as.map (fun a => put a (s.expand (ty a))) ∧
      s.Shortens (as.mapM (fun a => do return put a (← apply (ty a))) s).2 := by
  suffices H : ∀ {s₁ : Subst}, s.Shortens s₁ →
      (as.mapM (fun a => do return put a (← apply (ty a))) s₁).1
          = as.map (fun a => put a (s.expand (ty a))) ∧
        s.Shortens (as.mapM (fun a => do return put a (← apply (ty a))) s₁).2 from
    H hs.shortens_self
  induction as with
  | nil => exact fun h => ⟨rfl, h⟩
  | cons a as ih =>
    intro s₁ h
    obtain ⟨hmap, hlast⟩ := ih (h.trans (h.wellFormed.shortens_apply (ty a)))
    rw [List.mapM_cons, List.map_cons, ← hmap, ← h.expand_eq hs, ← h.wellFormed.apply_eq_expand]
    exact ⟨rfl, hlast⟩

end Implet.Subst
