/-
Implet/Proofs/Resolving.lean

Asking for types changes nothing that can be asked for.  Resolving and applying
write to the links while they read them, but only so that walks get shorter:
every root stays where it is (`SameRoots`), and all answers are made of roots.
This is shown for any number of queries in any order (`Subst.Consulted`), so
that no answer depends on what was asked for before.

Main result: queries leave the answers to all queries, the linked variables, the
marks and the next variable as they are; applying leaves nothing to apply, also
after resolving; and all variables on one chain have the same representative
(`Reachable.consulted`).
-/
import Implet.Proofs.Recursion

namespace Implet.Subst

variable {s s' : Subst}

/-! ### Queries -/

/-- `s'` is what `s` becomes when types are resolved and applied. -/
inductive Consulted (s : Subst) : Subst → Prop
  | start : Consulted s s
  | resolve {s' : Subst} (t : Ty) (h : Consulted s s') : Consulted s (resolve t s').2
  | apply {s' : Subst} (t : Ty) (h : Consulted s s') : Consulted s (apply t s').2

/-- Queries move no root. -/
theorem WellFormed.sameRoots_consulted (hs : s.WellFormed) (h : s.Consulted s') :
    s.SameRoots s' := by
  induction h with
  | start => exact hs.sameRoots_self
  | resolve t _ ih => exact ih.trans (ih.right.sameRoots_relink t)
  | apply t _ ih => exact ih.trans (ih.right.sameRoots_apply t)

/-! ### What queries keep -/

/-- Nothing that can be asked of the two substitutions differs. -/
structure Answers (s s' : Subst) : Prop where
  apply : ∀ t, (apply t s').1 = (apply t s).1
  isBound : ∀ n, s'.isBound n = s.isBound n
  baseOnly : s'.baseOnly = s.baseOnly
  next : s'.next = s.next

theorem SameRoots.answers (h : s.SameRoots s') : s.Answers s' :=
  ⟨fun t => (steady_apply t h).1, h.isBound, h.baseOnly, h.next⟩

/-- There is nothing to replace in a type without linked variables. -/
theorem expand_of_free {t : Ty} (ht : s.Free t) : s.expand t = t := by
  rw [WellFormed.expand_eq_subst,
    Ty.subst_congr (g := .var) fun n hn => WellFormed.expand_free (ht n hn), Ty.subst_id]

/-- Applying to a type leaves nothing to apply, and it makes no difference to
resolve first. -/
structure Settles (s : Subst) (t : Ty) : Prop where
  unbound : ∀ n ∈ (apply t s).1.vars, s.isBound n = false
  apply_apply : (apply (apply t s).1 (apply t s).2).1 = (apply t s).1
  apply_resolve : (apply (resolve t s).1 (resolve t s).2).1 = (apply t s).1

theorem WellFormed.settles (hs : s.WellFormed) (t : Ty) : s.Settles t := by
  have hfree := hs.free_expand t
  refine ⟨?_, ?_, ?_⟩
  · intro n hn
    rw [hs.apply_eq_expand] at hn
    simp [isBound, hfree n hn]
  · rw [(steady_apply _ (hs.sameRoots_apply t)).1, hs.apply_eq_expand, hs.apply_eq_expand]
    exact expand_of_free hfree
  · rw [resolve_eq, (steady_apply _ (hs.sameRoots_relink t)).1, hs.apply_eq_expand,
      hs.apply_eq_expand, hs.expand_root]

/-! ### Chains -/

/-- One can come from `n` to `m` along links between variables. -/
def OnChain (s : Subst) : Nat → Nat → Prop :=
  Relation.ReflTransGen fun n m => s.link? n = some (.var m)

theorem WellFormed.root_onChain (hs : s.WellFormed) {n m : Nat} (h : s.OnChain n m) :
    s.root (.var m) = s.root (.var n) := by
  induction h with
  | refl => rfl
  | tail _ h ih => rw [← ih, hs.root_link h]

/-! ### All queries -/

/-- However a substitution has come about, and whatever types are resolved and
applied then. -/
theorem Reachable.consulted (h : s.Reachable) (hs : s.Consulted s') :
    s.Answers s' ∧ (∀ t, s'.Settles t) ∧
    ∀ n m m', s.OnChain n m → s.OnChain n m' →
      (Subst.resolve (.var m) s').1 = (Subst.resolve (.var m') s).1 := by
  have hr := h.wellFormed.sameRoots_consulted hs
  refine ⟨hr.answers, hr.right.settles, ?_⟩
  intro n m m' hm hm'
  rw [(steady_resolve _ hr).1]
  exact (hr.left.root_onChain hm).trans (hr.left.root_onChain hm').symm

/-- A chain of three variables that ends at a function type with a free variable. -/
def chained : Subst :=
  ((Subst.bind 2 (.func [.var 3] .int)).run
    ((Subst.bind 1 (.var 2)).run ((Subst.bind 0 (.var 1)).run empty).2).2).2

theorem consulted_chained :
    chained.Reachable ∧ chained.Consulted (apply (.var 1) (resolve (.var 0) chained).2).2 ∧
    chained.OnChain 0 1 ∧ chained.OnChain 0 2 ∧
    (resolve (.var 2) (apply (.var 1) (resolve (.var 0) chained).2).2).1
      = (resolve (.var 1) chained).1 := by
  have h : chained.Reachable := .bind _ _ (.bind _ _ (.bind _ _ .empty))
  have hs : chained.Consulted (apply (.var 1) (resolve (.var 0) chained).2).2 :=
    .apply _ (.resolve _ .start)
  have h₁ : chained.OnChain 0 1 := .single (by decide +kernel)
  have h₂ : chained.OnChain 0 2 := h₁.tail (by decide +kernel)
  exact ⟨h, hs, h₁, h₂, (h.consulted hs).2.2 0 2 1 h₂ h₁⟩

end Implet.Subst
