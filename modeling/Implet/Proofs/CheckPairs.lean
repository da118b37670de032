/-
Implet/Proofs/CheckPairs.lean

What can be said about two checks side by side.  `Checker.Same E I J p p'` says
that from checkers that `I` relates, two checks both fail, with errors that `E`
relates, or both succeed, with the same result and checkers that `J` relates.
-/
import Implet.Proofs.Checking

namespace Implet.Checker

variable {α β : Type}

/-- From checkers with `I`, two checks fail with errors that `E` relates, or
succeed with the same result and lead to checkers with `J`. -/
def Same (E : TypeError → TypeError → Prop) (I J : Checker → Checker → Prop)
    (p p' : CheckM α) : Prop :=
  ∀ ⦃c c'⦄, I c c' → match p c, p' c' with
    | .ok (a, d), .ok (a', d') => a = a' ∧ J d d'
    | .error e, .error e' => E e e'
    | _, _ => False

variable {E : TypeError → TypeError → Prop} {I J M : Checker → Checker → Prop}

theorem same_pure (a : α) : Same E I I (pure a) (pure a) := fun _ _ h => ⟨rfl, h⟩

theorem same_throw {e e' : TypeError} (h : E e e') :
    Same E I J (throw e : CheckM α) (throw e') := fun _ _ _ => h

/-- How two checks can end that go the same way. -/
theorem Same.cases {p p' : CheckM α} (h : Same E I J p p') {c c' : Checker}
    (hc : I c c') : (∃ e e', p c = .error e ∧ p' c' = .error e' ∧ E e e') ∨
      ∃ a d d', p c = .ok (a, d) ∧ p' c' = .ok (a, d') ∧ J d d' := by
  have hpc := h hc
  rcases h₁ : p c with e | ⟨a, d⟩ <;> rcases h₂ : p' c' with e' | ⟨a', d'⟩ <;>
    rw [h₁, h₂] at hpc
  · exact Or.inl ⟨e, e', rfl, rfl, hpc⟩
  · cases hpc
  · cases hpc
  · obtain ⟨rfl, hd⟩ := hpc
    exact Or.inr ⟨a, d, d', rfl, rfl, hd⟩

theorem Same.bind {p p' : CheckM α} {f f' : α → CheckM β} (hp : Same E I J p p')
    (hf : ∀ a, Same E J M (f a) (f' a)) : Same E I M (p >>= f) (p' >>= f') := by
  intro c c' hc
  have hrun : ∀ (p : CheckM α) (f : α → CheckM β) c,
      (p >>= f) c = (p c >>= fun q => f q.1 q.2) := fun _ _ _ => rfl
  rw [hrun, hrun]
  rcases hp.cases hc with ⟨e, e', h, h', he⟩ | ⟨a, d, d', h, h', hd⟩
  · rw [h, h']
    exact he
  · rw [h, h']
    exact hf a hd

theorem Same.mono {p p' : CheckM α} (h : Same E I J p p') (hJ : ∀ c c', J c c' → M c c') :
    Same E I M p p' := by
  intro c c' hc
  rcases h.cases hc with ⟨e, e', h, h', he⟩ | ⟨a, d, d', h, h', hd⟩
  · rw [h, h']
    exact he
  · rw [h, h']
    exact ⟨rfl, hJ d d' hd⟩

/-- A failure can be reported in another way in each of two checks. -/
theorem Same.catch {p p' : CheckM α} {g g' : TypeError → TypeError} (h : Same Eq I J p p')
    (hg : ∀ e, E (g e) (g' e)) :
    Same E I J (tryCatch p fun e => throw (g e)) (tryCatch p' fun e => throw (g' e)) := by
  intro c c' hc
  have hrun : ∀ (p : CheckM α) (g : TypeError → TypeError) c,
      tryCatch p (fun e => throw (g e)) c = tryCatch (p c) fun e => .error (g e) :=
    fun _ _ _ => rfl
  rw [hrun, hrun]
  rcases h.cases hc with ⟨e, _, h, h', rfl⟩ | ⟨a, d, d', h, h', hd⟩
  · rw [h, h']
    exact hg e
  · rw [h, h']
    exact ⟨rfl, hd⟩

theorem same_mapM {f : β → CheckM α} (hf : ∀ b, Same E I I (f b) (f b)) (bs : List β) :
    Same E I I (bs.mapM f) (bs.mapM f) := by
  induction bs with
  | nil => exact same_pure _
  | cons b bs ih =>
    rw [List.mapM_cons]
    exact (hf b).bind fun a => ih.bind fun as => same_pure _

end Implet.Checker
