/-
Implet/Proofs/Bounds.lean

Variables are numbered in the order in which they are made, so those that have
been made are those below the next number.  A substitution that mentions only
variables that have been made (`Subst.Bounded`) has nothing to say about the
next one: it is neither linked nor marked, and no linked type has it in it.

An operation on types in which all variables have been made keeps a substitution
like that, whether it succeeds or fails half way, and the types it yields are
like that too.  No types but those it is given and those it finds at the end of
links get into the links.  Nothing has to be known of how the links hang
together, so none of this needs a substitution to be well formed.
-/
import Implet.Proofs.Recursion

namespace Implet

/-! ### Types -/

namespace Ty

variable {n k m : Nat} {t : Ty}

/-- The variables of a type have numbers below `n`. -/
def Below (n : Nat) (t : Ty) : Prop := ∀ m ∈ t.vars, m < n

theorem Below.mono (h : t.Below n) (hn : n ≤ k) :
    t.Below k := fun m hm => (h m hm).trans_le hn

@[simp] theorem below_int : int.Below n := fun _ hm => absurd hm List.not_mem_nil

@[simp] theorem below_bool : bool.Below n := fun _ hm => absurd hm List.not_mem_nil

@[simp] theorem below_var : (var m).Below n ↔ m < n := by
  simp [Below]

@[simp] theorem below_func {params : List Ty} {ret : Ty} :
    (func params ret).Below n ↔ (∀ p ∈ params, p.Below n) ∧ ret.Below n := by
  simp only [Below, vars_func, List.mem_append, List.mem_flatMap]
  constructor
  · exact fun h => ⟨fun p hp m hm => h m (.inl ⟨p, hp, hm⟩), fun m hm => h m (.inr hm)⟩
  · rintro ⟨hp, hr⟩ m (⟨p, hpm, hm⟩ | hm)
    · exact hp p hpm m hm
    · exact hr m hm

theorem below_ofBase (b : BaseType) : (ofBase b).Below n := by
  cases b
  · exact below_int
  · exact below_bool

end Ty

namespace Subst

variable {s : Subst} {n m : Nat} {t : Ty}

/-! ### Substitutions -/

/-- The next variable is `n`, and no link and no mark mentions it or one after it. -/
structure Bounded (n : Nat) (s : Subst) : Prop where
  next : s.next = n
  links : ∀ l ∈ s.links, l.1 < n ∧ l.2.Below n
  marks : ∀ m ∈ s.baseOnly, m < n

theorem bounded_empty : empty.Bounded 0 := ⟨rfl, nofun, nofun⟩

namespace Bounded

theorem link (hs : s.Bounded n) (h : s.link? m = some t) : m < n ∧ t.Below n := by
  obtain ⟨l₁, l₂, hl, -⟩ := List.lookup_eq_some_iff.mp h
  exact hs.links (m, t) (by simp [hl])

theorem fresh (hs : s.Bounded n) : (Subst.fresh s).2.Bounded (n + 1) where
  next := congrArg (· + 1) hs.next
  links l hl := ⟨Nat.lt_succ_of_lt (hs.links l hl).1, (hs.links l hl).2.mono (Nat.le_succ n)⟩
  marks m hm := Nat.lt_succ_of_lt (hs.marks m hm)

theorem mark (hs : s.Bounded n) (hm : m < n) :
    ({ s with baseOnly := s.baseOnly.insert m } : Subst).Bounded n where
  next := hs.next
  links := hs.links
  marks k hk := (List.mem_insert_iff.mp hk).elim (fun e => e ▸ hm) (hs.marks k)

theorem cons (hs : s.Bounded n) (hm : m < n) (ht : t.Below n) :
    ({ s with links := (m, t) :: s.links } : Subst).Bounded n where
  next := hs.next
  links := List.forall_mem_cons.mpr ⟨⟨hm, ht⟩, hs.links⟩
  marks := hs.marks

theorem relink (hs : s.Bounded n) (ns : List Nat) (ht : t.Below n) :
    (s.relink ns t).Bounded n where
  next := hs.next
  links := by
    intro l hl
    obtain ⟨l₀, hl₀, rfl⟩ := List.mem_map.mp hl
    split
    · exact ⟨(hs.links l₀ hl₀).1, ht⟩
    · exact hs.links l₀ hl₀
  marks := hs.marks

theorem root (hs : s.Bounded n) (ht : t.Below n) : (s.root t).Below n :=
  rootWithin_induction ht (fun hl _ => (hs.link hl).2) _

/-! ### Resolving and applying -/

theorem resolve (hs : s.Bounded n) (ht : t.Below n) :
    (resolve t s).2.Bounded n ∧ (resolve t s).1.Below n :=
  ⟨hs.relink (s.chain t) (hs.root ht), hs.root ht⟩

theorem applyWithin (hs : s.Bounded n) (depth : Nat) (ht : t.Below n) :
    (applyWithin depth t s).2.Bounded n ∧ (applyWithin depth t s).1.Below n := by
  induction depth generalizing s t with
  | zero => exact ⟨hs, ht⟩
  | succ depth ih =>
    have hs₁ := (hs.resolve ht).1
    have hroot := hs.root ht
    rw [resolve_eq] at hs₁
    rw [applyWithin_succ]
    generalize s.root t = u at hs₁ hroot ⊢
    cases u with
    | int | bool | var => exact ⟨hs₁, hroot⟩
    | func params ret =>
      obtain ⟨hparams, hret⟩ := Ty.below_func.mp hroot
      obtain ⟨hs₂, hparams'⟩ := mapM_induction (I := Bounded n) (P := Ty.Below n) params
        (fun {_ p} hp h => ih h (hparams p hp)) hs₁
      obtain ⟨hs₃, hret'⟩ := ih hs₂ hret
      exact ⟨hs₃, Ty.below_func.mpr ⟨hparams', hret'⟩⟩

theorem apply (hs : s.Bounded n) (ht : t.Below n) :
    (apply t s).2.Bounded n ∧ (apply t s).1.Below n := hs.applyWithin _ ht

theorem occursWithin (hs : s.Bounded n) (k depth : Nat) (ht : t.Below n) :
    (occursWithin k depth t s).2.Bounded n := by
  induction depth generalizing s t with
  | zero => exact hs
  | succ depth ih =>
    have hs₁ := (hs.resolve ht).1
    have hroot := hs.root ht
    rw [resolve_eq] at hs₁
    rw [occursWithin_succ]
    generalize s.root t = u at hs₁ hroot ⊢
    cases u with
    | int | bool | var => exact hs₁
    | func params ret =>
      obtain ⟨hparams, hret⟩ := Ty.below_func.mp hroot
      have hparts : ∀ p ∈ params ++ [ret], p.Below n :=
        List.forall_mem_append.mpr ⟨hparams, List.forall_mem_singleton.mpr hret⟩
      exact anyM_induction (I := Bounded n) _ (fun {_ p} hp h => ih h (hparts p hp)) hs₁

/-! ### Operations that can fail -/

variable {a b : Ty}

theorem mismatch (hs : s.Bounded n) (ha : a.Below n) (hb : b.Below n) :
    ((do throw (.mismatch (← Subst.apply a) (← Subst.apply b)) : UnifyM Unit).run s).2.Bounded n :=
  ((hs.apply ha).1.apply hb).1

theorem requireBase (hs : s.Bounded n) (ht : t.Below n) :
    ((requireBase t).run s).2.Bounded n := by
  have hs₁ := (hs.resolve ht).1
  have hroot := hs.root ht
  rw [resolve_eq] at hs₁
  rw [requireBase_run]
  generalize s.root t = u at hs₁ hroot ⊢
  cases u with
  | int | bool => exact hs₁
  | var m => exact hs₁.mark (Ty.below_var.mp hroot)
  | func => exact (hs₁.apply hroot).1

theorem bind (hs : s.Bounded n) (hm : m < n) (ht : t.Below n) :
    ((Subst.bind m t).run s).2.Bounded n := by
  have hs₁ := (hs.resolve ht).1
  have hroot := hs.root ht
  rw [resolve_eq] at hs₁
  rw [bind_run]
  split
  · exact hs
  generalize s.root t = u at hs₁ hroot ⊢
  generalize s.relink (s.chain t) u = s₁ at hs₁ ⊢
  dsimp only
  split
  · exact hs₁
  have hs₂ : (Subst.occursIn m u s₁).2.Bounded n := hs₁.occursWithin m _ hroot
  split
  · exact (hs₂.apply hroot).1
  split
  · have hreq := hs₂.requireBase hroot
    rw [run_bind_match]
    rcases hr : (Subst.requireBase u).run (Subst.occursIn m u s₁).2 with ⟨e | _, s₃⟩ <;>
      rw [hr] at hreq
    · exact hreq
    · exact hreq.cons hm hroot
  · exact hs₂.cons hm hroot

theorem widening {action : UnifyM Unit} (h : (action.run s).2.Bounded n) (ha : a.Below n)
    (hb : b.Below n) : ((widening a b action).run s).2.Bounded n := by
  rw [Subst.widening, run_tryCatch]
  rcases hr : action.run s with ⟨e | _, s₁⟩ <;> rw [hr] at h
  · cases e with
    | mismatch => exact h.mismatch ha hb
    | occursCheck | alreadyBound | notBase => exact h
  · exact h

theorem forEachPair {action : Ty → Ty → UnifyM Unit} {as bs : List Ty}
    (hact : ∀ {s : Subst} {a b}, s.Bounded n → a.Below n → b.Below n →
      ((action a b).run s).2.Bounded n)
    (hs : s.Bounded n) (has : ∀ a ∈ as, a.Below n) (hbs : ∀ b ∈ bs, b.Below n) :
    ((forEachPair action as bs).run s).2.Bounded n := by
  induction as generalizing bs s with
  | nil => exact hs
  | cons a as ih =>
    cases bs with
    | nil => exact hs
    | cons b bs =>
      obtain ⟨ha, has⟩ := List.forall_mem_cons.mp has
      obtain ⟨hb, hbs⟩ := List.forall_mem_cons.mp hbs
      have h := hact hs ha hb
      rw [Subst.forEachPair, run_bind_match]
      rcases hr : (action a b).run s with ⟨e | _, s₁⟩ <;> rw [hr] at h
      · exact h
      · exact ih h has hbs

theorem unifyWithin (hs : s.Bounded n) (depth : Nat) (ha : a.Below n) (hb : b.Below n) :
    ((unifyWithin depth a b).run s).2.Bounded n := by
  induction depth generalizing a b s with
  | zero => exact hs
  | succ depth ih =>
    obtain ⟨hs₁, he⟩ := hs.resolve ha
    obtain ⟨hs₂, hf⟩ := hs₁.resolve hb
    have hstep := unifyWithin_step depth a b s
    generalize (Subst.resolve b (Subst.resolve a s).2).2 = s₂ at hs₂ hstep ⊢
    generalize (Subst.resolve a s).1 = e at he hstep
    generalize (Subst.resolve b (Subst.resolve a s).2).1 = f at hf hstep
    generalize (Subst.unifyWithin (depth + 1) a b).run s = r at hstep ⊢
    cases hstep with
    | same => exact hs₂
    | left => exact hs₂.bind (Ty.below_var.mp he) hf
    | right => exact hs₂.bind (Ty.below_var.mp hf) he
    | parts =>
      -- a function type and its parts have the same variables
      have hparts : ∀ {params : List Ty} {ret : Ty}, (Ty.func params ret).Below n →
          ∀ t ∈ params ++ [ret], t.Below n := by
        intro params ret h
        rw [List.forall_mem_append, List.forall_mem_singleton]
        exact Ty.below_func.mp h
      exact forEachPair (fun h ha hb => (ih h ha hb).widening he hf) hs₂ (hparts he) (hparts hf)
    | clash => exact hs₂.mismatch he hf

theorem unify (hs : s.Bounded n) (ha : a.Below n) (hb : b.Below n) :
    ((unify a b).run s).2.Bounded n := hs.unifyWithin _ ha hb

end Bounded

end Subst

end Implet
