/-
Implet/Proofs/Linking.lean

Linking a variable.  The variable is looked for in the type that it is to be
linked to, part by part, and the links that are walked for that are shortened.
The answer is the one that reading alone would give (`WellFormed.occursIn_eq`).
On success the variable has the value of the type (`bind_spec`).
-/
import Implet.Proofs.Shortening

namespace Implet.Subst

variable {s s' s'' : Subst} {ρ : Valuation} {U : List Ty}

/-! ### Looking for a variable -/

theorem occurs_of_isBase {t : Ty} (ht : t.isBase) (n : Nat) : s.occurs n t = false := by
  rw [Subst.occurs, WellFormed.expand_eq_subst]
  cases t with
  | int | bool => rfl
  | var | func => cases ht

theorem occurs_func (n : Nat) (params : List Ty) (ret : Ty) :
    s.occurs n (.func params ret) = (params ++ [ret]).any (s.occurs n) := by
  rw [Bool.eq_iff_iff]
  simp [Subst.occurs, expand_func, or_comm, and_comm]

/-- A variable occurs in a type if it does in the root of the type. -/
theorem WellFormed.occurs_root (hs : s.WellFormed) (n : Nat) (t : Ty) :
    s.occurs n (s.root t) = s.occurs n t := by
  rw [occurs, occurs, hs.expand_root]

theorem Shortens.occurs_eq (h : s.Shortens s') (hs : s.WellFormed) (n : Nat) (t : Ty) :
    s'.occurs n t = s.occurs n t := by
  rw [occurs, occurs, h.expand_eq hs]

theorem occursWithin_succ (n depth : Nat) (t : Ty) (s : Subst) :
    occursWithin n (depth + 1) t s = match s.root t with
      | .int | .bool => (false, s.relink (s.chain t) (s.root t))
      | .var m => (decide (m = n), s.relink (s.chain t) (s.root t))
      | .func params ret =>
        (params ++ [ret]).anyM (occursWithin n depth) (s.relink (s.chain t) (s.root t)) := by
  show (match s.root t with
    | .int | .bool => pure false
    | .var m => pure (decide (m = n))
    | .func params ret => (params ++ [ret]).anyM (occursWithin n depth) : StateM Subst Bool)
      (s.relink (s.chain t) (s.root t)) = _
  cases s.root t <;> rfl

theorem anyM_cons {α : Type} (f : α → StateM Subst Bool) (a : α) (as : List α)
    (s : Subst) :
    (a :: as).anyM f s = if (f a s).1 then (true, (f a s).2) else as.anyM f (f a s).2 := by
  show (match (f a s).1 with
    | true => pure true
    | false => as.anyM f : StateM Subst Bool) (f a s).2 = _
  cases (f a s).1 <;> rfl

/-- What holds of the state before each member of a list holds after those that
are tried. -/
theorem anyM_induction {α : Type} {f : α → StateM Subst Bool} {I : Subst → Prop}
    (as : List α)
    (hf : ∀ {s a}, a ∈ as → I s → I (f a s).2) (hs : I s) : I (as.anyM f s).2 := by
  induction as generalizing s with
  | nil => exact hs
  | cons a as ih =>
    have ha := hf List.mem_cons_self hs
    rw [anyM_cons]
    split
    · exact ha
    · exact ih (fun h => hf (List.mem_cons_of_mem _ h)) ha

/-- If the answers are those of a test, so is the answer for the list. -/
theorem anyM_eq_any {α : Type} {f : α → StateM Subst Bool} {I : Subst → Prop}
    {q : α → Bool}
    (as : List α) (hf : ∀ {s a}, a ∈ as → I s → I (f a s).2 ∧ (f a s).1 = q a) (hs : I s) :
    (as.anyM f s).1 = as.any q := by
  induction as generalizing s with
  | nil => rfl
  | cons a as ih =>
    obtain ⟨hI, ha⟩ := hf List.mem_cons_self hs
    rw [anyM_cons, List.any_cons, ← ha]
    cases (f a s).1 with
    | true => rfl
    | false => exact ih (fun h => hf (List.mem_cons_of_mem _ h)) hI

/-- Looking for a variable shortens chains. -/
theorem shortens_occursWithin (hs : s.WellFormed) (n depth : Nat) (t : Ty) :
    s.Shortens (occursWithin n depth t s).2 := by
  induction depth generalizing s t with
  | zero => exact hs.shortens_self
  | succ depth ih =>
    have hx := hs.shortens_relink t
    rw [occursWithin_succ]
    generalize s.root t = u at hx ⊢
    cases u with
    | int | bool | var => exact hx
    | func params ret =>
      exact anyM_induction (I := s.Shortens) _ (fun {_ p} _ h => h.trans (ih h.wellFormed p)) hx

/-- The answer is the one that reading alone gives. -/
theorem occursWithin_eq (hs : s.WellFormed) (n depth : Nat) (t : Ty) :
    (occursWithin n depth t s).1 = s.occurs n t := by
  induction depth generalizing s t with
  | zero => rfl
  | succ depth ih =>
    have hx := hs.shortens_relink t
    have hfree : ∀ m, s.root t = .var m → s.link? m = none := fun m hm => hs.root_free hm
    rw [occursWithin_succ, ← hs.occurs_root]
    generalize s.root t = u at hx hfree ⊢
    cases u with
    | int | bool => exact (occurs_of_isBase rfl n).symm
    | var m =>
      rw [occurs, WellFormed.expand_free (hfree m rfl)]
      simp [eq_comm]
    | func params ret =>
      rw [occurs_func]
      refine anyM_eq_any (I := s.Shortens) _ (fun {s₁ p} _ h => ⟨?_, ?_⟩) hx
      · exact h.trans (shortens_occursWithin h.wellFormed n depth p)
      · rw [ih h.wellFormed, h.occurs_eq hs]

theorem WellFormed.shortens_occursIn (hs : s.WellFormed) (n : Nat) (t : Ty) :
    s.Shortens (occursIn n t s).2 := shortens_occursWithin hs n _ t

theorem WellFormed.occursIn_eq (hs : s.WellFormed) (n : Nat) (t : Ty) :
    (occursIn n t s).1 = s.occurs n t := occursWithin_eq hs n _ t

/-- A variable that is not found does not occur in what the type expands to
afterwards. -/
theorem WellFormed.not_mem_of_occursIn (hs : s.WellFormed) {n : Nat} {t : Ty}
    (h : (occursIn n t s).1 = false) : n ∉ ((occursIn n t s).2.expand t).vars := by
  rw [hs.occursIn_eq, ← (hs.shortens_occursIn n t).occurs_eq hs] at h
  simpa [occurs] using h

/-- All types that are looked into are parts of what is there. -/
theorem Within.occursWithin (hP : Ty.PartsClosed U) (hU : s.Within U) {t : Ty}
    (ht : t ∈ U) (n depth : Nat) : (occursWithin n depth t s).2.Within U := by
  induction depth generalizing s t with
  | zero => exact hU
  | succ depth ih =>
    have hU₁ := hU.relink ht
    have hroot : s.root t ∈ U := root_mem hU ht
    rw [occursWithin_succ]
    generalize s.root t = u at hU₁ hroot ⊢
    cases u with
    | int | bool | var => exact hU₁
    | func params ret =>
      exact anyM_induction (I := fun s => s.Within U) _ (fun hp h => ih h (hP.part hroot hp)) hU₁

/-! ### Linking a free variable -/

theorem bind_run (n : Nat) (t : Ty) (s : Subst) :
    (Subst.bind n t).run s =
      if s.isBound n then (.error (.alreadyBound n), s)
      else
        let s₁ := s.relink (s.chain t) (s.root t)
        let r := s.root t
        if r = .var n then (.ok (), s₁)
        else
          let s₂ := (occursIn n r s₁).2
          if (occursIn n r s₁).1 then
            (do throw (.occursCheck n (← apply r)) : UnifyM Unit).run s₂
          else if s₂.baseOnly.contains n then
            (do requireBase r; modify fun s => { s with links := (n, r) :: s.links } :
              UnifyM Unit).run s₂
          else (.ok (), { s₂ with links := (n, r) :: s₂.links }) := by
  have hget : ∀ {f : Subst → UnifyM Unit} {s : Subst}, (get >>= f).run s = (f s).run s :=
    fun {f s} => run_bind_match get f s
  rw [Subst.bind, hget]
  split
  · rfl
  rw [run_bind_match]
  show (if s.root t = .var n then _ else _ : UnifyM Unit).run (s.relink (s.chain t) (s.root t)) = _
  dsimp only
  split
  · rfl
  rw [run_bind_match]
  show (if (occursIn n (s.root t) (s.relink (s.chain t) (s.root t))).1 then _ else _ :
    UnifyM Unit).run (occursIn n (s.root t) (s.relink (s.chain t) (s.root t))).2 = _
  split
  · rw [run_bind_match, run_bind_match]
    rfl
  rw [hget]
  split <;> rfl

/-- Linking resolves the type; then the variable is that type already, or it is
not found in the type, which takes over a mark on the variable, and is
linked. -/
theorem bind_cases {n : Nat} {t : Ty} (h : (bind n t).run s = (.ok (), s')) :
    let s₁ := s.relink (s.chain t) (s.root t)
    let s₂ := (occursIn n (s.root t) s₁).2
    s.link? n = none ∧ (s.root t = .var n ∧ s' = s₁ ∨
      (occursIn n (s.root t) s₁).1 = false ∧
        ∃ s₃, s' = { s₃ with links := (n, s.root t) :: s₃.links } ∧
          (n ∈ s₂.baseOnly ∧ (requireBase (s.root t)).run s₂ = (.ok (), s₃) ∨
            n ∉ s₂.baseOnly ∧ s₃ = s₂)) := by
  rw [bind_run] at h
  split at h
  · cases (Prod.mk.inj h).1
  next hb =>
  refine ⟨by simpa [isBound] using hb, ?_⟩
  dsimp only at h
  split at h
  · next hr => exact Or.inl ⟨hr, (Prod.mk.inj h).2.symm⟩
  split at h
  · -- the variable occurs in the type
    obtain ⟨_, _, -, h⟩ := bind_eq_ok.mp h
    exact absurd h throw_ne_ok
  next ho =>
  refine Or.inr ⟨by simpa using ho, ?_⟩
  split at h
  · next hm =>
    obtain ⟨_, s₃, h, h'⟩ := bind_eq_ok.mp h
    exact ⟨s₃, (modify_eq_ok.mp h').symm, Or.inl ⟨by simpa using hm, h⟩⟩
  · next hm => exact ⟨_, (Prod.mk.inj h).2.symm, Or.inr ⟨by simpa using hm, rfl⟩⟩

/-- What linking does between resolving the type and making the link: the
variable is still free and does not occur in the type, which is no linked
variable and has the mark if the variable has it. -/
theorem bind_link (hs : s.WellFormed) {n : Nat} {u : Ty} (hn : s.link? n = none)
    (hu : ∀ m, u = .var m → s.link? m = none) (ho : (occursIn n u s).1 = false)
    (hm : n ∈ (occursIn n u s).2.baseOnly ∧
        (requireBase u).run (occursIn n u s).2 = (.ok (), s') ∨
      n ∉ (occursIn n u s).2.baseOnly ∧ s' = (occursIn n u s).2) :
    s.Extends 0 s' ∧ s'.links = (occursIn n u s).2.links ∧ s'.link? n = none ∧
      n ∉ (s'.expand u).vars ∧ (n ∈ s'.baseOnly → s'.BaseLike u) := by
  have hx := hs.shortens_occursIn n u
  have hn' := (hx.free n).mpr hn
  have ho' := hs.not_mem_of_occursIn ho
  rcases hm with ⟨-, hm⟩ | ⟨hm, rfl⟩
  · obtain ⟨hl, hb⟩ := requireBase_of_free (fun m hm => (hx.free m).mpr (hu m hm)) hm
    refine ⟨hx.extends.trans (requireBase_spec hx.wellFormed hm).1, hl, ?_, ?_, fun _ => hb⟩
    · rw [link?_congr hl, hn']
    · rwa [expand_congr hl]
  · exact ⟨hx.extends, rfl, hn', ho', fun h => absurd h hm⟩

/-- After linking, the variable is the type already, or it has been linked to it
in a substitution in which it could be. -/
theorem WellFormed.bind_ok (hs : s.WellFormed) {n : Nat} {t : Ty}
    (h : (bind n t).run s = (.ok (), s')) :
    let s₁ := s.relink (s.chain t) (s.root t)
    s.root t = .var n ∧ s' = s₁ ∨
      ∃ s₂, s' = { s₂ with links := (n, s.root t) :: s₂.links } ∧ s₁.Extends 0 s₂ ∧
        s₂.links = (occursIn n (s.root t) s₁).2.links ∧ s₂.link? n = none ∧
        n ∉ (s₂.expand (s.root t)).vars ∧ (n ∈ s₂.baseOnly → s₂.BaseLike (s.root t)) := by
  obtain ⟨hn, hr | ⟨ho, s₂, rfl, hm⟩⟩ := bind_cases h
  · exact .inl hr
  · exact .inr ⟨s₂, rfl, bind_link (hs.extends_relink t).wellFormed
      ((isSome_link?_relink t n).mpr hn)
      (fun m hm => (isSome_link?_relink t m).mpr (hs.root_free hm)) ho hm⟩

/-- A variable that has been linked to a type has the value of the type. -/
theorem bind_spec (hs : s.WellFormed) {n : Nat} {t : Ty}
    (h : (bind n t).run s = (.ok (), s')) :
    s.Extends 0 s' ∧ ∀ {ρ}, s'.Holds ρ → ρ n = t.ground ρ := by
  have hx := hs.extends_relink t
  rcases hs.bind_ok h with ⟨hr, rfl⟩ | ⟨s₂, rfl, hx₂, -, hn₂, ho₂, hb⟩
  · refine ⟨hx, ?_⟩
    intro ρ hρ
    rw [← ground_root (hx.holds hρ) t, hr, Ty.ground_var]
  · have hx₃ := hx₂.wellFormed.extends_cons hn₂ ho₂ hb
    refine ⟨(hx.trans hx₂).trans hx₃, ?_⟩
    intro ρ hρ
    rw [hρ.link (n := n) (t := s.root t) (by rw [link?_cons, if_pos rfl]),
      ground_root (hx.holds (hx₂.holds (hx₃.holds hρ)))]

theorem within_bind (hP : Ty.PartsClosed U) (hs : s.WellFormed) (hU : s.Within U)
    {n : Nat} {t : Ty}
    (ht : t ∈ U) (h : (bind n t).run s = (.ok (), s')) : s'.Within U := by
  have hU₁ := hU.relink ht
  rcases hs.bind_ok h with ⟨-, rfl⟩ | ⟨s₂, rfl, -, hl, -⟩
  · exact hU₁
  · have hU₂ := hU₁.occursWithin hP (root_mem hU ht) n
    intro k u hu
    rw [link?_cons] at hu
    split at hu
    · obtain rfl := Option.some.inj hu
      exact root_mem hU ht
    · rw [link?_congr hl] at hu
      exact hU₂ _ hu

end Implet.Subst
