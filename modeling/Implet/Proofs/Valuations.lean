/-
Implet/Proofs/Valuations.lean

What types stand for.  A `Ground` type has no variables; a valuation gives each
type variable a ground type, and `Ty.ground` extends it to all types.

A substitution is read as a set of requirements on a valuation: `Subst.Holds`
says that each linked variable has the value of the type it is linked to, and
that each marked variable has a base type.  The less a substitution knows, the
more valuations it holds of, and what is true of a type under all of them is
what is known about it.
-/
import Mathlib.Data.List.Basic
import Implet.Ty.Subst

namespace Implet

/-- Types without variables. -/
inductive Ground where
  | int
  | bool
  | func (params : List Ground) (result : Ground)
  deriving Inhabited

namespace Ground

/-- The types whose values can be compared. -/
def IsBase : Ground → Prop
  | int | bool => True
  | func _ _ => False

mutual

/-- The number of nodes of a ground type. -/
def size : Ground → Nat
  | int | bool => 1
  | func params result => sizes params + result.size + 1

/-- The number of nodes of a list of ground types. -/
def sizes : List Ground → Nat
  | [] => 0
  | g :: gs => g.size + sizes gs

end

theorem size_le_sizes {g : Ground} {gs : List Ground} (h : g ∈ gs) :
    g.size ≤ sizes gs := by
  induction gs with
  | nil => cases h
  | cons g' gs ih =>
    rw [sizes]
    rcases List.mem_cons.mp h with rfl | h
    · omega
    · have := ih h
      omega

end Ground

/-! ### Types node by node -/

namespace Ty

/-- Induction on a type, with the parameters of a function type taken together. -/
@[elab_as_elim, induction_eliminator]
theorem induction {P : Ty → Prop} (int : P int) (bool : P bool) (var : ∀ n, P (var n))
    (func : ∀ params ret, (∀ p ∈ params, P p) → P ret → P (func params ret)) (t : Ty) : P t :=
  -- the recursor takes lists of types for a kind of their own
  @Ty.rec P (fun ts => ∀ t ∈ ts, P t) int bool var func
    (fun _ h => nomatch h)
    (fun _ _ ht hts _ h => (List.mem_cons.mp h).elim (fun e => e ▸ ht) (hts _)) t

theorem varsList_eq (ts : List Ty) : varsList ts = ts.flatMap vars := by
  induction ts with
  | nil => rfl
  | cons t ts ih => rw [varsList, ih, List.flatMap_cons]

theorem substList_eq (f : Nat → Ty) (ts : List Ty) :
    substList f ts = ts.map (subst f) := by
  induction ts with
  | nil => rfl
  | cons t ts ih => rw [substList, ih, List.map_cons]

@[simp] theorem vars_int : int.vars = [] := rfl

@[simp] theorem vars_bool : bool.vars = [] := rfl

@[simp] theorem vars_var (n : Nat) : (var n).vars = [n] := rfl

@[simp] theorem vars_func (params : List Ty) (ret : Ty) :
    (func params ret).vars = params.flatMap vars ++ ret.vars := by
  rw [vars, varsList_eq]

@[simp] theorem subst_int (f : Nat → Ty) : int.subst f = int := rfl

@[simp] theorem subst_bool (f : Nat → Ty) : bool.subst f = bool := rfl

@[simp] theorem subst_var (f : Nat → Ty) (n : Nat) : (var n).subst f = f n := rfl

@[simp] theorem subst_func (f : Nat → Ty) (params : List Ty) (ret : Ty) :
    (func params ret).subst f = func (params.map (subst f)) (ret.subst f) := by
  rw [subst, substList_eq]

theorem subst_congr {f g : Nat → Ty} {t : Ty} (h : ∀ n ∈ t.vars, f n = g n) :
    t.subst f = t.subst g := by
  induction t with
  | int | bool => rfl
  | var n => exact h n (by simp)
  | func params ret hp hr =>
    rw [subst_func, subst_func, hr fun n hn => h n (by simp [hn])]
    congr 1
    refine List.map_congr_left fun p hpm => hp p hpm fun n hn => h n ?_
    simp only [vars_func, List.mem_append, List.mem_flatMap]
    exact Or.inl ⟨p, hpm, hn⟩

theorem subst_id (t : Ty) : t.subst var = t := by
  induction t with
  | int | bool | var => rfl
  | func params ret hp hr =>
    rw [subst_func, hr, List.map_congr_left hp, List.map_id']

theorem subst_subst (f g : Nat → Ty) (t : Ty) :
    (t.subst f).subst g = t.subst fun n => (f n).subst g := by
  induction t with
  | int | bool | var => rfl
  | func params ret hp hr =>
    rw [subst_func, subst_func, subst_func, hr, List.map_map]
    congr 1
    exact List.map_congr_left fun p hpm => hp p hpm

theorem mem_vars_subst {f : Nat → Ty} {t : Ty} {m : Nat} :
    m ∈ (t.subst f).vars ↔ ∃ n ∈ t.vars, m ∈ (f n).vars := by
  induction t with
  | int | bool => simp
  | var => simp
  | func params ret hp hr =>
    simp only [subst_func, vars_func, List.mem_append, List.mem_flatMap, List.mem_map,
      exists_exists_and_eq_and, hr]
    constructor
    · rintro (⟨p, hpm, hm⟩ | ⟨n, hn, hm⟩)
      · obtain ⟨n, hn, hm⟩ := (hp p hpm).mp hm
        exact ⟨n, Or.inl ⟨p, hpm, hn⟩, hm⟩
      · exact ⟨n, Or.inr hn, hm⟩
    · rintro ⟨n, ⟨p, hpm, hn⟩ | hn, hm⟩
      · exact Or.inl ⟨p, hpm, (hp p hpm).mpr ⟨n, hn, hm⟩⟩
      · exact Or.inr ⟨n, hn, hm⟩

end Ty

/-! ### Valuations -/

/-- A ground type for each type variable. -/
abbrev Valuation := Nat → Ground

namespace Ty

variable (ρ : Valuation)

mutual

/-- What a type stands for under a valuation. -/
def ground : Ty → Ground
  | int => .int
  | bool => .bool
  | var n => ρ n
  | func params ret => .func (grounds params) ret.ground

/-- What the types of a list stand for under a valuation. -/
def grounds : List Ty → List Ground
  | [] => []
  | t :: ts => t.ground :: grounds ts

end

variable {ρ}

theorem grounds_eq (ts : List Ty) : grounds ρ ts = ts.map (ground ρ) := by
  induction ts with
  | nil => rfl
  | cons t ts ih => rw [grounds, ih, List.map_cons]

@[simp] theorem ground_int : int.ground ρ = .int := rfl

@[simp] theorem ground_bool : bool.ground ρ = .bool := rfl

@[simp] theorem ground_var (n : Nat) : (var n).ground ρ = ρ n := rfl

@[simp] theorem ground_func (params : List Ty) (ret : Ty) :
    (func params ret).ground ρ = .func (params.map (ground ρ)) (ret.ground ρ) := by
  rw [ground, grounds_eq]

theorem ground_subst (f : Nat → Ty) (t : Ty) :
    (t.subst f).ground ρ = t.ground fun n => (f n).ground ρ := by
  induction t with
  | int | bool | var => rfl
  | func params ret hp hr =>
    rw [subst_func, ground_func, ground_func, hr, List.map_map]
    congr 1
    exact List.map_congr_left fun p hpm => hp p hpm

theorem size_ground_lt_param {params : List Ty} {ret p : Ty} (h : p ∈ params) :
    (p.ground ρ).size < ((func params ret).ground ρ).size := by
  rw [ground_func, Ground.size]
  have := Ground.size_le_sizes (List.mem_map_of_mem (f := ground ρ) h)
  omega

theorem size_ground_lt_ret {params : List Ty} {ret : Ty} :
    (ret.ground ρ).size < ((func params ret).ground ρ).size := by
  rw [ground_func, Ground.size]
  omega

/-- A part of a function type is worth less than the whole. -/
theorem size_ground_lt_part {params : List Ty} {ret p : Ty} (hp : p ∈ params ++ [ret])
    (ρ : Valuation) : (p.ground ρ).size < ((func params ret).ground ρ).size := by
  rcases List.mem_append.mp hp with hp | hp
  · exact size_ground_lt_param hp
  · rw [List.mem_singleton.mp hp]
    exact size_ground_lt_ret

end Ty

namespace Subst

/-- What a substitution requires of a valuation. -/
structure Holds (s : Subst) (ρ : Valuation) : Prop where
  link : ∀ {n t}, s.link? n = some t → ρ n = t.ground ρ
  base : ∀ {n}, n ∈ s.baseOnly → (ρ n).IsBase

end Subst

end Implet
