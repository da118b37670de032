/-
Implet/Proofs/Scopes.lean

How scopes answer.  Looking a name up, declaring and assigning are described by
one equation or one case distinction each, so that what uses scopes need not
open them.  `Scope.All` says that all values in a scope have a property.

Two scopes can hold different things under the same names: `Scope.Related R`
says that they have the same frames with the same names, and that what they hold
under a name is related by `R`.  Looking a name up in related scopes gives
related answers, and declaring, assigning, entering and leaving keep them
related.
-/
import Mathlib.Data.List.Forall2
import Implet.Scope.Basic

namespace Implet

variable {V W : Type}

/-! ### Frames -/

namespace Frame

/-- The names that a frame binds, the latest declaration first. -/
def names (f : Frame V) : List String := f.map (·.1)

@[simp] theorem names_nil : names ([] : Frame V) = [] := rfl

@[simp] theorem names_cons (b : String × V) (f : Frame V) :
    names (b :: f) = b.1 :: names f := rfl

@[simp] theorem get?_nil (name : String) : get? ([] : Frame V) name = none := rfl

@[simp] theorem get?_cons (b : String × V) (f : Frame V) (name : String) :
    get? (b :: f) name = if b.1 = name then some b.2 else get? f name := by
  by_cases h : b.1 = name <;> simp [get?, h]

theorem has_iff {f : Frame V} {name : String} : f.has name = true ↔ name ∈ f.names := by
  simp [has, names]

theorem get?_eq_none_iff {f : Frame V} {name : String} :
    f.get? name = none ↔ name ∉ f.names := by
  induction f with
  | nil => simp
  | cons b f ih =>
    by_cases h : b.1 = name
    · simp [h]
    · simp [h, ih, Ne.symm h]

theorem get?_isSome_iff {f : Frame V} {name : String} :
    (f.get? name).isSome ↔ name ∈ f.names := by
  rw [← not_iff_not, ← get?_eq_none_iff]
  simp

theorem get?_append (f g : Frame V) (name : String) :
    get? (f ++ g) name = (f.get? name).or (g.get? name) := by
  induction f with
  | nil => simp
  | cons b f ih =>
    by_cases h : b.1 = name <;> simp [h, ih]

@[simp] theorem names_set (f : Frame V) (name : String) (v : V) :
    names (f.set name v) = f.names := by
  simp only [names, Frame.set, List.map_map]
  refine List.map_congr_left fun b _ => ?_
  by_cases hn : b.1 = name <;> simp [hn]

theorem set_cons (b : String × V) (f : Frame V) (name : String) (v : V) :
    Frame.set (b :: f) name v = (if b.1 = name then (b.1, v) else b) :: Frame.set f name v := rfl

theorem set_of_not_mem {f : Frame V} {name : String} (v : V) (h : name ∉ f.names) :
    Frame.set f name v = f := by
  induction f with
  | nil => rfl
  | cons b f ih =>
    rw [names_cons, List.mem_cons, not_or] at h
    rw [set_cons, if_neg (Ne.symm h.1), ih h.2]

end Frame

/-! ### Looking up and assigning -/

namespace Scope

@[simp] theorem get?_nil (name : String) : (⟨[]⟩ : Scope V).get? name = none := rfl

@[simp] theorem get?_cons (f : Frame V) (fs : List (Frame V)) (name : String) :
    (⟨f :: fs⟩ : Scope V).get? name = (f.get? name).or ((⟨fs⟩ : Scope V).get? name) := by
  cases h : f.get? name <;> simp [Scope.get?, List.findSome?, h]

@[simp] theorem frames_enter (s : Scope V) : s.enter.frames = [] :: s.frames := rfl

theorem lookup_eq_ok_iff {s : Scope V} {name : String} {v : V} :
    s.lookup name = .ok v ↔ s.get? name = some v := by
  unfold lookup
  cases s.get? name <;> simp

theorem lookup_of_get? {s : Scope V} {name : String} {v : V} (h : s.get? name = some v) :
    s.lookup name = .ok v := lookup_eq_ok_iff.mpr h

theorem lookup_of_not_get? {s : Scope V} {name : String} (h : s.get? name = none) :
    s.lookup name = .error (.undeclared name) := by
  simp [lookup, h]

/-- Declaring a name in the innermost frame. -/
theorem declare_of_not_mem {f : Frame V} {fs : List (Frame V)} {name : String} (v : V)
    (h : name ∉ f.names) :
    (⟨f :: fs⟩ : Scope V).declare name v = .ok ⟨((name, v) :: f) :: fs⟩ := by
  have hf : f.has name ≠ true := fun hf => h (Frame.has_iff.mp hf)
  simp [declare, hf]

theorem declare_of_mem {f : Frame V} {fs : List (Frame V)} {name : String} (v : V)
    (h : name ∈ f.names) :
    (⟨f :: fs⟩ : Scope V).declare name v = .error (.duplicate name) := by
  simp [declare, Frame.has_iff.mpr h]

theorem declare_eq_ok {s t : Scope V} {name : String} {v : V}
    (h : s.declare name v = .ok t) :
    ∃ f fs, s.frames = f :: fs ∧ name ∉ f.names ∧ t = ⟨((name, v) :: f) :: fs⟩ := by
  obtain ⟨_ | ⟨f, fs⟩⟩ := s
  · simp [declare] at h
  · by_cases hf : name ∈ f.names
    · rw [declare_of_mem v hf] at h
      cases h
    · rw [declare_of_not_mem v hf] at h
      exact ⟨f, fs, rfl, hf, (Except.ok.inj h).symm⟩

/-! ### What the values of a scope have in common -/

section All

variable {P P' : V → Prop} {s s' : Scope V} {x : String} {v : V}

/-- All values that a scope binds have a property. -/
def All (P : V → Prop) (s : Scope V) : Prop := ∀ f ∈ s.frames, ∀ b ∈ f, P b.2

theorem All.mono (h : s.All P) (hP : ∀ v, P v → P' v) : s.All P' :=
  fun f hf b hb => hP _ (h f hf b hb)

theorem all_initial : (initial : Scope V).All P := by
  intro f hf b hb
  obtain rfl := List.mem_singleton.mp hf
  cases hb

theorem All.enter (h : s.All P) : s.enter.All P := by
  intro f hf b hb
  rcases List.mem_cons.mp hf with rfl | hf
  · cases hb
  · exact h f hf b hb

theorem All.exit (h : s.All P) (he : s.exit = .ok s') : s'.All P := by
  obtain ⟨_ | ⟨f, fs⟩⟩ := s
  · cases he
  · cases he
    exact fun g hg => h g (List.mem_cons_of_mem _ hg)

theorem All.lookup (h : s.All P) (hx : s.lookup x = .ok v) : P v := by
  obtain ⟨f, hf, hv⟩ := List.exists_of_findSome?_eq_some (lookup_eq_ok_iff.mp hx)
  obtain ⟨b, hb, rfl⟩ := Option.map_eq_some_iff.mp hv
  exact h f hf b (List.mem_of_find?_eq_some hb)

theorem All.globals (h : s.All P) : ∀ b ∈ s.globals, P b.2 := by
  intro b hb
  rw [Scope.globals] at hb
  split at hb
  · next f hf => exact h f (List.mem_of_getLast? hf) b (List.mem_mergeSort.mp hb)
  · cases hb

theorem All.declare (h : s.All P) (hv : P v) (hd : s.declare x v = .ok s') :
    s'.All P := by
  obtain ⟨f, fs, hs, -, rfl⟩ := declare_eq_ok hd
  rw [All, hs] at h
  intro g hg b hb
  rcases List.mem_cons.mp hg with rfl | hg
  · rcases List.mem_cons.mp hb with rfl | hb
    · exact hv
    · exact h f List.mem_cons_self b hb
  · exact h g (List.mem_cons_of_mem _ hg) b hb

theorem All.assign (h : s.All P) (hv : P v) (ha : s.assign x v = .ok s') : s'.All P := by
  have hset : ∀ {f : Frame V}, (∀ b ∈ f, P b.2) → ∀ b ∈ f.set x v, P b.2 := by
    intro f hf b hb
    obtain ⟨b', hb', rfl⟩ := List.mem_map.mp hb
    split
    · exact hv
    · exact hf b' hb'
  have hin : ∀ {fs fs' : List (Frame V)}, (⟨fs⟩ : Scope V).All P → assignIn x v fs = some fs' →
      (⟨fs'⟩ : Scope V).All P := by
    intro fs
    induction fs with
    | nil => exact fun _ h => nomatch h
    | cons f fs ih =>
      intro fs' h ha
      have hf := h f List.mem_cons_self
      have hfs : (⟨fs⟩ : Scope V).All P := fun g hg => h g (List.mem_cons_of_mem _ hg)
      rw [assignIn] at ha
      split at ha
      · cases ha
        exact List.forall_mem_cons.mpr ⟨hset hf, hfs⟩
      · obtain ⟨gs, hgs, rfl⟩ := Option.map_eq_some_iff.mp ha
        exact List.forall_mem_cons.mpr ⟨hf, ih hfs hgs⟩
  unfold Scope.assign at ha
  split at ha
  · next fs hfs =>
    cases ha
    exact hin h hfs
  · cases ha

end All

end Scope

/-! ### Related scopes -/

/-- Frames that bind the same names in the same order, no name twice, to related
values. -/
structure Frame.Related (R : V → W → Prop) (f : Frame V) (g : Frame W) : Prop where
  nodup : f.names.Nodup
  bindings : List.Forall₂ (fun b c => c.1 = b.1 ∧ R b.2 c.2) f g

/-- Scopes with related frames. -/
def Scope.Related (R : V → W → Prop) (s : Scope V) (t : Scope W) : Prop :=
  List.Forall₂ (Frame.Related R) s.frames t.frames

namespace Frame.Related

variable {R : V → W → Prop} {f : Frame V} {g : Frame W}

theorem nil : Related R ([] : Frame V) ([] : Frame W) := ⟨List.nodup_nil, .nil⟩

theorem cons (h : Related R f g) {name : String} {v : V} {w : W} (hn : name ∉ f.names)
    (hv : R v w) : Related R ((name, v) :: f) ((name, w) :: g) :=
  ⟨List.nodup_cons.mpr ⟨hn, h.nodup⟩, .cons ⟨rfl, hv⟩ h.bindings⟩

theorem names_eq (h : Related R f g) : g.names = f.names := by
  have hb := h.bindings
  clear h
  induction hb with
  | nil => rfl
  | cons hb _ ih => rw [names_cons, names_cons, hb.1, ih]

theorem mono {R' : V → W → Prop} (hR : ∀ v w, R v w → R' v w) (h : Related R f g) :
    Related R' f g :=
  ⟨h.nodup, h.bindings.imp fun _ _ hb => ⟨hb.1, hR _ _ hb.2⟩⟩

/-- A name is bound in both of two related frames or in neither. -/
theorem get? (h : Related R f g) (name : String) :
    (f.get? name = none ∧ g.get? name = none) ∨
      ∃ v w, f.get? name = some v ∧ g.get? name = some w ∧ R v w := by
  have hb := h.bindings
  clear h
  induction hb with
  | nil => exact Or.inl ⟨rfl, rfl⟩
  | @cons b c f g hb _ ih =>
    by_cases hn : b.1 = name
    · exact Or.inr ⟨b.2, c.2, by simp [hn], by simp [hb.1, hn], hb.2⟩
    · simpa [hb.1, hn] using ih

theorem set (h : Related R f g) {name : String} {v : V} {w : W}
    (hw : g.get? name = some w) (hv : R v w) : Related R (f.set name v) g := by
  refine ⟨by rw [names_set]; exact h.nodup, ?_⟩
  obtain ⟨hd, hb⟩ := h
  induction hb with
  | nil => cases hw
  | @cons b c f g hb hbs ih =>
    rw [names_cons, List.nodup_cons] at hd
    rw [get?_cons, hb.1] at hw
    rw [set_cons]
    by_cases hn : b.1 = name
    · -- the name is bound here, so no later binding is touched
      rw [if_pos hn] at hw
      obtain rfl := Option.some.inj hw
      rw [if_pos hn, set_of_not_mem v (hn ▸ hd.1)]
      exact .cons ⟨hb.1, hv⟩ hbs
    · rw [if_neg hn] at hw
      rw [if_neg hn]
      exact .cons hb (ih hw hd.2)

end Frame.Related

namespace Scope.Related

variable {R : V → W → Prop} {s : Scope V} {t : Scope W}

theorem mono {R' : V → W → Prop} (hR : ∀ v w, R v w → R' v w) (h : Related R s t) :
    Related R' s t :=
  List.Forall₂.imp (fun _ _ hf => hf.mono hR) h

theorem enter (h : Related R s t) : Related R s.enter t.enter := .cons .nil h

/-- A name is bound in both of two related scopes or in neither. -/
theorem get? (h : Related R s t) (name : String) :
    (s.get? name = none ∧ t.get? name = none) ∨
      ∃ v w, s.get? name = some v ∧ t.get? name = some w ∧ R v w := by
  obtain ⟨fs⟩ := s
  obtain ⟨gs⟩ := t
  change List.Forall₂ (Frame.Related R) fs gs at h
  induction h with
  | nil => exact Or.inl ⟨rfl, rfl⟩
  | @cons f g fs gs hf _ ih =>
    rcases hf.get? name with ⟨hf, hg⟩ | ⟨v, w, hf, hg, hvw⟩
    · simpa [hf, hg] using ih
    · exact Or.inr ⟨v, w, by simp [hf], by simp [hg], hvw⟩

theorem get?_right (h : Related R s t) {name : String} {w : W}
    (hw : t.get? name = some w) :
    ∃ v, s.get? name = some v ∧ R v w := by
  rcases h.get? name with ⟨-, ht⟩ | ⟨v, w', hs, ht, hvw⟩
  · rw [ht] at hw
    cases hw
  · rw [ht] at hw
    obtain rfl := Option.some.inj hw
    exact ⟨v, hs, hvw⟩

/-- Assigning a related value to a bound name keeps scopes related. -/
theorem assign (h : Related R s t) {name : String} {v : V} {w : W}
    (hw : t.get? name = some w)
    (hv : R v w) : ∃ s', s.assign name v = .ok s' ∧ Related R s' t := by
  obtain ⟨fs⟩ := s
  obtain ⟨gs⟩ := t
  change List.Forall₂ (Frame.Related R) fs gs at h
  suffices H : ∃ fs', assignIn name v fs = some fs' ∧ List.Forall₂ (Frame.Related R) fs' gs by
    obtain ⟨fs', ha, hr⟩ := H
    exact ⟨⟨fs'⟩, by simp [Scope.assign, ha], hr⟩
  induction h with
  | nil => cases hw
  | @cons f g fs gs hf hfs ih =>
    rw [get?_cons] at hw
    by_cases hn : name ∈ f.names
    · obtain ⟨w', hw'⟩ := Option.isSome_iff_exists.mp
        (Frame.get?_isSome_iff.mpr (hf.names_eq ▸ hn : name ∈ g.names))
      rw [hw', Option.some_or] at hw
      obtain rfl := Option.some.inj hw
      exact ⟨f.set name v :: fs, by simp [assignIn, Frame.has_iff.mpr hn],
        .cons (hf.set hw' hv) hfs⟩
    · have hg : g.get? name = none := Frame.get?_eq_none_iff.mpr (hf.names_eq ▸ hn)
      rw [hg, Option.none_or] at hw
      obtain ⟨fs', ha, hr⟩ := ih hw
      have hnf : f.has name ≠ true := fun hh => hn (Frame.has_iff.mp hh)
      exact ⟨f :: fs', by simp [assignIn, hnf, ha], .cons hf hr⟩

end Scope.Related

end Implet
