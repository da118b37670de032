/-
Implet/Proofs/Layers.lean

Scopes in two runs, one of the code as it is and one of the code with renamed
variables.  They have the same frames, with the same names in the same order but
for the old name in some frames, which is the new name in the other run.  A
`Layer` says of a frame which names it has and whether it is one of these.

A name that code uses is found in the same frame by both runs if the layers are
renamed where the code is: for the old name, the innermost layer that has it has
to be (`Renaming.isOn`), and for other names there is no difference.
-/
import Implet.Proofs.Renaming

namespace Implet

/-- The names that a frame has in the code as it is, and whether the old name is
the new one in the renamed code. -/
structure Layer where
  names : List String
  renamed : Bool

/-- One more name in a layer. -/
def Layer.declare (l : Layer) (x : String) : Layer := { l with names := x :: l.names }

/-- One more name in a layer, unless it has the name. -/
def Layer.declareNew (l : Layer) (x : String) :
    Layer := if x ∈ l.names then l else l.declare x

/-- The names that are declared, on top of those of a layer. -/
def Layer.declared (l : Layer) (ds : List Decl) : Layer :=
  { l with names := (declaredNames ds).reverse ++ l.names }

/-- Whether the innermost layer that has the old name is renamed. -/
def Renaming.isOn (ν : Renaming) : List Layer → Bool
  | [] => false
  | l :: ls => if ν.old ∈ l.names then l.renamed else ν.isOn ls

variable {V W : Type} (ν : Renaming) (R : V → W → Prop)

/-- Two frames have the names of a layer, renamed in the second if the layer is,
bound to related values. -/
structure Frame.Renamed (l : Layer) (f : Frame V) (f' : Frame W) : Prop where
  names : f.names = l.names
  fresh : ν.new ∉ l.names
  bindings : List.Forall₂ (fun b b' => b'.1 = ν.name l.renamed b.1 ∧ R b.2 b'.2) f f'

/-- The frames of two scopes are related layer by layer. -/
inductive FramesRenamed : List Layer → List (Frame V) → List (Frame W) → Prop
  | nil : FramesRenamed [] [] []
  | cons {l ls f fs f' fs'} : Frame.Renamed ν R l f f' → FramesRenamed ls fs fs' →
    FramesRenamed (l :: ls) (f :: fs) (f' :: fs')

/-- Two scopes are related layer by layer. -/
def Scope.Renamed (ls : List Layer) (s : Scope V) (s' : Scope W) : Prop :=
  FramesRenamed ν R ls s.frames s'.frames

variable {ν R} {l : Layer} {ls : List Layer} {on : Bool} {x : String}

theorem Layer.declared_cons (l : Layer) (d : Decl) (ds : List Decl) :
    l.declared (d :: ds) = (l.declare d.name.name).declared ds := by
  simp [declared, declare, declaredNames]

theorem Layer.mem_names_declareNew {l : Layer} {x y : String} :
    y ∈ (l.declareNew x).names ↔ y = x ∨ y ∈ l.names := by
  rw [declareNew]
  split
  · next h => exact ⟨Or.inr, fun hy => hy.elim (fun hy => hy ▸ h) id⟩
  · exact List.mem_cons

theorem Layer.renamed_declareNew {l : Layer} {x : String} :
    (l.declareNew x).renamed = l.renamed := by
  rw [declareNew]
  split <;> rfl

/-- In a block, code is renamed as the block is if it declares the old name, and
as it is outside otherwise. -/
theorem Renaming.isOn_block {on' : Bool} {ds : List Decl} (h : ν.isOn ls = on) :
    ν.isOn (Layer.declared ⟨[], on'⟩ ds :: ls) =
      if ν.old ∈ declaredNames ds then on' else on := by
  simp [isOn, Layer.declared, h]

@[simp] theorem Renaming.isOn_enter (on : Bool) (ls : List Layer) :
    ν.isOn (⟨[], on⟩ :: ls) = ν.isOn ls := by
  simp [isOn]

theorem Renaming.isOn_plain (hl : l.renamed = false) (h : ν.isOn ls = false) :
    ν.isOn (l :: ls) = false := by
  rw [isOn, hl, h, ite_self]

/-! ### Frames -/

namespace Frame.Renamed

variable {f : Frame V} {f' : Frame W}

theorem nil (on : Bool) : Renamed ν R ⟨[], on⟩ ([] : Frame V) ([] : Frame W) :=
  ⟨rfl, List.not_mem_nil, .nil⟩

theorem cons (h : Renamed ν R l f f') (hx : x ≠ ν.new) {v : V} {w : W} (hv : R v w) :
    Renamed ν R (l.declare x) ((x, v) :: f) ((ν.name l.renamed x, w) :: f') := by
  refine ⟨?_, ?_, .cons ⟨rfl, hv⟩ h.bindings⟩
  · rw [names_cons, h.names]
    rfl
  · exact fun hm => (List.mem_cons.mp hm).elim (fun he => hx he.symm) h.fresh

theorem mono {R' : V → W → Prop} (hR : ∀ v w, R v w → R' v w) (h : Renamed ν R l f f') :
    Renamed ν R' l f f' :=
  ⟨h.names, h.fresh, h.bindings.imp fun _ _ hb => ⟨hb.1, hR _ _ hb.2⟩⟩

theorem ne_new (h : Renamed ν R l f f') {b : String × V} (hb : b ∈ f) : b.1 ≠ ν.new := by
  rintro he
  exact h.fresh (h.names ▸ he ▸ List.mem_map_of_mem hb)

/-- What a name becomes is in the second frame if the name is in the first,
unless the name is the old one and the frame is renamed where the code is not,
or the other way round. -/
theorem name_eq_iff (h : Renamed ν R l f f') (hx : x ≠ ν.new)
    (hon : x = ν.old → ν.old ∈ l.names → l.renamed = on) {b : String × V} (hb : b ∈ f) :
    ν.name l.renamed b.1 = ν.name on x ↔ b.1 = x := by
  by_cases hxo : x = ν.old
  · have hbm : b.1 ∈ l.names := h.names ▸ List.mem_map_of_mem hb
    by_cases hm : ν.old ∈ l.names
    · rw [hon hxo hm, ν.name_inj on (h.ne_new hb) hx]
    · -- the old name is not here, and the new one is nowhere
      have hne : b.1 ≠ ν.old := fun he => hm (he ▸ hbm)
      rw [ν.name_of_ne _ hne, hxo]
      refine iff_of_false (fun he => ?_) hne
      cases on with
      | false => exact hne (by rwa [Renaming.name_false] at he)
      | true => exact h.ne_new hb (by rwa [Renaming.name_old] at he)
  · rw [ν.name_of_ne on hxo]
    by_cases hbo : b.1 = ν.old
    · -- another name is not what the old name becomes
      rw [hbo]
      refine iff_of_false (fun he => ?_) (Ne.symm hxo)
      cases hl : l.renamed with
      | false => exact hxo (by rw [hl, Renaming.name_false] at he; exact he.symm)
      | true => exact hx (by rw [hl, Renaming.name_old] at he; exact he.symm)
    · rw [ν.name_of_ne _ hbo]

/-- A name is in both frames or in neither. -/
theorem get? (h : Renamed ν R l f f') (hx : x ≠ ν.new)
    (hon : x = ν.old → ν.old ∈ l.names → l.renamed = on) :
    (f.get? x = none ∧ f'.get? (ν.name on x) = none) ∨
      ∃ v w, f.get? x = some v ∧ f'.get? (ν.name on x) = some w ∧ R v w := by
  have hiff : ∀ b ∈ f, ν.name l.renamed b.1 = ν.name on x ↔ b.1 = x :=
    fun b hb => h.name_eq_iff hx hon hb
  have hb := h.bindings
  clear h hon
  induction hb with
  | nil => exact Or.inl ⟨rfl, rfl⟩
  | @cons b b' f f' hb _ ih =>
    have hbx := hiff b List.mem_cons_self
    rw [← hb.1] at hbx
    by_cases hn : b.1 = x
    · exact Or.inr ⟨b.2, b'.2, by simp [hn], by simp [hbx.mpr hn], hb.2⟩
    · have hn' : b'.1 ≠ ν.name on x := fun he => hn (hbx.mp he)
      simpa [hn, hn'] using ih fun c hc => hiff c (List.mem_cons_of_mem _ hc)

/-- In frames that are not renamed this is so for every name. -/
theorem get?_plain (h : Renamed ν R l f f') (hl : l.renamed = false) (x : String) :
    Option.Rel R (f.get? x) (f'.get? x) := by
  have hb := h.bindings
  rw [hl] at hb
  clear h
  induction hb with
  | nil => exact .none
  | @cons b b' f f' hb _ ih =>
    rw [get?_cons, get?_cons, hb.1, Renaming.name_false]
    by_cases hn : b.1 = x
    · rw [if_pos hn, if_pos hn]
      exact .some hb.2
    · rw [if_neg hn, if_neg hn]
      exact ih

theorem has_iff (h : Renamed ν R l f f') (hx : x ≠ ν.new)
    (hon : x = ν.old → ν.old ∈ l.names → l.renamed = on) :
    f'.has (ν.name on x) = f.has x := by
  rw [Bool.eq_iff_iff, Frame.has_iff, Frame.has_iff, ← Frame.get?_isSome_iff,
    ← Frame.get?_isSome_iff]
  rcases h.get? hx hon with ⟨hf, hf'⟩ | ⟨v, w, hf, hf', -⟩ <;> simp [hf, hf']

theorem set (h : Renamed ν R l f f') (hx : x ≠ ν.new)
    (hon : x = ν.old → ν.old ∈ l.names → l.renamed = on) {v : V} {w : W} (hv : R v w) :
    Renamed ν R l (f.set x v) (f'.set (ν.name on x) w) := by
  refine ⟨by rw [names_set, h.names], h.fresh, ?_⟩
  have hiff : ∀ b ∈ f, ν.name l.renamed b.1 = ν.name on x ↔ b.1 = x :=
    fun b hb => h.name_eq_iff hx hon hb
  have hb := h.bindings
  clear h hon
  induction hb with
  | nil => exact .nil
  | @cons b b' f f' hb _ ih =>
    have hbx := hiff b List.mem_cons_self
    rw [← hb.1] at hbx
    rw [set_cons, set_cons]
    refine .cons ?_ (ih fun c hc => hiff c (List.mem_cons_of_mem _ hc))
    by_cases hn : b.1 = x
    · rw [if_pos hn, if_pos (hbx.mpr hn)]
      exact ⟨hb.1, hv⟩
    · rw [if_neg hn, if_neg fun he => hn (hbx.mp he)]
      exact hb

end Frame.Renamed

/-! ### Scopes -/

namespace Scope.Renamed

variable {s : Scope V} {s' : Scope W}

theorem mono {R' : V → W → Prop} (hR : ∀ v w, R v w → R' v w) (h : Renamed ν R ls s s') :
    Renamed ν R' ls s s' := by
  obtain ⟨fs⟩ := s
  obtain ⟨fs'⟩ := s'
  change FramesRenamed ν R ls fs fs' at h
  show FramesRenamed ν R' ls fs fs'
  induction h with
  | nil => exact .nil
  | cons hf _ ih => exact .cons (hf.mono hR) ih

theorem enter (h : Renamed ν R ls s s') (on : Bool) :
    Renamed ν R (⟨[], on⟩ :: ls) s.enter s'.enter := .cons (.nil on) h

/-- Where a layer has the old name, it decides whether code is renamed. -/
theorem isOn_cons (h : ν.isOn (l :: ls) = on) (hm : ν.old ∈ l.names) :
    l.renamed = on := by
  rwa [Renaming.isOn, if_pos hm] at h

theorem isOn_of_cons (h : ν.isOn (l :: ls) = on) (hm : ν.old ∉ l.names) :
    ν.isOn ls = on := by
  rwa [Renaming.isOn, if_neg hm] at h

/-- A name is found by both runs or by neither. -/
theorem get? (h : Renamed ν R ls s s') (hx : x ≠ ν.new)
    (hon : x = ν.old → ν.isOn ls = on) :
    (s.get? x = none ∧ s'.get? (ν.name on x) = none) ∨
      ∃ v w, s.get? x = some v ∧ s'.get? (ν.name on x) = some w ∧ R v w := by
  obtain ⟨fs⟩ := s
  obtain ⟨fs'⟩ := s'
  change FramesRenamed ν R ls fs fs' at h
  induction h with
  | nil => exact Or.inl ⟨rfl, rfl⟩
  | @cons l ls f fs f' fs' hf _ ih =>
    rcases hf.get? hx fun hxo hm => isOn_cons (hon hxo) hm with ⟨hn, hn'⟩ | ⟨v, w, hv, hw, hvw⟩
    · -- not in this frame, so the layers below decide whether the old name is renamed
      rw [get?_cons, get?_cons, hn, hn', Option.none_or, Option.none_or]
      refine ih fun hxo => isOn_of_cons (hon hxo) ?_
      rw [← hf.names, ← hxo]
      exact Frame.get?_eq_none_iff.mp hn
    · exact Or.inr ⟨v, w, by simp [hv], by simp [hw], hvw⟩

/-- Assigning related values to a name succeeds in both runs or in neither. -/
theorem assign (h : Renamed ν R ls s s') (hx : x ≠ ν.new)
    (hon : x = ν.old → ν.isOn ls = on) {v : V} {w : W} (hv : R v w) :
    (s.assign x v = .error (.undeclared x) ∧
        s'.assign (ν.name on x) w = .error (.undeclared (ν.name on x))) ∨
      ∃ t t', s.assign x v = .ok t ∧ s'.assign (ν.name on x) w = .ok t' ∧
        Renamed ν R ls t t' := by
  obtain ⟨fs⟩ := s
  obtain ⟨fs'⟩ := s'
  change FramesRenamed ν R ls fs fs' at h
  suffices H : (assignIn x v fs = none ∧ assignIn (ν.name on x) w fs' = none) ∨
      ∃ gs gs', assignIn x v fs = some gs ∧ assignIn (ν.name on x) w fs' = some gs' ∧
        FramesRenamed ν R ls gs gs' by
    rcases H with ⟨h₁, h₂⟩ | ⟨gs, gs', h₁, h₂, h⟩
    · exact Or.inl ⟨by simp [Scope.assign, h₁], by simp [Scope.assign, h₂]⟩
    · exact Or.inr ⟨⟨gs⟩, ⟨gs'⟩, by simp [Scope.assign, h₁], by simp [Scope.assign, h₂], h⟩
  induction h with
  | nil => exact Or.inl ⟨rfl, rfl⟩
  | @cons l ls f fs f' fs' hf hfs ih =>
    have hlon : x = ν.old → ν.old ∈ l.names → l.renamed = on := fun hxo => isOn_cons (hon hxo)
    have hhas := hf.has_iff hx hlon
    by_cases hm : f.has x = true
    · refine Or.inr ⟨f.set x v :: fs, f'.set (ν.name on x) w :: fs', ?_, ?_,
        .cons (hf.set hx hlon hv) hfs⟩
      · rw [assignIn, if_pos hm]
      · rw [assignIn, if_pos (hhas.trans hm)]
    · rw [assignIn, assignIn, if_neg hm, if_neg (hhas ▸ hm)]
      have hon' : x = ν.old → ν.isOn ls = on := fun hxo => isOn_of_cons (hon hxo) fun ho =>
        hm (Frame.has_iff.mpr (hf.names ▸ hxo ▸ ho))
      rcases ih hon' with ⟨h₁, h₂⟩ | ⟨gs, gs', h₁, h₂, h⟩
      · exact Or.inl ⟨by rw [h₁]; rfl, by rw [h₂]; rfl⟩
      · exact Or.inr ⟨f :: gs, f' :: gs', by rw [h₁]; rfl, by rw [h₂]; rfl, .cons hf h⟩

/-- Declaring a name in the innermost frame succeeds in both runs or in neither. -/
theorem declare (h : Renamed ν R (l :: ls) s s') (hx : x ≠ ν.new) {v : V} {w : W}
    (hv : R v w) :
    (s.declare x v = .error (.duplicate x) ∧ s'.declare (ν.name l.renamed x) w =
        .error (.duplicate (ν.name l.renamed x))) ∨
      ∃ t t', s.declare x v = .ok t ∧ s'.declare (ν.name l.renamed x) w = .ok t' ∧
        Renamed ν R (l.declare x :: ls) t t' := by
  obtain ⟨fs⟩ := s
  obtain ⟨fs'⟩ := s'
  cases h with
  | @cons _ _ f fs f' fs' hf hfs =>
    have hhas : f'.has (ν.name l.renamed x) = f.has x := hf.has_iff hx fun _ _ => rfl
    by_cases hm : f.has x = true
    · exact Or.inl ⟨if_pos hm, if_pos (hhas.trans hm)⟩
    · exact Or.inr ⟨_, _, if_neg hm, if_neg (hhas ▸ hm), .cons (hf.cons hx hv) hfs⟩

/-- What is declared in an innermost frame that is not renamed. -/
theorem isDeclaredLocally (h : Renamed ν R (l :: ls) s s') (hl : l.renamed = false)
    (hx : x ≠ ν.new) : (s.isDeclaredLocally x = true ↔ x ∈ l.names) ∧
      s'.isDeclaredLocally x = s.isDeclaredLocally x := by
  obtain ⟨fs⟩ := s
  obtain ⟨fs'⟩ := s'
  cases h with
  | @cons _ _ f fs f' fs' hf hfs =>
    have hhas : f'.has (ν.name false x) = f.has x := hf.has_iff hx fun _ _ => hl
    rw [Renaming.name_false] at hhas
    exact ⟨hf.names ▸ Frame.has_iff, hhas⟩

/-- Frames in which nothing is renamed are the same if related values are. -/
theorem eq {s s' : Scope V} (h : Renamed ν Eq ls s s')
    (hls : ∀ l ∈ ls, l.renamed = false) :
    s = s' := by
  obtain ⟨fs⟩ := s
  obtain ⟨fs'⟩ := s'
  change FramesRenamed ν Eq ls fs fs' at h
  rw [Scope.mk.injEq]
  induction h with
  | nil => rfl
  | @cons l ls f fs f' fs' hf _ ih =>
    rw [ih fun l' hl' => hls l' (List.mem_cons_of_mem _ hl')]
    have hb := hf.bindings
    rw [hls l List.mem_cons_self] at hb
    have hff : f = f' := by
      refine List.forall₂_eq_eq_eq ▸ hb.imp fun b b' hbb => ?_
      exact Prod.ext (hbb.1.trans (ν.name_false _)).symm hbb.2
    rw [hff]

end Scope.Renamed

end Implet
