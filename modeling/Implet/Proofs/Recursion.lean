/-
Implet/Proofs/Recursion.lean

The operations on substitutions as plain recursions.  The definitions fix in
advance how far an operation goes: a number of steps along a chain, a number of
levels into a type.  Here the same operations are given by rules without any
such bound, one rule for each way a call can go (`Subst.Resolves`,
`Subst.Applies`, `Subst.Searches`, `Subst.Requires`, `Subst.Binds`,
`Subst.Unifies`).  A derivation is the finite tree of the calls that are made,
so that one exists means that the recursion ends.

Main results: from a well-formed substitution every operation has a derivation,
whatever it is asked for, and what the derivation ends with is what the bounded
definition yields (`WellFormed.resolves`, `WellFormed.applies`,
`WellFormed.searches`, `WellFormed.unifies`).  The bounds are never felt.
-/
import Implet.Proofs.MostGeneral
import Implet.Proofs.Roots

namespace Implet

/-! ### Types that differ at the top -/

/-- The types differ at the top, and neither of them is a variable. -/
def Ty.Clashes : Ty → Ty → Prop
  | .int, .bool | .int, .func _ _ | .bool, .int | .bool, .func _ _
  | .func _ _, .int | .func _ _, .bool => True
  | .func params _, .func params' _ => params.length ≠ params'.length
  | _, _ => False

/-- Whatever is put in the place of variables, the types stay different. -/
theorem Ty.Clashes.subst_ne {t u : Ty} (h : t.Clashes u) (σ : Nat → Ty) :
    t.subst σ ≠ u.subst σ := by
  intro he
  cases t <;> cases u <;> simp_all [Clashes]
  exact h (by simpa using congrArg List.length he.1)

namespace Subst

/-! ### The rules -/

/-- Following the links from a type one at a time, back from the end of which
every variable on the way is linked to the end. -/
inductive Resolves : Subst → Ty → Ty → Subst → Prop
  | root {s t} (h : ∀ n, t = .var n → s.link? n = none) : Resolves s t t s
  | link {s s' n t u} (h : s.link? n = some t) (next : Resolves s t u s') :
    Resolves s (.var n) u (s'.relink [n] u)

mutual

/-- Resolving a type, and then the parts of a function type from left to right. -/
inductive Applies : Subst → Ty → Ty → Subst → Prop
  | root {s s' t u} (h : Resolves s t u s') (hu : ∀ params ret, u ≠ .func params ret) :
    Applies s t u s'
  | func {s s₁ s₂ s' t params params' ret ret'} (h : Resolves s t (.func params ret) s₁)
    (hparams : AppliesAll s₁ params params' s₂) (hret : Applies s₂ ret ret' s') :
    Applies s t (.func params' ret') s'

inductive AppliesAll : Subst → List Ty → List Ty → Subst → Prop
  | nil {s} : AppliesAll s [] [] s
  | cons {s s₁ s' t u ts us} (h : Applies s t u s₁) (hs : AppliesAll s₁ ts us s') :
    AppliesAll s (t :: ts) (u :: us) s'

end

mutual

/-- Looking for a variable in what a type resolves to, and in the parts of a
function type from left to right until it is found. -/
inductive Searches (n : Nat) : Subst → Ty → Bool → Subst → Prop
  | base {s s' t u} (h : Resolves s t u s') (hu : u.isBase) : Searches n s t false s'
  | var {s s' t m} (h : Resolves s t (.var m) s') : Searches n s t (decide (m = n)) s'
  | func {s s₁ s' t params ret found} (h : Resolves s t (.func params ret) s₁)
    (hparts : SearchesAny n s₁ (params ++ [ret]) found s') : Searches n s t found s'

inductive SearchesAny (n : Nat) : Subst → List Ty → Bool → Subst → Prop
  | nil {s} : SearchesAny n s [] false s
  | found {s s' t ts} (h : Searches n s t true s') : SearchesAny n s (t :: ts) true s'
  | next {s s₁ s' t ts found} (h : Searches n s t false s₁) (hs : SearchesAny n s₁ ts found s') :
    SearchesAny n s (t :: ts) found s'

end

/-- Requiring a base type: what the type resolves to is one, can become one, or
is refused. -/
inductive Requires : Subst → Ty → Except UnifyError Unit → Subst → Prop
  | base {s s' t u} (h : Resolves s t u s') (hu : u.isBase) : Requires s t (.ok ()) s'
  | var {s s' t n} (h : Resolves s t (.var n) s') :
    Requires s t (.ok ()) { s' with baseOnly := s'.baseOnly.insert n }
  | func {s s₁ s' t params ret u} (h : Resolves s t (.func params ret) s₁)
    (hu : Applies s₁ (.func params ret) u s') : Requires s t (.error (.notBase u)) s'

/-- Linking a variable: it is refused if it is linked already or occurs in the
type, and the type has to take over a mark. -/
inductive Binds (n : Nat) : Subst → Ty → Except UnifyError Unit → Subst → Prop
  | bound {s t} (hn : s.isBound n) : Binds n s t (.error (.alreadyBound n)) s
  | self {s s' t} (hn : ¬ s.isBound n) (h : Resolves s t (.var n) s') : Binds n s t (.ok ()) s'
  | occurs {s s₁ s₂ s' t u v} (hn : ¬ s.isBound n) (h : Resolves s t u s₁) (hu : u ≠ .var n)
    (ho : Searches n s₁ u true s₂) (hv : Applies s₂ u v s') :
    Binds n s t (.error (.occursCheck n v)) s'
  | unmarked {s s₁ s₂ t u} (hn : ¬ s.isBound n) (h : Resolves s t u s₁) (hu : u ≠ .var n)
    (ho : Searches n s₁ u false s₂) (hm : n ∉ s₂.baseOnly) :
    Binds n s t (.ok ()) { s₂ with links := (n, u) :: s₂.links }
  | marked {s s₁ s₂ s₃ t u} (hn : ¬ s.isBound n) (h : Resolves s t u s₁) (hu : u ≠ .var n)
    (ho : Searches n s₁ u false s₂) (hm : n ∈ s₂.baseOnly) (hr : Requires s₂ u (.ok ()) s₃) :
    Binds n s t (.ok ()) { s₃ with links := (n, u) :: s₃.links }
  | refused {s s₁ s₂ s' t u e} (hn : ¬ s.isBound n) (h : Resolves s t u s₁) (hu : u ≠ .var n)
    (ho : Searches n s₁ u false s₂) (hm : n ∈ s₂.baseOnly) (hr : Requires s₂ u (.error e) s') :
    Binds n s t (.error e) s'

mutual

/-- Resolving both types and comparing what they resolve to: a variable is
linked, and function types with as many parameters are unified part by part. -/
inductive Unifies : Subst → Ty → Ty → Except UnifyError Unit → Subst → Prop
  | same {s s₁ s' a b t} (ha : Resolves s a t s₁) (hb : Resolves s₁ b t s')
    (ht : ∀ params ret, t ≠ .func params ret) : Unifies s a b (.ok ()) s'
  | left {s s₁ s₂ s' a b n t r} (ha : Resolves s a (.var n) s₁) (hb : Resolves s₁ b t s₂)
    (ht : t ≠ .var n) (h : Binds n s₂ t r s') : Unifies s a b r s'
  | right {s s₁ s₂ s' a b t n r} (ha : Resolves s a t s₁) (hb : Resolves s₁ b (.var n) s₂)
    (ht : ∀ m, t ≠ .var m) (h : Binds n s₂ t r s') : Unifies s a b r s'
  | func {s s₁ s₂ s' a b params ret params' ret' r} (ha : Resolves s a (.func params ret) s₁)
    (hb : Resolves s₁ b (.func params' ret') s₂) (hlen : params.length = params'.length)
    (h : UnifiesAll (.func params ret) (.func params' ret') s₂ (params ++ [ret])
      (params' ++ [ret']) r s') : Unifies s a b r s'
  | clash {s s₁ s₂ s₃ s' a b t u t' u'} (ha : Resolves s a t s₁) (hb : Resolves s₁ b u s₂)
    (h : t.Clashes u) (ht : Applies s₂ t t' s₃) (hu : Applies s₃ u u' s') :
    Unifies s a b (.error (.mismatch t' u')) s'

/-- Unifying parts one pair after the other, up to the first that fails.  A
conflict is reported against the whole types. -/
inductive UnifiesAll :
    Ty → Ty → Subst → List Ty → List Ty → Except UnifyError Unit → Subst → Prop
  | nil {expected found s} : UnifiesAll expected found s [] [] (.ok ()) s
  | cons {expected found s s₁ s' a b as bs r} (h : Unifies s a b (.ok ()) s₁)
    (hs : UnifiesAll expected found s₁ as bs r s') :
    UnifiesAll expected found s (a :: as) (b :: bs) r s'
  | conflict {expected found s s₁ s₂ s' a b as bs t u t' u'}
    (h : Unifies s a b (.error (.mismatch t u)) s₁) (ht : Applies s₁ expected t' s₂)
    (hu : Applies s₂ found u' s') :
    UnifiesAll expected found s (a :: as) (b :: bs) (.error (.mismatch t' u')) s'
  | failure {expected found s s' a b as bs e} (h : Unifies s a b (.error e) s')
    (he : ∀ t u, e ≠ .mismatch t u) :
    UnifiesAll expected found s (a :: as) (b :: bs) (.error e) s'

end

variable {s s' : Subst} {U : List Ty}

/-! ### Resolving -/

theorem relink_relink (s : Subst) (ns : List Nat) (n : Nat) (t : Ty) :
    (s.relink ns t).relink [n] t = s.relink (n :: ns) t := by
  simp only [relink, List.map_map]
  congr 1
  refine List.map_congr_left ?_
  rintro ⟨k, u⟩ -
  by_cases hns : k ∈ ns <;> by_cases hn : k = n <;> simp_all

/-- Following links ends at the root. -/
theorem WellFormed.resolves (hs : s.WellFormed) (t : Ty) :
    Resolves s t (resolve t s).1 (resolve t s).2 := by
  refine hs.link_induction (P := fun t => Resolves s t (resolve t s).1 (resolve t s).2) ?_ ?_ t
  · intro t ht
    rw [resolve_of_free ht]
    exact .root ht
  · intro n u hn ih
    have h := ih.link hn
    rw [resolve_eq] at h ⊢
    rwa [relink_relink, ← (hs.walk_link hn).2, ← hs.root_link hn] at h

/-! ### Applying -/

theorem appliesAll_mapM {f : Ty → StateM Subst Ty} {I : Subst → Prop} (ts : List Ty)
    (hf : ∀ {s t}, t ∈ ts → I s → I (f t s).2 ∧ Applies s t (f t s).1 (f t s).2) (hs : I s) :
    AppliesAll s ts (ts.mapM f s).1 (ts.mapM f s).2 := by
  induction ts generalizing s with
  | nil => exact .nil
  | cons t ts ih =>
    obtain ⟨hI, ht⟩ := hf List.mem_cons_self hs
    rw [List.mapM_cons]
    exact .cons ht (ih (fun h => hf (List.mem_cons_of_mem _ h)) hI)

/-- `seen` are the function types above the type.  The depth that is left
exceeds the number of types that have not been met. -/
theorem applies_applyWithin (hP : Ty.PartsClosed U) {depth : Nat} {t : Ty}
    {seen : List Ty}
    (hs : s.WellFormed) (hU : s.Within U) (ht : t ∈ U) (hseen : Above U seen s t)
    (hdepth : U.length < depth + seen.length) :
    Applies s t (applyWithin depth t s).1 (applyWithin depth t s).2 := by
  induction depth generalizing s t seen with
  | zero =>
    have := hseen.length_le
    omega
  | succ depth ih =>
    have hres := hs.resolves t
    have hx := hs.shortens_relink t
    have hU₁ := hU.relink ht
    have hroot : s.root t ∈ U := root_mem hU ht
    have hseen₁ := hseen.root hs
    rw [resolve_eq] at hres
    rw [applyWithin_succ]
    generalize s.root t = u at hres hx hU₁ hroot hseen₁ ⊢
    generalize s.relink (s.chain t) u = s₁ at hres hx hU₁ hseen₁ ⊢
    cases u with
    | int | bool | var => exact .root hres nofun
    | func params ret =>
      have hdepth' : U.length < depth + (Ty.func params ret :: seen).length := by
        rw [List.length_cons]
        omega
      -- each part lies one step further down
      have hpart : ∀ {s₂ p}, p ∈ params ++ [ret] → s₁.Shortens s₂ ∧ s₂.Within U →
          (s₁.Shortens (applyWithin depth p s₂).2 ∧ (applyWithin depth p s₂).2.Within U) ∧
            Applies s₂ p (applyWithin depth p s₂).1 (applyWithin depth p s₂).2 := by
        intro s₂ p hp ⟨hx₂, hU₂⟩
        have hpU := hP.part hroot hp
        have habove := hseen₁.part hx.wellFormed hroot hp hx₂.extends
        exact ⟨⟨hx₂.trans (shortens_applyWithin hx₂.wellFormed depth p),
          (free_applyWithin hP hx₂.wellFormed hU₂ hpU habove hdepth').1⟩,
          ih hx₂.wellFormed hU₂ hpU habove hdepth'⟩
      have hself := And.intro hx.wellFormed.shortens_self hU₁
      obtain ⟨hparams, -⟩ := mapM_induction (I := fun s₂ => s₁.Shortens s₂ ∧ s₂.Within U)
        (P := fun _ => True) params
        (fun hp h => ⟨(hpart (List.mem_append_left _ hp) h).1, trivial⟩) hself
      refine .func hres (appliesAll_mapM (I := fun s₂ => s₁.Shortens s₂ ∧ s₂.Within U) params
        (fun hp h => hpart (List.mem_append_left _ hp) h) hself) ?_
      exact (hpart List.mem_concat_self hparams).2

/-- Applying a substitution ends. -/
theorem WellFormed.applies (hs : s.WellFormed) (t : Ty) :
    Applies s t (apply t s).1 (apply t s).2 := by
  obtain ⟨U, hP, hU, ht, hlen⟩ := s.exists_parts [t]
  exact applies_applyWithin hP hs hU (ht List.mem_cons_self) .nil hlen

/-! ### Searching -/

theorem searchesAny_anyM {n : Nat} {f : Ty → StateM Subst Bool} {I : Subst → Prop}
    (ts : List Ty)
    (hf : ∀ {s t}, t ∈ ts → I s → I (f t s).2 ∧ Searches n s t (f t s).1 (f t s).2) (hs : I s) :
    SearchesAny n s ts (ts.anyM f s).1 (ts.anyM f s).2 := by
  induction ts generalizing s with
  | nil => exact .nil
  | cons t ts ih =>
    obtain ⟨hI, ht⟩ := hf List.mem_cons_self hs
    have hts := ih (fun h => hf (List.mem_cons_of_mem _ h)) hI
    rw [anyM_cons]
    split
    · next hfound => exact .found (hfound ▸ ht)
    · next hfound =>
      rw [Bool.not_eq_true] at hfound
      exact .next (hfound ▸ ht) hts

/-- `seen` are the function types above the type.  The depth that is left
exceeds the number of types that have not been met. -/
theorem searches_occursWithin (hP : Ty.PartsClosed U) {n depth : Nat} {t : Ty}
    {seen : List Ty}
    (hs : s.WellFormed) (hU : s.Within U) (ht : t ∈ U) (hseen : Above U seen s t)
    (hdepth : U.length < depth + seen.length) :
    Searches n s t (occursWithin n depth t s).1 (occursWithin n depth t s).2 := by
  induction depth generalizing s t seen with
  | zero =>
    have := hseen.length_le
    omega
  | succ depth ih =>
    have hres := hs.resolves t
    have hx := hs.shortens_relink t
    have hU₁ := hU.relink ht
    have hroot : s.root t ∈ U := root_mem hU ht
    have hseen₁ := hseen.root hs
    rw [resolve_eq] at hres
    rw [occursWithin_succ]
    generalize s.root t = u at hres hx hU₁ hroot hseen₁ ⊢
    generalize s.relink (s.chain t) u = s₁ at hres hx hU₁ hseen₁ ⊢
    cases u with
    | int | bool => exact .base hres rfl
    | var m => exact .var hres
    | func params ret =>
      have hdepth' : U.length < depth + (Ty.func params ret :: seen).length := by
        rw [List.length_cons]
        omega
      refine .func hres (searchesAny_anyM (I := fun s₂ => s₁.Shortens s₂ ∧ s₂.Within U) _ ?_
        ⟨hx.wellFormed.shortens_self, hU₁⟩)
      -- each part lies one step further down
      intro s₂ p hp ⟨hx₂, hU₂⟩
      have hpU := hP.part hroot hp
      have habove := hseen₁.part hx.wellFormed hroot hp hx₂.extends
      exact ⟨⟨hx₂.trans (shortens_occursWithin hx₂.wellFormed n depth p),
        hU₂.occursWithin hP hpU n depth⟩, ih hx₂.wellFormed hU₂ hpU habove hdepth'⟩

/-- Looking for a variable in a type ends. -/
theorem WellFormed.searches (hs : s.WellFormed) (n : Nat) (t : Ty) :
    Searches n s t (occursIn n t s).1 (occursIn n t s).2 := by
  obtain ⟨U, hP, hU, ht, hlen⟩ := s.exists_parts [t]
  exact searches_occursWithin hP hs hU (ht List.mem_cons_self) .nil hlen

/-! ### Requiring a base type and linking -/

/-- Requiring a base type ends. -/
theorem WellFormed.requires (hs : s.WellFormed) (t : Ty) :
    Requires s t ((requireBase t).run s).1 ((requireBase t).run s).2 := by
  have hres := hs.resolves t
  have hs₁ := (hs.shortens_relink t).wellFormed
  rw [resolve_eq] at hres
  rw [requireBase_run]
  generalize s.root t = u at hres hs₁ ⊢
  cases u with
  | int | bool => exact .base hres rfl
  | var n => exact .var hres
  | func params ret => exact .func hres (hs₁.applies _)

/-- Linking ends. -/
theorem WellFormed.binds (hs : s.WellFormed) (n : Nat) (t : Ty) :
    Binds n s t ((Subst.bind n t).run s).1 ((Subst.bind n t).run s).2 := by
  have hres := hs.resolves t
  have hs₁ := (hs.shortens_relink t).wellFormed
  rw [resolve_eq] at hres
  rw [bind_run]
  split
  · next hn => exact .bound hn
  next hn =>
  generalize s.root t = u at hres hs₁ ⊢
  generalize s.relink (s.chain t) u = s₁ at hres hs₁ ⊢
  dsimp only
  split
  · next hu => exact .self hn (hu ▸ hres)
  next hu =>
  have ho := hs₁.searches n u
  have hs₂ := (hs₁.shortens_occursIn n u).wellFormed
  split
  · next h => exact .occurs hn hres hu (h ▸ ho) (hs₂.applies u)
  next h =>
  rw [Bool.not_eq_true] at h
  split
  · next hm =>
    have hreq := hs₂.requires u
    rw [run_bind_match]
    rcases hr : (requireBase u).run (occursIn n u s₁).2 with ⟨e | _, s₃⟩ <;> rw [hr] at hreq
    · exact .refused hn hres hu (h ▸ ho) (List.contains_iff_mem.mp hm) hreq
    · exact .marked hn hres hu (h ▸ ho) (List.contains_iff_mem.mp hm) hreq
  · next hm => exact .unmarked hn hres hu (h ▸ ho) fun hm' => hm (List.contains_iff_mem.mpr hm')

/-! ### Unifying -/

/-- What unification does with two roots, where `rec` unifies the parts of
function types. -/
inductive UnifyStep (rec : Ty → Ty → UnifyM Unit) (s : Subst) :
    Ty → Ty → Except UnifyError Unit × Subst → Prop
  | same {t} (ht : ∀ params ret, t ≠ .func params ret) : UnifyStep rec s t t (.ok (), s)
  | left {n t} (ht : t ≠ .var n) : UnifyStep rec s (.var n) t ((Subst.bind n t).run s)
  | right {t n} (ht : ∀ m, t ≠ .var m) : UnifyStep rec s t (.var n) ((Subst.bind n t).run s)
  | parts {params ret params' ret'} (hlen : params.length = params'.length) :
    UnifyStep rec s (.func params ret) (.func params' ret')
      ((forEachPair (fun a b => widening (.func params ret) (.func params' ret') (rec a b))
        (params ++ [ret]) (params' ++ [ret'])).run s)
  | clash {t u} (h : t.Clashes u) : UnifyStep rec s t u
      ((do throw (.mismatch (← apply t) (← apply u)) : UnifyM Unit).run s)

/-- The last pair is dealt with after the others. -/
theorem forEachPair_concat (action : Ty → Ty → UnifyM Unit) {as bs : List Ty}
    (hlen : as.length = bs.length) (a b : Ty) :
    forEachPair action (as ++ [a]) (bs ++ [b]) = (do forEachPair action as bs; action a b) := by
  induction as generalizing bs with
  | nil =>
    obtain rfl : bs = [] := List.length_eq_zero_iff.mp hlen.symm
    exact (bind_pure_unit (x := action a b)).trans (pure_bind () fun _ => action a b).symm
  | cons a' as ih =>
    cases bs with
    | nil => cases hlen
    | cons b' bs =>
      rw [List.cons_append, List.cons_append, forEachPair, forEachPair, ih (by simpa using hlen),
        bind_assoc]

theorem run_lift {α : Type} (x : StateM Subst α) (s : Subst) :
    (liftM x : UnifyM α).run s = (.ok (x s).1, (x s).2) := rfl

/-- One level of unification. -/
theorem unifyWithin_step (depth : Nat) (a b : Ty) (s : Subst) :
    UnifyStep (unifyWithin depth) (resolve b (resolve a s).2).2 (resolve a s).1
      (resolve b (resolve a s).2).1 ((unifyWithin (depth + 1) a b).run s) := by
  rw [unifyWithin, run_bind_match, run_lift]
  dsimp only
  rw [run_bind_match, run_lift]
  dsimp only
  generalize (resolve b (resolve a s).2).2 = s₂
  generalize (resolve a s).1 = e
  generalize (resolve b (resolve a s).2).1 = f
  cases e with
  | int =>
    cases f with
    | int => exact .same (by rintro _ _ ⟨⟩)
    | var n => exact .right (by rintro _ ⟨⟩)
    | bool | func => exact .clash trivial
  | bool =>
    cases f with
    | bool => exact .same (by rintro _ _ ⟨⟩)
    | var n => exact .right (by rintro _ ⟨⟩)
    | int | func => exact .clash trivial
  | var m =>
    cases f with
    | var n =>
      by_cases hmn : m = n
      · subst hmn
        simp only [↓reduceIte]
        exact .same (by rintro _ _ ⟨⟩)
      · simp only [if_neg hmn]
        exact .left fun h => hmn (Ty.var.inj h).symm
    | int | bool | func => exact .left (by rintro ⟨⟩)
  | func params ret =>
    cases f with
    | int | bool => exact .clash trivial
    | var n => exact .right (by rintro _ ⟨⟩)
    | func params' ret' =>
      by_cases hlen : params.length = params'.length
      · simp only [if_pos hlen]
        rw [← forEachPair_concat _ hlen]
        exact .parts hlen
      · simp only [if_neg hlen]
        exact .clash hlen

/-- Pairs of parts that are unified by the rules one after the other. -/
theorem unifiesAll_forEachPair {rec : Ty → Ty → UnifyM Unit} {I : Subst → Prop}
    {as bs : List Ty} (expected found : Ty)
    (hrec : ∀ {a b s}, a ∈ as → b ∈ bs → I s →
      Unifies s a b ((rec a b).run s).1 ((rec a b).run s).2 ∧ ((rec a b).run s).2.WellFormed ∧
        ∀ s', (rec a b).run s = (.ok (), s') → I s')
    (hlen : as.length = bs.length) (hs : I s) :
    let r := (forEachPair (fun a b => widening expected found (rec a b)) as bs).run s
    UnifiesAll expected found s as bs r.1 r.2 := by
  induction as generalizing bs s with
  | nil =>
    obtain rfl : bs = [] := List.length_eq_zero_iff.mp hlen.symm
    exact .nil
  | cons a as ih =>
    cases bs with
    | nil => cases hlen
    | cons b bs =>
      obtain ⟨h, hwf, hI⟩ := hrec List.mem_cons_self List.mem_cons_self hs
      rw [forEachPair, run_bind_match, widening, run_tryCatch]
      rcases hr : (rec a b).run s with ⟨e | _, s₁⟩ <;> rw [hr] at h hwf
      · cases e with
        | mismatch =>
          exact .conflict h (hwf.applies expected) ((hwf.shortens_apply _).wellFormed.applies found)
        | occursCheck | alreadyBound | notBase => exact .failure h (by rintro _ _ ⟨⟩)
      · refine .cons h (ih (fun ha hb => ?_) (by simpa using hlen) (hI s₁ hr))
        exact hrec (List.mem_cons_of_mem _ ha) (List.mem_cons_of_mem _ hb)

/-- `seen` are the function types above the two types.  The depth that is left
exceeds the number of types that have not been met. -/
theorem unifies_unifyWithin (hP : Ty.PartsClosed U) {depth : Nat} {a b : Ty}
    {seen : List Ty}
    (hs : s.WellFormed) (hU : s.Within U) (ha : a ∈ U) (hb : b ∈ U) (hseen : Above U seen s a)
    (hdepth : U.length < depth + seen.length) :
    Unifies s a b ((unifyWithin depth a b).run s).1 ((unifyWithin depth a b).run s).2 := by
  induction depth generalizing a b seen s with
  | zero =>
    have := hseen.length_le
    omega
  | succ depth ih =>
    have hresa := hs.resolves a
    obtain ⟨hae, he⟩ := unified_resolve hs hU ha (run_lift (resolve a) s)
    have hresb := hae.extends_.wellFormed.resolves b
    obtain ⟨hbf, hf⟩ := unified_resolve hae.extends_.wellFormed hae.within hb
      (run_lift (resolve b) (resolve a s).2)
    have hs₂ := hbf.extends_.wellFormed
    have hseen₂ : Above U seen _ (resolve a s).1 :=
      hseen.of_agree (hae.extends_.trans hbf.extends_) fun hρ => hae.agree (hbf.extends_.holds hρ)
    have hU₂ := hbf.within
    have hstep := unifyWithin_step depth a b s
    generalize (resolve b (resolve a s).2).2 = s₂ at hresb hs₂ hseen₂ hU₂ hstep
    generalize (resolve b (resolve a s).2).1 = f at hresb hf hstep
    generalize (resolve a s).1 = e at hresa he hseen₂ hstep
    generalize (unifyWithin (depth + 1) a b).run s = r at hstep ⊢
    cases hstep with
    | same ht => exact .same hresa hresb ht
    | left ht => exact .left hresa hresb ht (hs₂.binds _ _)
    | right ht => exact .right hresa hresb ht (hs₂.binds _ _)
    | clash h =>
      exact .clash hresa hresb h (hs₂.applies _) ((hs₂.shortens_apply _).wellFormed.applies _)
    | @parts params ret params' ret' hlen =>
      have hdepth' : U.length < depth + (Ty.func params ret :: seen).length := by
        rw [List.length_cons]
        omega
      refine .func hresa hresb hlen (unifiesAll_forEachPair _ _
        (I := fun s₃ => s₂.Extends 0 s₃ ∧ s₃.Within U) ?_ (by simpa using hlen)
        ⟨hs₂.extends_self, hU₂⟩)
      -- each pair of parts lies one level further down
      intro p q s₃ hp hq ⟨hx, hU₃⟩
      have hbelow := hseen₂.part hs₂ he hp hx
      refine ⟨ih hx.wellFormed hU₃ (hP.part he hp) (hP.part hf hq) hbelow hdepth',
        (complete_unifyWithin hx.wellFormed depth p q).wellFormed rfl, fun s' hr => ?_⟩
      have hu := unifyWithin_spec hP hx.wellFormed hU₃ (hP.part he hp) (hP.part hf hq)
        hbelow hdepth' hr
      exact ⟨hx.trans hu.extends_, hu.within⟩

/-- Unification ends. -/
theorem WellFormed.unifies (hs : s.WellFormed) (a b : Ty) :
    Unifies s a b ((unify a b).run s).1 ((unify a b).run s).2 := by
  obtain ⟨U, hP, hU, hab, hlen⟩ := s.exists_parts [a, b]
  rw [hs.unify_eq a b 0]
  exact unifies_unifyWithin hP hs hU (hab (by simp)) (hab (by simp)) .nil hlen

end Subst

end Implet
