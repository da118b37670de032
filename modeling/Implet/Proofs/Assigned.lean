/-
Implet/Proofs/Assigned.lean

What has been assigned stays assigned.  Nothing that is computed is
uninitialized: no value of an expression, no argument that is passed, nothing
that is assigned or returned, anywhere in a run (`uninitialized_never_flows`).

All that a run does is read off its parts (`Expr.deeds`), and the deeds lead
from the store that it starts in to the one that it ends in, each done in the
store that the one before it left (`Run.Walks`).  Only one kind of them puts an
uninitialized value anywhere: the declaration of a `var`, which makes a new
binding.  So as long as its frame is there, a binding that has another value
keeps having one (`Store.Path.assigned`), also while other frames of the
environment come and go, in whatever environment it is and however the run ends.
-/
import Implet.Proofs.Frames

namespace Implet

/-! ### Assigned bindings -/

/-- A name is bound to a value other than the one of a `var` that has not been
assigned. -/
def Frame.Assigned (x : String) (f : Frame Value) : Prop :=
  ∃ v, f.get? x = some v ∧ v ≠ .uninitialized

/-- A name is bound to such a value in the frame at a level, of which the
outermost one is 0. -/
def Scope.Assigned (level : Nat) (x : String) (e : Environment) : Prop :=
  ∃ f, e.frames.reverse[level]? = some f ∧ f.Assigned x

namespace Frame

variable {f : Frame Value} {x y : String} {v : Value}

theorem Assigned.mem_names (h : f.Assigned y) : y ∈ f.names := by
  obtain ⟨v, hv, -⟩ := h
  exact get?_isSome_iff.mp (by rw [hv]; rfl)

theorem Assigned.declare (h : f.Assigned y) (hx : x ∉ f.names) (v : Value) :
    Assigned y ((x, v) :: f) := by
  obtain ⟨w, hw, hne⟩ := h
  have hxy : x ≠ y := fun hxy => hx (hxy ▸ Assigned.mem_names ⟨w, hw, hne⟩)
  exact ⟨w, by rw [get?_cons, if_neg hxy, hw], hne⟩

theorem Assigned.set (h : f.Assigned y) (x : String) (hv : v ≠ .uninitialized) :
    Assigned y (f.set x v) := by
  obtain ⟨w, hw, hne⟩ := h
  induction f with
  | nil => cases hw
  | cons b f ih =>
    rw [get?_cons] at hw
    rw [set_cons, Assigned]
    by_cases hb : b.1 = y
    · rw [if_pos hb] at hw
      cases hw
      split
      · exact ⟨v, by rw [get?_cons, if_pos hb], hv⟩
      · exact ⟨b.2, by rw [get?_cons, if_pos hb], hne⟩
    · rw [if_neg hb] at hw
      obtain ⟨w', hw', hne'⟩ := ih hw
      refine ⟨w', ?_, hne'⟩
      rw [get?_cons, if_neg (by split <;> exact hb), hw']

end Frame

namespace Scope

variable {e e' : Environment} {f : Frame Value} {fs : List (Frame Value)} {level : Nat}
  {x y : String} {v : Value}

/-- The innermost frame is at the level that is the number of the others. -/
theorem assigned_cons : Scope.Assigned level y ⟨f :: fs⟩ ↔
    (level = fs.length ∧ f.Assigned y) ∨ Scope.Assigned level y ⟨fs⟩ := by
  have hlen : (⟨fs⟩ : Environment).Assigned level y → level < fs.length := by
    rintro ⟨g, hg, -⟩
    simpa using (List.getElem?_eq_some_iff.mp hg).1
  unfold Scope.Assigned at hlen ⊢
  rw [List.reverse_cons]
  rcases Nat.lt_trichotomy level fs.length with h | h | h
  · rw [List.getElem?_append_left (by simpa using h)]
    simp [h.ne]
  · rw [List.getElem?_append_right (by simp [h])]
    simp [h]
  · rw [List.getElem?_append_right (by simpa using h.le),
      List.getElem?_eq_none (by simp; omega)]
    simp [h.ne', List.getElem?_eq_none (l := fs.reverse) (by simpa using h.le)]

theorem Assigned.lt_depth (h : e.Assigned level y) : level < e.depth := by
  obtain ⟨f, hf, -⟩ := h
  simpa [depth] using (List.getElem?_eq_some_iff.mp hf).1

theorem depth_le_declare (he : e.declare x v = .ok e') : e.depth ≤ e'.depth := by
  obtain ⟨xs, xss, h, h'⟩ := names_declare he
  rw [← length_names, ← length_names, h, h', List.length_cons, List.length_cons]

theorem depth_le_assign (he : e.assign x v = .ok e') : e.depth ≤ e'.depth := by
  rw [← length_names, ← length_names, names_assign he]

theorem depth_le_exit {n : Nat} (he : e.exit = .ok e') (h : n + 1 ≤ e.depth) :
    n ≤ e'.depth := by
  obtain ⟨_ | ⟨f, fs⟩⟩ := e
  · cases he
  · cases he
    exact Nat.le_of_succ_le_succ h

theorem not_assigned_initial : ¬(initial : Environment).Assigned level y := by
  rintro ⟨f, hf, v, hv, -⟩
  cases level <;> cases hf
  cases hv

theorem Assigned.enter (h : e.Assigned level y) : e.enter.Assigned level y :=
  assigned_cons.mpr (.inr h)

/-- Leaving a frame above the one at `level`. -/
theorem Assigned.exit (h : e.Assigned level y) (he : e.exit = .ok e')
    (hl : level < e'.depth) :
    e'.Assigned level y := by
  obtain ⟨_ | ⟨f, fs⟩⟩ := e
  · cases he
  · cases he
    rcases assigned_cons.mp h with ⟨rfl, -⟩ | h
    · exact absurd hl (Nat.lt_irrefl _)
    · exact h

/-- No binding is replaced. -/
theorem Assigned.declare (h : e.Assigned level y) (he : e.declare x v = .ok e') :
    e'.Assigned level y := by
  obtain ⟨f, fs, hfs, hx, rfl⟩ := declare_eq_ok he
  obtain ⟨_⟩ := e
  subst hfs
  rw [assigned_cons] at h ⊢
  exact h.imp_left (And.imp_right fun hf => hf.declare hx v)

theorem Assigned.assign (h : e.Assigned level y) (hv : v ≠ .uninitialized)
    (he : e.assign x v = .ok e') : e'.Assigned level y := by
  have hin : ∀ {fs fs' : List (Frame Value)}, assignIn x v fs = some fs' →
      fs'.length = fs.length ∧ (Scope.Assigned level y ⟨fs⟩ → Scope.Assigned level y ⟨fs'⟩) := by
    intro fs
    induction fs with
    | nil => rintro fs' ⟨⟩
    | cons f fs ih =>
      intro fs' h
      rw [assignIn] at h
      split at h
      · cases h
        refine ⟨rfl, fun h => ?_⟩
        rw [assigned_cons] at h ⊢
        exact h.imp_left (And.imp_right fun hf => hf.set x hv)
      · obtain ⟨gs, hgs, rfl⟩ := Option.map_eq_some_iff.mp h
        obtain ⟨hlen, hkeep⟩ := ih hgs
        refine ⟨congrArg (· + 1) hlen, fun h => ?_⟩
        rw [assigned_cons, hlen]
        exact (assigned_cons.mp h).imp_right hkeep
  unfold Scope.assign at he
  split at he
  · next fs hfs =>
    cases he
    exact (hin hfs).2 h
  · cases he

end Scope

/-! ### Deeds -/

/-- A deed that neither passes nor assigns nor yields the value of a `var` that
has not been assigned. -/
def Deed.Proper : Deed → Prop
  | .pass _ _ v | .assign _ _ v | .yield v => v ≠ .uninitialized
  | .enter _ | .leave _ | .declare _ _ | .define _ _ _ | .capture _ | .call _ => True

namespace Store

/-- The deeds lead from a store to another one: each is done in the store that
the one before it left, and leaves a store that is as `live` says. -/
def Path (live : Store → Prop) : Store → List (Store × Deed) → Store → Prop
  | s, [], t => t = s
  | s, (u, d) :: ds, t => u = s ∧ live (d.perform s) ∧ Path live (d.perform s) ds t

/-- All environments are still there, with at least as many frames. -/
structure Covers (s t : Store) : Prop where
  size : s.envs.size ≤ t.envs.size
  depth : ∀ q < s.envs.size, (s.env q).depth ≤ (t.env q).depth

/-- What has been assigned has been assigned still, in all environments. -/
def KeepsAssigned (s t : Store) : Prop :=
  ∀ q level x, (s.env q).Assigned level x → (t.env q).Assigned level x

variable {s t u : Store} {r q : EnvRef} {e : Environment} {level : Nat} {x : String} {d : Deed}
  {ds ds' : List (Store × Deed)} {live live' : Store → Prop}

/-! ### Frames that stay -/

theorem Covers.refl (s : Store) : s.Covers s := ⟨Nat.le_refl _, fun _ _ => Nat.le_refl _⟩

theorem Covers.trans (h : s.Covers t) (h' : t.Covers u) : s.Covers u where
  size := h.size.trans h'.size
  depth q hq := (h.depth q hq).trans (h'.depth q (hq.trans_le h.size))

theorem Covers.setEnv (h : s.Covers t)
    (hr : r < s.envs.size → (s.env r).depth ≤ e.depth) :
    s.Covers (t.setEnv r e) := by
  refine ⟨by simpa using h.size, fun q hq => ?_⟩
  rcases Nat.lt_or_ge r t.envs.size with hrt | hrt
  · rw [t.env_setEnv hrt]
    split
    · next hqr => exact hqr ▸ hr (hqr ▸ hq)
    · exact h.depth q hq
  · rw [setEnv_of_le hrt]
    exact h.depth q hq

theorem covers_setEnv (he : (s.env r).depth ≤ e.depth) : s.Covers (s.setEnv r e) :=
  (Covers.refl s).setEnv fun _ => he

theorem covers_allocate (s : Store) (e : Environment) : s.Covers (s.allocate e).2 := by
  refine ⟨by simp [allocate], fun q hq => ?_⟩
  rw [s.env_allocate, if_neg hq.ne]

/-- The frame that is left is the one that was entered, or its environment is
not one of the start. -/
theorem Covers.leave (h : (s.setEnv r (s.env r).enter).Covers t) :
    s.Covers (t.update r Scope.exit) := by
  have hs : s.Covers t := (covers_setEnv (Nat.le_succ _)).trans h
  unfold update
  split
  · next e he =>
    refine hs.setEnv fun hr => ?_
    have hdepth := h.depth r (by simpa using hr)
    rw [s.env_setEnv hr, if_pos rfl] at hdepth
    exact Scope.depth_le_exit he hdepth
  · exact hs

/-! ### Ways -/

theorem Path.mono (h : Path live s ds t) (hl : ∀ u, live u → live' u) :
    Path live' s ds t := by
  induction ds generalizing s with
  | nil => exact h
  | cons x ds ih => exact ⟨h.1, hl _ h.2.1, ih h.2.2⟩

/-- The end of a way is as all stores on it, if the start is. -/
theorem Path.end_live (h : Path live s ds t) (hs : live s) : live t := by
  induction ds generalizing s with
  | nil => exact (show t = s from h) ▸ hs
  | cons x ds ih => exact ih h.2.2 h.2.1

theorem Path.append (h : Path live s ds t) (h' : Path live t ds' u) :
    Path live s (ds ++ ds') u := by
  induction ds generalizing s with
  | nil => exact (show t = s from h) ▸ h'
  | cons x ds ih => exact ⟨h.1, h.2.1, ih h.2.2⟩

/-- Each deed is done in a store that those before it lead to. -/
theorem Path.of_mem (h : Path live s ds t) {y : Store × Deed} (hy : y ∈ ds) :
    ∃ ds' ⊆ ds, Path live s ds' y.1 := by
  induction ds generalizing s with
  | nil => cases hy
  | cons x ds ih =>
    rcases List.mem_cons.mp hy with rfl | hy
    · exact ⟨[], List.nil_subset _, h.1⟩
    · obtain ⟨ds', hds, h'⟩ := ih h.2.2 hy
      exact ⟨x :: ds', List.cons_subset_cons x hds, h.1, h.2.1, h'⟩

theorem Path.covers (h : Path s.Covers s ds t) : s.Covers t := h.end_live (.refl s)

/-- Ways that one after the other leave all frames there. -/
theorem Path.append_covers (h : Path s.Covers s ds t) (h' : Path t.Covers t ds' u) :
    Path s.Covers s (ds ++ ds') u :=
  h.append (h'.mono fun _ => h.covers.trans)

/-! ### Bindings that stay -/

/-- What is kept by a change of an environment is kept when the change is made
in a store. -/
theorem update_assigned {f : Environment → Except ScopeError Environment}
    (h : ∀ {e e'}, f e = .ok e' → level < e'.depth → e.Assigned level x →
      e'.Assigned level x) (hl : level < ((s.update r f).env q).depth)
    (hs : (s.env q).Assigned level x) : ((s.update r f).env q).Assigned level x := by
  unfold update at hl ⊢
  split at hl
  · next e he =>
    rcases Nat.lt_or_ge r s.envs.size with hr | hr
    · rw [s.env_setEnv hr] at hl ⊢
      split
      · next hq =>
        rw [if_pos hq] at hl
        exact h he hl (hq ▸ hs)
      · exact hs
    · rwa [setEnv_of_le hr]
  · exact hs

/-- As long as its frame is there, no deed takes the value of a binding away. -/
theorem assigned_perform (hd : d.Proper) (hl : level < ((d.perform s).env q).depth)
    (hs : (s.env q).Assigned level x) : ((d.perform s).env q).Assigned level x := by
  cases d with
  | enter r =>
    refine update_assigned (f := fun e => .ok e.enter) (fun he _ h => ?_) hl hs
    cases he
    exact h.enter
  | leave r => exact update_assigned (fun he hl h => h.exit he hl) hl hs
  | declare r d => exact update_assigned (fun he _ h => h.declare he) hl hs
  | pass r d v => exact update_assigned (fun he _ h => h.declare he) hl hs
  | define r f owned => exact update_assigned (fun he _ h => h.declare he) hl hs
  | assign r y v => exact update_assigned (fun he _ h => h.assign hd he) hl hs
  | capture r =>
    rw [Deed.perform, s.env_allocate]
    split
    · next hq =>
      rw [hq, env_of_le (Nat.le_refl _)] at hs
      exact absurd hs Scope.not_assigned_initial
    · exact hs
  | call | yield => exact hs

/-- During the lifetime of its frame, a binding that has been assigned stays so. -/
theorem Path.assigned (h : Path (fun u => level < (u.env q).depth) s ds t)
    (hds : ∀ y ∈ ds, y.2.Proper) (hs : (s.env q).Assigned level x) :
    (t.env q).Assigned level x := by
  induction ds generalizing s with
  | nil => exact (show t = s from h) ▸ hs
  | cons y ds ih =>
    obtain ⟨hy, hds⟩ := List.forall_mem_cons.mp hds
    exact ih h.2.2 hds (assigned_perform hy h.2.1 hs)

/-- The bindings that are there at the start are there all the way, so they stay
assigned. -/
theorem Path.keepsAssigned (h : Path s.Covers s ds t) (hds : ∀ y ∈ ds, y.2.Proper) :
    s.KeepsAssigned t := by
  intro q level x hs
  rcases Nat.lt_or_ge q s.envs.size with hq | hq
  · exact (h.mono fun u hu => hs.lt_depth.trans_le (hu.depth q hq)).assigned hds hs
  · rw [env_of_le hq] at hs
    exact absurd hs Scope.not_assigned_initial

end Store

/-! ### Runs as ways -/

namespace Run

variable {α β : Type} {A : α → Prop} {B : β → Prop} {p : Run α} {k : Deeds} {r : EnvRef}
  {s s' : Store} {res : Except RuntimeError α}

/-- What is done leads from the store that the run starts in to the one that it
ends in, however it ends, and all environments and frames of the start are there
on the way.  Nothing uninitialized is passed, assigned or returned.  If the run
ends with a value, then with one as `A` says. -/
structure Walks (A : α → Prop) (p : Run α) (k : Deeds) : Prop where
  leads : ∀ s, ∃ t, Store.Path s.Covers s (k s) t ∧ ∀ res s', p s = some (res, s') → s' = t
  proper : ∀ s, ∀ y ∈ k s, y.2.Proper
  value : ∀ {s s' : Store} {a : α}, p s = some (.ok a, s') → A a

theorem Walks.path (h : Walks A p k) (hp : p s = some (res, s')) :
    Store.Path s.Covers s (k s) s' := by
  obtain ⟨t, ht, hend⟩ := h.leads s
  exact hend res s' hp ▸ ht

theorem Walks.bind {f : α → Run β} {next : α → Deeds} (hp : Walks A p k)
    (hf : ∀ a, A a → Walks B (f a) (next a)) : Walks B (p >>= f) (k.andThen p next) := by
  refine ⟨fun s => ?_, fun s y hy => ?_, fun h => ?_⟩
  · rcases hs : p s with - | ⟨e | a, s₁⟩
    · obtain ⟨t, ht, -⟩ := hp.leads s
      refine ⟨t, by rwa [Deeds.andThen, hs, List.append_nil], fun res s' h => ?_⟩
      obtain ⟨a, s₁, hs₁, -⟩ | ⟨e, hs', -⟩ := bind_cases h
      · cases hs.symm.trans hs₁
      · cases hs.symm.trans hs'
    · refine ⟨s₁, by rw [Deeds.andThen, hs, List.append_nil]; exact hp.path hs, fun res s' h => ?_⟩
      rw [bind_eq_error hs] at h
      cases h
      rfl
    · obtain ⟨t, ht, hend⟩ := (hf a (hp.value hs)).leads s₁
      refine ⟨t, by rw [Deeds.andThen, hs]; exact (hp.path hs).append_covers ht, fun res s' h => ?_⟩
      rw [bind_eq hs] at h
      exact hend res s' h
  · rcases List.mem_append.mp hy with hy | hy
    · exact hp.proper s y hy
    · rcases hs : p s with - | ⟨e | a, s₁⟩ <;> rw [hs] at hy
      · cases hy
      · cases hy
      · exact (hf a (hp.value hs)).proper s₁ y hy
  · rcases bind_cases h with ⟨a, s₁, hs₁, h⟩ | ⟨e, -, he⟩
    · exact (hf a (hp.value hs₁)).value h
    · cases he

/-- A run that is followed by one that does nothing. -/
theorem Walks.bind_none {f : α → Run β} (hp : Walks A p k)
    (hf : ∀ a, A a → Walks B (f a) .none) :
    Walks B (p >>= f) k := k.andThen_none p ▸ hp.bind hf

/-- A run that leaves the store as it is, whatever it does. -/
theorem walks_of_path (hk : ∀ s, Store.Path s.Covers s (k s) s)
    (hproper : ∀ s, ∀ y ∈ k s, y.2.Proper)
    (h : ∀ {s res s'}, p s = some (res, s') → s' = s ∧ ∀ a, res = .ok a → A a) : Walks A p k :=
  ⟨fun s => ⟨s, hk s, fun _ _ hp => (h hp).1⟩, hproper, fun hp => (h hp).2 _ rfl⟩

theorem walks_pure {a : α} (ha : A a) : Walks A (pure a) .none := by
  refine walks_of_path (fun _ => rfl) nofun ?_
  rintro s res s' ⟨⟩
  exact ⟨rfl, fun _ h => Except.ok.inj h ▸ ha⟩

theorem walks_fail (e : RuntimeError) : Walks A (fail e : Run α) .none := by
  refine walks_of_path (fun _ => rfl) nofun ?_
  rintro s res s' ⟨⟩
  exact ⟨rfl, nofun⟩

theorem walks_outOfFuel : Walks A outOfFuel .none :=
  walks_of_path (fun _ => rfl) nofun nofun

theorem walks_env (r : EnvRef) : Walks (fun _ => True) (env r) .none := by
  refine walks_of_path (fun _ => rfl) nofun ?_
  rintro s res s' ⟨⟩
  exact ⟨rfl, fun _ _ => trivial⟩

theorem walks_yield {v : Value} (hv : v ≠ .uninitialized) :
    Walks (Flow.Yields (· ≠ .uninitialized)) (pure (.returning v)) (.one (.yield v)) := by
  refine walks_of_path (fun s => ⟨rfl, .refl s, rfl⟩) (fun s y hy => ?_) ?_
  · obtain rfl := List.mem_singleton.mp hy
    exact hv
  · rintro s res s' ⟨⟩
    exact ⟨rfl, fun _ h => Except.ok.inj h ▸ hv⟩

/-- A change of an environment in which its frames stay is the deed that makes it. -/
theorem walks_onEnvAt {span : Span} {action : Environment → Except ScopeError Environment}
    {d : Deed} (hd : ∀ s, d.perform s = s.update r action) (hproper : d.Proper)
    (h : ∀ {e e'}, action e = .ok e' → e.depth ≤ e'.depth) :
    Walks (fun _ => True) (onEnvAt r span action) (.one d) := by
  refine ⟨fun s => ⟨s.update r action, ⟨rfl, ?_, (hd s).symm⟩, fun res s' hp => ?_⟩,
    fun s y hy => ?_, fun _ => trivial⟩
  · rw [hd, Store.update]
    split
    · next e he => exact Store.covers_setEnv (h he)
    · exact .refl s
  · unfold Store.update
    rcases onEnvAt_cases hp with ⟨e, he, -, rfl⟩ | ⟨err, he, -, rfl⟩ <;> rw [he]
  · obtain rfl := List.mem_singleton.mp hy
    exact hproper

theorem walks_declareVar (r : EnvRef) (d : Decl) :
    Walks (fun _ => True) (d.run r) (.one (.declare r d)) :=
  walks_onEnvAt (fun _ => rfl) trivial Scope.depth_le_declare

theorem walks_pass (r : EnvRef) (d : Decl) {v : Value} (hv : v ≠ .uninitialized) :
    Walks (fun _ => True) (onEnvAt r d.span (·.declare d.name.name v)) (.one (.pass r d v)) :=
  walks_onEnvAt (fun _ => rfl) hv Scope.depth_le_declare

theorem walks_bindSelf (r : EnvRef) (f : FunDef) :
    Walks (fun _ => True) (f.bindSelf r) (f.selfDeeds r) := by
  refine (walks_env r).bind fun e _ => ?_
  split
  · exact walks_pure trivial
  · exact walks_onEnvAt (fun _ => rfl) trivial Scope.depth_le_declare

theorem walks_assign (r : EnvRef) (target : Ident) {v : Value} (hv : v ≠ .uninitialized) :
    Walks (fun _ => True) (onEnvAt r target.span (·.assign target.name v))
      (.one (.assign r target.name v)) :=
  walks_onEnvAt (fun _ => rfl) hv Scope.depth_le_assign

theorem walks_read (r : EnvRef) (id : Ident) :
    Walks (· ≠ .uninitialized) (id.read r) .none := by
  refine (walks_env r).bind_none fun e _ => ?_
  split
  · exact walks_fail _
  · next v hv _ => exact walks_pure fun h => hv h
  · exact walks_fail _

theorem walks_readFunction (r : EnvRef) (id : Ident) :
    Walks (fun _ => True) (id.readFunction r) .none := by
  refine (walks_env r).bind_none fun e _ => ?_
  split
  · exact walks_pure trivial
  · exact walks_fail _
  · exact walks_fail _

theorem Walks.inFrame (h : Walks A p k) : Walks A (inFrame r p) (k.within r p) := by
  refine ⟨fun s => ?_, fun s y hy => ?_, fun hp => ?_⟩
  · obtain ⟨t, ht, hend⟩ := h.leads (s.setEnv r (s.env r).enter)
    have hentered : Store.Path s.Covers s [(s, .enter r)] (s.setEnv r (s.env r).enter) :=
      ⟨rfl, Store.covers_setEnv (Nat.le_succ _), rfl⟩
    have ht := hentered.append_covers ht
    rcases hb : p (s.setEnv r (s.env r).enter) with - | ⟨res₁, s₁⟩
    · refine ⟨t, by simpa [Deeds.within, hb] using ht, fun res s' hp => ?_⟩
      obtain ⟨res₁, s₁, hb', -⟩ := inFrame_cases hp
      cases hb.symm.trans hb'
    obtain rfl := hend res₁ s₁ hb
    have hleave : Store.Path s.Covers s₁ [(s₁, .leave r)] (s₁.update r Scope.exit) :=
      ⟨rfl, (h.path hb).covers.leave, rfl⟩
    refine ⟨_, by simpa [Deeds.within, hb] using ht.append hleave, fun res s' hp => ?_⟩
    unfold Store.update
    obtain ⟨res₂, s₂, hb', hend'⟩ := inFrame_cases hp
    cases hb.symm.trans hb'
    rcases hend' with ⟨e, he, -, rfl⟩ | ⟨err, _, he, -, rfl⟩ <;> rw [he]
  · rcases List.mem_append.mp hy with hy | hy
    · rcases List.mem_cons.mp hy with rfl | hy
      · exact trivial
      · exact h.proper _ y hy
    · split at hy
      · obtain rfl := List.mem_singleton.mp hy
        exact trivial
      · cases hy
  · obtain ⟨res₁, s₁, hb, ⟨e, -, rfl, -⟩ | ⟨err, _, -, hres, -⟩⟩ := inFrame_cases hp
    · exact h.value hb
    · cases hres

theorem Walks.calling (h : Walks A p k) : Walks A p (k.calling r) where
  leads s := by
    obtain ⟨t, ht, hend⟩ := h.leads s
    exact ⟨t, ⟨rfl, .refl s, ht⟩, hend⟩
  proper s := List.forall_mem_cons.mpr ⟨trivial, h.proper s⟩
  value := h.value

/-- Calls bind their arguments, which have been computed, and yield what is returned. -/
theorem closed_walks :
    Closed (fun _ A p k => Walks A p k) (· ≠ .uninitialized) fun _ => True where
  pure := walks_pure
  fail := walks_fail
  outOfFuel := walks_outOfFuel
  bind := Walks.bind
  assigns _ h := h
  declares h := h
  integer _ := nofun
  boolean _ := nofun
  read := walks_read
  readFunction := walks_readFunction
  declareVar := walks_declareVar
  pass r d _ hv := walks_pass r d hv
  bindSelf f _ := walks_bindSelf _ f
  assign r target _ hv := walks_assign r target hv
  yield _ _ hv := walks_yield hv
  inFrame := Walks.inFrame
  calling _ h := h.calling

end Run

open Run

/-! ### Entries -/

section

variable {r : EnvRef} {f : FunDef} {s : Store} {e : Environment} {err : ScopeError}

theorem definitionDeeds_of_ok
    (he : (s.env r).declare f.name.name (.closure f s.envs.size) = .ok e) :
    f.definitionDeeds r s =
      [(s, .capture r), ((s.allocate (s.env r)).2, .define r f s.envs.size)] := by
  simp [FunDef.definitionDeeds, Store.allocate, he]

theorem definitionDeeds_of_error
    (he : (s.env r).declare f.name.name (.closure f s.envs.size) = .error err) :
    f.definitionDeeds r s = [] := by
  simp [FunDef.definitionDeeds, Store.allocate, he]

/-- The environment that a closure gets is a copy, in which its name is not yet
bound: the copy is made first, and then the name is declared where it was. -/
theorem path_definitionDeeds
    (he : (s.env r).declare f.name.name (.closure f s.envs.size) = .ok e) :
    Store.Path s.Covers s (f.definitionDeeds r s) ((s.allocate (s.env r)).2.setEnv r e) := by
  have henv : (s.allocate (s.env r)).2.env r = s.env r := by
    rw [s.env_allocate]
    split <;> rfl
  have hcopy := s.covers_allocate (s.env r)
  have hdefine : (Deed.define r f s.envs.size).perform (s.allocate (s.env r)).2 =
      (s.allocate (s.env r)).2.setEnv r e := by
    rw [Deed.perform, Store.update, henv, he]
  have hlast := hcopy.trans (Store.covers_setEnv (henv ▸ Scope.depth_le_declare he))
  rw [definitionDeeds_of_ok he]
  exact ⟨rfl, hcopy, rfl, hdefine ▸ hlast, hdefine.symm⟩

end

theorem walks_define (r : EnvRef) (f : FunDef) :
    Walks (· ≠ .uninitialized) (f.define r) (f.definitionDeeds r) := by
  refine ⟨fun s => ?_, fun s y hy => ?_, fun h => ?_⟩
  · cases he : (s.env r).declare f.name.name (.closure f s.envs.size) with
    | ok e =>
      refine ⟨_, path_definitionDeeds he, fun _ _ h => ?_⟩
      obtain ⟨e', he', -, rfl⟩ | ⟨_, he', -⟩ := define_cases h
      · rw [Except.ok.inj (he.symm.trans he')]
      · cases he.symm.trans he'
    | error err =>
      refine ⟨s, by rw [definitionDeeds_of_error he]; rfl, fun _ _ h => ?_⟩
      obtain ⟨_, he', -⟩ | ⟨_, -, -, rfl⟩ := define_cases h
      · cases he.symm.trans he'
      · rfl
  · cases he : (s.env r).declare f.name.name (.closure f s.envs.size) with
    | ok e =>
      rw [definitionDeeds_of_ok he] at hy
      rcases List.mem_pair.mp hy with rfl | rfl
      all_goals exact trivial
    | error err =>
      rw [definitionDeeds_of_error he] at hy
      cases hy
  · obtain ⟨e, -, hv, -⟩ | ⟨_, -, hv, -⟩ := define_cases h
    all_goals cases hv
    exact Value.noConfusion

theorem walks_defineAll (r : EnvRef) (fs : List FunDef) :
    Walks (fun _ => True) (defineAll r fs) (definitionDeeds r fs) := by
  induction fs with
  | nil => exact walks_pure trivial
  | cons f fs ih => exact (walks_define r f).bind fun _ _ => ih

theorem walks_execOutside (fuel : Nat) (r : EnvRef) (s : Stmt) :
    Walks (fun _ => True) (s.execOutside fuel r) (s.deeds fuel r) := by
  refine ((closed_walks.all fuel).exec r s).bind_none fun flow _ => ?_
  cases flow with
  | completed => exact walks_pure trivial
  | returning v => exact walks_fail _

theorem walks_execAllOutside (fuel : Nat) (r : EnvRef) (ss : List Stmt) :
    Walks (fun _ => True) (execAllOutside fuel r ss) (outsideDeeds fuel r ss) := by
  induction ss with
  | nil => exact walks_pure trivial
  | cons s ss ih => exact (walks_execOutside fuel r s).bind fun _ _ => ih

theorem walks_run (fuel : Nat) (r : EnvRef) (e : Entry) :
    Walks (∀ v ∈ ·, v ≠ .uninitialized) (e.run fuel r) (e.deeds fuel r) := by
  cases e with
  | program p =>
    exact (walks_defineAll r p.functions).bind fun _ _ => (closed_walks.runDecls r p.globals).bind
      fun _ _ => (walks_execAllOutside fuel r p.main).bind_none fun _ _ => walks_pure nofun
  | function f => exact (walks_define r f).bind_none fun _ _ => walks_pure nofun
  | declaration d => exact (walks_declareVar r d).bind_none fun _ _ => walks_pure nofun
  | statement s => exact (walks_execOutside fuel r s).bind_none fun _ _ => walks_pure nofun
  | expression e =>
    refine ((closed_walks.all fuel).eval r e).bind_none fun v hv => walks_pure ?_
    rintro w ⟨⟩
    exact hv

/-- What has been assigned at the start of a run is so in every store that the
run is in, and in the one that it ends in. -/
theorem Run.Walks.keepsAssigned {α : Type} {A : α → Prop} {p : Run α} {k : Deeds}
    (h : Walks A p k) (s : Store) :
    (∀ y ∈ k s, s.KeepsAssigned y.1) ∧
      ∀ res s', p s = some (res, s') → s.KeepsAssigned s' := by
  refine ⟨fun y hy => ?_, fun res s' hp => (h.path hp).keepsAssigned (h.proper s)⟩
  obtain ⟨t, ht, -⟩ := h.leads s
  obtain ⟨ds, hds, hpath⟩ := ht.of_mem hy
  exact hpath.keepsAssigned fun z hz => h.proper s z (hds hz)

/-- No expression comes to an uninitialized value, no call does that is not
passed one, and no statement returns one.  All that an expression, a call, a
statement or an entry does, from its first store to its last, passes, assigns
and returns no such value either, in calls within calls as well.  However it
ends, what was assigned before is so in every store on the way, and a binding
that is assigned at any point stays so up to any later one, as long as its frame
is there. -/
theorem uninitialized_never_flows :
    (∀ fuel r (e : Expr), Walks (· ≠ .uninitialized) (e.eval fuel r) (e.deeds fuel r)) ∧
    (∀ fuel r (es : List Expr),
      Walks (∀ v ∈ ·, v ≠ .uninitialized) (evalAll fuel r es) (argumentDeeds fuel r es)) ∧
    (∀ fuel r (f : FunDef) vs, (∀ v ∈ vs, v ≠ .uninitialized) →
      Walks (· ≠ .uninitialized) (f.invoke fuel r vs) (f.deeds fuel r vs)) ∧
    (∀ fuel r (s : Stmt),
      Walks (Flow.Yields (· ≠ .uninitialized)) (s.exec fuel r) (s.deeds fuel r)) ∧
    (∀ fuel r (ss : List Stmt),
      Walks (Flow.Yields (· ≠ .uninitialized)) (execAll fuel r ss) (statementDeeds fuel r ss)) ∧
    (∀ fuel r (e : Entry),
      Walks (∀ v ∈ ·, v ≠ .uninitialized) (e.run fuel r) (e.deeds fuel r)) ∧
    ∀ α (A : α → Prop) (p : Run α) (k : Deeds), Walks A p k → ∀ s : Store,
      (∀ y ∈ k s, s.KeepsAssigned y.1) ∧
      (∀ res s', p s = some (res, s') → s.KeepsAssigned s') ∧
      ∀ before during after t u q level x, k s = before ++ during ++ after →
        Store.Path (fun u => level < (u.env q).depth) t during u →
        (t.env q).Assigned level x → (u.env q).Assigned level x := by
  refine ⟨fun fuel => (closed_walks.all fuel).eval, fun fuel => (closed_walks.all fuel).evalAll,
    fun fuel r f vs => (closed_walks.all fuel).invoke r f vs trivial,
    fun fuel => (closed_walks.all fuel).exec, fun fuel => (closed_walks.all fuel).execAll,
    walks_run, fun α A p k h s => ?_⟩
  obtain ⟨hway, hend⟩ := h.keepsAssigned s
  refine ⟨hway, hend, fun before during after t u q level x hk hpath ht => ?_⟩
  refine hpath.assigned (fun y hy => h.proper s y ?_) ht
  rw [hk]
  exact List.mem_append_left _ (List.mem_append_right _ hy)

/-- A `var` that a closure captures before it is assigned has a value there
after a call that fails, and none outside.  The next call, which passes an
argument, fails as well. -/
theorem play_captured : ((Session.play 60
    ["var x;", "function f(int n) \x7b x := n; return 1 / 0; \x7d", "f(5)"] .initial).any fun p =>
      (p.2.store.env Store.base).lookup "x" matches .ok .uninitialized &&
      ((p.2.store.env 1).frames.reverse[0]?.any fun f =>
        (f.get? "x").any fun v => v matches .integer _) &&
      ((Expr.call ⟨"f", .empty⟩ [.integer 6 .empty] .empty).eval 60 Store.base p.2.store).any
        (fun q => !q.1.toBool) &&
      ((Expr.call ⟨"f", .empty⟩ [.integer 6 .empty] .empty).deeds 60 Store.base p.2.store).any
        fun y => y.2 matches .pass 1 _ _) = true := by
  decide +kernel

/-- A `var` that a closure has captured before it was assigned is assigned by a
call that fails, and has a value after another such call, which is passed one;
outside the closure it never gets one. -/
theorem uninitialized_never_flows_captured :
    ∃ (s s' : Store) (e : Expr) (err : RuntimeError),
      (s.env Store.base).lookup "x" = .ok .uninitialized ∧ (s.env 1).Assigned 0 "x" ∧
      e.eval 60 Store.base s = some (.error err, s') ∧
      (∃ t d v, (t, .pass 1 d v) ∈ e.deeds 60 Store.base s ∧ v ≠ .uninitialized ∧
        (t.env 1).Assigned 0 "x") ∧
      (s'.env 1).Assigned 0 "x" := by
  obtain ⟨⟨es, s⟩, -, hrun⟩ := (Option.any_eq_true _ _).mp play_captured
  obtain ⟨hrun, hpass⟩ := (Bool.and_eq_true _ _).mp hrun
  obtain ⟨hbefore, hrun⟩ := (Bool.and_eq_true _ _).mp hrun
  obtain ⟨hbase, hset⟩ := (Bool.and_eq_true _ _).mp hbefore
  obtain ⟨⟨res, s'⟩, hres, herr⟩ := (Option.any_eq_true _ _).mp hrun
  have hassigned : (s.store.env 1).Assigned 0 "x" := by
    obtain ⟨f, hf, hset⟩ := (Option.any_eq_true _ _).mp hset
    obtain ⟨v, hv, hset⟩ := (Option.any_eq_true _ _).mp hset
    exact ⟨f, hf, v, hv, by rintro rfl; cases hset⟩
  obtain ⟨-, -, -, -, -, -, hkeeps⟩ := uninitialized_never_flows
  have hwalks := uninitialized_never_flows.1 60 Store.base
    (.call ⟨"f", .empty⟩ [.integer 6 .empty] .empty)
  obtain ⟨hway, hend, -⟩ := hkeeps _ _ _ _ hwalks s.store
  cases res with
  | ok v => cases herr
  | error err =>
    refine ⟨s.store, s', _, err, ?_, hassigned, hres, ?_, hend _ _ hres 1 0 "x" hassigned⟩
    · dsimp only at hbase
      split at hbase
      · assumption
      · cases hbase
    · obtain ⟨⟨t, d⟩, hy, hpass⟩ := List.any_eq_true.mp hpass
      dsimp only at hpass
      split at hpass
      · next d v => exact ⟨t, d, v, hy, hwalks.proper _ _ hy, hway _ hy 1 0 "x" hassigned⟩
      · cases hpass

end Implet
