/-
Implet/Proofs/Redeclaration.lean

Declarations that clash.  The check puts the name of a function among the
globals, out of the way of what its body declares; a call puts it next to the
parameters, in the frame in which the variables at the top of the body are
declared as well.  A parameter may have the name of the function, a variable of
the body may not, but only the call knows.

So there is one way for a declaration to clash that the check does not see: a
function that declares its own name (`History.duplicate_iff`).  Such a function
passes the check, and each call of it fails before its first statement
(`FunDef.Typed.invoke_eq`).
-/
import Implet.Proofs.History

namespace Implet

open Run

variable {r : EnvRef} {s : Store} {F : Frame Value} {fs : List (Frame Value)}

/-! ### Declaring in a frame that is known -/

namespace Run

theorem declare_eq (he : s.env r = ⟨F :: fs⟩) {x : String} (hx : x ∉ F.names) (v : Value)
    (span : Span) : onEnvAt r span (·.declare x v) s =
      some (.ok (), s.setEnv r ⟨((x, v) :: F) :: fs⟩) := by
  rw [onEnvAt, he, Scope.declare_of_not_mem v hx]

theorem declare_eq_error (he : s.env r = ⟨F :: fs⟩) {x : String} (hx : x ∈ F.names)
    (v : Value) (span : Span) : onEnvAt r span (·.declare x v) s =
      some (.error (.duplicate x span), s) := by
  rw [onEnvAt, he, Scope.declare_of_mem v hx]
  rfl

theorem bindParams_eq (hr : r < s.envs.size) (he : s.env r = ⟨F :: fs⟩) {ds : List Decl}
    {vs : List Value} (hlen : vs.length = ds.length) (hnd : (declaredNames ds).Nodup)
    (hdis : F.names.Disjoint (declaredNames ds)) :
    bindParams r ds vs s = some (.ok (), s.setEnv r ⟨F.declared ds vs :: fs⟩) := by
  induction ds generalizing F s vs with
  | nil =>
    obtain rfl := List.length_eq_zero_iff.mp hlen
    show some (Except.ok (), s) = some (Except.ok (), s.setEnv r ⟨F :: fs⟩)
    rw [← he, Store.setEnv_env]
  | cons d ds ih =>
    cases vs with
    | nil => cases hlen
    | cons v vs =>
      obtain ⟨hd, hnd⟩ := List.nodup_cons.mp hnd
      have hx : d.name.name ∉ F.names := fun h => hdis h List.mem_cons_self
      rw [bindParams, bind_eq (declare_eq he hx v d.span),
        ih (by simpa using hr) (Store.env_setEnv_self hr _) (by simpa using hlen) hnd ?_,
        Store.setEnv_setEnv, Frame.declared_cons]
      intro x hxF hxd
      rcases List.mem_cons.mp hxF with rfl | hxF
      · exact hd hxd
      · exact hdis hxF (List.mem_cons_of_mem _ hxd)

theorem bindSelf_eq (he : s.env r = ⟨F :: fs⟩) (f : FunDef) :
    f.bindSelf r s =
      some (.ok (), s.setEnv r ⟨F.declareNew f.name.name (.closure f r) :: fs⟩) := by
  have henv : Run.env r s = some (.ok (s.env r), s) := rfl
  rw [FunDef.bindSelf, bind_eq henv, he, Frame.declareNew]
  by_cases hF : F.has f.name.name = true
  · have hlocal : (⟨F :: fs⟩ : Environment).isDeclaredLocally f.name.name = true := hF
    rw [if_pos hF, if_pos hlocal, ← he, Store.setEnv_env]
    rfl
  · have hlocal : ¬ (⟨F :: fs⟩ : Environment).isDeclaredLocally f.name.name = true := hF
    rw [if_neg hF, if_neg hlocal]
    exact declare_eq he (fun h => hF (Frame.has_iff.mpr h)) _ _

/-- If one of some variables has a name that the frame has, and no other has,
then it cannot be declared. -/
theorem runDecls_eq_error (hr : r < s.envs.size) (he : s.env r = ⟨F :: fs⟩)
    {ds : List Decl} (hnd : (declaredNames ds).Nodup) {x : String} (hx : x ∈ F.names)
    (hds : x ∈ declaredNames ds) (huniq : ∀ y ∈ declaredNames ds, y ∈ F.names → y = x) :
    ∃ d ∈ ds, ∃ F', runDecls r ds s =
      some (.error (.duplicate x d.span), s.setEnv r ⟨F' :: fs⟩) := by
  induction ds generalizing F s with
  | nil => cases hds
  | cons d ds ih =>
    obtain ⟨hd, hnd⟩ := List.nodup_cons.mp hnd
    by_cases hdx : d.name.name = x
    · subst hdx
      refine ⟨d, List.mem_cons_self, F, ?_⟩
      rw [runDecls, Decl.run, bind_eq_error (declare_eq_error he hx _ d.span), ← he,
        Store.setEnv_env]
    · have hdF : d.name.name ∉ F.names := fun h => hdx (huniq _ List.mem_cons_self h)
      have hds : x ∈ declaredNames ds := (List.mem_cons.mp hds).resolve_left (Ne.symm hdx)
      obtain ⟨d', hd', F', h⟩ := ih (s := s.setEnv r ⟨((d.name.name, .default d.type) :: F) :: fs⟩)
        (by simpa using hr) (Store.env_setEnv_self hr _) hnd (List.mem_cons_of_mem _ hx) hds
        fun y hy hyF => (List.mem_cons.mp hyF).elim (fun h => absurd (h ▸ hy) hd)
          (huniq y (List.mem_cons_of_mem _ hy))
      refine ⟨d', List.mem_cons_of_mem _ hd', F', ?_⟩
      rw [runDecls, Decl.run, bind_eq (declare_eq he hdF _ d.span), h, Store.setEnv_setEnv]

/-- An error within a frame leaves it. -/
theorem inFrame_eq_error {α : Type} {body : Run α} {e : RuntimeError}
    (hr : r < s.envs.size) (h : body (s.setEnv r (s.env r).enter) =
      some (.error e, (s.setEnv r (s.env r).enter).setEnv r ⟨F :: (s.env r).frames⟩)) :
    inFrame r body s = some (.error e, s) := by
  rw [Store.setEnv_setEnv] at h
  have hexit : ((s.setEnv r ⟨F :: (s.env r).frames⟩).env r).exit = .ok (s.env r) := by
    rw [Store.env_setEnv_self hr]
    rfl
  rw [inFrame, h]
  simp only [hexit]
  rw [Store.setEnv_setEnv, Store.setEnv_env]

end Run

/-! ### Calls of functions that declare their own names -/

/-- A call of a function that declares its own name fails at that declaration
and leaves the store as it was, whatever there is in the store. -/
theorem FunDef.Typed.invoke_eq {ρ : Valuation} {n : Nat} {G : Frame Ground} {f : FunDef}
    (ht : f.Typed ρ n G) (hf : f.RedeclaresSelf) (fuel : Nat) (hr : r < s.envs.size)
    {args : List Value} (hlen : args.length = f.params.length) :
    ∃ d ∈ f.body.declarations,
      f.invoke (fuel + 1) r args s = some (.error (.duplicate f.name.name d.span), s) := by
  have henter : (s.setEnv r (s.env r).enter).env r = ⟨[] :: (s.env r).frames⟩ :=
    Store.env_setEnv_self hr _
  have hparams := bindParams_eq (by simpa using hr) henter hlen ht.nodup_params
    (List.disjoint_nil_left _)
  have hframe : ∀ F : Frame Value, ((s.setEnv r (s.env r).enter).setEnv r
      ⟨F :: (s.env r).frames⟩).env r = ⟨F :: (s.env r).frames⟩ :=
    fun F => Store.env_setEnv_self (by simpa using hr) _
  have hself := bindSelf_eq (hframe (Frame.declared [] f.params args)) f
  obtain ⟨d, hd, F', hdecls⟩ := runDecls_eq_error (by simpa using hr)
    (hframe ((Frame.declared [] f.params args).declareNew f.name.name (.closure f r)))
    ht.nodup_declarations ((f.mem_names_entered hlen _).mpr (Or.inl rfl)) hf
    fun y hy hyF => ((f.mem_names_entered hlen _).mp hyF).resolve_right
      fun hp => ht.disjoint hp hy
  simp only [Store.setEnv_setEnv] at hparams hself hdecls
  refine ⟨d, hd, ?_⟩
  rw [FunDef.invoke]
  refine bind_eq_error (inFrame_eq_error (F := F') hr ?_)
  rw [bind_eq hparams, bind_eq hself, bind_eq_error hdecls, Store.setEnv_setEnv]

/-! ### Sessions -/

theorem FunctionsTyped.typed {ρ : Valuation} {n : Nat} {G : Frame Ground}
    {fs : List FunDef}
    (h : FunctionsTyped ρ n G fs) : ∀ f ∈ fs, ∃ n G, f.Typed ρ n G := by
  induction fs generalizing n G with
  | nil => exact fun _ hf => absurd hf List.not_mem_nil
  | cons f fs ih =>
    intro f' hf'
    rcases List.mem_cons.mp hf' with rfl | hf'
    · exact ⟨n, G, h.1⟩
    · exact ih h.2 f' hf'

theorem Entry.Typed.functions {ρ : Valuation} {n : Nat} {G : Frame Ground}
    {type : Option Ground}
    {e : Entry} (h : e.Typed ρ n G type) : ∀ f ∈ e.functions, ∃ n G, f.Typed ρ n G := by
  intro f hf
  cases e with
  | program p => exact h.2.1.typed f hf
  | function f' =>
    obtain rfl := List.mem_singleton.mp hf
    exact ⟨n, G, h.2⟩
  | declaration | statement | expression => exact absurd hf List.not_mem_nil

/-- The functions that the accepted entries of a history define. -/
def Defined (es : List Event) (f : FunDef) : Prop :=
  ∃ ev ∈ es, ev.Accepted ∧ f ∈ ev.entry.functions

theorem History.typed_of_defined {es : List Event} {s : Session} (h : History es s)
    {f : FunDef} (hf : Defined es f) : ∃ ρ n G, f.Typed ρ n G := by
  obtain ⟨ev, hev, ⟨type, ht⟩, hf⟩ := hf
  obtain ⟨es₀, fuel, s', h₀, hr, -⟩ := h.of_mem hev
  rcases Session.runEntry_cases hr with ⟨err, hc, -⟩ | ⟨type', hc, -⟩
  · rw [hc] at ht
    cases ht
  · obtain ⟨hrest, ha⟩ := h₀.rest.run hc
    obtain ⟨ρ, hρ⟩ := hrest.subst.exists_holds
    exact ⟨ρ, (ha.typed hρ).functions f hf⟩

/-- The check and the run agree on which declarations clash, but for functions
that declare their own names.  An entry that was accepted runs into a clash only
by calling one of these, and every call of one of these runs into a clash. -/
theorem History.duplicate_iff {es : List Event} {s : Session} (h : History es s) :
    (∀ ev ∈ es, ∀ name span, ev.outcome = .error (.runtime (.duplicate name span)) →
      ∃ f, Defined es f ∧ f.RedeclaresSelf ∧ f.name.name = name) ∧
    ∀ f, Defined es f → f.RedeclaresSelf → ∀ fuel r args (store : Store),
      r < store.envs.size → args.length = f.params.length →
      ∃ d ∈ f.body.declarations, f.invoke (fuel + 1) r args store =
        some (.error (.duplicate f.name.name d.span), store) := by
  refine ⟨?_, ?_⟩
  · intro ev hev name span ho
    -- names are accounted for whatever the types are, so blocks need not agree
    -- with anything
    obtain ⟨ρ, hρ⟩ := h.rest.subst.exists_holds
    have hfits := (h.wellTyped hρ False (Q := Defined es) fun ev' hev' hacc =>
      ⟨False.elim, fun f hf => ⟨ev', hev', hacc, hf⟩⟩).2 ev hev
    obtain ⟨es₀, fuel, s', -, hr, -⟩ := h.of_mem hev
    rcases Session.runEntry_cases hr with ⟨err, -, ho', -⟩ | ⟨type, hc, -⟩
    · rw [ho] at ho'
      cases ho'
    · have hfit := hfits type (by rw [hc])
      rw [ho] at hfit
      obtain ⟨f, hf, hd, hname⟩ := hfit
      exact ⟨f, hf, hd, hname.symm⟩
  · intro f hf hd fuel r args store hr hlen
    obtain ⟨ρ, n, G, ht⟩ := h.typed_of_defined hf
    exact ht.invoke_eq hd fuel hr hlen

/-- A function that declares its own name, and a call of it. -/
def eclipse : List String := ["function f() \x7b int f; return f; \x7d", "f()"]

theorem duplicate_iff_eclipse : ∃ es s, Session.play 60 eclipse .initial = some (es, s) ∧
    (∀ ev ∈ es, ∀ name span, ev.outcome = .error (.runtime (.duplicate name span)) →
      ∃ f, Defined es f ∧ f.RedeclaresSelf ∧ f.name.name = name) ∧
    ∀ f, Defined es f → f.RedeclaresSelf → ∀ fuel r args (store : Store),
      r < store.envs.size → args.length = f.params.length →
      ∃ d ∈ f.body.declarations, f.invoke (fuel + 1) r args store =
        some (.error (.duplicate f.name.name d.span), store) := by
  have hplay : (Session.play 60 eclipse .initial).isSome = true := by
    decide +kernel
  obtain ⟨⟨es, s⟩, hp⟩ := Option.isSome_iff_exists.mp hplay
  exact ⟨es, s, hp, (Session.history_play hp).duplicate_iff⟩

/-- The declaration of `f` in the body clashes with the name under which the
body can call `f`, when it is too late. -/
theorem duplicate_of_accepted : ∃ es s, Session.play 60 eclipse .initial = some (es, s) ∧
    History es s ∧ ∃ ev ∈ es, ev.Accepted ∧ ∃ span,
      ev.outcome = .error (.runtime (.duplicate "f" span)) := by
  obtain ⟨es, s, hp, hs, ev, hev, hacc, err, herr, ho⟩ := Session.exists_failure 60 eclipse
    (fun err => err = .duplicate "f" err.span) (by decide +kernel)
  exact ⟨es, s, hp, hs, ev, hev, hacc, err.span, by rw [ho, ← herr]⟩

end Implet
