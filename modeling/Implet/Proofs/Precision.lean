/-
Implet/Proofs/Precision.lean

Types get more precise, and nothing else happens to them.  Whatever is asked of
a session between two of its states, the globals of the earlier state are
globals of the later one, and one replacement of type variables by types leads
from all their earlier types to their later types (`Session.Log.types_refine`).

What a checker has come to know it keeps: a valuation that the later
substitution holds of is one that the earlier one held of, and the frame only
grows at its front (`Checker.Sharpens`).  The replacement expands each variable
as the later substitution does.  It is the right one since types are told apart
by what they stand for.
-/
import Implet.Proofs.NoTrace
import Implet.Proofs.Principal
import Implet.Proofs.ScopeAgreement

namespace Implet

variable {ρ : Valuation} {n : Nat} {G : Frame Ground} {type : Option Ground}

/-! ### The frame grows at its front -/

namespace Frame

variable {V : Type} {f g : Frame V} {name : String} {v : V}

/-- A frame that binds no name twice holds what it can be asked for. -/
theorem get?_eq_some_iff (hf : f.names.Nodup) : f.get? name = some v ↔ (name, v) ∈ f := by
  induction f with
  | nil => simp
  | cons b f ih =>
    rw [names_cons, List.nodup_cons] at hf
    rw [get?_cons, List.mem_cons]
    by_cases hb : b.1 = name
    · subst hb
      have hv : (b.1, v) ∉ f := fun h => hf.1 (List.mem_map.mpr ⟨_, h, rfl⟩)
      simp [hv, Prod.ext_iff, eq_comm]
    · rw [if_neg hb, ih hf.2]
      simp [Prod.ext_iff, Ne.symm hb]

theorem get?_of_suffix (hfg : f <:+ g) (hg : g.names.Nodup) (h : f.get? name = some v) :
    g.get? name = some v := by
  have hf : f.names.Nodup := hg.sublist (hfg.sublist.map _)
  exact (get?_eq_some_iff hg).mpr (hfg.subset ((get?_eq_some_iff hf).mp h))

theorem suffix_declared (f : Frame V) (ds : List Decl) (vs : List V) :
    f <:+ f.declared ds vs :=
  List.suffix_append _ _

end Frame

theorem suffix_globalsAfter (ρ : Valuation) (n : Nat) (G : Frame Ground)
    (fs : List FunDef) :
    G <:+ globalsAfter ρ n G fs := by
  induction fs generalizing n G with
  | nil => exact List.suffix_rfl
  | cons f fs ih => exact (List.suffix_cons _ _).trans (ih (n + f.minted) (f.globals ρ n G))

/-- An entry adds globals and leaves those that there are. -/
theorem Entry.suffix_globals (ρ : Valuation) (n : Nat) (G : Frame Ground) (e : Entry) :
    G <:+ e.globals ρ n G := by
  cases e with
  | program p => exact (suffix_globalsAfter ρ n G p.functions).trans (Frame.suffix_declared ..)
  | function f => exact List.suffix_cons _ _
  | declaration d => exact Frame.suffix_declared ..
  | statement | expression => exact List.suffix_rfl

theorem FunctionsTyped.nodup_globals {fs : List FunDef} (h : FunctionsTyped ρ n G fs)
    (hG : G.names.Nodup) : (globalsAfter ρ n G fs).names.Nodup := by
  induction fs generalizing n G with
  | nil => exact hG
  | cons f fs ih => exact ih h.2 (List.nodup_cons.mpr ⟨h.1.fresh, hG⟩)

theorem Frame.nodup_withGlobals {ds : List Decl} (hG : G.names.Nodup)
    (hds : (declaredNames ds).Nodup) (hdis : G.names.Disjoint (declaredNames ds)) :
    (G.withGlobals ρ n ds).names.Nodup := by
  rw [withGlobals, names_declared _ (length_groundDecls ..)]
  refine List.nodup_append'.mpr ⟨List.nodup_reverse.mpr hds, hG, ?_⟩
  exact (List.disjoint_reverse_right.mpr hdis).symm

/-- An entry that is well typed declares no global twice. -/
theorem Entry.Typed.nodup_globals {e : Entry} (h : e.Typed ρ n G type)
    (hG : G.names.Nodup) : (e.globals ρ n G).names.Nodup := by
  cases e with
  | program p =>
    obtain ⟨-, hfs, hds, hdis, -⟩ := h
    exact Frame.nodup_withGlobals (hfs.nodup_globals hG) hds hdis
  | function f => exact List.nodup_cons.mpr ⟨h.2.fresh, hG⟩
  | declaration d =>
    exact Frame.nodup_withGlobals hG (List.nodup_singleton _)
      (List.disjoint_singleton.mpr h.2)
  | statement | expression => exact hG

/-! ### Checkers that know more -/

namespace Checker

open Subst

variable {c c' c'' : Checker}

/-- What is known in `c` is known in `c'`, about the same globals and maybe more. -/
structure Sharpens (c c' : Checker) : Prop where
  holds : ∀ {ρ}, c'.subst.Holds ρ → c.subst.Holds ρ
  frame : ∀ {ρ}, c'.subst.Holds ρ → c.frame.ground ρ <:+ c'.frame.ground ρ
  nodup : c.frame.names.Nodup → c'.frame.names.Nodup

theorem Sharpens.refl (c : Checker) : c.Sharpens c := ⟨id, fun _ => List.suffix_rfl, id⟩

theorem Sharpens.trans (h : c.Sharpens c') (h' : c'.Sharpens c'') : c.Sharpens c'' where
  holds hρ := h.holds (h'.holds hρ)
  frame hρ := (h.frame (h'.holds hρ)).trans (h'.frame hρ)
  nodup hc := h'.nodup (h.nodup hc)

theorem Rest.sharpens_run (h : c.Rest) {e : Entry} {t : Option Ty}
    (hr : c.run e = (.ok t, c')) :
    c.Sharpens c' := by
  obtain ⟨hrest, ha⟩ := h.run hr
  refine ⟨ha.subst.holds, fun _ => ha.globals _ ▸ Entry.suffix_globals .., fun hc => ?_⟩
  obtain ⟨ρ, hρ⟩ := hrest.subst.exists_holds
  rw [← Frame.names_ground ρ] at hc ⊢
  rw [ha.globals]
  exact (ha.typed hρ).nodup_globals hc

theorem Rest.sharpens_asks (h : c.Rest) (ha : Asks c c') : c.Sharpens c' := by
  have hf := (h.asks ha).2
  exact ⟨ha.subst.holds.mp, fun _ => hf ▸ List.suffix_rfl, fun hc => hf ▸ hc⟩

/-- A global keeps its name, and what its type stands for under all that is
known later. -/
theorem Sharpens.expand (h : c.Sharpens c') (hs : c'.subst.WellFormed)
    (hc : c.frame.names.Nodup)
    {name : String} {t : Ty} (ht : c.frame.get? name = some t) :
    ∃ t', c'.frame.get? name = some t' ∧ c'.subst.expand t' = c'.subst.expand t := by
  have hkept : ∀ {ρ}, c'.subst.Holds ρ →
      (c'.frame.get? name).map (Ty.ground ρ) = some (t.ground ρ) := by
    intro ρ hρ
    rw [← Frame.get?_ground]
    refine Frame.get?_of_suffix (h.frame hρ) ?_ ?_
    · rw [Frame.names_ground]
      exact h.nodup hc
    · rw [Frame.get?_ground, ht]
      rfl
  obtain ⟨ρ₀, hρ₀⟩ := hs.exists_holds
  obtain ⟨t', ht', -⟩ := Option.map_eq_some_iff.mp (hkept hρ₀)
  refine ⟨t', ht', hs.eq_of_ground (hs.free_expand t') (hs.free_expand t) ?_⟩
  intro ρ hρ
  have hg := hkept hρ
  rw [ht'] at hg
  rw [ground_expand hρ, ground_expand hρ]
  exact Option.some.inj hg

/-- What a substitution makes of each variable. -/
def refinement (c : Checker) (n : Nat) : Ty := c.subst.expand (.var n)

/-- What a later substitution makes of a type it can make of what an earlier one
made of it. -/
theorem Sharpens.expand_expand (h : c.Sharpens c') (hs : c'.subst.WellFormed) (t : Ty) :
    (c.subst.expand t).subst c'.refinement = c'.subst.expand t := by
  show (c.subst.expand t).subst (fun n => c'.subst.expand (.var n)) = _
  rw [← WellFormed.expand_eq_subst]
  refine hs.eq_of_ground (hs.free_expand _) (hs.free_expand t) ?_
  intro ρ hρ
  rw [ground_expand hρ, ground_expand (h.holds hρ), ground_expand hρ]

/-- The reported type of a name. -/
theorem Rest.fst_typeOf (h : c.Rest) (name : String) :
    (typeOf name c).1 = (c.frame.get? name).map c.subst.expand := by
  have hget : c.env.get? name = c.frame.get? name := by
    rw [h.env, Scope.get?_cons, Scope.get?_nil, Option.or_none]
  unfold typeOf
  rw [hget]
  cases c.frame.get? name with
  | none => rfl
  | some t => exact congrArg some (h.subst.apply_eq_expand t)

/-- The reported globals are those of the frame. -/
theorem Rest.mem_globals (h : c.Rest) {name : String} {u : Ty} :
    (name, u) ∈ (globals c).1 ↔ ∃ t, (name, t) ∈ c.frame ∧ c.subst.expand t = u := by
  rw [fst_globals h.subst, h.env]
  simp [Scope.globals]

/-- The reported types of the globals are refined, all of them in the same way. -/
theorem Sharpens.typeOf (h : c.Sharpens c') (hc : c.Rest) (hc' : c'.Rest)
    (hnd : c.frame.names.Nodup) {name : String} {u : Ty}
    (hu : (Checker.typeOf name c).1 = some u) :
    (Checker.typeOf name c').1 = some (u.subst c'.refinement) := by
  rw [hc.fst_typeOf] at hu
  obtain ⟨t, ht, rfl⟩ := Option.map_eq_some_iff.mp hu
  obtain ⟨t', ht', he⟩ := h.expand hc'.subst hnd ht
  rw [hc'.fst_typeOf, ht', h.expand_expand hc'.subst, Option.map_some, he]

theorem Sharpens.globals (h : c.Sharpens c') (hc : c.Rest) (hc' : c'.Rest)
    (hnd : c.frame.names.Nodup) {name : String} {u : Ty} (hu : (name, u) ∈ (Checker.globals c).1) :
    (name, u.subst c'.refinement) ∈ (Checker.globals c').1 := by
  obtain ⟨t, ht, rfl⟩ := hc.mem_globals.mp hu
  obtain ⟨t', ht', he⟩ := h.expand hc'.subst hnd ((Frame.get?_eq_some_iff hnd).mpr ht)
  refine hc'.mem_globals.mpr ⟨t', (Frame.get?_eq_some_iff (h.nodup hnd)).mp ht', ?_⟩
  rw [he, h.expand_expand hc'.subst]

end Checker

/-! ### Conversations -/

/-- A type without variables stays as it is, whatever is put in the place of
variables. -/
theorem Ty.subst_of_vars_eq_nil {t : Ty} (h : t.vars = []) (f : Nat → Ty) :
    t.subst f = t := by
  rw [Ty.subst_congr (g := .var) (by simp [h]), Ty.subst_id]

namespace Session

variable {s s' : Session} {l l' : List Exchange} {q : Request} {a : Response} {es : List Event}

/-- A request adds an event to the history or none, and does not make the
checker forget. -/
theorem Answers.sharpens (h : s.Answers q a s') (hs : History es s) :
    (∃ es', History es' s') ∧ s.checker.Sharpens s'.checker := by
  obtain ⟨fuel, h⟩ := h
  have hentry : ∀ {e : Entry} {o : Except SessionError Outcome}, s.runEntry fuel e = some (o, s') →
      (∃ es', History es' s') ∧ s.checker.Sharpens s'.checker := by
    intro e o hr
    refine ⟨⟨_, hs.entry hr⟩, ?_⟩
    rcases runEntry_cases hr with ⟨_, -, -, rfl⟩ | ⟨_, hc, -⟩
    · exact .refl _
    · exact hs.rest.sharpens_run hc
  cases q with
  | source text =>
    obtain ⟨⟨o, t⟩, hr, ho⟩ := Option.map_eq_some_iff.mp h
    obtain ⟨-, rfl⟩ := Prod.mk.inj ho
    rw [Session.run] at hr
    split at hr
    · exact hentry hr
    · -- a text that cannot be read is no entry
      obtain ⟨-, rfl⟩ := Prod.mk.inj (Option.some.inj hr)
      exact ⟨⟨es, hs⟩, .refl _⟩
  | entry e =>
    obtain ⟨⟨o, t⟩, hr, ho⟩ := Option.map_eq_some_iff.mp h
    obtain ⟨-, rfl⟩ := Prod.mk.inj ho
    exact hentry hr
  | globals =>
    obtain ⟨-, rfl⟩ := Prod.mk.inj (Option.some.inj h)
    refine ⟨⟨es, hs.globals⟩, ?_⟩
    rw [snd_globals]
    exact hs.rest.sharpens_asks (Checker.asks_globals hs.rest.subst)
  | typeOf name =>
    obtain ⟨-, rfl⟩ := Prod.mk.inj (Option.some.inj h)
    refine ⟨⟨es, hs.typeOf name⟩, ?_⟩
    rw [snd_typeOf]
    exact hs.rest.sharpens_asks (Checker.asks_typeOf hs.rest.subst name)
  | valueOf | depth =>
    obtain ⟨-, rfl⟩ := Prod.mk.inj (Option.some.inj h)
    exact ⟨⟨es, hs⟩, .refl _⟩

theorem Log.sharpens (h : Log s l s') (hs : History es s) :
    (∃ es', History es' s') ∧ s.checker.Sharpens s'.checker := by
  induction h generalizing es with
  | nil => exact ⟨⟨es, hs⟩, .refl _⟩
  | cons ha _ ih =>
    obtain ⟨⟨es₁, h₁⟩, hs₁⟩ := ha.sharpens hs
    obtain ⟨hes, ht⟩ := ih h₁
    exact ⟨hes, hs₁.trans ht⟩

/-- What is reported of the globals is what the checker reports, with the values. -/
theorem mem_globals {b : Binding} : b ∈ (Session.globals s).1 ↔
    (b.name, b.type) ∈ (Checker.globals s.checker).1 ∧ b.value = s.valueOf b.name := by
  show b ∈ (Checker.globals s.checker).1.map (fun p => ⟨p.1, p.2, s.valueOf p.1⟩) ↔ _
  rw [List.mem_map]
  constructor
  · rintro ⟨p, hp, rfl⟩
    exact ⟨hp, rfl⟩
  · rintro ⟨hb, hv⟩
    exact ⟨_, hb, by rw [← hv]⟩

end Session

/-- All globals that the checker knows have a value. -/
theorem History.isSome_valueOf {es : List Event} {s : Session} (h : History es s)
    {name : String} (hn : name ∈ s.checker.frame.names) : (s.valueOf name).isSome := by
  obtain ⟨f, g, hf, hg, hnames⟩ := h.names_agree
  have hframe : s.checker.frame = f := by
    rw [Checker.frame, hf]
    rfl
  rw [hframe, ← hnames, ← Frame.get?_isSome_iff] at hn
  rw [Session.valueOf, show s.env = ⟨[g]⟩ from congrArg Scope.mk hg, Scope.get?_cons,
    Scope.get?_nil, Option.or_none]
  exact hn

namespace Session

variable {s s' : Session} {l l' : List Exchange}

/-- Between two states of a session, whatever was asked in between and whatever
came of it, the globals are kept, and their types are refined: one replacement
of type variables leads from their earlier types to their later ones.  A type
without variables is kept for ever. -/
theorem Log.types_refine (h : Log .initial l s) (h' : Log s l' s') : ∃ f : Nat → Ty,
    (∀ name t, (typeOf name s).1 = some t →
      (typeOf name s').1 = some (t.subst f) ∧ (t.vars = [] → (typeOf name s').1 = some t)) ∧
    ∀ b ∈ (Session.globals s).1, ∃ b' ∈ (Session.globals s').1,
      b'.name = b.name ∧ b'.type = b.type.subst f ∧ b'.value.isSome := by
  obtain ⟨⟨es, hs⟩, hfirst⟩ := h.sharpens .initial
  obtain ⟨⟨es', hs'⟩, hsharp⟩ := h'.sharpens hs
  have hnd : s.checker.frame.names.Nodup := hfirst.nodup List.nodup_nil
  refine ⟨s'.checker.refinement, fun name t ht => ?_, fun b hb => ?_⟩
  · have hlater : (typeOf name s').1 = some (t.subst s'.checker.refinement) :=
      hsharp.typeOf hs.rest hs'.rest hnd ht
    refine ⟨hlater, fun hvars => ?_⟩
    rw [hlater, Ty.subst_of_vars_eq_nil hvars]
  · obtain ⟨hb, -⟩ := mem_globals.mp hb
    have hlater := hsharp.globals hs.rest hs'.rest hnd hb
    refine ⟨⟨b.name, _, s'.valueOf b.name⟩, mem_globals.mpr ⟨hlater, rfl⟩, rfl, rfl, ?_⟩
    obtain ⟨t, ht, -⟩ := hs'.rest.mem_globals.mp hlater
    exact hs'.isSome_valueOf (List.mem_map_of_mem ht)

/-- Three globals of which two have types with variables in common. -/
def vague : List Request :=
  [.source "var x;", .source "int k;", .source "function f(var a) \x7b return a == x; \x7d"]

/-- What is asked of them next: to declare one anew, to set one to a value of
the wrong type, to stop early, and to find out what the variable is. -/
def precise : List Request :=
  [.source "bool k;", .source "k := true;", .typeOf "f", .source "\x7b k := 7; k := k / 0; \x7d",
    .source "x := 2 < k;"]

theorem types_refine_precise : ∃ (l l' : List Exchange) (s s' : Session),
    l.map (·.request) = vague ∧ l'.map (·.request) = precise ∧ Log .initial l s ∧ Log s l' s' ∧
    (typeOf "f" s).1 = some (.func [.var 0] .bool) ∧
    (typeOf "f" s').1 = some (.func [.bool] .bool) ∧ ∃ f : Nat → Ty,
      (∀ name t, (typeOf name s).1 = some t →
        (typeOf name s').1 = some (t.subst f) ∧ (t.vars = [] → (typeOf name s').1 = some t)) ∧
      ∀ b ∈ (Session.globals s).1, ∃ b' ∈ (Session.globals s').1,
        b'.name = b.name ∧ b'.type = b.type.subst f ∧ b'.value.isSome := by
  have hrun : ((converse 60 vague .initial).any fun p =>
      decide ((typeOf "f" p.2).1 = some (.func [.var 0] .bool)) &&
        (converse 60 precise p.2).any fun p' =>
          decide ((typeOf "f" p'.2).1 = some (.func [.bool] .bool))) = true := by decide +kernel
  obtain ⟨⟨l, s⟩, hl, hp⟩ := (Option.any_eq_true _ _).mp hrun
  obtain ⟨ht, hp⟩ := Bool.and_eq_true_iff.mp hp
  obtain ⟨⟨l', s'⟩, hl', ht'⟩ := (Option.any_eq_true _ _).mp hp
  obtain ⟨hlog, hreq⟩ := log_converse hl
  obtain ⟨hlog', hreq'⟩ := log_converse hl'
  exact ⟨l, l', s, s', hreq, hreq', hlog, hlog', of_decide_eq_true ht, of_decide_eq_true ht',
    hlog.types_refine hlog'⟩

end Session

end Implet
