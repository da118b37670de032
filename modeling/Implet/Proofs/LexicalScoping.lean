/-
Implet/Proofs/LexicalScoping.lean

What a name stands for is settled by the text, up to a point.  Giving another
name to a variable of a block inside a function changes nothing that can be told
from outside: every entry has the same outcome and every global the same value,
but for the name itself (`History.lexical`).

The point is that a block with a call in it may not have its variable renamed if
the function uses the name for a global as well.  A call from the block back to
the function finds the variable of the block in front of the global, and once
the variable has another name it finds the global (`not_lexical`).
-/
import Implet.Proofs.CheckRenaming
import Implet.Proofs.EntryRenaming
import Implet.Proofs.History

namespace Implet

variable {ν : Renaming}

/-! ### Outcomes -/

/-- Two errors are the same up to the renamed name. -/
inductive SessionError.Renamed (ν : Renaming) : SessionError → SessionError → Prop
  | parse (e : ParseError) : Renamed ν (.parse e) (.parse e)
  | type {e e' : TypeError} : e.Renamed ν e' → Renamed ν (.type e) (.type e')
  | runtime {e e' : RuntimeError} : e.Renamed ν e' → Renamed ν (.runtime e) (.runtime e')

/-- Two outcomes are the same up to the renamed name: the same type and the same
value, or the same error. -/
inductive Outcome.Renamed (ν : Renaming) :
    Except SessionError Outcome → Except SessionError Outcome → Prop
  | ok {type : Option Ty} {v v' : Option Value} : Option.Rel (Value.Renamed ν) v v' →
    Renamed ν (.ok ⟨type, v⟩) (.ok ⟨type, v'⟩)
  | error {e e' : SessionError} : e.Renamed ν e' → Renamed ν (.error e) (.error e')

/-! ### Sessions -/

theorem rel_mono {α β : Type} {R R' : α → β → Prop} {o : Option α} {o' : Option β}
    (h : Option.Rel R o o') (hR : ∀ a b, R a b → R' a b) : Option.Rel R' o o' := by
  cases h with
  | none => exact .none
  | some h => exact .some (hR _ _ h)

/-- Two sessions, of code and of the code with renamed variables. -/
structure Session.Renamed (ν : Renaming) (s s' : Session) : Prop where
  checker : s.checker = s'.checker
  plain : Checker.Plain ν [] s.checker s.checker
  store : s.store.AtRest ν s'.store

namespace Session.Renamed

variable {s s' : Session}

theorem initial : Renamed ν .initial .initial := by
  refine ⟨rfl, ⟨⟨[], false⟩, rfl, ⟨.cons (.nil false) .nil, rfl⟩⟩, fun _ => none, 1,
    fun _ => [⟨[], false⟩], ⟨[], false⟩, ⟨⟨nofun, nofun, nofun⟩, nofun, Nat.zero_lt_one, rfl, rfl,
    rfl⟩, rfl, rfl, fun r => ?_⟩
  have henv : Store.initial.env r = .initial := by
    cases r <;> rfl
  show Scope.Renamed ν _ _ (Store.initial.env r) (Store.initial.env r)
  rw [henv]
  exact .cons (.nil false) .nil

/-- An entry and the entry with renamed variables have the same outcome. -/
theorem runEntry (h : Renamed ν s s') {e e' : Entry} (he : e.Renames ν ν.Safe e')
    (hnew : ν.new ∉ e.names) (fuel : Nat) :
    Option.Rel (fun p p' => Outcome.Renamed ν p.1 p'.1 ∧ Renamed ν p.2 p'.2)
      (s.runEntry fuel e) (s'.runEntry fuel e') := by
  rw [Session.runEntry, Session.runEntry, ← h.checker]
  rcases Checker.run_renamed he hnew h.plain with
    ⟨type, d, hc, hc', hd⟩ | ⟨err, err', hc, hc', herr⟩
  · rw [hc, hc']
    rcases (twins_entry he hnew fuel).cases h.store with
      ⟨hr, hr'⟩ | ⟨v, v', t, t', hr, hr', hv, ht⟩ | ⟨err, err', t, t', hr, hr', herr, ht⟩
    · simp only [hr, hr']
      exact .none
    · simp only [hr, hr']
      exact .some ⟨.ok hv, rfl, hd, ht⟩
    · simp only [hr, hr']
      exact .some ⟨.error (.runtime herr), rfl, hd, ht⟩
  · rw [hc, hc']
    exact .some ⟨.error (.type herr), rfl, h.plain, h.store⟩

/-- So have entries that follow each other. -/
theorem perform (h : Renamed ν s s') {rest rest' : List Entry}
    (hr : List.Forall₂ (Entry.Renames ν ν.Safe) rest rest') (hnew : ∀ e ∈ rest, ν.new ∉ e.names)
    (fuel : Nat) :
    Option.Rel (fun p p' => List.Forall₂ (fun ev ev' => Outcome.Renamed ν ev.outcome ev'.outcome)
        p.1 p'.1 ∧ Renamed ν p.2 p'.2)
      (Session.perform fuel rest s) (Session.perform fuel rest' s') := by
  induction hr generalizing s s' with
  | nil => exact .some ⟨.nil, h⟩
  | @cons e e' rest rest' he _ ih =>
    have hstep := h.runEntry he (hnew e List.mem_cons_self) fuel
    rw [Session.perform, Session.perform]
    generalize s.runEntry fuel e = p at hstep
    generalize s'.runEntry fuel e' = p' at hstep
    cases hstep with
    | none => exact .none
    | @some p p' hp =>
      have hrest := ih hp.2 fun e he => hnew e (List.mem_cons_of_mem _ he)
      dsimp only
      generalize Session.perform fuel rest p.2 = q at hrest
      generalize Session.perform fuel rest' p'.2 = q' at hrest
      cases hrest with
      | none => exact .none
      | some hq => exact .some ⟨.cons hp.1 hq.1, hq.2⟩

/-- Globals have the same values. -/
theorem valueOf (h : Renamed ν s s') (x : String) :
    Option.Rel (Value.Renamed ν) (s.valueOf x) (s'.valueOf x) := by
  obtain ⟨Φ, n, K, l, hrest, hs⟩ := h.store
  have hrel := hs.related Store.base
  rw [hrest.globals] at hrel
  have hvalue : ∀ s : Session, s.valueOf x = (s.store.env Store.base).get? x := fun _ => rfl
  rw [hvalue, hvalue]
  rcases he : s.store.env Store.base with ⟨fs⟩
  rcases he' : s'.store.env Store.base with ⟨fs'⟩
  rw [he, he'] at hrel
  cases hrel with
  | @cons _ _ f _ f' _ hf hfs =>
    cases hfs
    rw [Scope.get?_cons, Scope.get?_cons, Scope.get?_nil, Option.or_none, Option.or_none]
    have hx := hf.get?_plain hrest.plain x
    generalize f.get? x = v at hx
    generalize f'.get? x = v' at hx
    cases hx with
    | some hv => exact .some (hv.renamed hrest.valid)
    | none => exact .none

end Session.Renamed

/-! ### Histories -/

/-- A session in which the new name does not occur is the same in both runs. -/
theorem History.renamed_self {es : List Event} {s : Session} (h : History es s)
    (hes : ∀ ev ∈ es, ν.new ∉ ev.entry.names) : s.Renamed ν s := by
  induction h with
  | initial => exact Session.Renamed.initial
  | @entry es s fuel e outcome s' h hr ih =>
    -- no block is renamed, and an entry is one of its own renamings
    have hstep := (ih fun ev hev => hes ev (List.mem_append_left _ hev)).runEntry
      (Entry.Renames.refl e) (hes ⟨s, e, outcome⟩ (by simp)) fuel
    rw [hr] at hstep
    exact (Option.rel_some_some.mp hstep).2
  | @typeOf es s name h ih =>
    obtain ⟨hc, ⟨l, hl, henv, hsub⟩, hs⟩ := ih hes
    rw [Session.snd_typeOf]
    refine ⟨rfl, ⟨l, hl, ?_, rfl⟩, hs⟩
    show Scope.Renamed ν Eq [l] (Checker.typeOf name s.checker).2.env _
    rw [(Checker.keeps_typeOf h.rest.subst name).env]
    exact henv
  | @globals es s h ih =>
    obtain ⟨hc, ⟨l, hl, henv, hsub⟩, hs⟩ := ih hes
    rw [Session.snd_globals]
    exact ⟨rfl, ⟨l, hl, henv, rfl⟩, hs⟩

/-- Renaming variables of blocks inside functions to a name that occurs nowhere
changes no outcome and no global but for the name, at any point of any session,
if no function looks for a global of the old name while a block with a renamed
variable has something called. -/
theorem History.lexical {es : List Event} {s : Session} (h : History es s)
    (hes : ∀ ev ∈ es, ν.new ∉ ev.entry.names) {rest rest' : List Entry}
    (hr : List.Forall₂ (Entry.Renames ν ν.Safe) rest rest')
    (hnew : ∀ e ∈ rest, ν.new ∉ e.names) (fuel : Nat) :
    Option.Rel (fun p p' =>
        List.Forall₂ (fun ev ev' => Outcome.Renamed ν ev.outcome ev'.outcome) p.1 p'.1 ∧
        p.2.checker = p'.2.checker ∧
        ∀ x, Option.Rel (Value.Renamed ν) (p.2.valueOf x) (p'.2.valueOf x))
      (s.perform fuel rest) (s.perform fuel rest') := by
  have hs := h.renamed_self hes
  exact rel_mono (hs.perform hr hnew fuel) fun p p' hp => ⟨hp.1, hp.2.checker, hp.2.valueOf⟩

/-! ### A block with a call in it -/

/-- The number that an event yields. -/
def Event.number (ev : Event) : Option Int64 :=
  match ev.outcome with
  | .ok ⟨_, some (.integer n)⟩ => some n
  | _ => none

theorem Event.number_eq {ev ev' : Event} (h : Outcome.Renamed ν ev.outcome ev'.outcome) :
    ev.number = ev'.number := by
  rw [number, number]
  generalize ev.outcome = o at h
  generalize ev'.outcome = o' at h
  cases h with
  | error h => rfl
  | ok h =>
    cases h with
    | none => rfl
    | some h =>
      cases h with
      | same v => rfl
      | closure => rfl

/-- A function that returns `g` once it has called itself from a block with a
variable of its own. -/
def detour (x : String) : FunDef :=
  ⟨⟨"f", .empty⟩, [⟨some .int, ⟨"n", .empty⟩, .empty⟩], ⟨[],
    [.cond (.binary .lt (.ident ⟨"n", .empty⟩) (.integer 1 .empty) .empty)
      (.ret (.ident ⟨"g", .empty⟩) .empty) none .empty,
    .block [⟨some .int, ⟨x, .empty⟩, .empty⟩]
      [.assign ⟨x, .empty⟩ (.integer 7 .empty) .empty,
      .ret (.call ⟨"f", .empty⟩
        [.binary .sub (.ident ⟨"n", .empty⟩) (.integer 1 .empty) .empty] .empty) .empty]
      .empty], .empty⟩, .empty⟩

/-- The definition of the function and a call of it. -/
def detours (x : String) : List Entry :=
  [.function (detour x), .expression (.call ⟨"f", .empty⟩ [.integer 1 .empty] .empty)]

theorem renames_detours {x y : String} (hn : "n" ≠ x) (hf : "f" ≠ x)
    {safe : FunDef → Prop} (hs : safe (detour x)) :
    List.Forall₂ (Entry.Renames ⟨x, y⟩ safe) (detours x) (detours y) := by
  have hblock : StmtsRename ⟨x, y⟩ (safe (detour x)) false (detour x).body.statements
      (detour y).body.statements := by
    refine ⟨_, _, rfl, ⟨.ret (.ident ⟨"g", .empty⟩) .empty, ?_, ?_⟩, _, _, rfl, ?_, rfl⟩
    · rw [Expr.rename_false]
    · rw [Stmt.Renames, Expr.rename_false]
    · refine ⟨true, [.assign ⟨y, .empty⟩ (.integer 7 .empty) .empty,
        .ret (.call ⟨"f", .empty⟩ [.binary .sub (.ident ⟨"n", .empty⟩) (.integer 1 .empty)
          .empty] .empty) .empty], ?_, fun _ => ⟨?_, fun _ => hs⟩, ?_⟩
      · simp [Decl.rename, Ident.rename, Renaming.name]
      · simp [declaredNames]
      · simp [StmtsRename, Stmt.Renames, Expr.rename, renameExprs, Ident.rename, Renaming.name,
          declaredNames, hn, hf]
  exact .cons ⟨detour y, rfl, _, rfl, hblock⟩ (.cons rfl .nil)

/-- The variable of the block can be called anything but `g`. -/
theorem lexical_detours :
    ∃ es s, Session.play 60 ["int g;", "g := 5;"] .initial = some (es, s) ∧
    (∀ ev ∈ es, "m" ∉ ev.entry.names) ∧ (∀ e ∈ detours "k", "m" ∉ e.names) ∧
    List.Forall₂ (Entry.Renames ⟨"k", "m"⟩ (Renaming.Safe ⟨"k", "m"⟩)) (detours "k")
      (detours "m") ∧
    Option.Rel (fun p p' =>
        List.Forall₂ (fun ev ev' => Outcome.Renamed ⟨"k", "m"⟩ ev.outcome ev'.outcome) p.1 p'.1 ∧
        p.2.checker = p'.2.checker ∧
        ∀ x, Option.Rel (Value.Renamed ⟨"k", "m"⟩) (p.2.valueOf x) (p'.2.valueOf x))
      (s.perform 60 (detours "k")) (s.perform 60 (detours "m")) := by
  have hplay : ((Session.play 60 ["int g;", "g := 5;"] .initial).any fun p =>
      decide (∀ ev ∈ p.1, "m" ∉ ev.entry.names)) = true := by
    decide +kernel
  obtain ⟨⟨es, s⟩, hp, hes⟩ := (Option.any_eq_true _ _).mp hplay
  have hes := of_decide_eq_true hes
  have hnew : ∀ e ∈ detours "k", "m" ∉ e.names := by decide +kernel
  have hr : List.Forall₂ (Entry.Renames ⟨"k", "m"⟩ (Renaming.Safe ⟨"k", "m"⟩)) (detours "k")
      (detours "m") := renames_detours (by decide) (by decide) (by decide +kernel)
  exact ⟨es, s, hp, hes, hnew, hr, (Session.history_play hp).lexical hes hr hnew 60⟩

/-- If it is called `g`, then the call finds it and yields 7, where the function
under any other name yields the value 5 of the global. -/
theorem not_lexical :
    ∃ es s, Session.play 60 ["int g;", "g := 5;"] .initial = some (es, s) ∧
    History es s ∧ (∀ ev ∈ es, "h" ∉ ev.entry.names) ∧ (∀ e ∈ detours "g", "h" ∉ e.names) ∧
    List.Forall₂ (Entry.Renames ⟨"g", "h"⟩ fun _ => True) (detours "g") (detours "h") ∧
    ¬ Option.Rel (fun p p' =>
        List.Forall₂ (fun ev ev' => Outcome.Renamed ⟨"g", "h"⟩ ev.outcome ev'.outcome) p.1 p'.1)
      (s.perform 60 (detours "g")) (s.perform 60 (detours "h")) := by
  have hplay : ((Session.play 60 ["int g;", "g := 5;"] .initial).any fun q =>
      decide (∀ ev ∈ q.1, "h" ∉ ev.entry.names) &&
      decide ((q.2.perform 60 (detours "g")).map (fun p => p.1.map Event.number) =
        some [none, some 7]) &&
      decide ((q.2.perform 60 (detours "h")).map (fun p => p.1.map Event.number) =
        some [none, some 5])) = true := by
    decide +kernel
  obtain ⟨⟨es, s⟩, hp, hq⟩ := (Option.any_eq_true _ _).mp hplay
  simp only [Bool.and_eq_true, decide_eq_true_eq] at hq
  obtain ⟨⟨hes, h7⟩, h5⟩ := hq
  refine ⟨es, s, hp, Session.history_play hp, hes, by decide +kernel,
    renames_detours (by decide) (by decide) trivial, fun hrel => ?_⟩
  obtain ⟨p, hp₁, hm₁⟩ := Option.map_eq_some_iff.mp h7
  obtain ⟨p', hp₂, hm₂⟩ := Option.map_eq_some_iff.mp h5
  rw [hp₁, hp₂, Option.rel_some_some] at hrel
  have hnumbers : p.1.map Event.number = p'.1.map Event.number := by
    rw [← List.forall₂_eq_eq_eq, List.forall₂_map_left_iff, List.forall₂_map_right_iff]
    exact hrel.imp fun _ _ h => Event.number_eq h
  rw [hm₁, hm₂] at hnumbers
  exact absurd hnumbers (by decide)

end Implet
