/-
Implet/Proofs/NoTrace.lean

Texts that cannot be read, entries that are rejected, and questions leave no
trace.  They can be added to a conversation anywhere: all that was asked before
is answered as before, with the same types down to the numbers of the type
variables, and what is left behind cannot be told from what would have been
there without them (`Session.Log.no_trace`).

The check of an entry that is rejected leads to no checker at all, and a
question leads to one with shorter chains.  So along the two conversations there
are sessions that are alike, which is kept by every request that both have.
-/
import Implet.Proofs.Asking

namespace Implet

/-- The members of a list that are not marked as added. -/
def kept {α : Type} (l : List (α × Bool)) : List α :=
  (l.filter fun x => !x.2).map Prod.fst

@[simp] theorem kept_added {α : Type} (a : α) (l : List (α × Bool)) :
    kept ((a, true) :: l) = kept l := rfl

@[simp] theorem kept_kept {α : Type} (a : α) (l : List (α × Bool)) :
    kept ((a, false) :: l) = a :: kept l := rfl

namespace Session

variable {s s' t : Session} {q : Request} {l : List Exchange} {qs : List (Request × Bool)}

/-- The check rejects an entry. -/
def Rejects (s : Session) (e : Entry) : Prop := (s.checker.run e).1.isOk = false

instance (s : Session) (e : Entry) : Decidable (s.Rejects e) :=
  inferInstanceAs (Decidable (_ = false))

/-- A text that cannot be read, an entry that is rejected, or a question. -/
def Silent (s : Session) : Request → Prop
  | .source text => ∀ e ∈ (Entry.parse text).toOption, s.Rejects e
  | .entry e => s.Rejects e
  | .globals | .typeOf _ | .valueOf _ | .depth => True

instance (s : Session) : (q : Request) → Decidable (s.Silent q)
  | .source text => inferInstanceAs (Decidable (∀ e ∈ (Entry.parse text).toOption, s.Rejects e))
  | .entry e => inferInstanceAs (Decidable (s.Rejects e))
  | .globals | .typeOf _ | .valueOf _ | .depth => isTrue trivial

/-- Each request that is marked as added is silent where it is made. -/
def AddsSilent : Session → List (Request × Bool) → Prop
  | _, [] => True
  | s, (q, added) :: qs =>
    (added = true → s.Silent q) ∧ ∀ a s', s.Answers q a s' → AddsSilent s' qs

/-! ### Silent requests -/

theorem Rejects.runEntry {e : Entry} (h : s.Rejects e) (fuel : Nat) :
    ∃ err, s.runEntry fuel e = some (.error (.type err), s) := by
  unfold Rejects at h
  unfold Session.runEntry
  rcases hc : s.checker.run e with ⟨err | type, c⟩
  · rw [Checker.run_eq_error hc]
    exact ⟨err, rfl⟩
  · rw [hc] at h
    cases h

/-- A silent request is answered, and leads to a session that cannot be told
from the one before. -/
theorem Silent.answers (h : s.Silent q) (hs : s.checker.subst.WellFormed) :
    ∃ a s', s.Answers q a s' ∧ Alike s s' := by
  have hself : Alike s s := ⟨Checker.alike_self hs, rfl⟩
  cases q with
  | source text =>
    rcases hp : Entry.parse text with err | e
    · exact ⟨_, s, ⟨0, by rw [ask, Session.run, hp]; rfl⟩, hself⟩
    · have hrej : s.Rejects e := h e (by rw [hp]; rfl)
      obtain ⟨err, hr⟩ := hrej.runEntry 0
      exact ⟨_, s, ⟨0, by rw [ask, Session.run, hp]; dsimp only; rw [hr]; rfl⟩, hself⟩
  | entry e =>
    obtain ⟨err, hr⟩ := Rejects.runEntry h 0
    exact ⟨_, s, ⟨0, by rw [ask, hr]; rfl⟩, hself⟩
  | globals =>
    refine ⟨_, _, ⟨0, rfl⟩, ?_⟩
    rw [snd_globals]
    exact ⟨Checker.alike_after_globals hs, rfl⟩
  | typeOf name =>
    refine ⟨_, _, ⟨0, rfl⟩, ?_⟩
    rw [snd_typeOf]
    exact ⟨Checker.alike_after_typeOf hs name, rfl⟩
  | valueOf name => exact ⟨_, s, ⟨0, rfl⟩, hself⟩
  | depth => exact ⟨_, s, ⟨0, rfl⟩, hself⟩

/-! ### Conversations with additions -/

/-- Along a conversation and the same one with additions there are sessions that
are alike. -/
theorem Alike.log_added (hs : Alike s s') (h : Log s l t)
    (hkept : kept qs = l.map (·.request))
    (hadded : s'.AddsSilent qs) : ∃ (l' : List (Exchange × Bool)) (t' : Session),
      Log s' (l'.map (·.1)) t' ∧ (l'.map fun x => (x.1.request, x.2)) = qs ∧ kept l' = l ∧
        Alike t t' := by
  induction qs generalizing s s' l with
  | nil =>
    cases h with
    | nil => exact ⟨[], s', .nil s', rfl, rfl, hs⟩
    | cons => cases hkept
  | cons q qs ih =>
    obtain ⟨q, added⟩ := q
    obtain ⟨hsilent, hrest⟩ := hadded
    cases added with
    | true =>
      obtain ⟨a, s₁', ha, h₁⟩ := (hsilent rfl).answers hs.checker.subst.right
      obtain ⟨l', t', hl', hqs, hk, ht⟩ := ih (hs.trans h₁) h hkept (hrest a s₁' ha)
      exact ⟨(⟨q, a⟩, true) :: l', t', .cons ha hl', by simp [hqs], by simp [hk], ht⟩
    | false =>
      cases h with
      | nil => cases hkept
      | @cons _ s₁ _ x l hx hl =>
        obtain ⟨hq, hkept'⟩ := List.cons.inj hkept
        subst hq
        obtain ⟨s₁', hx', h₁⟩ := hs.answers hx
        obtain ⟨l', t', hl', hqs, hk, ht⟩ := ih h₁ hl hkept' (hrest x.response s₁' hx')
        exact ⟨(x, false) :: l', t', .cons hx' hl', by simp [hqs], by simp [hk], ht⟩

/-- If requests that are silent where they are made are added to a conversation
that a session has had from its start, then there is one way in which the longer
conversation goes.  In it, the other requests have the same answers.  Afterwards
the globals have the same types and values, and whatever is asked later is
answered the same. -/
theorem Log.no_trace (h : Log .initial l t) (hkept : kept qs = l.map (·.request))
    (hadded : AddsSilent .initial qs) :
    ∃ (l' : List (Exchange × Bool)) (t' : Session),
      Log .initial (l'.map (·.1)) t' ∧ (l'.map fun x => (x.1.request, x.2)) = qs ∧
      (∀ l₂ t₂, Log .initial l₂ t₂ → l₂.map (·.request) = qs.map (·.1) →
        l₂ = l'.map (·.1) ∧ t₂ = t') ∧
      kept l' = l ∧
      (Session.globals t').1 = (Session.globals t).1 ∧
      (∀ x, (Session.typeOf x t').1 = (Session.typeOf x t).1 ∧ t'.valueOf x = t.valueOf x) ∧
      ∀ m, (∃ u, Log t m u) ↔ ∃ u, Log t' m u := by
  obtain ⟨l', t', hl', hqs, hk, ht⟩ := alike_initial.log_added h hkept hadded
  refine ⟨l', t', hl', hqs, ?_, hk, ht.globals.1, fun x => ⟨(ht.typeOf x).1, ht.valueOf x⟩,
    ht.log_iff⟩
  intro l₂ t₂ h₂ hreq
  refine h₂.unique hl' ?_
  rw [hreq, ← hqs]
  simp

/-! ### A conversation -/

/-- Make requests one after the other. -/
def converse (fuel : Nat) : List Request → Session → Option (List Exchange × Session)
  | [], s => some ([], s)
  | q :: qs, s =>
    match s.ask fuel q with
    | some (a, s') => (converse fuel qs s').map fun p => (⟨q, a⟩ :: p.1, p.2)
    | none => none

theorem log_converse {fuel : Nat} {requests : List Request}
    (h : converse fuel requests s = some (l, t)) :
    Log s l t ∧ l.map (·.request) = requests := by
  induction requests generalizing s l with
  | nil =>
    obtain ⟨rfl, rfl⟩ := Prod.mk.inj (Option.some.inj h)
    exact ⟨.nil s, rfl⟩
  | cons q qs ih =>
    rw [converse] at h
    split at h
    · next a s' ha =>
      obtain ⟨⟨l', t'⟩, hl', hp⟩ := Option.map_eq_some_iff.mp h
      obtain ⟨rfl, rfl⟩ := Prod.mk.inj hp
      obtain ⟨hlog, hreq⟩ := ih hl'
      exact ⟨.cons ⟨fuel, ha⟩ hlog, by simp [hreq]⟩
    · cases h

/-- Whether the requests that are marked as added are silent, as far as they are
answered. -/
def addsSilent (fuel : Nat) : List (Request × Bool) → Session → Bool
  | [], _ => true
  | (q, added) :: qs, s => (!added || decide (s.Silent q)) &&
    (s.ask fuel q).any fun p => addsSilent fuel qs p.2

theorem addsSilent_eq_true {fuel : Nat} (h : addsSilent fuel qs s = true) :
    s.AddsSilent qs := by
  induction qs generalizing s with
  | nil => trivial
  | cons q qs ih =>
    obtain ⟨q, added⟩ := q
    obtain ⟨hsilent, hrest⟩ := Bool.and_eq_true_iff.mp h
    obtain ⟨⟨a, s'⟩, ha, hrest⟩ := (Option.any_eq_true _ _).mp hrest
    refine ⟨fun hadded => ?_, fun a' s₁ ha' => ?_⟩
    · subst hadded
      exact of_decide_eq_true hsilent
    · -- there is one answer only
      obtain ⟨-, rfl⟩ := Answers.unique ha' ⟨fuel, ha⟩
      exact ih hrest

/-- A variable of unknown type and two functions, with a text that cannot be
read, questions, and a block that is rejected after it has declared and linked
variables. -/
def interrupted : List (Request × Bool) :=
  [(.source "var x;", false),
    (.source "var y", true),
    (.source "function f(var a) \x7b return a == x; \x7d", false),
    (.source "\x7b var z; z := x == 1; x := true; \x7d", true),
    (.typeOf "f", true),
    (.source "function g(var p) \x7b var q; q := p; return q == p; \x7d", false),
    (.source "x := 1;", false),
    (.source "f(2)", false),
    (.globals, true)]

theorem no_trace_interrupted : ∃ (l : List Exchange) (t : Session),
    Log .initial l t ∧ kept interrupted = l.map (·.request) ∧ AddsSilent .initial interrupted ∧
    ∃ (l' : List (Exchange × Bool)) (t' : Session), Log .initial (l'.map (·.1)) t' ∧
      (l'.map fun x => (x.1.request, x.2)) = interrupted ∧ kept l' = l ∧
      (Session.globals t').1 = (Session.globals t).1 ∧
      ∀ m, (∃ u, Log t m u) ↔ ∃ u, Log t' m u := by
  have hrun : (converse 60 (kept interrupted) .initial).isSome = true := by decide +kernel
  have hadded : AddsSilent .initial interrupted :=
    addsSilent_eq_true (show addsSilent 60 interrupted .initial = true by decide +kernel)
  obtain ⟨⟨l, t⟩, hlt⟩ := Option.isSome_iff_exists.mp hrun
  obtain ⟨hlog, hreq⟩ := log_converse hlt
  obtain ⟨l', t', hl', hqs, -, hk, hglobals, -, hlater⟩ := hlog.no_trace hreq.symm hadded
  exact ⟨l, t, hlog, hreq.symm, hadded, l', t', hl', hqs, hk, hglobals, hlater⟩

end Session

end Implet
