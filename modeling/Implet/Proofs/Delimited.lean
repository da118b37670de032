/-
Implet/Proofs/Delimited.lean

Texts that say where they end.  A text can be told apart from what follows it if
that does not go on with its last word: `Tells write view a b` says that,
whatever follows them, the texts that `write` gives `a` and `b` are followed by
the same only if `view` does not tell `a` from `b`.  Words, numbers and lists
with commas between them are like that.

So are types (`Ty.tells`).  The arrow of a function type is not put in
parentheses when it is the result of another one, and the commas in a parameter
look like those between parameters; but a parameter list goes to the parenthesis
that closes it, and a result to the end of the type it belongs to.  Hence no two
types have the same text (`Ty.text_inj`).
-/
import Implet.Proofs.RoundTrip
import Implet.Ty.Basic

namespace Implet

variable {α β : Type}

/-- The texts of `a` and `b` are different from each other where they end or
before that, unless `view` makes no difference between `a` and `b`. -/
def Tells (write : α → String) (view : α → β) (a b : α) : Prop :=
  ∀ {cs ds : List Char}, Apart cs → Apart ds → (write a).toList ++ cs = (write b).toList ++ ds →
    view a = view b ∧ cs = ds

/-! ### Words -/

/-- Where characters of one kind end, what follows begins. -/
theorem eq_of_append_eq_append {p : Char → Bool} {us vs cs ds : List Char}
    (hus : ∀ c ∈ us, p c = true) (hvs : ∀ c ∈ vs, p c = true) (hcs : ∀ c ∈ cs.head?, p c = false)
    (hds : ∀ c ∈ ds.head?, p c = false) (h : us ++ cs = vs ++ ds) : us = vs ∧ cs = ds := by
  have htake := congrArg (List.takeWhile p) h
  rw [takeWhile_append_stop hus hcs, takeWhile_append_stop hvs hds] at htake
  subst htake
  exact ⟨rfl, List.append_cancel_left h⟩

theorem IsName.eq_of_append {name name' : String} (h : IsName name) (h' : IsName name')
    {cs ds : List Char} (hcs : Apart cs) (hds : Apart ds)
    (heq : name.toList ++ cs = name'.toList ++ ds) : name = name' ∧ cs = ds := by
  obtain ⟨hname, hrest⟩ := eq_of_append_eq_append (List.all_eq_true.mp h.1.2)
    (List.all_eq_true.mp h'.1.2) (fun c hc => (hcs c hc).1) (fun c hc => (hds c hc).1) heq
  exact ⟨String.toList_injective hname, hrest⟩

theorem IsName.eq_of_text {name name' s s' : String} (h : IsName name) (h' : IsName name')
    (hs : Apart s.toList) (hs' : Apart s'.toList) (heq : name ++ s = name' ++ s') :
    name = name' ∧ s = s' := by
  have hchars := congrArg String.toList heq
  rw [String.toList_append, String.toList_append] at hchars
  obtain ⟨hname, hrest⟩ := h.eq_of_append h' hs hs' hchars
  exact ⟨hname, String.toList_injective hrest⟩

/-- A number ends where there are no more digits. -/
theorem tells_toString (m n : Nat) : Tells toString id m n := by
  intro cs ds hcs hds heq
  obtain ⟨hdigits, hrest⟩ := eq_of_append_eq_append (fun _ => isDigit_of_mem_toString)
    (fun _ => isDigit_of_mem_toString) (fun c hc => (Bool.or_eq_false_iff.mp (hcs c hc).1).2)
    (fun c hc => (Bool.or_eq_false_iff.mp (hds c hc).1).2) heq
  refine ⟨?_, hrest⟩
  rw [id, id, ← Expr.digitsValue_toString m, hdigits, Expr.digitsValue_toString]

/-! ### Lists -/

section Lists

variable {write : α → String} {view : α → β} {as bs : List α} {cs ds : List Char}

/-- The texts of all but the first element of a list, with a comma before each. -/
def commaTexts (write : α → String) (as : List α) : List Char :=
  as.flatMap fun a => ", ".toList ++ (write a).toList

theorem toList_intercalate_map (a : α) :
    (", ".intercalate ((a :: as).map write)).toList = (write a).toList ++ commaTexts write as := by
  rw [List.map_cons, toList_intercalate_cons, List.flatMap_map, commaTexts]

theorem commaTexts_cons_append (a : α) (cs : List Char) :
    commaTexts write (a :: as) ++ cs =
      ',' :: ' ' :: ((write a).toList ++ (commaTexts write as ++ cs)) := by
  simp [commaTexts]

/-- A comma or the closing parenthesis comes after each text of a list. -/
theorem apart_commaTexts : Apart (commaTexts write as ++ ')' :: cs) := by
  cases as with
  | nil => exact apart_cons (by decide) (by decide) _
  | cons a as => exact apart_cons (by decide) (by decide) _

theorem eq_of_commaTexts (h : ∀ a ∈ as, ∀ b ∈ bs, Tells write view a b)
    (heq : commaTexts write as ++ ')' :: cs = commaTexts write bs ++ ')' :: ds) :
    as.map view = bs.map view ∧ cs = ds := by
  induction as generalizing bs with
  | nil =>
    cases bs with
    | nil => exact ⟨rfl, (List.cons.inj heq).2⟩
    | cons b bs => exact absurd (List.cons.inj heq).1 (by decide)
  | cons a as ih =>
    cases bs with
    | nil => exact absurd (List.cons.inj heq).1 (by decide)
    | cons b bs =>
      rw [commaTexts_cons_append, commaTexts_cons_append] at heq
      obtain ⟨hview, hrest⟩ := h a List.mem_cons_self b List.mem_cons_self apart_commaTexts
        apart_commaTexts (List.cons.inj (List.cons.inj heq).2).2
      obtain ⟨hviews, hend⟩ := ih (fun a' ha b' hb =>
        h a' (List.mem_cons_of_mem _ ha) b' (List.mem_cons_of_mem _ hb)) hrest
      exact ⟨by rw [List.map_cons, List.map_cons, hview, hviews], hend⟩

/-- A list in parentheses ends at the first parenthesis that closes none of its
elements. -/
theorem eq_of_commaList (h : ∀ a ∈ as, ∀ b ∈ bs, Tells write view a b)
    (hopen : ∀ a, (write a).toList.head?.any (· != ')') = true)
    (heq : (", ".intercalate (as.map write)).toList ++ ')' :: cs =
      (", ".intercalate (bs.map write)).toList ++ ')' :: ds) :
    as.map view = bs.map view ∧ cs = ds := by
  -- a list that is not empty does not begin with the closing parenthesis
  have hempty {b : α} {us vs : List Char} (hb : ')' :: us = (write b).toList ++ vs) : False := by
    have hhead := hopen b
    rcases hw : (write b).toList with - | ⟨c, w⟩ <;> rw [hw] at hb hhead
    · cases hhead
    · obtain ⟨rfl, -⟩ := List.cons.inj hb
      cases hhead
  cases as with
  | nil =>
    cases bs with
    | nil => exact ⟨rfl, (List.cons.inj heq).2⟩
    | cons b bs =>
      rw [toList_intercalate_map, List.append_assoc] at heq
      exact (hempty heq).elim
  | cons a as =>
    cases bs with
    | nil =>
      rw [toList_intercalate_map, List.append_assoc] at heq
      exact (hempty heq.symm).elim
    | cons b bs =>
      rw [toList_intercalate_map, toList_intercalate_map, List.append_assoc,
        List.append_assoc] at heq
      obtain ⟨hview, hrest⟩ := h a List.mem_cons_self b List.mem_cons_self apart_commaTexts
        apart_commaTexts heq
      obtain ⟨hviews, hend⟩ := eq_of_commaTexts (fun a' ha b' hb =>
        h a' (List.mem_cons_of_mem _ ha) b' (List.mem_cons_of_mem _ hb)) hrest
      exact ⟨by rw [List.map_cons, List.map_cons, hview, hviews], hend⟩

end Lists

/-! ### Types -/

namespace Ty

theorem texts_eq (ts : List Ty) : texts ts = ts.map text := by
  induction ts with
  | nil => rfl
  | cons t ts ih => rw [texts, ih, List.map_cons]

/-- The number of a type variable comes last. -/
theorem toList_text_var (n : Nat) (cs : List Char) :
    (var n).text.toList ++ cs = '\'' :: 't' :: ((toString n).toList ++ cs) := by
  rw [text, String.toList_append]
  rfl

/-- The result of a function type comes after its parameters in parentheses. -/
theorem toList_text_func (params : List Ty) (ret : Ty) (cs : List Char) :
    (func params ret).text.toList ++ cs = '(' :: ((", ".intercalate (params.map text)).toList ++
      ')' :: (" -> ".toList ++ (ret.text.toList ++ cs))) := by
  rw [text, texts_eq]
  simp

/-- No type begins like the end of a parameter list. -/
theorem text_head (t : Ty) : t.text.toList.head?.any (· != ')') = true := by
  cases t with
  | int | bool => rfl
  | var n =>
    rw [← List.append_nil (text _).toList, toList_text_var]
    rfl
  | func params ret =>
    rw [← List.append_nil (text _).toList, toList_text_func]
    rfl

mutual

/-- Types are told apart by where their texts end. -/
theorem tells (s t : Ty) : Tells text id s t := by
  intro cs ds hcs hds heq
  cases s with
  | int =>
    cases t with
    | int => exact ⟨rfl, List.append_cancel_left heq⟩
    | bool => exact absurd (List.cons.inj heq).1 (by decide)
    | var n =>
      rw [toList_text_var] at heq
      exact absurd (List.cons.inj heq).1 (by decide)
    | func qs u =>
      rw [toList_text_func] at heq
      exact absurd (List.cons.inj heq).1 (by decide)
  | bool =>
    cases t with
    | int => exact absurd (List.cons.inj heq).1 (by decide)
    | bool => exact ⟨rfl, List.append_cancel_left heq⟩
    | var n =>
      rw [toList_text_var] at heq
      exact absurd (List.cons.inj heq).1 (by decide)
    | func qs u =>
      rw [toList_text_func] at heq
      exact absurd (List.cons.inj heq).1 (by decide)
  | var m =>
    rw [toList_text_var] at heq
    cases t with
    | int | bool => exact absurd (List.cons.inj heq).1 (by decide)
    | var n =>
      rw [toList_text_var] at heq
      obtain ⟨rfl, hrest⟩ := tells_toString m n hcs hds
        (List.append_cancel_left (show ['\'', 't'] ++ _ = ['\'', 't'] ++ _ from heq))
      exact ⟨rfl, hrest⟩
    | func qs u =>
      rw [toList_text_func] at heq
      exact absurd (List.cons.inj heq).1 (by decide)
  | func ps r =>
    rw [toList_text_func] at heq
    cases t with
    | int | bool => exact absurd (List.cons.inj heq).1 (by decide)
    | var n =>
      rw [toList_text_var] at heq
      exact absurd (List.cons.inj heq).1 (by decide)
    | func qs u =>
      rw [toList_text_func] at heq
      obtain ⟨hparams, hrest⟩ := eq_of_commaList (fun p hp q _ => tells_all ps q p hp) text_head
        (List.cons.inj heq).2
      rw [List.map_id, List.map_id] at hparams
      subst hparams
      obtain ⟨rfl, hend⟩ := r.tells u hcs hds (List.append_cancel_left hrest)
      exact ⟨rfl, hend⟩

theorem tells_all (ss : List Ty) (t : Ty) : ∀ s ∈ ss, Tells text id s t := by
  cases ss with
  | nil => exact nofun
  | cons s ss => exact List.forall_mem_cons.mpr ⟨s.tells t, tells_all ss t⟩

end

/-- Different types have different texts. -/
theorem text_inj (s t : Ty) : s.text = t.text ↔ s = t := by
  refine ⟨fun h => ?_, congrArg text⟩
  exact (s.tells t apart_nil apart_nil (by rw [h])).1

-- function types as a parameter, as the result, and as the parameter of the result
example : (func [func [int] bool, var 12] (func [func [] int] (func [] int))).text =
    "((int) -> bool, 't12) -> (() -> int) -> () -> int" := by
  decide +kernel

end Ty

end Implet
