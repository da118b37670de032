/-
Implet/Proofs/Gathering.lean

Entries of several lines.  A console gathers lines until the braces in them are
closed, and then runs all of them as one entry, just as the text is run that
they are the lines of (`Console.answers_text`).

Braces in comments are counted too.  So whether a line has to wait for others
depends on what its comment says, although the reader never sees that.  The
lines of a text are gathered into one entry if and only if the braces in code
and comments together stay open up to the last line; `strayBrace` is a text that
a brace in a comment tears apart.
-/
import Implet.Proofs.LineEnds

namespace Implet

/-! ### Open and closed lines -/

/-- What is counted in lines, from `n` on. -/
def tally (count : String → Int) (n : Int) (ls : List String) : Int :=
  ls.foldl (fun k l => k + count l) n

/-- From `n` on, the count is positive after each line but the last, and not
positive after that. -/
structure Closes (count : String → Int) (n : Int) (ls : List String) : Prop where
  opened : ∀ us vs, ls = us ++ vs → us ≠ [] → vs ≠ [] → 0 < tally count n us
  closed : tally count n ls ≤ 0

section

variable {count : String → Int} {n : Int} {l : String}

theorem tally_cons (us : List String) :
    tally count n (l :: us) = tally count (n + count l) us := List.foldl_cons ..

theorem closes_nil : Closes count n [] ↔ n ≤ 0 := by
  refine ⟨fun h => h.closed, fun h => ⟨fun us vs hls hus _ => ?_, h⟩⟩
  exact absurd (List.append_eq_nil_iff.mp hls.symm).1 hus

theorem closes_singleton : Closes count n [l] ↔ n + count l ≤ 0 := by
  refine ⟨fun h => h.closed, fun h => ⟨fun us vs hls hus hvs => ?_, h⟩⟩
  rcases List.append_eq_singleton_iff.mp hls.symm with ⟨rfl, -⟩ | ⟨-, rfl⟩
  · exact absurd rfl hus
  · exact absurd rfl hvs

theorem closes_cons {next : String} {ls : List String} :
    Closes count n (l :: next :: ls) ↔
    0 < n + count l ∧ Closes count (n + count l) (next :: ls) := by
  constructor
  · refine fun h => ⟨?_, fun us vs hls _ hvs => ?_, h.closed⟩
    · exact h.opened [l] (next :: ls) rfl (List.cons_ne_nil _ _) (List.cons_ne_nil _ _)
    · rw [← tally_cons]
      exact h.opened (l :: us) vs (by rw [hls, List.cons_append]) (List.cons_ne_nil _ _) hvs
  · rintro ⟨hfirst, h⟩
    refine ⟨fun us vs hls hus hvs => ?_, h.closed⟩
    obtain ⟨u, us, rfl⟩ := List.exists_cons_of_ne_nil hus
    obtain ⟨rfl, htail⟩ := List.cons.inj hls
    rw [tally_cons]
    by_cases hus : us = []
    · rwa [hus]
    · exact h.opened us vs htail hus hvs

/-- Whether lines close is found out by counting along them. -/
def Closes.decide : (n : Int) → (ls : List String) → Decidable (Closes count n ls)
  | _, [] => decidable_of_iff _ closes_nil.symm
  | _, [_] => decidable_of_iff _ closes_singleton.symm
  | n, l :: next :: ls =>
    have := Closes.decide (n + count l) (next :: ls)
    decidable_of_iff _ closes_cons.symm

instance (ls : List String) : Decidable (Closes count n ls) := Closes.decide n ls

end

/-! ### Requests -/

namespace Buffer

/-- What lines amount to that are fed one after the other. -/
def requests (b : Buffer) : List String → List Request
  | [] => []
  | line :: ls => (b.feed line).1 :: (b.feed line).2.requests ls

/-- The surplus of opening over closing braces in a line without its comment. -/
def codeSurplus (line : String) : Int := braceSurplus (blankComments line)

variable {b : Buffer} {line : String}

theorem feed_eq_gather (h : b.isEmpty = true → command? line = none) :
    b.feed line = b.gather line := by
  unfold feed
  split
  · next request hr =>
    split at hr
    · next hb =>
      rw [h hb] at hr
      cases hr
    · cases hr
  · rfl

/-- While braces are open, a line waits with those before it. -/
theorem gather_of_pos (h : 0 < b.surplus + braceSurplus line) :
    b.gather line = (.wait, ⟨b.text ++ line ++ "\n", b.surplus + braceSurplus line⟩) := if_pos h

/-- Once they are closed, all lines are run. -/
theorem gather_of_nonpos (h : b.surplus + braceSurplus line ≤ 0) :
    b.gather line = (.run (b.text ++ line ++ "\n"), empty) := if_neg (Int.not_lt.mpr h)

theorem isEmpty_append_newline (text : String) (n : Int) :
    (Buffer.mk (text ++ "\n") n).isEmpty = false := by
  rw [isEmpty, Bool.eq_false_iff, Ne, String.isEmpty_iff]
  intro h
  simpa using congrArg String.toList h

/-- Behind gathered lines no line is a command. -/
theorem command?_of_gathered {text : String} {n : Int} (line : String)
    (h : (Buffer.mk (text ++ "\n") n).isEmpty = true) : command? line = none := by
  rw [isEmpty_append_newline] at h
  cases h

/-- Lines wait up to the last one, and are run as one entry there, if and only
if it is the first one that leaves no brace open. -/
theorem requests_eq_iff (h : b.isEmpty = true → command? line = none)
    (rest : List String) :
    b.requests (line :: rest) =
        List.replicate rest.length .wait ++ [.run (b.text ++ gathered (line :: rest))] ↔
      Closes braceSurplus b.surplus (line :: rest) := by
  induction rest generalizing b line with
  | nil =>
    rw [closes_singleton, requests, requests, feed_eq_gather h]
    by_cases hpos : 0 < b.surplus + braceSurplus line
    · rw [gather_of_pos hpos]
      simp [Int.not_le.mpr hpos]
    · rw [gather_of_nonpos (Int.not_lt.mp hpos)]
      simp [Int.not_lt.mp hpos, gathered, String.append_assoc]
  | cons next rest ih =>
    rw [closes_cons, requests, feed_eq_gather h]
    by_cases hpos : 0 < b.surplus + braceSurplus line
    · rw [gather_of_pos hpos]
      have htail := ih (b := ⟨b.text ++ line ++ "\n", b.surplus + braceSurplus line⟩)
        (command?_of_gathered next)
      rw [gathered_cons, ← String.append_assoc, ← String.append_assoc, List.length_cons,
        List.replicate_succ, List.cons_append, List.cons.injEq, htail]
      simp [hpos]
    · rw [gather_of_nonpos (Int.not_lt.mp hpos), List.length_cons, List.replicate_succ,
        List.cons_append, List.cons.injEq]
      simp [hpos]

end Buffer

namespace Console

theorem prompt_append_newline (s : Session) (text : String) (n : Int) :
    prompt ⟨s, text ++ "\n", n⟩ = ". " := by
  rw [prompt, Buffer.isEmpty_append_newline]
  rfl

/-- Lines that are gathered print their prompts, and at last the answer to all
of them.  What follows is read with nothing gathered. -/
theorem transcript_append_of_closes {c : Console} {line : String} {rest : List String}
    (h : c.buffer.isEmpty = true → Buffer.command? line = none)
    (hcloses : Closes Buffer.braceSurplus c.buffer.surplus (line :: rest)) (fuel : Nat)
    (showOutline : Bool) (ls : List String) : c.transcript fuel showOutline (line :: rest ++ ls) =
      (c.session.answer fuel showOutline (c.buffer.text ++ gathered (line :: rest))).bind fun p =>
        (transcript fuel showOutline ⟨p.2, .empty⟩ ls).map fun printed =>
          c.prompt ++ String.join (List.replicate rest.length ". ") ++ p.1.2 ++ printed := by
  induction rest generalizing c line with
  | nil =>
    have hnonpos := closes_singleton.mp hcloses
    rw [List.cons_append, transcript, feed, Buffer.feed_eq_gather h,
      Buffer.gather_of_nonpos hnonpos, gathered_cons, ← String.append_assoc, ← String.append_assoc,
      show gathered [] = "" from rfl, String.append_empty]
    dsimp only
    rcases c.session.answer fuel showOutline (c.buffer.text ++ line ++ "\n") with
      - | ⟨⟨_, printed⟩, s⟩
    · rfl
    · simp
  | cons next rest ih =>
    obtain ⟨hpos, htail⟩ := closes_cons.mp hcloses
    rw [List.cons_append, transcript, feed, Buffer.feed_eq_gather h, Buffer.gather_of_pos hpos]
    dsimp only
    rw [ih (Buffer.command?_of_gathered next) htail, gathered_cons line, ← String.append_assoc,
      ← String.append_assoc, Option.map_bind]
    refine congrArg (Option.bind _) (funext fun p => ?_)
    rw [Function.comp_apply, Option.map_map]
    refine congrArg (Option.map · _) (funext fun printed => ?_)
    dsimp only [Function.comp]
    rw [prompt_append_newline, List.length_cons, List.replicate_succ]
    simp [String.append_assoc]

/-- Lines that are gathered and nothing after them. -/
theorem transcript_of_closes {c : Console} {line : String} {rest : List String}
    (h : c.buffer.isEmpty = true → Buffer.command? line = none)
    (hcloses : Closes Buffer.braceSurplus c.buffer.surplus (line :: rest)) (fuel : Nat)
    (showOutline : Bool) : c.transcript fuel showOutline (line :: rest) =
      (c.session.answer fuel showOutline (c.buffer.text ++ gathered (line :: rest))).map fun p =>
        c.prompt ++ String.join (List.replicate rest.length ". ") ++ p.1.2 ++ "> " := by
  rw [← List.append_nil (line :: rest), transcript_append_of_closes h hcloses, List.append_nil,
    Option.map_eq_bind]
  rfl

/-- The lines of a text that does not begin with a command are gathered into one
entry, which is run at the last line, if and only if the braces in them stay
open up to there, those in comments being counted too.  If they do, all that is
printed behind the prompts is the answer to the text, where that does not quote
how a line ends. -/
theorem answers_text {text first : String} {rest : List String}
    (hlines : lines text = first :: rest) (hfirst : Buffer.command? first = none) {fuel : Nat}
    {showOutline : Bool} (hends : PlainEnds text ∨
      (Session.initial.answer fuel showOutline text).any (·.1.1) = true) :
    (Buffer.empty.requests (lines text) =
        List.replicate rest.length .wait ++ [.run (gathered (lines text))] ↔
      Closes Buffer.braceSurplus 0 (lines text)) ∧
    (Closes Buffer.braceSurplus 0 (lines text) →
      initial.transcript fuel showOutline (lines text) =
        (Session.initial.answer fuel showOutline text).map fun p =>
          "> " ++ String.join (List.replicate rest.length ". ") ++ p.1.2 ++ "> ") := by
  have hanswer := Session.answer_gathered hends
  rw [hlines] at hanswer ⊢
  refine ⟨?_, fun hcloses => ?_⟩
  · have hrequests := Buffer.requests_eq_iff (b := .empty) (fun _ => hfirst) rest
    rwa [show Buffer.empty.text = "" from rfl, String.empty_append] at hrequests
  · have hprinted := transcript_of_closes (c := initial) (fun _ => hfirst) hcloses fuel showOutline
    rw [show initial.buffer.text = "" from rfl, String.empty_append,
      show initial.prompt = "> " from rfl, show initial.session = .initial from rfl] at hprinted
    have hmap (o : Option ((Bool × String) × Session)) : (o.map fun p =>
        "> " ++ String.join (List.replicate rest.length ". ") ++ p.1.2 ++ "> ") =
        (o.map Prod.fst).map fun answer =>
          "> " ++ String.join (List.replicate rest.length ". ") ++ answer.2 ++ "> " := by
      rw [Option.map_map]
      rfl
    rw [hprinted, hmap, hmap, hanswer]

/-- A function with comments, with carriage returns, and without an end of its
last line. -/
def commented : String :=
  "function f() \x7b // gives one\n\r\n // 1\r\n  return 1;\r\n\x7d"

theorem answers_text_commented : ∃ rest,
    lines commented = "function f() \x7b // gives one" :: rest ∧
      initial.transcript 100 true (lines commented) =
        (Session.initial.answer 100 true commented).map fun p =>
          "> " ++ String.join (List.replicate rest.length ". ") ++ p.1.2 ++ "> " :=
  ⟨_, rfl, (answers_text rfl (by decide) (.inr (by decide +kernel))).2 (by decide +kernel)⟩

/-- A text with a brace in a comment. -/
def strayBrace : String := "function f() \x7b // \x7d\n  return 1; \x7d\n"

/-- Its first line is run alone, although the braces in its code are open there. -/
theorem requests_strayBrace : Buffer.command? "function f() \x7b // \x7d" = none ∧
    Closes Buffer.codeSurplus 0 (lines strayBrace) ∧
    Buffer.empty.requests (lines strayBrace) =
      [.run "function f() \x7b // \x7d\n", .run "  return 1; \x7d\n"] ∧
    (Session.initial.answer 100 false strayBrace).map (·.1.2) = some "Type: () -> int\n" ∧
    initial.transcript 100 false (lines strayBrace) ≠ some "> . Type: () -> int\n> " := by
  decide +kernel

end Console

end Implet
