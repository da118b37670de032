/-
Implet/Proofs/Accounting.lean

What becomes of the lines of an input.  A `Ledger` lists them in pieces: a blank
line and a command by themselves, and the consecutive lines of an entry
together; last, how the reading ended, at a line that stops the console or at
the end of the input.  A ledger is sound if the pieces are what they say: a line
is blank or a command only at the boundary of an entry, and an entry goes from
such a boundary to the first line that leaves no brace open.

Every input has exactly one sound ledger, and the console acts by it, piece by
piece: it hands over each entry once, as the text of its lines, and prints for
the pieces one after the other (`lines_accounted`).  So all lines before a stop
are accounted for, but for those that wait when the input ends.  These are not
run, and nothing is said about them: `openFunction` is a line that is lost,
although the text would have been answered with an error.
-/
import Implet.Proofs.Gathering

namespace Implet

/-! ### Lines that stay open -/

/-- From `n` on, the count is positive after each line. -/
def Opens (count : String → Int) (n : Int) (ls : List String) : Prop :=
  ∀ us vs, ls = us ++ vs → us ≠ [] → 0 < tally count n us

section

variable {count : String → Int} {n : Int} {l : String} {ls : List String}

theorem opens_nil : Opens count n [] :=
  fun _ _ h hus => absurd (List.append_eq_nil_iff.mp h.symm).1 hus

theorem opens_cons :
    Opens count n (l :: ls) ↔ 0 < n + count l ∧ Opens count (n + count l) ls := by
  constructor
  · intro h
    refine ⟨h [l] ls rfl (List.cons_ne_nil _ _), fun us vs hls _ => ?_⟩
    rw [← tally_cons]
    exact h (l :: us) vs (by rw [hls, List.cons_append]) (List.cons_ne_nil _ _)
  · rintro ⟨hfirst, h⟩ us vs hls hus
    obtain ⟨u, us, rfl⟩ := List.exists_cons_of_ne_nil hus
    obtain ⟨rfl, hrest⟩ := List.cons.inj hls
    rw [tally_cons]
    by_cases hus : us = []
    · rwa [hus]
    · exact h us vs hrest hus

/-- Lines close somewhere, or they stay open. -/
theorem closes_or_opens (count : String → Int) (n : Int) (l : String) (ls : List String) :
    (∃ us vs, ls = us ++ vs ∧ Closes count n (l :: us)) ∨ Opens count n (l :: ls) := by
  by_cases hl : 0 < n + count l
  · induction ls generalizing n l with
    | nil => exact .inr (opens_cons.mpr ⟨hl, opens_nil⟩)
    | cons next ls ih =>
      by_cases hnext : 0 < n + count l + count next
      · rcases ih _ next hnext with ⟨us, vs, rfl, h⟩ | h
        · exact .inl ⟨next :: us, vs, rfl, closes_cons.mpr ⟨hl, h⟩⟩
        · exact .inr (opens_cons.mpr ⟨hl, h⟩)
      · exact .inl ⟨[next], ls, rfl,
          closes_cons.mpr ⟨hl, closes_singleton.mpr (Int.not_lt.mp hnext)⟩⟩
  · exact .inl ⟨[], ls, rfl, closes_singleton.mpr (Int.not_lt.mp hl)⟩

/-- Lines that close do not stay open. -/
theorem Closes.not_opens {us vs : List String} (h : Closes count n us) (hus : us ≠ []) :
    ¬ Opens count n (us ++ vs) :=
  fun ho => absurd (ho us vs rfl hus) (Int.not_lt.mpr h.closed)

/-- Lines close at one place only. -/
theorem Closes.unique {us vs us' vs' : List String} (h : Closes count n us)
    (h' : Closes count n us') (hus : us ≠ []) (hus' : us' ≠ []) (heq : us ++ vs = us' ++ vs') :
    us = us' := by
  -- the shorter one closes where the longer one is still open
  have key : ∀ {us us' ws : List String}, Closes count n us → Closes count n us' → us ≠ [] →
      us' = us ++ ws → us = us' := by
    intro us us' ws h h' hus hws
    by_cases hw : ws = []
    · rw [hws, hw, List.append_nil]
    · exact absurd (h'.opened us ws hws hus hw) (Int.not_lt.mpr h.closed)
  rcases List.append_eq_append_iff.mp heq with ⟨ws, hws, -⟩ | ⟨ws, hws, -⟩
  · exact key h h' hus hws
  · exact (key h' h hus' hws).symm

end

/-- A line at the boundary of an entry is blank, a command or the first line of
an entry. -/
theorem Buffer.command?_cases (line : String) :
    command? line = some .wait ∨ command? line = some .listGlobals ∨ command? line = some .stop ∨
      command? line = none := by
  unfold command?
  split <;> simp

/-! ### Ledgers -/

/-- Lines that the console is done with. -/
inductive Piece where
  | blank (line : String)
  | listing (line : String)
  | entry (first : String) (rest : List String)

/-- How the reading of lines ends: at the end of the input, with what waits
there, or at a line that stops the console, with what is not read any more. -/
inductive Ending where
  | atEnd (pending : List String)
  | atStop (line : String) (unread : List String)

namespace Piece

/-- The lines of a piece. -/
def lines : Piece → List String
  | blank line | listing line => [line]
  | entry first rest => first :: rest

/-- A piece is what it says. -/
def Sound : Piece → Prop
  | blank line => Buffer.command? line = some .wait
  | listing line => Buffer.command? line = some .listGlobals
  | entry first rest =>
    Buffer.command? first = none ∧ Closes Buffer.braceSurplus 0 (first :: rest)

/-- What the lines of a piece amount to. -/
def requests : Piece → List Request
  | blank _ => [.wait]
  | listing _ => [.listGlobals]
  | entry first rest => List.replicate rest.length .wait ++ [.run (gathered (first :: rest))]

end Piece

namespace Ending

/-- The lines after the last piece. -/
def lines : Ending → List String
  | atEnd pending => pending
  | atStop line unread => line :: unread

/-- The lines after the last piece that are read. -/
def read : Ending → List String
  | atEnd pending => pending
  | atStop line _ => [line]

/-- What waits are lines from the boundary of an entry on that stay open. -/
def Sound : Ending → Prop
  | atEnd [] => True
  | atEnd (first :: rest) =>
    Buffer.command? first = none ∧ Opens Buffer.braceSurplus 0 (first :: rest)
  | atStop line _ => Buffer.command? line = some .stop

/-- What the lines amount to that are read after the last piece. -/
def requests : Ending → List Request
  | atEnd pending => List.replicate pending.length .wait
  | atStop _ _ => [.stop]

/-- The prompts for the lines that are read after the last piece, and for the
end of the input. -/
def prompts : Ending → String
  | atEnd pending => "> " ++ String.join (List.replicate pending.length ". ")
  | atStop _ _ => "> "

end Ending

/-- The lines of an input by what becomes of them. -/
structure Ledger where
  pieces : List Piece
  ending : Ending

namespace Ledger

/-- All lines, in their order. -/
def lines (l : Ledger) : List String := l.pieces.flatMap Piece.lines ++ l.ending.lines

/-- The lines that are read, in their order. -/
def read (l : Ledger) : List String := l.pieces.flatMap Piece.lines ++ l.ending.read

/-- What the lines amount to that are read. -/
def requests (l : Ledger) : List Request :=
  l.pieces.flatMap Piece.requests ++ l.ending.requests

/-- All pieces and the ending are what they say. -/
structure Sound (l : Ledger) : Prop where
  pieces : ∀ p ∈ l.pieces, p.Sound
  ending : l.ending.Sound

variable {p : Piece} {ps : List Piece} {e : Ending}

theorem lines_cons (p : Piece) (ps : List Piece) (e : Ending) :
    lines ⟨p :: ps, e⟩ = p.lines ++ lines ⟨ps, e⟩ := by
  simp [lines]

theorem read_cons (p : Piece) (ps : List Piece) (e : Ending) :
    read ⟨p :: ps, e⟩ = p.lines ++ read ⟨ps, e⟩ := by
  simp [read]

theorem requests_cons (p : Piece) (ps : List Piece) (e : Ending) :
    requests ⟨p :: ps, e⟩ = p.requests ++ requests ⟨ps, e⟩ := by
  simp [requests]

theorem sound_nil : Sound ⟨[], e⟩ ↔ e.Sound :=
  ⟨fun h => h.ending, fun h => ⟨List.forall_mem_nil _, h⟩⟩

theorem sound_cons : Sound ⟨p :: ps, e⟩ ↔ p.Sound ∧ Sound ⟨ps, e⟩ := by
  constructor
  · rintro ⟨hp, he⟩
    exact ⟨(List.forall_mem_cons.mp hp).1, (List.forall_mem_cons.mp hp).2, he⟩
  · rintro ⟨hp, hps, he⟩
    exact ⟨List.forall_mem_cons.mpr ⟨hp, hps⟩, he⟩

/-- Every input has a sound ledger. -/
theorem exists_sound (ls : List String) : ∃ l : Ledger, l.Sound ∧ l.lines = ls := by
  have cons_piece : ∀ {p : Piece} {ls : List String}, p.Sound →
      (∃ l : Ledger, l.Sound ∧ l.lines = ls) → ∃ l : Ledger, l.Sound ∧ l.lines = p.lines ++ ls := by
    rintro p ls hp ⟨⟨ps, e⟩, hl, rfl⟩
    exact ⟨⟨p :: ps, e⟩, sound_cons.mpr ⟨hp, hl⟩, lines_cons p ps e⟩
  induction hn : ls.length using Nat.strong_induction_on generalizing ls with
  | h n ih =>
    subst hn
    rcases ls with - | ⟨line, ls⟩
    · exact ⟨⟨[], .atEnd []⟩, sound_nil.mpr trivial, rfl⟩
    have ihs : ∀ us vs, ls = us ++ vs → ∃ l : Ledger, l.Sound ∧ l.lines = vs := fun us vs hls =>
      ih vs.length (by rw [hls, List.length_cons, List.length_append]; omega) vs rfl
    -- the first line tells what it begins, and what comes after that is shorter
    rcases Buffer.command?_cases line with h | h | h | h
    · exact cons_piece (p := .blank line) h (ihs [] ls rfl)
    · exact cons_piece (p := .listing line) h (ihs [] ls rfl)
    · exact ⟨⟨[], .atStop line ls⟩, sound_nil.mpr h, rfl⟩
    · rcases closes_or_opens Buffer.braceSurplus 0 line ls with ⟨us, vs, hls, hus⟩ | hopen
      · rw [hls]
        exact cons_piece (p := .entry line us) ⟨h, hus⟩ (ihs us vs hls)
      · exact ⟨⟨[], .atEnd (line :: ls)⟩, sound_nil.mpr ⟨h, hopen⟩, rfl⟩

end Ledger

/-! ### One ledger only -/

theorem Piece.lines_ne_nil (p : Piece) : p.lines ≠ [] := by
  cases p <;> exact List.cons_ne_nil _ _

/-- The command that the first line of a piece is. -/
def Piece.command : Piece → Option Request
  | blank _ => some .wait
  | listing _ => some .listGlobals
  | entry _ _ => none

theorem Piece.Sound.command?_head {p : Piece} (h : p.Sound) {line : String}
    {ls : List String}
    (hline : p.lines = line :: ls) : Buffer.command? line = p.command := by
  cases p with
  | blank | listing =>
    obtain ⟨rfl, -⟩ := List.cons.inj hline
    exact h
  | entry =>
    obtain ⟨rfl, -⟩ := List.cons.inj hline
    exact h.1

/-- The first lines of an input make one piece only. -/
theorem Piece.Sound.unique {p q : Piece} {xs ys : List String} (hp : p.Sound)
    (hq : q.Sound) (h : p.lines ++ xs = q.lines ++ ys) : p = q := by
  have hcommand : p.command = q.command := by
    obtain ⟨line, us, hus⟩ := List.exists_cons_of_ne_nil p.lines_ne_nil
    obtain ⟨line', vs, hvs⟩ := List.exists_cons_of_ne_nil q.lines_ne_nil
    rw [← hp.command?_head hus, ← hq.command?_head hvs]
    rw [hus, hvs] at h
    exact congrArg _ (List.cons.inj h).1
  cases p with
  | blank line =>
    cases q with
    | blank => exact congrArg _ (List.cons.inj h).1
    | listing | entry => cases hcommand
  | listing line =>
    cases q with
    | listing => exact congrArg _ (List.cons.inj h).1
    | blank | entry => cases hcommand
  | entry first rest =>
    cases q with
    | blank | listing => cases hcommand
    | entry first' rest' =>
      obtain ⟨rfl, rfl⟩ := List.cons.inj
        (hp.2.unique hq.2 (List.cons_ne_nil _ _) (List.cons_ne_nil _ _) h)
      rfl

/-- Where the reading ends, there is no piece. -/
theorem Ending.Sound.lines_ne {e : Ending} (he : e.Sound) {p : Piece} (hp : p.Sound)
    (xs : List String) : e.lines ≠ p.lines ++ xs := by
  intro h
  obtain ⟨line, us, hus⟩ := List.exists_cons_of_ne_nil p.lines_ne_nil
  have hcommand := hp.command?_head hus
  rw [hus] at h
  cases e with
  | atStop line' unread =>
    obtain ⟨rfl, -⟩ := List.cons.inj h
    rw [show Buffer.command? line' = some .stop from he] at hcommand
    cases p <;> cases hcommand
  | atEnd pending =>
    cases pending with
    | nil => cases h
    | cons first rest =>
      obtain ⟨rfl, hrest⟩ := List.cons.inj h
      rw [he.1] at hcommand
      cases p with
      | blank | listing => cases hcommand
      | entry first' rest' =>
        -- the lines of an entry close, and those that wait do not
        obtain ⟨rfl, rfl⟩ := List.cons.inj hus
        have hopens := he.2
        rw [hrest] at hopens
        exact hp.2.not_opens (List.cons_ne_nil _ _) hopens

theorem Ending.Sound.unique {d e : Ending} (hd : d.Sound) (he : e.Sound)
    (h : d.lines = e.lines) : d = e := by
  -- a line that stops the console does not begin an entry
  have hstop : ∀ {pending unread : List String} {line : String}, (atEnd pending).Sound →
      (atStop line unread).Sound → pending ≠ line :: unread := by
    rintro pending unread line hp hs rfl
    rw [Sound, hp.1] at hs
    cases hs
  cases d with
  | atEnd pending =>
    cases e with
    | atEnd => exact congrArg _ h
    | atStop => exact absurd h (hstop hd he)
  | atStop line unread =>
    cases e with
    | atEnd => exact absurd h.symm (hstop he hd)
    | atStop =>
      obtain ⟨rfl, rfl⟩ := List.cons.inj h
      rfl

/-- An input has one sound ledger only. -/
theorem Ledger.Sound.unique {l m : Ledger} (hl : l.Sound) (hm : m.Sound)
    (h : l.lines = m.lines) :
    l = m := by
  obtain ⟨ps, d⟩ := l
  obtain ⟨qs, e⟩ := m
  -- the first pieces are the same, or neither ledger has one
  induction ps generalizing qs with
  | nil =>
    have hd := sound_nil.mp hl
    cases qs with
    | nil => exact congrArg _ (hd.unique (sound_nil.mp hm) h)
    | cons q qs =>
      rw [lines_cons q] at h
      exact absurd h (hd.lines_ne (sound_cons.mp hm).1 _)
  | cons p ps ih =>
    obtain ⟨hp, hps⟩ := sound_cons.mp hl
    rw [lines_cons] at h
    cases qs with
    | nil => exact absurd h.symm ((sound_nil.mp hm).lines_ne hp _)
    | cons q qs =>
      obtain ⟨hq, hqs⟩ := sound_cons.mp hm
      rw [lines_cons] at h
      obtain rfl := hp.unique hq h
      obtain ⟨rfl, rfl⟩ := Ledger.mk.inj (ih hps qs hqs (List.append_cancel_left h))
      rfl

/-! ### What the lines amount to -/

namespace Buffer

variable {b : Buffer} {line : String} {rest : List String}

/-- Lines that close wait up to the last one and are run as one entry there,
whatever follows. -/
theorem requests_append_of_closes (h : b.isEmpty = true → command? line = none)
    (hcloses : Closes braceSurplus b.surplus (line :: rest)) (ls : List String) :
    b.requests (line :: rest ++ ls) =
      List.replicate rest.length .wait ++ [.run (b.text ++ gathered (line :: rest))] ++
        empty.requests ls := by
  -- the buffer is any, as the lines that wait are in it when the next one is read
  induction rest generalizing b line with
  | nil =>
    rw [List.cons_append, requests, feed_eq_gather h,
      gather_of_nonpos (closes_singleton.mp hcloses)]
    simp [gathered, String.append_assoc]
  | cons next rest ih =>
    obtain ⟨hpos, htail⟩ := closes_cons.mp hcloses
    rw [List.cons_append, requests, feed_eq_gather h, gather_of_pos hpos,
      ih (b := ⟨b.text ++ line ++ "\n", _⟩) (command?_of_gathered next) htail,
      gathered_cons line, ← String.append_assoc, ← String.append_assoc]
    rfl

/-- Lines that stay open wait. -/
theorem requests_of_opens (h : b.isEmpty = true → command? line = none)
    (hopens : Opens braceSurplus b.surplus (line :: rest)) :
    b.requests (line :: rest) = List.replicate (rest.length + 1) .wait := by
  induction rest generalizing b line with
  | nil =>
    rw [requests, feed_eq_gather h, gather_of_pos (opens_cons.mp hopens).1]
    rfl
  | cons next rest ih =>
    obtain ⟨hpos, htail⟩ := opens_cons.mp hopens
    rw [requests, feed_eq_gather h, gather_of_pos hpos,
      ih (b := ⟨b.text ++ line ++ "\n", _⟩) (command?_of_gathered next) htail]
    rfl

/-- With nothing gathered, a command is obeyed. -/
theorem feed_of_command {request : Request} (h : command? line = some request) :
    empty.feed line = (request, empty) := by
  rw [feed, if_pos (show empty.isEmpty = true from rfl), h]

theorem requests_of_command {request : Request} (h : command? line = some request)
    (ls : List String) : empty.requests (line :: ls) = request :: empty.requests ls := by
  rw [requests, feed_of_command h]

end Buffer

theorem Piece.Sound.requests_append {p : Piece} (h : p.Sound) (ls : List String) :
    Buffer.empty.requests (p.lines ++ ls) = p.requests ++ Buffer.empty.requests ls := by
  cases p with
  | blank | listing => exact Buffer.requests_of_command h ls
  | entry first rest =>
    have := Buffer.requests_append_of_closes (b := .empty) (fun _ => h.1) h.2 ls
    rwa [show Buffer.empty.text = "" from rfl, String.empty_append] at this

theorem Ending.Sound.requests_read {e : Ending} (h : e.Sound) :
    Buffer.empty.requests e.read = e.requests := by
  rcases e with ⟨_ | ⟨first, rest⟩⟩ | ⟨line, unread⟩
  · rfl
  · exact Buffer.requests_of_opens (fun _ => h.1) h.2
  · exact Buffer.requests_of_command h []

/-- The console does with the lines that it reads what the ledger says. -/
theorem Ledger.Sound.requests_read {l : Ledger} (h : l.Sound) :
    Buffer.empty.requests l.read = l.requests := by
  obtain ⟨ps, e⟩ := l
  induction ps with
  | nil => exact (sound_nil.mp h).requests_read
  | cons p ps ih =>
    obtain ⟨hp, hps⟩ := sound_cons.mp h
    rw [read_cons, requests_cons, hp.requests_append, ih hps]

/-! ### What is printed -/

namespace Console

/-- What is printed for a piece that begins at the boundary of an entry, and the
session after it. -/
def play (fuel : Nat) (showOutline : Bool) (s : Session) :
    Piece → Option (String × Session)
  | .blank _ => some ("> ", s)
  | .listing _ => some ("> " ++ (Session.listing s).1, (Session.listing s).2)
  | .entry first rest =>
    (s.answer fuel showOutline (gathered (first :: rest))).map fun p =>
      ("> " ++ String.join (List.replicate rest.length ". ") ++ p.1.2, p.2)

/-- What is printed for pieces one after the other, and then for the ending. -/
def playAll (fuel : Nat) (showOutline : Bool) (s : Session) (e : Ending) :
    List Piece → Option String
  | [] => some e.prompts
  | p :: ps => (play fuel showOutline s p).bind fun q =>
      (playAll fuel showOutline q.2 e ps).map (q.1 ++ ·)

variable {fuel : Nat} {showOutline : Bool}

/-- Lines that stay open print their prompts. -/
theorem transcript_of_opens {c : Console} {line : String} {rest : List String}
    (h : c.buffer.isEmpty = true → Buffer.command? line = none)
    (hopens : Opens Buffer.braceSurplus c.buffer.surplus (line :: rest)) :
    c.transcript fuel showOutline (line :: rest) =
      some (c.prompt ++ String.join (List.replicate (rest.length + 1) ". ")) := by
  induction rest generalizing c line with
  | nil =>
    rw [transcript, feed, Buffer.feed_eq_gather h, Buffer.gather_of_pos (opens_cons.mp hopens).1]
    dsimp only
    rw [transcript, prompt_append_newline]
    simp
  | cons next rest ih =>
    obtain ⟨hpos, htail⟩ := opens_cons.mp hopens
    rw [transcript, feed, Buffer.feed_eq_gather h, Buffer.gather_of_pos hpos]
    dsimp only
    rw [ih (Buffer.command?_of_gathered next) htail, prompt_append_newline, List.length_cons,
      List.replicate_succ (n := rest.length + 1)]
    simp

/-- A piece prints what it prints by itself, whatever follows. -/
theorem transcript_append {p : Piece} (h : p.Sound) (s : Session) (ls : List String) :
    transcript fuel showOutline ⟨s, .empty⟩ (p.lines ++ ls) =
      (play fuel showOutline s p).bind fun q =>
        (transcript fuel showOutline ⟨q.2, .empty⟩ ls).map (q.1 ++ ·) := by
  cases p with
  | blank line =>
    change transcript fuel showOutline ⟨s, .empty⟩ (line :: ls) = _
    rw [transcript, feed, Buffer.feed_of_command h]
    rfl
  | listing line =>
    change transcript fuel showOutline ⟨s, .empty⟩ (line :: ls) = _
    rw [transcript, feed, Buffer.feed_of_command h]
    rfl
  | entry first rest =>
    have htext : Buffer.empty.text ++ gathered (first :: rest) = gathered (first :: rest) :=
      String.empty_append
    change transcript fuel showOutline ⟨s, .empty⟩ (first :: rest ++ ls) = _
    rw [transcript_append_of_closes (fun _ => h.1) h.2, htext, play, Option.bind_map]
    rfl

theorem transcript_ending {e : Ending} (h : e.Sound) (s : Session) :
    transcript fuel showOutline ⟨s, .empty⟩ e.lines = some e.prompts := by
  rcases e with ⟨_ | ⟨first, rest⟩⟩ | ⟨line, unread⟩
  · rfl
  · exact transcript_of_opens (fun _ => h.1) h.2
  · change transcript fuel showOutline ⟨s, .empty⟩ (line :: unread) = _
    rw [transcript, feed, Buffer.feed_of_command h]
    rfl

/-- All that is printed is what the pieces print. -/
theorem transcript_lines {l : Ledger} (h : l.Sound) (s : Session) :
    transcript fuel showOutline ⟨s, .empty⟩ l.lines =
      playAll fuel showOutline s l.ending l.pieces := by
  obtain ⟨ps, e⟩ := l
  induction ps generalizing s with
  | nil => exact transcript_ending (Ledger.sound_nil.mp h) s
  | cons p ps ih =>
    obtain ⟨hp, hps⟩ := Ledger.sound_cons.mp h
    rw [Ledger.lines_cons, transcript_append hp, playAll]
    exact congrArg (Option.bind _) (funext fun q => congrArg _ (ih q.2 hps))

/-- Every input has exactly one sound ledger, and the console does what is in
it: of the lines that it reads, the blank ones and the commands at the boundary
of an entry stand for themselves, and each of the others belongs to one entry,
which is handed over once as the text of its lines, but for those that wait when
the input ends.  What is printed is what the pieces print one after the
other. -/
theorem lines_accounted (text : String) : ∃! l : Ledger, l.Sound ∧ l.lines = lines text ∧
    Buffer.empty.requests l.read = l.requests ∧
    ∀ fuel showOutline, initial.transcript fuel showOutline (lines text) =
      playAll fuel showOutline .initial l.ending l.pieces := by
  obtain ⟨l, hl, hlines⟩ := Ledger.exists_sound (lines text)
  refine ⟨l, ⟨hl, hlines, hl.requests_read, fun fuel showOutline => ?_⟩, fun m hm => ?_⟩
  · rw [← hlines]
    exact transcript_lines hl .initial
  · exact hm.1.unique hl (hm.2.1.trans hlines.symm)

/-- A function of which only the first line is there. -/
def openFunction : String := "function f() \x7b\n"

/-- Its line is neither blank nor a command, and it is not run; run as a text,
it is an error. -/
theorem requests_openFunction : lines openFunction = ["function f() \x7b"] ∧
    Buffer.command? "function f() \x7b" = none ∧
    Buffer.empty.requests (lines openFunction) = [.wait] ∧
    initial.transcript 100 false (lines openFunction) = some "> . " ∧
    (Session.initial.answer 100 false openFunction).map (·.1.2) =
      some "Error: Parse error: unexpected end of input, expected '\x7d'\n" := by
  decide +kernel

end Console

end Implet
