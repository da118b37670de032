/-
Implet/Console/Basic.lean

The console: a session that is fed line by line.  `Console.feed` is what one
line does and what it prints; `Console.transcript` is all that is printed for an
input.  Reading and printing themselves are left to the program.
-/
import Implet.Console.Buffer
import Implet.Session

namespace Implet

/-- The text for the outcome of an entry. -/
def Outcome.text (o : Outcome) : String :=
  (match o.type with
    | some type => "Type: " ++ type.text ++ "\n"
    | none => "")
  ++ (match o.value with
      | some value => "val it = " ++ value.text ++ "\n"
      | none => "")

namespace Session

/-- The text for an error. -/
def errorText (report : String) : String := "Error: " ++ report ++ "\n"

/-- Run a text as one entry.  The answer says whether it went well and what is
printed, which begins with the outline of the entry if `showOutline` is set. -/
def answer (fuel : Nat) (showOutline : Bool) (s : Session) (source : String) :
    Option ((Bool × String) × Session) :=
  match Entry.parse source with
  | .error e => some ((false, errorText e.report), s)
  | .ok entry =>
    let outline := if showOutline then entry.outline 0 else ""
    match s.runEntry fuel entry with
    | none => none
    | some (.ok outcome, s) => some ((true, outline ++ outcome.text), s)
    | some (.error e, s) => some ((false, outline ++ errorText e.report), s)

/-- The text that lists the globals. -/
def listing : StateM Session String := do
  return String.join ((← globals).map fun b => b.text ++ "\n")

end Session

/-- A session with the lines that wait for their braces to be closed. -/
structure Console where
  session : Session
  buffer : Buffer

namespace Console

/-- A console before its first line. -/
def initial : Console := ⟨.initial, .empty⟩

instance : Inhabited Console := ⟨initial⟩

/-- What is printed before a line is read. -/
def prompt (c : Console) : String := if c.buffer.isEmpty then "> " else ". "

/-- What becomes of the console after a line. -/
inductive Reply where
  /-- The console goes on. -/
  | next (console : Console) (printed : String)
  /-- The line asked to stop. -/
  | stop

/-- What a line does.  There is no answer if the fuel does not suffice. -/
def feed (fuel : Nat) (showOutline : Bool) (c : Console) (line : String) : Option Reply :=
  match c.buffer.feed line with
  | (.wait, buffer) => some (.next { c with buffer } "")
  | (.stop, _) => some .stop
  | (.listGlobals, buffer) =>
    let (printed, session) := Session.listing c.session
    some (.next ⟨session, buffer⟩ printed)
  | (.run source, buffer) =>
    match c.session.answer fuel showOutline source with
    | none => none
    | some ((_, printed), session) => some (.next ⟨session, buffer⟩ printed)

/-- All that is printed while the lines of an input are read, prompts included.
The prompt before the end of the input is printed too, and what has been
gathered by then is not run. -/
def transcript (fuel : Nat) (showOutline : Bool) (c : Console) :
    List String → Option String
  | [] => some c.prompt
  | line :: lines =>
    match c.feed fuel showOutline line with
    | none => none
    | some .stop => some c.prompt
    | some (.next c' printed) =>
      (c'.transcript fuel showOutline lines).map fun rest => c.prompt ++ printed ++ rest

end Console

end Implet
