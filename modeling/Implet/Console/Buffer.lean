/-
Implet/Console/Buffer.lean

Gathering lines into entries.  A `Buffer` holds the lines that wait for their
braces to be closed.  Each line that is fed to it amounts to a `Request`: to
wait for more, to run what has been gathered, or to obey a command.  Blank lines
and commands are known as such only while nothing has been gathered.

What a line amounts to depends on the lines before it alone, not on what running
them did.
-/
import Implet.Text.Blank

namespace Implet

/-- What a line amounts to. -/
inductive Request where
  /-- Nothing is to be done yet. -/
  | wait
  /-- Run a text as one entry. -/
  | run (source : String)
  | listGlobals
  | stop
  deriving DecidableEq

/-- The lines that have been gathered, and the surplus of opening over closing
braces in them. -/
structure Buffer where
  text : String
  surplus : Int
  deriving DecidableEq

namespace Buffer

/-- Nothing has been gathered. -/
def empty : Buffer := ⟨"", 0⟩

instance : Inhabited Buffer := ⟨empty⟩

/-- Whether nothing has been gathered. -/
def isEmpty (b : Buffer) : Bool := b.text.isEmpty

/-- The surplus of opening over closing braces in a text. -/
def braceSurplus (text : String) : Int :=
  text.toList.foldl
    (fun n c => if c = '\x7b' then n + 1 else if c = '\x7d' then n - 1 else n) 0

/-- Add a line to what has been gathered, which is run once its braces are balanced. -/
def gather (b : Buffer) (line : String) : Request × Buffer :=
  let text := b.text ++ line ++ "\n"
  let surplus := b.surplus + braceSurplus line
  if surplus > 0 then (.wait, ⟨text, surplus⟩) else (.run text, empty)

/-- The request that a line is when nothing has been gathered. -/
def command? (line : String) : Option Request :=
  match trimBlank line with
  | "" => some .wait
  | "exit" | "quit" => some .stop
  | ":env" => some .listGlobals
  | _ => none

/-- What a line amounts to, and what has been gathered after it. -/
def feed (b : Buffer) (line : String) : Request × Buffer :=
  match if b.isEmpty then command? line else none with
  | some request => (request, b)
  | none => b.gather line

end Buffer

end Implet
