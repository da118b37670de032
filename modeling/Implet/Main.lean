/-
Implet/Main.lean

The command line: a file is run as one entry, and without a file the console
reads standard input.  `--dump-ast` prints the outline of each entry before it
is run.
-/
import Implet.Console.Basic

namespace Implet

/-- What the command line asks for. -/
structure Options where
  file : Option String
  showOutline : Bool

namespace Options

/-- Read the arguments of the command line.  A log filter is taken and not used. -/
def ofArgs : List String → Options → Option Options
  | [], options => some options
  | "--dump-ast" :: args, options => ofArgs args { options with showOutline := true }
  | "--log" :: _ :: args, options => ofArgs args options
  | arg :: args, options =>
    if arg.startsWith "-" || options.file.isSome then none
    else ofArgs args { options with file := some arg }

end Options

/-- More steps than any run takes that ends in a lifetime. -/
def ampleFuel : Nat := 1 <<< 62

/-- A line of input without the characters that end it. -/
def withoutLineEnd (line : String) : String :=
  match line.toList.reverse with
  | '\n' :: '\r' :: cs | '\n' :: cs => String.ofList cs.reverse
  | _ => line

/-- Read lines and print what the console replies, until it is told to stop. -/
partial def converse (showOutline : Bool) (c : Console) : IO Unit := do
  let out ← IO.getStdout
  out.putStr c.prompt
  out.flush
  let line ← (← IO.getStdin).getLine
  if line.isEmpty then return
  match c.feed ampleFuel showOutline (withoutLineEnd line) with
  | some (.next c printed) =>
    out.putStr printed
    converse showOutline c
  | some .stop | none => return

/-- Run a file as one entry. -/
def runFile (showOutline : Bool) (source : String) : IO UInt32 := do
  match Session.initial.answer ampleFuel showOutline source with
  | some ((succeeded, printed), _) =>
    IO.print printed
    return if succeeded then 0 else 1
  | none => return 1

end Implet

/-- The program. -/
def main (args : List String) : IO UInt32 := do
  match Implet.Options.ofArgs args ⟨none, false⟩ with
  | none =>
    IO.eprintln "usage: [FILE] [--dump-ast] [--log FILTER]"
    return 2
  | some ⟨some file, showOutline⟩ => Implet.runFile showOutline (← IO.FS.readFile file)
  | some ⟨none, showOutline⟩ =>
    Implet.converse showOutline .initial
    return 0
