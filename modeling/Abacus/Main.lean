import Abacus.Invocation
import Abacus.Script

/-!
# The command line

Reads the command line, takes the script from it or else from standard input, runs the script
and writes the transcript: the outcomes to standard output and the errors to standard error.
A command line that cannot be read is reported on standard error with exit code 2.
-/
open Abacus

/-- Reads all of standard input. -/
partial def readAll (stream : IO.FS.Stream) (acc : String) : IO String := do
  let chunk ← stream.getLine
  if chunk.isEmpty then pure acc else readAll stream (acc ++ chunk)

/-- Runs the calculator on the command line `args`. -/
def main (args : List String) : IO UInt32 := do
  match Invocation.ofArgs args with
  | .error message =>
    IO.eprintln message
    pure 2
  | .ok inv =>
    let script ← match inv.script with
      | some text => pure text
      | none => do readAll (← IO.getStdin) ""
    let transcript := Script.run inv.settings script
    IO.print transcript.out
    IO.eprint transcript.err
    pure 0
