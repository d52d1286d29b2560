import Abacus.Text.Blank
import Abacus.Text.Lines
import Abacus.Session.Evaluator

/-!
# Scripts

A script is cut into lines and the lines into blocks: runs of lines that are not blank,
separated by blank lines. A line whose text, trailing blanks aside, ends in `close` in any ASCII
case ends the script: it counts without that word, and no line after it is read.

Each block is run by a fresh evaluator. Its outcomes are written one per line to the output,
an error of the block to the error output as `Error: message`, and after each block the line
`Variables are reset.` to the output.
-/
namespace Abacus.Script

open Text Session

/-- The line without a final `close`, in any ASCII case and before trailing blanks, if it has
one. -/
def stripClose? (line : String) : Option String :=
  let t := dropTrailingBlanks line.toList
  let cut := t.length - 5
  if 5 ≤ t.length ∧ (t.drop cut).map Char.toLower = "close".toList then
    some (String.ofList (t.take cut))
  else none

/-- The block so far, unless it is empty. -/
def closeBlock (current : List String) : List (List String) :=
  if current.isEmpty then [] else [current]

/-- The blocks of the lines, after the lines `current` of an open block. -/
def blocksFrom (current : List String) : List String → List (List String)
  | [] => closeBlock current
  | line :: rest =>
    let closing := stripClose? line
    let text := closing.getD line
    let (done, current) :=
      if isBlankText text then (closeBlock current, []) else ([], current ++ [text])
    if closing.isSome then done ++ closeBlock current else done ++ blocksFrom current rest

/-- The blocks of a script. -/
def blocks (script : String) : List (List String) := blocksFrom [] (lines script)

/-- What a run writes: the output and the error output. -/
structure Transcript where
  out : String
  err : String
  deriving DecidableEq, Repr

/-- The transcript of one block. -/
def runOne (settings : Settings) (block : List String) : Transcript :=
  let reset := "Variables are reset.\n"
  match runBlock settings block with
  | .ok outcomes =>
    ⟨String.join (outcomes.map fun o => o.text settings.displayDigits ++ "\n") ++ reset, ""⟩
  | .error e => ⟨reset, "Error: " ++ e.message ++ "\n"⟩

/-- The transcript of a script. -/
def run (settings : Settings) (script : String) : Transcript :=
  (blocks script).foldl (fun t b => let r := runOne settings b; ⟨t.out ++ r.out, t.err ++ r.err⟩)
    ⟨"", ""⟩

end Abacus.Script
