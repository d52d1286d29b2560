import Abacus.Syntax.Check
import Abacus.Syntax.Instruction
import Abacus.Syntax.Parse
import Abacus.Numeral.Literal
import Abacus.Numeral.Write
import Abacus.Fraction.Approximate
import Abacus.Session.Environment
import Abacus.Session.Rewrite
import Abacus.Session.Outcome

/-!
# The evaluator

An evaluator holds its settings and an environment, and processes lines.

An expression is evaluated against the environment by rewriting it (terminator, then names with
values), expanding its literals, checking its characters again, and lexing it. If a name is left,
the evaluation waits for the first such name; otherwise the tokens are parsed and the tree is
evaluated. Any error on the way makes the evaluation fail.

A line is checked (characters, leading zeros), classified and carried out. An assignment whose
expression waits is kept as a pending binding; a failure leaves the environment as it was. A
query or a result whose value has a repeating decimal also reports the least base in which the
value's fraction ends.

A block processes its lines in order, skipping blank ones and reporting failed lines as outcomes,
and then resolves pending assignments in passes: each pass tries every pending assignment in
order against the environment as it stands, binds those that resolve, drops those that fail, and
the passes stop after one that changes nothing. Assignments still pending then make the block
fail.
-/
namespace Abacus.Session

open Syntax

/-- The three numeric settings. -/
structure Settings where
  /-- Fraction digits written when converting to a base. -/
  fractionDigits : Nat
  /-- The largest denominator tried when approximating by a fraction. -/
  maxDenominator : Nat
  /-- Places shown for decimal values. -/
  displayDigits : Nat
  deriving DecidableEq, Repr, Inhabited

/-- Ten fraction digits, denominators up to ten thousand, six places. -/
def Settings.standard : Settings := ⟨10, 10000, 6⟩

/-- The result of evaluating an expression. -/
inductive Evaluation where
  | resolved (value : Float)
  | pending (missing : String)
  | fatal (error : Error)
  deriving Repr, Inhabited

namespace Environment

/-- Evaluates an expression, with errors as values of the result. -/
def attempt (env : Environment) (expression : String) : Except Error Evaluation := do
  let substituted := substitute env (stripTerminator expression)
  let expanded ← Numeral.expandLiterals substituted
  checkCharacters expanded
  let tokens ← tokenize expanded
  match firstName? tokens with
  | some missing => return .pending missing
  | none => return .resolved (← parse tokens).eval

/-- Evaluates an expression. -/
def evaluate (env : Environment) (expression : String) : Evaluation :=
  match env.attempt expression with
  | .ok e => e
  | .error err => .fatal err

/-- The value of an expression, refusing one that waits for a name. -/
def evaluateResolved (env : Environment) (expression : String) : Except Error Float :=
  match env.evaluate expression with
  | .resolved v => .ok v
  | .pending missing => .error (.undefinedVariable missing)
  | .fatal err => .error err

/-- One pass over the given pending assignments, in order: the outcomes, the environment after
it, and whether any assignment resolved or failed. -/
def resolvePass (env : Environment) : List (String × String) → List Outcome × Environment × Bool
  | [] => ([], env, false)
  | (name, expression) :: rest =>
    let (now, env, moved) : List Outcome × Environment × Bool :=
      match env.evaluate expression with
      | .resolved v => ([.assigned name v], env.bind name (.resolved v), true)
      | .pending _ => ([], env, false)
      | .fatal err => ([.failed s!"{name} = {expression}" err], env.remove name, true)
    let (later, env, movedLater) := resolvePass env rest
    (now ++ later, env, moved || movedLater)

/-- Passes until one changes nothing, at most `passes` of them. -/
def resolvePasses (env : Environment) : Nat → List Outcome × Environment
  | 0 => ([], env)
  | passes + 1 =>
    let (outcomes, env, moved) := env.resolvePass env.pending
    if moved then
      let (more, env) := env.resolvePasses passes
      (outcomes ++ more, env)
    else (outcomes, env)

/-- Resolves pending assignments. A pass that changes something resolves or drops at least one
of them, so one pass more than there are pending assignments always reaches a pass that
changes nothing. -/
def resolvePending (env : Environment) : List Outcome × Environment :=
  env.resolvePasses (env.pending.length + 1)

end Environment

/-- Settings and an environment. -/
structure Evaluator where
  settings : Settings
  env : Environment
  deriving Repr, Inhabited

namespace Evaluator

/-- An evaluator with no bindings. -/
def fresh (settings : Settings) : Evaluator := ⟨settings, Environment.empty⟩

/-- Forgets every binding. -/
def reset (ev : Evaluator) : Evaluator := { ev with env := Environment.empty }

/-- The advice of a base in which a value with a repeating decimal ends. -/
def alternateBase (ev : Evaluator) (v : Float) : List Outcome :=
  let bound := ev.settings.maxDenominator
  if Fraction.hasRepeatingDecimal bound v then
    match Fraction.bestFiniteBase bound v with
    | some b =>
      match Numeral.toBase v b ev.settings.fractionDigits with
      | .ok digits => [.alternateBase b digits]
      | .error _ => []
    | none => []
  else []

/-- The instruction of a line that passes the character and leading-zero checks. -/
def instruction (line : String) : Except Error Instruction := do
  checkCharacters line
  checkLeadingZeros line
  Instruction.classify line

/-- Carries out one line: its outcomes or the error that stopped it, and the evaluator after
it. An assignment binds its name; the other instructions only read the environment. -/
def process (ev : Evaluator) (line : String) : Except Error (List Outcome) × Evaluator :=
  match instruction line with
  | .error err => (.error err, ev)
  | .ok (.assignment name expression) =>
    match ev.env.evaluate expression with
    | .resolved v => (.ok [.assigned name v], { ev with env := ev.env.bind name (.resolved v) })
    | .pending _ => (.ok [], { ev with env := ev.env.bind name (.pending expression) })
    | .fatal err => (.error err, ev)
  | .ok (.query name) =>
    match ev.env.get? name with
    | some (.resolved v) => (.ok (.queried name v :: ev.alternateBase v), ev)
    | some (.pending _) => (.ok [], ev)
    | none => (.ok [.undefined name], ev)
  | .ok (.bareExpression expression) =>
    ((fun v => .evaluated v :: ev.alternateBase v) <$> ev.env.evaluateResolved expression, ev)
  | .ok (.baseConversion expression base) =>
    (do
      let v ← ev.env.evaluateResolved expression
      let digits ← Numeral.toBase v base ev.settings.fractionDigits
      return [.converted base digits], ev)

/-- Resolves pending assignments. -/
def resolvePending (ev : Evaluator) : List Outcome × Evaluator :=
  let (outcomes, env) := ev.env.resolvePending
  (outcomes, { ev with env })

/-- One line of a block: nothing for a blank line, the outcomes of any other, and a line that
fails reported as an outcome. -/
def processLine (ev : Evaluator) (line : String) : List Outcome × Evaluator :=
  if Text.isBlankText line then ([], ev)
  else match ev.process line with
    | (.ok outcomes, ev) => (outcomes, ev)
    | (.error err, ev) => ([.failed line err], ev)

/-- Processes the lines of a block in order. -/
def processLines (ev : Evaluator) : List String → List Outcome × Evaluator
  | [] => ([], ev)
  | line :: rest =>
    let (now, ev) := ev.processLine line
    let (later, ev) := ev.processLines rest
    (now ++ later, ev)

/-- Processes a block: its lines, then pending assignments; the block fails if some remain. -/
def processBlock (ev : Evaluator) (lines : List String) : Except Error (List Outcome) × Evaluator :=
  let (outcomes, ev) := ev.processLines lines
  let (resolved, ev) := ev.resolvePending
  match ev.env.pending with
  | [] => (.ok (outcomes ++ resolved), ev)
  | waiting => (.error (.unresolvedBlock waiting), ev)

end Evaluator

/-- A block run by a fresh evaluator. -/
def runBlock (settings : Settings) (lines : List String) : Except Error (List Outcome) :=
  ((Evaluator.fresh settings).processBlock lines).1

end Abacus.Session
