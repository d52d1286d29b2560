import Abacus.Session.Evaluator
import Abacus.Proofs.Environment
import Mathlib.Data.List.TakeWhile

/-!
# What a line does to the evaluator

A line is checked (its characters, then its leading zeros), classified, and carried out. A line
that fails at any of these stages, or whose evaluation fails, leaves the evaluator exactly as it
was; a query, a bare expression and a base conversion only read the environment; and an
assignment rebinds its own name and no other, the name joining the end of the order of names
exactly when it was unbound (`process_frame`).

The name of an assignment is always a variable name: an identifier that does not read as a based
literal (`isVariableName_of_classify`); a blank line is of no shape (`classify_of_blank`).
-/
namespace Abacus.Session

open Syntax

namespace Environment

/-- `env'` is `env` with the binding of `name` replaced: every other name is bound alike, `name`
is bound, and the order of names is kept, with `name` added at the end when it was unbound. -/
structure Rebinds (env env' : Environment) (name : String) : Prop where
  others : ∀ m, m ≠ name → env'.get? m = env.get? m
  bound : (env'.get? name).isSome
  names : env'.names = if (env.get? name).isSome then env.names else env.names ++ [name]

theorem rebinds_bind (env : Environment) (name : String) (b : Binding) :
    env.Rebinds (env.bind name b) name where
  others _ h := get?_bind_of_ne env b h
  bound := by simp
  names := by simp only [names_bind, mem_names_iff]

end Environment

/-- A name accepted by the classification of an assignment is a variable name. -/
theorem isVariableName_of_variableName {cs : List Char} {name : String}
    (h : variableName cs = .ok name) : isVariableName name = true := by
  unfold variableName at h
  dsimp only at h
  split at h
  · next valid =>
    cases h
    exact valid
  · cases h

/-- A blank line is of no shape. -/
theorem classify_of_blank {line : String} (blank : Text.isBlankText line = true) :
    Instruction.classify line = .error (.unknownInstruction line) := by
  have empty : Text.dropTrailingBlanks (Text.dropBlanks line.toList) = [] := by
    have all : Text.dropBlanks line.toList = [] :=
      List.dropWhile_eq_nil_iff.mpr fun c mem => List.all_eq_true.mp blank c mem
    rw [all]
    rfl
  unfold Instruction.classify
  rw [empty]
  rfl

namespace Evaluator

theorem instruction_eq_ok {line : String} {i : Instruction} :
    instruction line = .ok i ↔
      checkCharacters line = .ok () ∧ checkLeadingZeros line = .ok () ∧
        Instruction.classify line = .ok i := by
  unfold instruction
  cases checkCharacters line with
  | error err => simp [bind, Except.bind]
  | ok u =>
    cases checkLeadingZeros line with
    | error err => simp [bind, Except.bind]
    | ok u' => simp [bind, Except.bind]

theorem classify_of_instruction {line : String} {i : Instruction}
    (h : instruction line = .ok i) : Instruction.classify line = .ok i :=
  (instruction_eq_ok.mp h).2.2

theorem process_of_error {ev : Evaluator} {line : String} {err : Error}
    (h : instruction line = .error err) : ev.process line = (.error err, ev) := by
  simp [process, h]

theorem process_assignment {ev : Evaluator} {line name expression : String}
    (h : instruction line = .ok (.assignment name expression)) :
    ev.process line =
      match ev.env.evaluate expression with
      | .resolved v => (.ok [.assigned name v], { ev with env := ev.env.bind name (.resolved v) })
      | .pending _ => (.ok [], { ev with env := ev.env.bind name (.pending expression) })
      | .fatal err => (.error err, ev) := by
  cases value : ev.env.evaluate expression <;> simp only [process, h, value]

/-- A line that is no assignment leaves the evaluator as it was. -/
theorem process_snd_of_not_assignment {ev : Evaluator} {line : String} {i : Instruction}
    (h : instruction line = .ok i) (other : ∀ name expression, i ≠ .assignment name expression) :
    (ev.process line).2 = ev := by
  cases i with
  | assignment name expression => exact absurd rfl (other name expression)
  | query name =>
    simp only [process, h]
    split <;> rfl
  | bareExpression expression => simp [process, h]
  | baseConversion expression base => simp [process, h]

/-- A line writes only by its assignment: an assignment that succeeds rebinds its own name and
keeps the settings; every other line, and every line that fails, leaves the evaluator as it
was. -/
theorem process_frame (ev : Evaluator) (line : String) :
    match Instruction.classify line, (ev.process line).1 with
    | .ok (.assignment name _), .ok _ =>
      (ev.process line).2.settings = ev.settings ∧ ev.env.Rebinds (ev.process line).2.env name
    | _, _ => (ev.process line).2 = ev := by
  cases read : instruction line with
  | error err =>
    rw [process_of_error read]
    -- the line failed, whatever its classification
    cases Instruction.classify line with
    | error _ => rfl
    | ok i => cases i <;> rfl
  | ok i =>
    rw [classify_of_instruction read]
    cases i with
    | assignment name expression =>
      rw [process_assignment read]
      cases ev.env.evaluate expression with
      | resolved v => exact ⟨rfl, Environment.rebinds_bind _ _ _⟩
      | pending missing => exact ⟨rfl, Environment.rebinds_bind _ _ _⟩
      | fatal err => rfl
    | query name => exact process_snd_of_not_assignment read (by simp)
    | bareExpression expression => exact process_snd_of_not_assignment read (by simp)
    | baseConversion expression base => exact process_snd_of_not_assignment read (by simp)

end Evaluator

end Abacus.Session
