import Abacus.Decimal.Shortest

/-!
# Errors

Every way a line, an expression or a block can fail, one constructor per cause, and the one
sentence that reports it. Columns are byte offsets into the expression text. A value in a
message is written as `Decimal.text` writes it.
-/
namespace Abacus

/-- The causes of failure. -/
inductive Error where
  /-- A character outside the calculator's alphabet. -/
  | invalidCharacter (c : Char) (text : String)
  /-- An integer part of two or more digits that starts with `0`. -/
  | leadingZero (literal : String)
  /-- A name to bind or query that is no identifier or reads as a based literal. -/
  | invalidVariableName (name : String)
  /-- A line of none of the four instruction shapes. -/
  | unknownInstruction (line : String)
  /-- A token, or a slice that is no token, where none may stand. -/
  | unexpectedToken (token : String) (column : Nat)
  /-- An opening parenthesis whose group is not closed. -/
  | missingClosingParen (column : Nat)
  /-- An operand was due; `none` when the expression ended instead. -/
  | expectedNumber (found : Option String)
  /-- A base outside `2` to `16`, as written. -/
  | invalidBase (base : String)
  /-- A digit not below the base of its literal. -/
  | invalidDigitForBase (digit : Char) (base : Nat) (literal : String)
  /-- A value was needed from a name that has none. -/
  | undefinedVariable (name : String)
  /-- A value that has no digits in a base. -/
  | nonFiniteValue (value : Float)
  /-- Assignments left waiting when a block ends, with their expressions, in order. -/
  | unresolvedBlock (pending : List (String × String))
  deriving Repr, Inhabited

namespace Error

/-- The report of an error. -/
def message : Error → String
  | invalidCharacter c text => s!"Syntax error: character '{c}' is not allowed in '{text}'."
  | leadingZero literal => s!"Syntax error: literal '{literal}' has a leading zero."
  | invalidVariableName name =>
    s!"Invalid variable name '{name}'. Names start with a letter followed by letters, " ++
      "digits or '_', and must not read as a based literal."
  | unknownInstruction line => s!"Syntax error: unknown instruction format '{line}'."
  | unexpectedToken token column => s!"Syntax error: unexpected '{token}' at column {column}."
  | missingClosingParen column =>
    s!"Syntax error: missing closing parenthesis for '(' at column {column}."
  | expectedNumber found =>
    let what := match found with
      | some token => s!"'{token}'"
      | none => "end of input"
    s!"Syntax error: expected number, found {what}."
  | invalidBase base => s!"Invalid base '{base}'. Bases must be between 2 and 16."
  | invalidDigitForBase digit base literal =>
    s!"Digit '{digit}' is not valid for base {base} in '{literal}'."
  | undefinedVariable name => s!"Variable '{name}' is not defined."
  | nonFiniteValue value => s!"Cannot write {Decimal.text value} as digits in a base."
  | unresolvedBlock pending =>
    let items := ", ".intercalate (pending.map fun (name, expression) => s!"{name} = {expression}")
    s!"Unresolved instructions: {items}."

end Error

end Abacus
