import Abacus.Error
import Abacus.Text.Blank
import Abacus.Text.Cut
import Abacus.Numeral.Base
import Abacus.Numeral.Literal

/-!
# Instructions

A line is one of four instructions, recognised in this order after trimming blanks and one
final `;`:

* `expression => _base` converts a value to a base;
* `? name` asks for the value of a name;
* `expression =` evaluates an expression;
* `name = expression` binds a name.

A name is an ASCII letter followed by ASCII letters, digits and underscores, and must not read
as a based literal (`FACE_16` is a number, `C_2` a name). A line of no shape, a conversion
without `_` or expression, and an evaluation without expression are reported with the line as
written.
-/
namespace Abacus.Syntax

open Text

/-- The instructions. -/
inductive Instruction where
  | assignment (name expression : String)
  | query (name : String)
  | bareExpression (expression : String)
  | baseConversion (expression : String) (base : Nat)
  deriving DecidableEq, Repr

/-- Whether a text is an ASCII letter followed by ASCII letters, digits and underscores. -/
def isValidIdentifier (s : String) : Bool := Numeral.isIdentifier s.toList

/-- Whether a text may be bound: an identifier that does not read as a based literal. -/
def isVariableName (s : String) : Bool := isValidIdentifier s && !Numeral.readsAsBased s

/-- A name to bind or query, refused unless it is a variable name. -/
def variableName (cs : List Char) : Except Error String :=
  let name := String.ofList cs
  if isVariableName name then .ok name else .error (.invalidVariableName name)

/-- The statement of a trimmed line: the line without one final `;` and the blanks before it. -/
def statementOf (trimmed : List Char) : List Char :=
  match stripLast? ';' trimmed with
  | some s => dropTrailingBlanks s
  | none => trimmed

/-- The instruction of a line. -/
def Instruction.classify (line : String) : Except Error Instruction :=
  let statement := statementOf (dropTrailingBlanks (dropBlanks line.toList))
  let unknown : Error := .unknownInstruction line
  match splitOnce? "=>".toList statement with
  | some (expression, target) =>
    match stripFirst? '_' (dropTrailingBlanks (dropBlanks target)) with
    | some base => do
      let base ← Numeral.parseBase (String.ofList (dropTrailingBlanks (dropBlanks base)))
      let expression := dropTrailingBlanks (dropBlanks expression)
      if expression.isEmpty then throw unknown
      return .baseConversion (String.ofList expression) base
    | none => .error unknown
  | none =>
    match stripFirst? '?' statement with
    | some rest => return .query (← variableName (dropTrailingBlanks (dropBlanks rest)))
    | none =>
      match stripLast? '=' statement with
      | some expression =>
        let expression := dropTrailingBlanks (dropBlanks expression)
        if expression.isEmpty then .error unknown
        else .ok (.bareExpression (String.ofList expression))
      | none =>
        match splitOnce? ['='] statement with
        | some (name, expression) => do
          let name ← variableName (dropTrailingBlanks (dropBlanks name))
          return .assignment name (String.ofList (dropTrailingBlanks (dropBlanks expression)))
        | none => .error unknown

end Abacus.Syntax
