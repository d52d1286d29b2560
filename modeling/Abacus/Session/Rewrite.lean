import Abacus.Decimal.Shortest
import Abacus.Text.Blank
import Abacus.Text.Cut
import Abacus.Session.Environment

/-!
# Rewriting expressions before reading them

An expression is made ready in two text passes.

* The terminator pass trims blanks and one final `;` with the blanks before it.
* The substitution pass replaces each name that has a value by the text of that value. A name
  is a maximal run of an ASCII letter followed by ASCII letters, digits and underscores that does
  not follow an ASCII letter, digit, `_` or `.`; names without a value are kept. A value is
  written so that the lexer reads it back as one operand: a negative value and the values that
  are not finite are put in parentheses, as `(-5)`, `(1/0)`, `(-1/0)` and `(0/0)`, and zero is
  written without sign. A name right after a unary minus, that is a `-` that starts the text or
  follows `(`, `+`, `-` or `*`, blanks aside, is preceded by `1*`, so that the minus negates the
  whole power (`-A^2` is `-1*5^2`, not `(-5)^2`).
-/
namespace Abacus.Session

open Text

/-- Trims blanks and one final `;` with the blanks before it. -/
def stripTerminator (expression : String) : String :=
  let trimmed := dropTrailingBlanks (dropBlanks expression.toList)
  match stripLast? ';' trimmed with
  | some s => String.ofList (dropTrailingBlanks s)
  | none => String.ofList trimmed

/-- Whether the sign bit of a double is set. -/
def signBit (x : Float) : Bool := x.toBits.toNat / Nat.pow 2 63 % 2 == 1

/-- The text of a value as an operand. -/
def renderValue (v : Float) : String :=
  if v.isNaN then "(0/0)"
  else if v.isInf then (if v > 0.0 then "(1/0)" else "(-1/0)")
  else if signBit v && v != 0.0 then "(" ++ Decimal.text v ++ ")"
  else Decimal.text v.abs

/-- The characters after which no name starts. -/
def continuesLiteral (c : Char) : Bool := c.isAlphanum || c == '_' || c == '.'

/-- The characters after the first of a name. -/
def isNameChar (c : Char) : Bool := c.isAlphanum || c == '_'

/-- Whether text ending in `-` (blanks aside) makes that minus unary: nothing but blanks, `(`,
`+`, `-` or `*` stands before it. The text is given last character first. -/
def followsUnaryMinus (reversed : List Char) : Bool :=
  match dropBlanks reversed with
  | '-' :: before =>
    match dropBlanks before with
    | [] => true
    | c :: _ => "(+-*".toList.contains c
  | _ => false

/-- The substitution pass over `cs`, after the output `out` (last character first) and the
character `previous` of the input before `cs`. -/
def substituteFrom (env : Environment) (previous : Option Char) (out : List Char) :
    List Char → List Char
  | [] => out.reverse
  | c :: rest =>
    if c.isAlpha && !previous.any continuesLiteral then
      let name := c :: rest.takeWhile isNameChar
      let out := match env.resolved? (String.ofList name) with
        | some v =>
          let out := if followsUnaryMinus out then '*' :: '1' :: out else out
          (renderValue v).toList.reverse ++ out
        | none => name.reverse ++ out
      substituteFrom env name.getLast? out (rest.dropWhile isNameChar)
    else substituteFrom env (some c) (c :: out) rest
termination_by cs => cs.length
decreasing_by
  all_goals simp only [List.length_cons]
  all_goals first
    | (have h := length_dropWhile_le isNameChar rest; omega)
    | omega

/-- Replaces each name that has a value in `env` by the text of the value. -/
def substitute (env : Environment) (expression : String) : String :=
  String.ofList (substituteFrom env none [] expression.toList)

end Abacus.Session
