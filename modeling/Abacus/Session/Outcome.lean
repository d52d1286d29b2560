import Abacus.Error
import Abacus.Decimal.Fixed
import Abacus.Decimal.Shortest
import Abacus.Text.Cut

/-!
# Outcomes

What the calculator reports for a line: a binding, a queried value, an unknown name, a result,
a value written in a base, the advice of a base in which a repeating decimal ends, or a failed
line. Decimal values are shown with a number of places after the point, trailing zeros and a
trailing point cut, and without the sign of a negative value that shows as zero.
-/
namespace Abacus.Session

/-- Reports of the calculator. -/
inductive Outcome where
  | assigned (name : String) (value : Float)
  | queried (name : String) (value : Float)
  | undefined (name : String)
  | evaluated (value : Float)
  | converted (base : Nat) (digits : String)
  | alternateBase (base : Nat) (digits : String)
  | failed (line : String) (error : Error)
  deriving Repr, Inhabited

/-- Cuts trailing zeros after a point, and then a trailing point. -/
def cutZeros (cs : List Char) : List Char :=
  if cs.contains '.' then
    let r := cs.reverse.dropWhile (· == '0')
    (r.dropWhile (· == '.')).reverse
  else cs

/-- A value shown with at most `places` digits after the point: rounded half to even, trailing
zeros cut, `0` for a value that shows as negative zero, and the text of a value that is not
finite. -/
def formatDecimal (value : Float) (places : Nat) : String :=
  if value.isFinite then
    let shown := cutZeros (Decimal.fixed value places).toList
    if shown == ['-', '0'] then "0" else String.ofList shown
  else Decimal.text value

/-- The line that reports an outcome, with decimals shown to `places` places. -/
def Outcome.text (places : Nat) : Outcome → String
  | .assigned name v => s!"{name} = {formatDecimal v places}"
  | .queried name v => s!"{name} = {formatDecimal v places}"
  | .undefined name => s!"Variable '{name}' is not defined"
  | .evaluated v => s!"Result: {formatDecimal v places}"
  | .converted base digits => s!"Result in base {base}: {digits}"
  | .alternateBase base digits => s!"In base {base} the value terminates: {digits}"
  | .failed line err => s!"Error in '{line}': {err.message}"

end Abacus.Session
