import Std.Data.HashSet
import Abacus.Binary64.Safe
import Abacus.Numeral.Base
import Abacus.Error

/-!
# Writing a value in a base

A finite value is written in a base from `2` to `16` as a `-` for a negative value, the digits
of the integer part of its magnitude, and, when any are produced, a point and digits of the
fractional part.

The integer digits come from repeated division in binary64 arithmetic: the last digit is the
remainder by the base, which is exact, and the rest is `⌊(n - digit) / base⌋`, until that is
below one. The fraction digits come from repeated multiplication: each digit is the integer part
of the fraction times the base and the fraction goes on as the rest. They stop at zero, at the
digit budget, or when a fraction comes back, so that a cycle is written once.
-/
namespace Abacus.Numeral

/-- The digit of a double that should be a digit value, refusing any other. -/
def digitFor (d : Float) : Except Error Char :=
  match (Binary64.toNat32? d).bind digitChar? with
  | some c => .ok c
  | none => .error (.nonFiniteValue d)

/-- The integer digits of a non-negative integral double, least significant first after
`acc`. Each step at least halves the integer, which is below `2 ^ 1024`, so `fuel` of `1100`
always suffices. -/
def integerDigits (base : Nat) (integer : Float) (acc : List Char) : Nat → Except Error (List Char)
  | 0 => .ok acc
  | fuel + 1 => do
    let digit := Float.ofNat (Binary64.natFloor integer % base)
    let c ← digitFor digit
    let next := Binary64.floor ((integer - digit) / Float.ofNat base)
    if next < 1.0 then .ok (c :: acc) else integerDigits base next (c :: acc) fuel

/-- The fraction digits of `fraction` in `base`, at most `budget` more, in reverse order after
`acc`; `seen` holds the bits of the fractions met so far. A fraction here is positive, so two
fractions are equal exactly when their bits are. -/
def fractionDigits (base : Nat) (fraction : Float) (seen : Std.HashSet UInt64) (acc : List Char) :
    Nat → Except Error (List Char)
  | 0 => .ok acc
  | budget + 1 =>
    if fraction > 0.0 && !seen.contains fraction.toBits then do
      let scaled := fraction * Float.ofNat base
      let digit := Binary64.floor scaled
      let c ← digitFor digit
      fractionDigits base (scaled - digit) (seen.insert fraction.toBits) (c :: acc) budget
    else .ok acc

/-- A value written in `base` with at most `budget` fraction digits. -/
def toBase (value : Float) (base : Nat) (budget : Nat) : Except Error String := do
  unless minBase ≤ base ∧ base ≤ maxBase do throw (.invalidBase (toString base))
  unless value.isFinite do throw (.nonFiniteValue value)
  let magnitude := value.abs
  let integer := Binary64.floor magnitude
  let whole ← integerDigits base integer [] 1100
  let frac ← fractionDigits base (magnitude - integer) ∅ [] budget
  let sign := if value < 0.0 then ['-'] else []
  let point := if frac.isEmpty then [] else '.' :: frac.reverse
  return String.ofList (sign ++ whole ++ point)

end Abacus.Numeral
