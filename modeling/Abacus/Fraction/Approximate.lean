import Abacus.Binary64.Safe
import Abacus.Fraction.Factor

/-!
# Fractions near a value

A finite value is approximated by a fraction with denominator at most a bound (at least one):
for each denominator in turn the numerator is the value times the denominator rounded to the
nearest integer, a half away from zero, and the error is the distance of the quotient from the
value, all in binary64 arithmetic. A denominator is taken only when its error is strictly below
the best so far, so the least denominator with the least error wins, and the search stops at an
error of zero. The numerator must be a safe integer.

A fraction in lowest terms ends in a base exactly when every prime factor of its denominator
divides the base. The value has a repeating decimal when its denominator has a prime factor
other than `2` and `5`, and the least base from `2` to `16` in which it ends is the one to
suggest. Integral values have neither.
-/
namespace Abacus.Fraction

/-- A fraction with a positive denominator. -/
structure Approximation where
  numerator : Int
  denominator : Nat
  deriving DecidableEq, Repr

/-- The best numerator, denominator and error, with denominators from `d` and `remaining` of
them left to try. -/
def bestFrom (value : Float) (d : Nat) (best : Float × Nat × Float) :
    Nat → Float × Nat × Float
  | 0 => best
  | remaining + 1 =>
    let scale := Float.ofNat d
    let numerator := Binary64.round (value * scale)
    let error := (value - numerator / scale).abs
    if error < best.2.2 then
      if error == 0.0 then (numerator, d, error)
      else bestFrom value (d + 1) (numerator, d, error) remaining
    else bestFrom value (d + 1) best remaining

/-- The best fraction for a finite value with denominator at most `max bound 1`, when its
numerator is a safe integer. -/
def approximate (bound : Nat) (value : Float) : Option Approximation :=
  if value.isFinite then
    let (numerator, denominator, _) := bestFrom value 1 (0.0, 1, Binary64.infinity) (max bound 1)
    (Binary64.toInt? numerator).map fun n => ⟨n, denominator⟩
  else none

/-- Whether a double is finite and not an integer. -/
def hasFraction (value : Float) : Bool :=
  value.isFinite && Binary64.fract value != 0.0

/-- Whether the value's fraction has a denominator with a prime factor other than `2` and `5`. -/
def hasRepeatingDecimal (bound : Nat) (value : Float) : Bool :=
  hasFraction value &&
    match approximate bound value with
    | some r => (primeFactors r.denominator).any fun p => p != 2 && p != 5
    | none => false

/-- The least base from `2` to `16` in which the value's fraction ends. -/
def bestFiniteBase (bound : Nat) (value : Float) : Option Nat :=
  if hasFraction value then do
    let r ← approximate bound value
    let factors := primeFactors r.denominator
    (List.range' 2 15).find? fun b => factors.all fun p => b % p == 0
  else none

/-- The distance of the value from its fraction. -/
def approximationError (bound : Nat) (value : Float) : Option Float := do
  let r ← approximate bound value
  let n ← Binary64.ofInt? r.numerator
  return (value - n / Float.ofNat r.denominator).abs

end Abacus.Fraction
