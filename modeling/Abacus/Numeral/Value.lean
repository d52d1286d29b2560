import Abacus.Binary64
import Abacus.Numeral.Base

/-!
# Values of literals

A based literal `digits[.digits]_base` has the value of its integer digits by Horner's rule,
plus each fraction digit divided by the base to the power of its position, all in binary64
arithmetic in that order. A digit must be below the base.

A repeating decimal `I.N(R)` has the value `I.N + R / ((10 ^ d - 1) * 10 ^ k)` with `k` digits
in `N` and `d` in `R`. When the integers `W` with digits `I N R` and `P` with digits `I N`, and
the denominator `10 ^ k * (10 ^ d - 1)`, fit in 128 bits, the value is `(W - P)` over that
denominator, each rounded to a double and then divided once. Otherwise it is assembled in
binary64 arithmetic from the decimal `I.N0`, the block `R` and powers of ten computed by
repeated squaring; a part that does not read as a decimal counts as infinity.
-/
namespace Abacus.Numeral

/-- The value of a based literal with integer digits `whole` and fraction digits `frac`;
`literal` is its whole text, for the report of a digit that is not below the base. -/
def basedValue (whole frac : String) (base : Nat) (literal : String) : Except Error Float := do
  let radix := Float.ofNat base
  let digit (c : Char) : Except Error Float :=
    match hexValue? c with
    | some d => if d < base then .ok (Float.ofNat d) else .error (.invalidDigitForBase c base literal)
    | none => .error (.invalidDigitForBase c base literal)
  let integer ← whole.toList.foldlM (fun v c => do
    let d ← digit c
    return v * radix + d) 0.0
  let (value, _) ← frac.toList.foldlM (fun (acc : Float × Float) c => do
    let d ← digit c
    return (acc.1 + d / acc.2, acc.2 * radix)) (integer, radix)
  return value

/-- `x ^ n` by squaring: the factor `x ^ (2 ^ i)` is multiplied in for each set bit `i` of `n`,
lowest first, rounding after each product; `r` is the product so far. -/
def powSquaring (x r : Float) (n : Nat) : Float :=
  let r := if n % 2 = 1 then r * x else r
  if h : n / 2 = 0 then r else powSquaring (x * x) r (n / 2)
termination_by n
decreasing_by omega

/-- `10 ^ n` by squaring, with `n` capped at the largest 32-bit signed exponent. -/
def powTen (n : Nat) : Float := powSquaring 10.0 1.0 (min n (Nat.pow 2 31 - 1))

/-- `10 ^ k` when it fits in 128 bits, which is for `k ≤ 38`. -/
def pow10Below128? (k : Nat) : Option Nat := if k ≤ 38 then some (Nat.pow 10 k) else none

/-- The fraction `(W - P) / (10 ^ k * (10 ^ d - 1))` of a repeating decimal, when all of its
parts fit in 128 bits. -/
def exactRepeating? (whole nonrep rep : String) : Option (Nat × Nat) := do
  let p ← Decimal.readNatBelow? (Nat.pow 2 128) (whole ++ nonrep)
  let w ← Decimal.readNatBelow? (Nat.pow 2 128) (whole ++ nonrep ++ rep)
  let period := (← pow10Below128? rep.utf8ByteSize) - 1
  let shift ← pow10Below128? nonrep.utf8ByteSize
  if p ≤ w ∧ period * shift < Nat.pow 2 128 then some (w - p, period * shift) else none

/-- The value of the repeating decimal `whole.nonrep(rep)`. -/
def repeatingValue (whole nonrep rep : String) : Float :=
  match exactRepeating? whole nonrep rep with
  | some (n, d) => Float.ofNat n / Float.ofNat d
  | none =>
    let head := (Decimal.read? (whole ++ "." ++ nonrep ++ "0")).getD Binary64.infinity
    let block := (Decimal.read? rep).getD Binary64.infinity
    let period := powTen rep.utf8ByteSize - 1.0
    let shift := powTen nonrep.utf8ByteSize
    head + block / period / shift

end Abacus.Numeral
