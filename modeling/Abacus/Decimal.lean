/-!
# Decimals

A decimal is a natural number of digits scaled by a power of ten. The calculator writes every
decimal positionally: the digits, with the point moved left by a negative exponent (a `0` before
the point and zeros after it when the point passes the first digit), or followed by zeros for a
positive exponent. No exponent notation is ever written.

The module also holds the two counting tools that the printers share: the number of decimal
digits of a natural number and the integer part of the decimal logarithm of a fraction.
-/
namespace Abacus

/-- The decimal `digits * 10 ^ exp`. -/
structure Decimal where
  digits : Nat
  exp : Int
  deriving DecidableEq, Repr

namespace Decimal

/-- The number of decimal digits of `n`; `0` has one digit. -/
def digitCount (n : Nat) : Nat :=
  if n < 10 then 1 else digitCount (n / 10) + 1
termination_by n
decreasing_by omega

/-- `⌊log₁₀ (a / b)⌋` for positive `a` and `b`. Above one it is one less than the digit count of
`⌊a / b⌋`; below one it is `-t` for the least `t` with `a * 10 ^ t ≥ b`, that is, with
`10 ^ t ≥ ⌈b / a⌉`. -/
def floorLog10 (a b : Nat) : Int :=
  if b ≤ a then (digitCount (a / b) : Int) - 1
  else -((digitCount ((b + a - 1) / a - 1) : Nat) : Int)

/-- The decimal digits of `n`, most significant first. -/
def digitChars (n : Nat) : List Char := Nat.toDigits 10 n

/-- `n` zeros. -/
def zeros (n : Nat) : List Char := List.replicate n '0'

/-- Positional notation: the digits followed by `exp` zeros, or with the point placed `-exp`
digits from the right, writing `0.` and leading zeros when there are too few digits. -/
def positional (d : Decimal) : String :=
  let s := digitChars d.digits
  if 0 ≤ d.exp then String.ofList (s ++ zeros d.exp.toNat)
  else
    let n := d.exp.natAbs
    if n < s.length then String.ofList (s.take (s.length - n) ++ '.' :: s.drop (s.length - n))
    else String.ofList ('0' :: '.' :: zeros (n - s.length) ++ s)

end Decimal

end Abacus
