/-!
# Doubles by their parts

A double is decoded from its 64 bits into a sign, an integer significand and a power of two,
so that every exact statement about its value is a statement about natural numbers.

The integral operations of the calculator are computed from these parts: rounding toward
zero, toward minus infinity and to the nearest integer with halves away from zero, the
fractional part, and the integer below the magnitude. Each result is read back exactly,
because every integer below `2 ^ 53` is a double and each rounded magnitude of a double whose
exponent is negative lies below `2 ^ 52 + 1`.
-/
namespace Abacus

/-- A double by its class: not a number, an infinity, or the finite value
`(-1) ^ neg * mant * 2 ^ exp`. Zeros are finite with significand `0`. -/
inductive Binary64 where
  | nan
  | infinite (neg : Bool)
  | finite (neg : Bool) (mant : Nat) (exp : Int)
  deriving DecidableEq, Repr

namespace Binary64

/-- The fraction is held in bits 0 to 51, the biased exponent in bits 52 to 62 and the sign in
bit 63. A zero exponent field marks a subnormal or a zero, whose exponent is the least, `-1074`;
otherwise the leading bit `2 ^ 52` is implicit. -/
def ofBits (b : Nat) : Binary64 :=
  let neg := b / Nat.pow 2 63 % 2 == 1
  let field : Nat := b / Nat.pow 2 52 % Nat.pow 2 11
  let frac : Nat := b % Nat.pow 2 52
  if field = Nat.pow 2 11 - 1 then
    if frac = 0 then .infinite neg else .nan
  else if field = 0 then .finite neg frac (-1074)
  else .finite neg (frac + Nat.pow 2 52) ((field : Int) - 1075)

/-- The parts of a double. -/
def ofFloat (x : Float) : Binary64 := ofBits x.toBits.toNat

/-- A natural number with a sign as a double. It is exact below `2 ^ 53`, and the sign is kept
on zero, so `signed true 0` is `-0`. -/
def signed (neg : Bool) (n : Nat) : Float :=
  if neg then -Float.ofNat n else Float.ofNat n

/-- Rounds toward zero. Integral values, infinities and NaN are returned as they are, and the
sign survives a zero result (`trunc (-0.5)` is `-0`). -/
def trunc (x : Float) : Float :=
  match ofFloat x with
  | .finite neg m e => if e < 0 then signed neg (m / Nat.pow 2 e.natAbs) else x
  | _ => x

/-- Rounds toward minus infinity: a negative value with a fractional part goes one further from
zero than its truncation. -/
def floor (x : Float) : Float :=
  match ofFloat x with
  | .finite neg m e =>
    if e < 0 then
      let q := m / Nat.pow 2 e.natAbs
      if neg && m % Nat.pow 2 e.natAbs != 0 then signed true (q + 1) else signed neg q
    else x
  | _ => x

/-- Rounds to the nearest integer, a half away from zero, keeping the sign (`round (-0.4)` is
`-0`). -/
def round (x : Float) : Float :=
  match ofFloat x with
  | .finite neg m e =>
    if e < 0 then
      let d := Nat.pow 2 e.natAbs
      signed neg (if 2 * (m % d) ≥ d then m / d + 1 else m / d)
    else x
  | _ => x

/-- The fractional part, `x - trunc x`; it is exact for finite `x` and NaN otherwise. -/
def fract (x : Float) : Float := x - trunc x

/-- `⌊m * 2 ^ e⌋`. -/
def floorMagnitude (m : Nat) (e : Int) : Nat :=
  if e < 0 then m / Nat.pow 2 e.natAbs else m * Nat.pow 2 e.toNat

/-- Whether `m * 2 ^ e` is an integer. -/
def isIntegral (m : Nat) (e : Int) : Bool :=
  0 ≤ e || m % Nat.pow 2 e.natAbs == 0

/-- The integer `⌊|x|⌋` of a finite double, and `0` for NaN and the infinities. -/
def natFloor (x : Float) : Nat :=
  match ofFloat x with
  | .finite _ m e => floorMagnitude m e
  | _ => 0

/-- Positive infinity. -/
def infinity : Float := 1.0 / 0.0

/-- A value that is not a number. -/
def notANumber : Float := 0.0 / 0.0

end Binary64

end Abacus
