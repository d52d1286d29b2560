import Abacus.Binary64
import Abacus.Decimal

/-!
# Fixed places

A double written with a fixed number of places after the point is its exact binary value rounded
to that many places, a tie going to the even neighbour, and padded with zeros. The sign of a
negative value survives rounding to zero (`-0.001` at two places is `-0.00`).

The exact value `m * 2 ^ e` times `10 ^ places` is a fraction with a power of two below, so the
rounded digits are one division of naturals with its remainder.
-/
namespace Abacus.Decimal

/-- `n / d` rounded to the nearest natural, a tie going to the even one. -/
def roundHalfEven (n d : Nat) : Nat :=
  let q := n / d
  if 2 * (n % d) > d ∨ (2 * (n % d) = d ∧ q % 2 = 1) then q + 1 else q

/-- The value `m * 2 ^ e` in units of `10 ^ (-places)`, rounded half to even. -/
def fixedUnits (m : Nat) (e : Int) (places : Nat) : Nat :=
  roundHalfEven (m * Nat.pow 2 e.toNat * Nat.pow 10 places) (Nat.pow 2 (-e).toNat)

/-- A count of units of `10 ^ (-places)` written with exactly `places` digits after the point,
and no point when `places` is zero. -/
def unitsText (units places : Nat) : List Char :=
  let whole := digitChars (units / Nat.pow 10 places)
  if places = 0 then whole
  else
    let frac := digitChars (units % Nat.pow 10 places)
    whole ++ '.' :: zeros (places - frac.length) ++ frac

/-- A double with `places` digits after the point: `-` before a negative value (negative zero
included), and `NaN`, `inf`, `-inf` for the values that are not finite. -/
def fixed (x : Float) (places : Nat) : String :=
  match Binary64.ofFloat x with
  | .nan => "NaN"
  | .infinite neg => if neg then "-inf" else "inf"
  | .finite neg m e =>
    String.ofList ((if neg then ['-'] else []) ++ unitsText (fixedUnits m e places) places)

end Abacus.Decimal
