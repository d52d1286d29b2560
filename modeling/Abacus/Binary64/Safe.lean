import Abacus.Binary64

/-!
# The safe integers

Every integer of magnitude at most `2 ^ 53 - 1` is a double, and so is its neighbour on either
side, so these integers pass between the two types without loss. The conversions here refuse
everything outside that range, and on the way from doubles everything that is not finite or not
an integer.
-/
namespace Abacus.Binary64

/-- The largest safe integer, `2 ^ 53 - 1`. -/
def maxSafe : Nat := Nat.pow 2 53 - 1

/-- A safe integer as a double. -/
def ofInt? (n : Int) : Option Float :=
  if n.natAbs ≤ maxSafe then some (Float.ofInt n) else none

/-- The integer value of a finite integral double of magnitude at most `maxSafe`; both zeros
give `0`. -/
def toInt? (x : Float) : Option Int :=
  match ofFloat x with
  | .finite neg m e =>
    let n := floorMagnitude m e
    if isIntegral m e && n ≤ maxSafe then some (if neg then -(n : Int) else n) else none
  | _ => none

/-- The value of a finite integral double from `0` to `2 ^ 32 - 1`; negative zero gives `0`. -/
def toNat32? (x : Float) : Option Nat :=
  match ofFloat x with
  | .finite neg m e =>
    let n := floorMagnitude m e
    if isIntegral m e && !(neg && n != 0) && n < Nat.pow 2 32 then some n else none
  | _ => none

end Abacus.Binary64
