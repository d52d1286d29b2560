import Abacus.Binary64
import Abacus.Decimal

/-!
# The shortest decimal of a double

A positive double `m * 2 ^ e` is the value of every real in its rounding interval: the reals
nearer to it than to its two neighbouring doubles, with both ends included exactly when `m` is
even (a tie goes to the even significand). The gap to the lower neighbour is halved at the
least significand `2 ^ 52` of a binade, except in the lowest binade, whose lower neighbour is a
subnormal at the same spacing.

The shortest decimal is found on the grids `10 ^ k`, from the coarsest that can hold a point of
the interval downward: the first grid with a point in the interval gives the fewest significant
digits. On that grid the candidates are the two multiples of `10 ^ k` around the value, and the
one nearer to the value is taken, the upper one on an exact tie. Seventeen significant digits
always suffice, because the interval is wider than the grid `10 ^ (p - 16)` when `10 ^ p` is the
leading power of the value.

All comparisons are of naturals: the value, the interval ends and each candidate are scaled by
powers of two and ten to a common denominator.
-/
namespace Abacus.Decimal

/-- `c * 10 ^ k` and `x * 2 ^ s` as two naturals in the same ratio. -/
def scaled (c : Nat) (k : Int) (x : Nat) (s : Int) : Nat × Nat :=
  (c * Nat.pow 10 k.toNat * Nat.pow 2 (-s).toNat, x * Nat.pow 2 s.toNat * Nat.pow 10 (-k).toNat)

/-- The reals that round to a positive double, in units of `2 ^ unit`: the double itself is
`mid` units, and the interval runs from `lo` to `hi` units, ends included when `closed`. -/
structure RoundingInterval where
  lo : Nat
  mid : Nat
  hi : Nat
  unit : Int
  closed : Bool
  deriving DecidableEq, Repr

namespace RoundingInterval

/-- The rounding interval of the positive double `m * 2 ^ e`, in units of `2 ^ (e - 2)`, so that
half gaps and quarter gaps are whole units. -/
def ofParts (m : Nat) (e : Int) : RoundingInterval :=
  let narrow := m = Nat.pow 2 52 ∧ e > -1074
  { lo := 4 * m - (if narrow then 1 else 2)
    mid := 4 * m
    hi := 4 * m + 2
    unit := e - 2
    closed := m % 2 == 0 }

/-- Whether `c * 10 ^ k` lies in the interval. -/
def contains (r : RoundingInterval) (c : Nat) (k : Int) : Bool :=
  let (a, lo) := scaled c k r.lo r.unit
  let (b, hi) := scaled c k r.hi r.unit
  (lo < a || r.closed && lo == a) && (b < hi || r.closed && b == hi)

/-- The point of the grid `10 ^ k` in the interval nearest to the double, as a multiple of
`10 ^ k`, if the grid has one there. Only the two multiples around the double can qualify,
since the interval is convex and holds the double. -/
def pick (r : RoundingInterval) (k : Int) : Option Nat :=
  let (den, num) := scaled 1 k r.mid r.unit
  let a := num / den
  let down := r.contains a k
  let up := r.contains (a + 1) k
  if down && up then
    let (half, twice) := scaled (2 * a + 1) k (2 * r.mid) r.unit
    if twice < half then some a else some (a + 1)
  else if down then some a
  else if up then some (a + 1)
  else none

end RoundingInterval

/-- The shortest decimal that rounds to the positive double `m * 2 ^ e`, nearest to it among
those of its length. The grids run from `10 ^ (p + 1)`, where `10 ^ p ≤ m * 2 ^ e < 10 ^ (p + 1)`,
down to `10 ^ (p - 16)`; the last grid is taken as a floor if none has a point, which the width
of the interval rules out. -/
def shortest (m : Nat) (e : Int) : Decimal :=
  let r := RoundingInterval.ofParts m e
  let p := floorLog10 (r.mid * Nat.pow 2 r.unit.toNat) (Nat.pow 2 (-r.unit).toNat)
  let found := (List.range 18).findSome? fun (i : Nat) =>
    let k := p + 1 - (i : Int)
    (r.pick k).map fun c => ⟨c, k⟩
  found.getD ⟨(scaled 1 (p - 16) r.mid r.unit).2 / (scaled 1 (p - 16) r.mid r.unit).1, p - 16⟩

/-- The text of a double: the shortest decimal that reads back as it, written positionally, with
`-` before every negative value and before negative zero; `NaN`, `inf` and `-inf` otherwise. -/
def text (x : Float) : String :=
  match Binary64.ofFloat x with
  | .nan => "NaN"
  | .infinite neg => if neg then "-inf" else "inf"
  | .finite neg m e =>
    let body := if m = 0 then "0" else (shortest m e).positional
    if neg then "-" ++ body else body

end Abacus.Decimal
