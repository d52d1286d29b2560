/-!
# Reading numerals

Two readers of text into numbers.

* `Decimal.readNatBelow? bound s` reads an optional `+` and a run of at least one ASCII digit,
  leading zeros allowed, as a natural number below `bound`. Blanks, a `-` and anything else
  make it fail.
* `Decimal.read? s` reads a decimal numeral as the nearest double, a tie going to the even
  significand. The grammar is an optional sign, then either one of the names `inf`, `infinity`
  and `nan` in any case, or digits with at most one point and at least one digit, followed by an
  optional exponent `e` or `E` with an optional sign and at least one digit. Nothing else may
  stand before or after. Rounding is left to `Float.ofScientific`, which rounds the exact value
  `digits * 10 ^ exponent` correctly.
-/
namespace Abacus.Decimal

/-- The value of a list of decimal digits, most significant first. -/
def digitsValue (cs : List Char) : Nat :=
  cs.foldl (fun n c => 10 * n + (c.toNat - '0'.toNat)) 0

/-- The value of a nonempty run of ASCII digits, and nothing for any other list. -/
def digitRun? (cs : List Char) : Option Nat :=
  if cs ≠ [] ∧ cs.all Char.isDigit then some (digitsValue cs) else none

/-- Reads `[+]digits` as a natural number below `bound`. -/
def readNatBelow? (bound : Nat) (s : String) : Option Nat :=
  let cs := match s.toList with
    | '+' :: r => r
    | r => r
  match digitRun? cs with
  | some n => if n < bound then some n else none
  | none => none

/-- An exponent: an optional sign and at least one digit. -/
def exponent? : List Char → Option Int
  | '+' :: r => (digitRun? r).map Int.ofNat
  | '-' :: r => (digitRun? r).map fun n => -(n : Int)
  | r => (digitRun? r).map Int.ofNat

/-- The double nearest to `n * 10 ^ e`. -/
def scientific (n : Nat) (e : Int) : Float :=
  if e < 0 then Float.ofScientific n true e.natAbs else Float.ofScientific n false e.toNat

/-- An unsigned decimal numeral: digits, at most one point, at least one digit in all, and an
optional exponent; its value rounded to the nearest double. -/
def unsigned? (cs : List Char) : Option Float :=
  let whole := cs.takeWhile Char.isDigit
  let afterWhole := cs.dropWhile Char.isDigit
  let (frac, rest) := match afterWhole with
    | '.' :: r => (r.takeWhile Char.isDigit, r.dropWhile Char.isDigit)
    | r => ([], r)
  if whole.isEmpty && frac.isEmpty then none
  else
    let exp? : Option Int := match rest with
      | [] => some 0
      | c :: r => if c == 'e' || c == 'E' then exponent? r else none
    exp?.map fun x => scientific (digitsValue (whole ++ frac)) (x - frac.length)

/-- The names of the values that are not finite, in any ASCII case. -/
def special? (cs : List Char) : Option Float :=
  let name := String.ofList (cs.map Char.toLower)
  if name == "inf" || name == "infinity" then some (1.0 / 0.0)
  else if name == "nan" then some (0.0 / 0.0)
  else none

/-- Reads a signed decimal numeral, or a signed name of a value that is not finite. -/
def read? (s : String) : Option Float :=
  let (neg, cs) := match s.toList with
    | '-' :: r => (true, r)
    | '+' :: r => (false, r)
    | r => (false, r)
  let magnitude := (unsigned? cs).orElse fun _ => special? cs
  magnitude.map fun x => if neg then -x else x

end Abacus.Decimal
