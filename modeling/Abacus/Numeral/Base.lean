import Abacus.Error
import Abacus.Decimal.Read

/-!
# Bases and digits

The calculator writes and reads numbers in the bases `2` to `16`, with the digits `0` to `9`
and `A` to `F`; a digit read may be in either case. A base is written in decimal, with an
optional `+` and leading zeros, and must lie between `2` and `16` and fit in 32 bits as read.
-/
namespace Abacus.Numeral

/-- The least base. -/
def minBase : Nat := 2

/-- The greatest base. -/
def maxBase : Nat := 16

/-- The digits, by value. -/
def digitAlphabet : List Char := "0123456789ABCDEF".toList

/-- The digit of a value below `16`. -/
def digitChar? (d : Nat) : Option Char := digitAlphabet[d]?

/-- The value of a hexadecimal digit, in either case. -/
def hexValue? (c : Char) : Option Nat :=
  if c.isDigit then some (c.toNat - '0'.toNat)
  else if 'a' ≤ c && c ≤ 'f' then some (c.toNat - 'a'.toNat + 10)
  else if 'A' ≤ c && c ≤ 'F' then some (c.toNat - 'A'.toNat + 10)
  else none

/-- Whether a character is a hexadecimal digit. -/
def isHexDigit (c : Char) : Bool := (hexValue? c).isSome

/-- Reads a base written in decimal, refusing one outside `2` to `16` by its text. -/
def parseBase (text : String) : Except Error Nat :=
  match Decimal.readNatBelow? (Nat.pow 2 32) text with
  | some b => if minBase ≤ b ∧ b ≤ maxBase then .ok b else .error (.invalidBase text)
  | none => .error (.invalidBase text)

end Abacus.Numeral
