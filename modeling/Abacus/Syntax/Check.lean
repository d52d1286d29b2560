import Abacus.Error
import Abacus.Text.Blank
import Abacus.Text.Scan
import Abacus.Numeral.Literal

/-!
# Checks on a line

Before a line is read it must pass two checks.

* Every character is an ASCII letter or digit, a blank, or one of `+ - * / ^ ( ) . = ? _ < > ;`.
  The first other character is reported with the line.
* No decimal integer has a leading zero: a run of digits that starts with `0` and has at least
  two digits, and that follows the start of the line or a character other than an ASCII letter,
  digit, `_` or `.`, is refused, unless it is the repeating block of a repeating decimal
  (`0.(01)`). Then the integer digits of a based literal are checked the same way (`0A_16`),
  where the first one found is refused.
-/
namespace Abacus.Syntax

open Text

/-- The symbols of the calculator's alphabet besides letters, digits and blanks. -/
def symbols : List Char := "+-*/^().=?_<>;".toList

/-- Whether a character belongs to the calculator's alphabet. -/
def isAllowed (c : Char) : Bool := c.isAlphanum || isBlank c || symbols.contains c

/-- Refuses the first character outside the alphabet. -/
def checkCharacters (text : String) : Except Error Unit :=
  match text.toList.find? (fun c => !isAllowed c) with
  | some c => .error (.invalidCharacter c text)
  | none => .ok ()

/-- The characters that continue a literal, so that no leading zero can follow them. -/
def continuesLiteral (c : Char) : Bool := c.isAlphanum || c == '_' || c == '.'

/-- The start of a match that must be at the start of the text or after a character that does
not continue a literal: how many characters that takes, and the text after it. -/
def afterLiteralStart (before : Option Char) (cs : List Char) : List (Nat × List Char) :=
  let anchored := if before.isNone then [(0, cs)] else []
  let afterOther := match cs with
    | c :: r => if continuesLiteral c then [] else [(1, r)]
    | [] => []
  anchored ++ afterOther

/-- A decimal integer of at least two digits starting with `0`, at the head of a text. -/
def zeroDecimal? (cs : List Char) : Option (List Char × Nat) :=
  match cs with
  | '0' :: r =>
    let ds := r.takeWhile Char.isDigit
    if ds.isEmpty then none else some ('0' :: ds, 1 + ds.length)
  | _ => none

/-- The integer digits, starting with `0` and at least two, of a based literal at the head of a
text, which need not end at a word boundary. -/
def zeroBased? (cs : List Char) : Option (List Char × Nat) :=
  match cs with
  | '0' :: r =>
    let hs := r.takeWhile Numeral.isHexDigit
    let after := r.dropWhile Numeral.isHexDigit
    let (_, n) := Numeral.basedFraction after
    match after.drop n with
    | '_' :: t =>
      let base := t.takeWhile Char.isDigit
      if hs.isEmpty || base.isEmpty then none
      else some ('0' :: hs, 1 + hs.length + n + 1 + base.length)
    | _ => none
  | _ => none

/-- A match of `pattern` after a literal start: the offset of the integer in the match and the
integer's digits. -/
def zeroAt? (pattern : List Char → Option (List Char × Nat)) (before : Option Char)
    (cs : List Char) : Option (Match (Nat × List Char)) :=
  (afterLiteralStart before cs).findSome? fun (k, rest) =>
    match pattern rest with
    | some (int, n) => if h : 0 < k + n then some ⟨k + n, h, (k, int)⟩ else none
    | none => none

/-- Whether the text before an integer ends a repeating decimal's opening: digits, a point,
optional digits and an opening parenthesis. -/
def isRepeatingBlock (preceding : List Char) : Bool :=
  match preceding.reverse with
  | '(' :: r =>
    match r.dropWhile Char.isDigit with
    | '.' :: r' => (r'.head?.map Char.isDigit).getD false
    | _ => false
  | _ => false

/-- Refuses the first decimal integer with a leading zero that is not a repeating block, and
then the first based literal whose integer digits have one. -/
def checkLeadingZeros (text : String) : Except Error Unit :=
  let cs := text.toList
  let decimals := matchesWithOffsets (pieces (zeroAt? zeroDecimal?) none cs)
  let found := decimals.find? fun (offset, _, k, _) => !isRepeatingBlock (cs.take (offset + k))
  match found with
  | some (_, _, _, int) => .error (.leadingZero (String.ofList int))
  | none =>
    match (matchesWithOffsets (pieces (zeroAt? zeroBased?) none cs)).head? with
    | some (_, _, _, int) => .error (.leadingZero (String.ofList int))
    | none => .ok ()

end Abacus.Syntax
