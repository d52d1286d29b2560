import Abacus.Numeral.Value
import Abacus.Decimal.Shortest
import Abacus.Text.Scan
import Abacus.Text.Word

/-!
# Literals in expression texts

Two literal forms are written into expressions and expanded into plain decimals before lexing.

* A repeating decimal: ASCII digits, a point, digits (perhaps none), and digits in
  parentheses, as `0.(3)` or `1.2(45)`.
* A based literal: hexadecimal digits, optionally a point and hexadecimal digits, an underscore
  and decimal digits for the base, as `1A_16` or `0.1_2`. It must not be followed by a word
  character.

Both must start at a word boundary, so the character before them is no word character. Each
occurrence is found by a leftmost scan and replaced by the shortest decimal of its value.
Repeating decimals are expanded first. A based literal whose base or digits are invalid is
kept when its text is a name (`C_2`, `F_17`) and refused otherwise.
-/
namespace Abacus.Numeral

open Text

/-- The digits of a repeating decimal. -/
structure RepeatingParts where
  whole : List Char
  nonrep : List Char
  rep : List Char

/-- The digits of a based literal. -/
structure BasedParts where
  whole : List Char
  frac : List Char
  base : List Char

/-- A repeating decimal at the head of `cs`, after a character that is no word character. -/
def repeatingAt? (before : Option Char) (cs : List Char) : Option (Match RepeatingParts) :=
  if isWordBoundary before cs.head? then
    let whole := cs.takeWhile Char.isDigit
    match cs.dropWhile Char.isDigit with
    | '.' :: r =>
      let nonrep := r.takeWhile Char.isDigit
      match r.dropWhile Char.isDigit with
      | '(' :: r' =>
        let rep := r'.takeWhile Char.isDigit
        match r'.dropWhile Char.isDigit with
        | ')' :: _ =>
          if h : whole ≠ [] ∧ rep ≠ [] then
            some ⟨whole.length + 1 + nonrep.length + 1 + rep.length + 1, by omega,
              ⟨whole, nonrep, rep⟩⟩
          else none
        | _ => none
      | _ => none
    | _ => none
  else none

/-- The fraction digits after the integer digits of a based literal, and how many characters
the point and they take: none unless a point and at least one hexadecimal digit follow. -/
def basedFraction (cs : List Char) : List Char × Nat :=
  match cs with
  | '.' :: r =>
    let frac := r.takeWhile isHexDigit
    if frac.isEmpty then ([], 0) else (frac, 1 + frac.length)
  | _ => ([], 0)

/-- A based literal at the head of `cs`, after a character that is no word character. -/
def basedAt? (before : Option Char) (cs : List Char) : Option (Match BasedParts) :=
  if isWordBoundary before cs.head? then
    let whole := cs.takeWhile isHexDigit
    let afterWhole := cs.dropWhile isHexDigit
    let (frac, fracLength) := basedFraction afterWhole
    match afterWhole.drop fracLength with
    | '_' :: r =>
      let base := r.takeWhile Char.isDigit
      let after := r.dropWhile Char.isDigit
      if h : whole ≠ [] ∧ base ≠ [] ∧ isWordBoundary base.getLast? after.head? then
        some ⟨whole.length + fracLength + 1 + base.length, by omega, ⟨whole, frac, base⟩⟩
      else none
    | _ => none
  else none

/-- A finite value as the decimal that replaces a literal. -/
def literalText (value : Float) : Except Error (List Char) :=
  if value.isFinite then .ok (Decimal.text value).toList else .error (.nonFiniteValue value)

/-- The value of a based literal from its parts; `text` is the literal as written. -/
def BasedParts.value (p : BasedParts) (text : List Char) : Except Error Float := do
  let base ← parseBase (String.ofList p.base)
  basedValue (String.ofList p.whole) (String.ofList p.frac) base (String.ofList text)

/-- Whether a text is a name: an ASCII letter, then ASCII letters, digits and underscores. -/
def isIdentifier (cs : List Char) : Bool :=
  match cs with
  | c :: rest => c.isAlpha && rest.all fun d => d.isAlphanum || d == '_'
  | [] => false

/-- The text of the pieces, each match replaced as `replace` says; the first refusal stops. -/
def rewrite {α : Type} (replace : List Char → α → Except Error (List Char)) :
    List (Piece α) → Except Error (List Char)
  | [] => .ok []
  | .plain c :: ps => (rewrite replace ps).map (c :: ·)
  | .matched text value :: ps => do
    let piece ← replace text value
    let tail ← rewrite replace ps
    return piece ++ tail

/-- Replaces each repeating decimal by the decimal of its value. -/
def expandRepeating (s : String) : Except Error String :=
  (rewrite (fun _ p => literalText (repeatingValue (String.ofList p.whole)
      (String.ofList p.nonrep) (String.ofList p.rep)))
    (pieces repeatingAt? none s.toList)).map String.ofList

/-- Replaces each based literal by the decimal of its value; a literal whose base or digits are
invalid is kept if it is a name. -/
def expandBased (s : String) : Except Error String :=
  (rewrite (fun text p =>
      match p.value text with
      | .ok v => literalText v
      | .error err => if isIdentifier text then .ok text else .error err)
    (pieces basedAt? none s.toList)).map String.ofList

/-- Expands repeating decimals, then based literals. -/
def expandLiterals (s : String) : Except Error String :=
  expandRepeating s >>= expandBased

/-- Whether a whole text is one based literal with a valid base and valid digits. -/
def readsAsBased (s : String) : Bool :=
  match basedAt? none s.toList with
  | some m => m.length == s.length && (m.value.value s.toList).toBool
  | none => false

end Abacus.Numeral
