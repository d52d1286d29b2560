/-!
# Blanks

The blank characters are those of the Unicode property White_Space: the ASCII controls from tab
to carriage return, the space, next line, the no-break spaces, the ogham space mark, the spaces
from en quad to hair space, the line and paragraph separators, the medium mathematical space and
the ideographic space. Trimming removes them from one or both ends of a text.
-/
namespace Abacus.Text

/-- The Unicode White_Space property. -/
def isBlank (c : Char) : Bool :=
  let n := c.toNat
  (9 ≤ n && n ≤ 13) || n == 0x20 || n == 0x85 || n == 0xA0 || n == 0x1680 ||
    (0x2000 ≤ n && n ≤ 0x200A) || n == 0x2028 || n == 0x2029 || n == 0x202F ||
    n == 0x205F || n == 0x3000

/-- The characters without their leading blanks. -/
def dropBlanks (cs : List Char) : List Char := cs.dropWhile isBlank

/-- The characters without their trailing blanks. -/
def dropTrailingBlanks (cs : List Char) : List Char := (cs.reverse.dropWhile isBlank).reverse

/-- A text without its leading and trailing blanks. -/
def trim (s : String) : String := String.ofList (dropTrailingBlanks (dropBlanks s.toList))

/-- A text without its trailing blanks. -/
def trimEnd (s : String) : String := String.ofList (dropTrailingBlanks s.toList)

/-- A text without its leading blanks. -/
def trimStart (s : String) : String := String.ofList (dropBlanks s.toList)

/-- Whether a text is empty or blank throughout. -/
def isBlankText (s : String) : Bool := s.toList.all isBlank

end Abacus.Text
