/-!
# Lines

A text is cut into lines at each line feed. A carriage return directly before a line feed belongs
to the line ending and is dropped; a carriage return anywhere else, also at the very end of the
text, stays in its line. A line feed ends the text's last line, so no empty line follows it, and
the empty text has no lines.
-/
namespace Abacus.Text

/-- The line without a carriage return at its end. -/
def dropReturn (cs : List Char) : List Char :=
  if cs.getLast? = some '\r' then cs.dropLast else cs

/-- The pieces between line feeds as lines: each piece that a line feed ends loses one carriage
return at its end, and the piece after the last line feed is a line only if it is not empty. -/
def closeLines : List (List Char) → List (List Char)
  | [] => []
  | [last] => if last.isEmpty then [] else [last]
  | p :: ps => dropReturn p :: closeLines ps

/-- The lines of a text. -/
def lines (s : String) : List String :=
  (closeLines (s.toList.splitOn '\n')).map String.ofList

end Abacus.Text
