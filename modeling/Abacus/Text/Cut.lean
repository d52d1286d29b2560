/-!
# Cutting texts

Small cuts of a list of characters: removing a given first or last character, and splitting
at the first occurrence of a separator.
-/
namespace Abacus.Text

/-- Dropping a prefix never lengthens a text. -/
theorem length_dropWhile_le (p : Char → Bool) (l : List Char) :
    (l.dropWhile p).length ≤ l.length :=
  (List.dropWhile_suffix p).length_le

/-- The text without its first character, if that is `c`. -/
def stripFirst? (c : Char) : List Char → Option (List Char)
  | d :: rest => if d == c then some rest else none
  | [] => none

/-- The text without its last character, if that is `c`. -/
def stripLast? (c : Char) (cs : List Char) : Option (List Char) :=
  if cs.getLast? == some c then some cs.dropLast else none

/-- The text before and after the first occurrence of `sep`, which must not be empty. -/
def splitOnce? (sep : List Char) : List Char → Option (List Char × List Char)
  | [] => none
  | c :: rest =>
    if sep ≠ [] ∧ sep.isPrefixOf (c :: rest) then some ([], (c :: rest).drop sep.length)
    else (splitOnce? sep rest).map fun (before, after) => (c :: before, after)

end Abacus.Text
