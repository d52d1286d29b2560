/-!
# Scanning for matches

A pattern is given as a function that looks at the head of a text, knowing the character before
it (`none` at the start of the text), and reports a match there: how many characters it takes,
at least one, and what it found. Scanning cuts a text from left to right into plain characters
and matches: where the pattern matches, the match is taken whole and the scan goes on after it;
elsewhere one character is kept as it is and the scan moves by one. This is the leftmost,
non-overlapping search of a pattern whose match at a given position is unique.
-/
namespace Abacus.Text

/-- A match at the head of a text: its length, which is positive, and what it holds. -/
structure Match (α : Type) where
  length : Nat
  pos : 0 < length
  value : α

/-- A piece of a scanned text: a character outside every match, or a match with its text. -/
inductive Piece (α : Type) where
  | plain (c : Char)
  | matched (text : List Char) (value : α)

/-- The pieces of `cs`, where `before` is the character before it. -/
def pieces {α : Type} (find : Option Char → List Char → Option (Match α)) (before : Option Char)
    (cs : List Char) : List (Piece α) :=
  match cs with
  | [] => []
  | c :: rest =>
    match find before (c :: rest) with
    | some m =>
      have _ : 0 < m.length := m.pos
      let text := (c :: rest).take m.length
      .matched text m.value :: pieces find text.getLast? ((c :: rest).drop m.length)
    | none => .plain c :: pieces find (some c) rest
termination_by cs.length
decreasing_by
  all_goals simp only [List.length_drop, List.length_cons]
  all_goals omega

/-- The text of a piece. -/
def Piece.text {α : Type} : Piece α → List Char
  | .plain c => [c]
  | .matched text _ => text

/-- The matches among the pieces, each with the number of characters before it. -/
def matchesWithOffsets {α : Type} (ps : List (Piece α)) : List (Nat × List Char × α) :=
  (ps.foldl (fun (acc : Nat × List (Nat × List Char × α)) p =>
    match p with
    | .plain _ => (acc.1 + 1, acc.2)
    | .matched text value => (acc.1 + text.length, (acc.1, text, value) :: acc.2))
    (0, [])).2.reverse

end Abacus.Text
