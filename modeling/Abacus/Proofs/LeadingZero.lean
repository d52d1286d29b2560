import Abacus.Syntax.Check
import Abacus.Proofs.LongestMatch

/-!
# Leading zeros after an exponent's sign

The leading-zero check looks for a `0` and more digits that stand at the start of the text or
after a character that does not continue a literal: not a letter, digit, `_` or `.`. A sign is
such a character, so the check takes the digits of a signed exponent for an integer of its own.

Main statement: after digits without a leading zero and an `e`, exponent digits `0…` pass the
check when no sign stands before them, and are refused when one does, although the lexer reads
the signed text as one number, whose integer digits are the first ones
(`checkLeadingZeros_signed_exponent`). It rests on two verdicts of the check: a text that is one
literal not starting with `0` passes (`checkLeadingZeros_literal`), and a decimal integer with a
leading zero after a character that ends the literal before it is refused
(`checkLeadingZeros_literal_stop`).
-/
namespace Abacus.Syntax

open Text

/-! ### Scanning for a pattern after a literal start -/

section Scan

variable {α : Type} {pattern : List Char → Option (List Char × Nat)}

/-- Inside a literal no match starts. -/
theorem zeroAt?_continues {b c : Char} {r : List Char} (h : continuesLiteral c = true) :
    zeroAt? pattern (some b) (c :: r) = none := by
  simp [zeroAt?, afterLiteralStart, h]

/-- At the start of a text that starts a literal, a match is the pattern's own at the head. -/
theorem zeroAt?_start {c : Char} {r : List Char} (h : continuesLiteral c = true)
    (none_here : pattern (c :: r) = none) : zeroAt? pattern none (c :: r) = none := by
  simp [zeroAt?, afterLiteralStart, h, none_here]

/-- A run of characters that continue a literal, after some character, is scanned as plain
characters. -/
theorem pieces_continues {b : Char} {pre rest : List Char}
    (h : ∀ c ∈ pre, continuesLiteral c = true) :
    pieces (zeroAt? pattern) (some b) (pre ++ rest) =
      pre.map .plain ++ pieces (zeroAt? pattern) (some (pre.getLast?.getD b)) rest := by
  induction pre generalizing b with
  | nil => rfl
  | cons c pre ih =>
    rw [List.cons_append, pieces, zeroAt?_continues (h c (by simp)),
      ih fun d mem => h d (List.mem_cons_of_mem c mem)]
    cases pre <;> rfl

/-- Plain characters only move the offset of the matches after them. -/
theorem foldl_plain {β : Type} {F : Nat × β → Piece α → Nat × β}
    (plain : ∀ n acc c, F (n, acc) (.plain c) = (n + 1, acc)) (cs : List Char) (n : Nat) (acc : β) :
    (cs.map .plain).foldl F (n, acc) = (n + cs.length, acc) := by
  induction cs generalizing n with
  | nil => rfl
  | cons c cs ih =>
    rw [List.map_cons, List.foldl_cons, plain, ih, List.length_cons]
    congr 1
    omega

theorem matchesWithOffsets_plain (cs : List Char) :
    matchesWithOffsets (cs.map (.plain : Char → Piece α)) = [] := by
  unfold matchesWithOffsets
  rw [foldl_plain (fun _ _ _ => rfl)]
  rfl

theorem matchesWithOffsets_plain_matched (cs text : List Char) (value : α) :
    matchesWithOffsets (cs.map .plain ++ [.matched text value]) = [(cs.length, text, value)] := by
  unfold matchesWithOffsets
  rw [List.foldl_append, foldl_plain (fun _ _ _ => rfl)]
  simp

/-- The scan of a text whose characters all continue a literal, where the pattern does not match
at the head, finds nothing. -/
theorem pieces_literal {c : Char} {r : List Char} (start : continuesLiteral c = true)
    (none_here : pattern (c :: r) = none) (tail : ∀ x ∈ r, continuesLiteral x = true) :
    pieces (zeroAt? pattern) none (c :: r) = (c :: r).map .plain := by
  have run := @pieces_continues pattern c r [] tail
  rw [List.append_nil] at run
  rw [pieces, zeroAt?_start start none_here]
  simp [run, pieces]

/-- After a character that does not continue a literal, a match starts right away. -/
theorem zeroAt?_stop {b s : Char} {z int : List Char} {n : Nat} (stop : continuesLiteral s = false)
    (found : pattern z = some (int, n)) :
    zeroAt? pattern (some b) (s :: z) = some ⟨1 + n, by omega, (1, int)⟩ := by
  simp [zeroAt?, afterLiteralStart, stop, found]

/-- After a literal and a character that does not continue one, a match that runs to the end of
the text is the one match the scan finds. -/
theorem pieces_literal_stop {c s : Char} {r z int : List Char} {n : Nat}
    (start : continuesLiteral c = true) (none_here : pattern (c :: (r ++ s :: z)) = none)
    (tail : ∀ x ∈ r, continuesLiteral x = true) (stop : continuesLiteral s = false)
    (found : pattern z = some (int, n)) (whole : z.length ≤ n) :
    pieces (zeroAt? pattern) none (c :: (r ++ s :: z)) =
      (c :: r).map .plain ++ [.matched (s :: z) (1, int)] := by
  have all : (s :: z).length ≤ 1 + n := by
    rw [List.length_cons]
    omega
  rw [pieces, zeroAt?_start start none_here]
  simp only [pieces_continues tail]
  rw [pieces, zeroAt?_stop stop found]
  simp only [List.take_of_length_le all, List.drop_of_length_le all]
  rw [pieces]
  rfl

end Scan

/-! ### The family of texts -/

theorem zeroDecimal?_of_head {c : Char} {r : List Char} (h : c ≠ '0') : zeroDecimal? (c :: r) = none := by
  unfold zeroDecimal?
  split
  · next same => exact absurd (List.cons.inj same).1 h
  · rfl

theorem zeroBased?_of_head {c : Char} {r : List Char} (h : c ≠ '0') : zeroBased? (c :: r) = none := by
  unfold zeroBased?
  split
  · next same => exact absurd (List.cons.inj same).1 h
  · rfl

theorem zeroDecimal?_of_digits {d : List Char} (digits : IsDigits ('0' :: d)) (long : d ≠ []) :
    zeroDecimal? ('0' :: d) = some ('0' :: d, 1 + d.length) := by
  have all : d.takeWhile Char.isDigit = d :=
    List.takeWhile_eq_self_iff.mpr fun c mem => digits.digit c (List.mem_cons_of_mem _ mem)
  simp [zeroDecimal?, all, long]

/-- No repeating decimal opens before a text that does not end in `(`. -/
theorem isRepeatingBlock_of_getLast? {preceding : List Char} (h : preceding.getLast? ≠ some '(') :
    isRepeatingBlock preceding = false := by
  unfold isRepeatingBlock
  split
  · next r opening =>
    rw [← List.head?_reverse, opening] at h
    exact absurd rfl h
  · rfl

theorem continuesLiteral_of_isDigit {c : Char} (h : c.isDigit = true) : continuesLiteral c = true := by
  simp [continuesLiteral, Char.isAlphanum, h]

/-- A text that is one literal, not starting with `0`, passes the check. -/
theorem checkLeadingZeros_literal {c : Char} {r : List Char} (start : continuesLiteral c = true)
    (nonzero : c ≠ '0') (tail : ∀ x ∈ r, continuesLiteral x = true) :
    checkLeadingZeros (String.ofList (c :: r)) = .ok () := by
  unfold checkLeadingZeros
  simp only [String.toList_ofList, pieces_literal start (zeroDecimal?_of_head nonzero) tail,
    pieces_literal start (zeroBased?_of_head nonzero) tail, matchesWithOffsets_plain]
  rfl

/-- After a literal not starting with `0` and a character that neither continues it nor opens a
repeating block, a decimal integer with a leading zero that runs to the end of the text is
refused. -/
theorem checkLeadingZeros_literal_stop {c s : Char} {r z int : List Char} {n : Nat}
    (start : continuesLiteral c = true) (nonzero : c ≠ '0')
    (tail : ∀ x ∈ r, continuesLiteral x = true) (stop : continuesLiteral s = false)
    (not_open : s ≠ '(') (found : zeroDecimal? z = some (int, n)) (whole : z.length ≤ n) :
    checkLeadingZeros (String.ofList (c :: (r ++ s :: z))) =
      .error (.leadingZero (String.ofList int)) := by
  -- the text before the integer is the literal and the stop character
  have preceding : (c :: (r ++ s :: z)).take ((c :: r).length + 1) = c :: (r ++ [s]) := by
    rw [← List.cons_append, List.take_length_add_append]
    rfl
  have open_none : isRepeatingBlock (c :: (r ++ [s])) = false := by
    refine isRepeatingBlock_of_getLast? ?_
    rw [← List.cons_append, List.getLast?_append, List.getLast?_singleton, Option.some_or]
    exact fun same => not_open (Option.some.inj same)
  unfold checkLeadingZeros
  simp only [String.toList_ofList,
    pieces_literal_stop start (zeroDecimal?_of_head nonzero) tail stop found whole,
    matchesWithOffsets_plain_matched, List.find?_cons, preceding, open_none, Bool.not_false]

/-- The leading-zero check reads the digits of a signed exponent as an integer of its own. After
digits `m` without a leading zero and an `e`, exponent digits `d` that start with `0` pass the
check when no sign stands before them and are refused when one does; the lexer reads the signed
text as one number. -/
theorem checkLeadingZeros_signed_exponent {m d : List Char} {sign : Char}
    (mantissa : IsDigits m) (no_zero : m.head? ≠ some '0') (signed : sign = '+' ∨ sign = '-')
    (exponent : IsDigits ('0' :: d)) (long : d ≠ []) :
    checkLeadingZeros (String.ofList (m ++ 'e' :: '0' :: d)) = .ok () ∧
      checkLeadingZeros (String.ofList (m ++ 'e' :: sign :: '0' :: d)) =
        .error (.leadingZero (String.ofList ('0' :: d))) ∧
      ∃ v, tokenize (String.ofList (m ++ 'e' :: sign :: '0' :: d)) = .ok [⟨.number v, 0⟩] := by
  obtain ⟨m0, mr, rfl, digit0⟩ := mantissa.head
  have first : m0 ≠ '0' := fun same => no_zero (by simp [same])
  have starts := continuesLiteral_of_isDigit digit0
  have middle : ∀ c ∈ mr ++ ['e'], continuesLiteral c = true := by
    intro c mem
    rcases List.mem_append.mp mem with mem | mem
    · exact continuesLiteral_of_isDigit (mantissa.digit c (List.mem_cons_of_mem _ mem))
    · cases List.mem_singleton.mp mem
      rfl
  refine ⟨?_, ?_, ?_⟩
  · -- without a sign, every character after the first continues a literal
    rw [List.cons_append]
    refine checkLeadingZeros_literal starts first fun c mem => ?_
    rw [← List.singleton_append, ← List.append_assoc] at mem
    rcases List.mem_append.mp mem with mem | mem
    · exact middle c mem
    · exact continuesLiteral_of_isDigit (exponent.digit c mem)
  · -- the sign does not continue a literal, so a match starts right after it
    have not_continues : continuesLiteral sign = false := by
      rcases signed with rfl | rfl <;> rfl
    have not_open : sign ≠ '(' := by
      rcases signed with rfl | rfl <;> decide
    have whole : ('0' :: d).length ≤ 1 + d.length := by
      rw [List.length_cons]
      omega
    have text : m0 :: mr ++ 'e' :: sign :: '0' :: d = m0 :: (mr ++ ['e'] ++ sign :: '0' :: d) := by
      simp
    rw [text]
    exact checkLeadingZeros_literal_stop starts first middle not_continues not_open
      (zeroDecimal?_of_digits exponent long) whole
  · -- the lexer reads the whole signed text as one number
    obtain ⟨x, value⟩ : ∃ x, ExponentValue ('e' :: sign :: '0' :: d) x := by
      have run := digitRun?_of_isDigits exponent
      rcases signed with rfl | rfl
      · exact ⟨Decimal.digitsValue ('0' :: d),
          .some (.signed (.inl rfl) (.inl rfl) exponent) (by simp [Decimal.exponent?, run])⟩
      · exact ⟨-(Decimal.digitsValue ('0' :: d) : Int),
          .some (.signed (.inl rfl) (.inr rfl) exponent) (by simp [Decimal.exponent?, run])⟩
    exact ⟨_, tokenize_of_denotes_number (denotes_plain mantissa value)⟩

/-- `1e05` passes the check and `1e-05` is refused, although the lexer reads `1e-05` as one
number. -/
theorem checkLeadingZeros_signed_exponent_one :
    (IsDigits ['1'] ∧ ['1'].head? ≠ some '0' ∧ ('-' = '+' ∨ '-' = '-') ∧ IsDigits ['0', '5'] ∧
        ['5'] ≠ []) ∧
      checkLeadingZeros "1e05" = .ok () ∧ checkLeadingZeros "1e-05" = .error (.leadingZero "05") ∧
      ∃ v, tokenize "1e-05" = .ok [⟨.number v, 0⟩] := by
  have one : IsDigits ['1'] := ⟨by simp, List.all_eq_true.mp (by decide)⟩
  have zero_five : IsDigits ['0', '5'] := ⟨by simp, List.all_eq_true.mp (by decide)⟩
  obtain ⟨unsigned, signed, read⟩ :=
    @checkLeadingZeros_signed_exponent ['1'] ['5'] '-' one (by decide) (.inr rfl) zero_five (by simp)
  have unsigned_text : String.ofList (['1'] ++ 'e' :: '0' :: ['5']) = "1e05" := by decide
  have signed_text : String.ofList (['1'] ++ 'e' :: '-' :: '0' :: ['5']) = "1e-05" := by decide
  have digits_text : String.ofList ['0', '5'] = "05" := by decide
  rw [unsigned_text] at unsigned
  rw [signed_text, digits_text] at signed
  rw [signed_text] at read
  exact ⟨⟨one, by decide, .inr rfl, zero_five, by simp⟩, unsigned, signed, read⟩

end Abacus.Syntax
