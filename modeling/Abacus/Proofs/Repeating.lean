import Abacus.Numeral.Value
import Abacus.Proofs.Binary64.Arithmetic
import Abacus.Proofs.Binary64.Nearest

/-!
# Repeating decimals as exact fractions

A repeating decimal `I.N(R)` stands for `I + 0.N + R / (10 ^ k * (10 ^ d - 1))`, where `I`, `N`
and `R` are read as integers and `N` has `k` digits and `R` has `d` (`repeatingRational`). With
`P` the integer of the digits `I N` and `W` that of `I N R`, this is the fraction
`(W - P) / (10 ^ k * (10 ^ d - 1))`, since `W - P = P * (10 ^ d - 1) + R`
(`repeatingNumerator_eq`, `repeatingNumerator_div`).

The value is computed from this fraction exactly when `W` and the denominator fit in 128 bits
(`exactRepeating?_eq`): then each of the two integers becomes a double and one division rounds
(`repeatingValue_of_fits`). When both are at most `2 ^ 53` the integers are doubles exactly and
the value is the double nearest to the repeating decimal (`repeatingValue_exact`).
-/
namespace Abacus.Decimal

theorem digitsValue_concat (cs : List Char) (c : Char) :
    digitsValue (cs ++ [c]) = 10 * digitsValue cs + (c.toNat - '0'.toNat) := by
  simp [digitsValue, List.foldl_append]

theorem digitsValue_append (a b : List Char) :
    digitsValue (a ++ b) = digitsValue a * 10 ^ b.length + digitsValue b := by
  induction b using List.reverseRecOn with
  | nil => simp [digitsValue]
  | append_singleton b c ih =>
    rw [← List.append_assoc, digitsValue_concat, ih, digitsValue_concat, List.length_append,
      List.length_singleton, pow_succ]
    ring

theorem digitsValue_lt {cs : List Char} (digits : ∀ c ∈ cs, c.isDigit = true) :
    digitsValue cs < 10 ^ cs.length := by
  induction cs using List.reverseRecOn with
  | nil => simp [digitsValue]
  | append_singleton cs c ih =>
    have digit := digits c (by simp)
    simp only [Char.isDigit, Bool.and_eq_true, decide_eq_true_eq, ge_iff_le] at digit
    -- a digit's code point is at most nine past that of `0`
    have high : c.toNat ≤ '9'.toNat := UInt32.le_iff_toNat_le.mp digit.2
    have below := ih fun d mem => digits d (by simp [mem])
    have nine : '9'.toNat = 57 := rfl
    have zero : '0'.toNat = 48 := rfl
    rw [digitsValue_concat, List.length_append, List.length_singleton, pow_succ]
    omega

/-- A nonempty run of digits is read as its value, when that is below the bound. -/
theorem readNatBelow?_digits {s : String} (ne : s.toList ≠ [])
    (digits : ∀ c ∈ s.toList, c.isDigit = true) (bound : Nat) :
    readNatBelow? bound s =
      if digitsValue s.toList < bound then some (digitsValue s.toList) else none := by
  generalize cs : s.toList = l at ne digits
  obtain ⟨c, r, rfl⟩ := List.exists_cons_of_ne_nil ne
  have run : digitRun? (c :: r) = some (digitsValue (c :: r)) := by
    simp [digitRun?, List.all_eq_true.mpr digits]
  unfold readNatBelow?
  rw [cs]
  split
  · -- a digit is no `+`
    next plus =>
    obtain ⟨rfl, -⟩ := List.cons.inj plus
    exact absurd (digits '+' (by simp)) (by decide)
  · simp only [run]

/-- A text of digits takes one byte per digit. -/
theorem utf8ByteSize_ofList_of_digits {cs : List Char} (digits : ∀ c ∈ cs, c.isDigit = true) :
    (String.ofList cs).utf8ByteSize = cs.length := by
  induction cs with
  | nil => rfl
  | cons c cs ih =>
    have digit := digits c (by simp)
    simp only [Char.isDigit, Bool.and_eq_true, decide_eq_true_eq] at digit
    have ascii : c.val ≤ 127 := by
      have bound : c.val.toNat ≤ 57 := UInt32.le_iff_toNat_le.mp digit.2
      rw [UInt32.le_iff_toNat_le]
      simp only [UInt32.reduceToNat]
      omega
    rw [String.ofList_cons, String.utf8ByteSize_append, String.utf8ByteSize_singleton,
      ih fun d mem => digits d (by simp [mem])]
    simp [Char.utf8Size, ascii, Nat.add_comm]

theorem utf8ByteSize_of_digits {s : String} (digits : ∀ c ∈ s.toList, c.isDigit = true) :
    s.utf8ByteSize = s.toList.length := by
  rw [← utf8ByteSize_ofList_of_digits digits, String.ofList_toList]

end Abacus.Decimal

namespace Abacus.Binary64

open Float.Model Float.Model.UnpackedFloat

/-- The double nearest to a nonnegative rational, a tie going to the even significand; a value
past the largest double is an infinity. -/
def roundToDouble (x : ℚ) : Binary64 :=
  ofBits (UnpackedFloat.pack Format.binary64 (nearest .positive x)).toNat

/-- Every positive natural number up to `2 ^ 53` is a double exactly. -/
theorem ofFloat_ofNat_exact {n : Nat} (pos : 0 < n) (small : n ≤ 2 ^ 53) :
    ∃ M T, ofFloat (Float.ofNat n) = .finite false M T ∧ Canonical M T ∧
      (M : ℚ) * 2 ^ T = n := by
  rcases small.lt_or_eq with small | rfl
  · obtain ⟨M, T, parts, canonical, -, value⟩ := ofFloat_ofNat pos small
    exact ⟨M, T, parts, canonical, value⟩
  · -- `2 ^ 53` itself is `2 ^ 52` at the exponent one
    refine ⟨2 ^ 52, 1, by decide, by unfold Canonical; decide, by norm_num⟩

/-- The quotient of two natural numbers up to `2 ^ 53` is the double nearest to their exact
quotient. -/
theorem ofFloat_ofNat_div_ofNat {n d : Nat} (small : n ≤ 2 ^ 53) (pos : 0 < d)
    (fits : d ≤ 2 ^ 53) : ofFloat (Float.ofNat n / Float.ofNat d) = roundToDouble (n / d) := by
  obtain ⟨M₂, T₂, parts₂, canonical₂, value₂⟩ := ofFloat_ofNat_exact pos fits
  rw [ofFloat_div, parts₂, toUnpacked_pos _ canonical₂.1, roundToDouble]
  rcases Nat.eq_zero_or_pos n with rfl | nonzero
  · rw [ofFloat_ofNat_zero, toUnpacked_zero, Nat.cast_zero, zero_div, nearest_zero]
    rfl
  · obtain ⟨M₁, T₁, parts₁, canonical₁, value₁⟩ := ofFloat_ofNat_exact nonzero small
    -- the quotient is at least `1 / 2 ^ 53`, far above the least subnormal
    have above : (2 : ℚ) ^ (-1074 : Int) ≤ M₁ * 2 ^ T₁ / (M₂ * 2 ^ T₂) := by
      rw [value₁, value₂]
      have one : (1 : ℚ) ≤ n := by exact_mod_cast nonzero
      have below : (d : ℚ) ≤ 2 ^ 53 := by exact_mod_cast fits
      calc (2 : ℚ) ^ (-1074 : Int) ≤ 2 ^ (-53 : Int) := zpow_le_zpow_right₀ (by norm_num) (by norm_num)
        _ = 1 / 2 ^ 53 := by norm_num
        _ ≤ 1 / d := one_div_le_one_div_of_le (by exact_mod_cast pos) below
        _ ≤ n / d := div_le_div_of_nonneg_right one (by positivity)
    rw [parts₁, toUnpacked_pos _ canonical₁.1, div_eq_nearest _ _ _ _ _ _ above, value₁, value₂]
    rfl

end Abacus.Binary64

namespace Abacus.Numeral

open Decimal Binary64

/-- The digits of a repeating decimal `I.N(R)`: decimal digits, with at least one in `I` and in
`R`. -/
structure RepeatingDigits (I N R : List Char) : Prop where
  whole_ne : I ≠ []
  block_ne : R ≠ []
  whole : ∀ c ∈ I, c.isDigit = true
  nonrep : ∀ c ∈ N, c.isDigit = true
  block : ∀ c ∈ R, c.isDigit = true

/-- The denominator `10 ^ k * (10 ^ d - 1)` of a repeating decimal with `k` digits before a
block of `d`. -/
def repeatingDenominator (k d : Nat) : Nat := 10 ^ k * (10 ^ d - 1)

/-- The numerator `W - P`, with `W` the integer of all the digits and `P` that of the digits
before the block. -/
def repeatingNumerator (I N R : List Char) : Nat := digitsValue (I ++ N ++ R) - digitsValue (I ++ N)

/-- The exact value `I + 0.N + R / (10 ^ k * (10 ^ d - 1))` of `I.N(R)`. -/
def repeatingRational (I N R : List Char) : ℚ :=
  digitsValue I + digitsValue N / 10 ^ N.length +
    digitsValue R / repeatingDenominator N.length R.length

/-- All the digits read as one integer exceed those before the block by
`P * (10 ^ d - 1) + R`. -/
theorem repeatingNumerator_eq (I N R : List Char) :
    repeatingNumerator I N R = digitsValue (I ++ N) * (10 ^ R.length - 1) + digitsValue R := by
  have one : 1 ≤ 10 ^ R.length := Nat.one_le_pow _ _ (by norm_num)
  have shift := Nat.mul_sub_one (digitsValue (I ++ N)) (10 ^ R.length)
  have grows : digitsValue (I ++ N) ≤ digitsValue (I ++ N) * 10 ^ R.length :=
    Nat.le_mul_of_pos_right _ one
  unfold repeatingNumerator
  rw [digitsValue_append (I ++ N) R]
  omega

/-- The fraction `(W - P) / (10 ^ k * (10 ^ d - 1))` is the repeating decimal exactly. -/
theorem repeatingNumerator_div (I N : List Char) {R : List Char} (block : R ≠ []) :
    (repeatingNumerator I N R : ℚ) / repeatingDenominator N.length R.length =
      repeatingRational I N R := by
  have ten : 10 ≤ 10 ^ R.length :=
    Nat.le_self_pow (List.length_pos_iff.mpr block).ne' 10
  have period : ((10 ^ R.length - 1 : Nat) : ℚ) = 10 ^ R.length - 1 := by
    rw [Nat.cast_sub (by omega)]
    push_cast
    rfl
  have period_ne : (10 : ℚ) ^ R.length - 1 ≠ 0 := by
    rw [← period]
    exact_mod_cast (by omega : 10 ^ R.length - 1 ≠ 0)
  rw [repeatingNumerator_eq, digitsValue_append I N, repeatingRational, repeatingDenominator]
  push_cast [period]
  field_simp

/-- `10 ^ k` fits in 128 bits only up to `k = 38`. -/
theorem le_38_of_pow_ten_le {k : Nat} (le : 10 ^ k ≤ 2 ^ 128) : k ≤ 38 := by
  by_contra! more
  have : 10 ^ 39 ≤ 10 ^ k := Nat.pow_le_pow_right (by norm_num) more
  have : 2 ^ 128 < 10 ^ 39 := by norm_num
  omega

/-- The exact path is taken exactly when all the digits read as one integer, and the
denominator, fit in 128 bits. -/
theorem exactRepeating?_eq {I N R : String} (h : RepeatingDigits I.toList N.toList R.toList) :
    exactRepeating? I N R =
      if digitsValue (I.toList ++ N.toList ++ R.toList) < 2 ^ 128 ∧
          repeatingDenominator N.toList.length R.toList.length < 2 ^ 128
      then some (repeatingNumerator I.toList N.toList R.toList,
        repeatingDenominator N.toList.length R.toList.length)
      else none := by
  obtain ⟨wholeNe, blockNe, whole, nonrep, block⟩ := h
  have digitsP : ∀ c ∈ (I ++ N).toList, c.isDigit = true := by
    rw [String.toList_append]
    exact fun c mem => (List.mem_append.mp mem).elim (whole c) (nonrep c)
  have digitsW : ∀ c ∈ (I ++ N ++ R).toList, c.isDigit = true := by
    rw [String.toList_append]
    exact fun c mem => (List.mem_append.mp mem).elim (digitsP c) (block c)
  have readP := @readNatBelow?_digits (I ++ N) (by simp [wholeNe]) digitsP (2 ^ 128)
  have readW := @readNatBelow?_digits (I ++ N ++ R) (by simp [wholeNe]) digitsW (2 ^ 128)
  simp only [String.toList_append] at readP readW
  generalize hP : digitsValue (I.toList ++ N.toList) = P at readP
  generalize hW : digitsValue (I.toList ++ N.toList ++ R.toList) = W at readW ⊢
  have grows : P ≤ W := by
    rw [← hP, ← hW, digitsValue_append (I.toList ++ N.toList) R.toList]
    exact Nat.le_add_right_of_le (Nat.le_mul_of_pos_right _ (Nat.pow_pos (by norm_num)))
  have numerator : repeatingNumerator I.toList N.toList R.toList = W - P := by
    rw [repeatingNumerator, hP, hW]
  have period : 1 ≤ 10 ^ R.toList.length - 1 := by
    have := Nat.le_self_pow (List.length_pos_iff.mpr blockNe).ne' 10
    omega
  unfold exactRepeating?
  simp only [Nat.pow_eq, readP, readW, utf8ByteSize_of_digits nonrep, utf8ByteSize_of_digits block,
    pow10Below128?, numerator, repeatingDenominator]
  by_cases fits : W < 2 ^ 128 ∧ 10 ^ N.toList.length * (10 ^ R.toList.length - 1) < 2 ^ 128
  · obtain ⟨fitsW, fitsD⟩ := fits
    -- each power of ten is at most the denominator, so each fits
    have shortN : N.toList.length ≤ 38 :=
      le_38_of_pow_ten_le (le_trans (Nat.le_mul_of_pos_right _ period) fitsD.le)
    have periodLe : 10 ^ R.toList.length - 1 ≤ 10 ^ N.toList.length * (10 ^ R.toList.length - 1) :=
      Nat.le_mul_of_pos_left _ (Nat.pow_pos (by norm_num))
    have shortR : R.toList.length ≤ 38 := le_38_of_pow_ten_le (by omega)
    rw [if_pos (lt_of_le_of_lt grows fitsW), if_pos fitsW, if_pos shortR, if_pos shortN,
      if_pos ⟨fitsW, fitsD⟩]
    simp only [Option.bind_eq_bind, Option.bind_some]
    rw [Nat.mul_comm, if_pos ⟨grows, fitsD⟩]
  · -- one of the checked steps fails: all the digits, a power of ten or the product
    rw [if_neg fits]
    by_cases fitsW : W < 2 ^ 128
    · have fitsD : ¬10 ^ N.toList.length * (10 ^ R.toList.length - 1) < 2 ^ 128 :=
        fun fitsD => fits ⟨fitsW, fitsD⟩
      rw [if_pos (lt_of_le_of_lt grows fitsW), if_pos fitsW]
      simp only [Option.bind_eq_bind, Option.bind_some]
      by_cases shortR : R.toList.length ≤ 38
      · by_cases shortN : N.toList.length ≤ 38
        · rw [if_pos shortR, if_pos shortN]
          simp only [Option.bind_some]
          rw [Nat.mul_comm, if_neg fun both => fitsD both.2]
        · rw [if_pos shortR, if_neg shortN]
          rfl
      · rw [if_neg shortR]
        rfl
    · rw [if_neg fitsW]
      split <;> rfl

section Value

variable {I N R : List Char}

/-- The value goes the exact way when all the digits, as one integer, and the denominator fit in
128 bits: the numerator over the denominator, each made a double and divided once. -/
theorem repeatingValue_of_fits (h : RepeatingDigits I N R)
    (fitsW : digitsValue (I ++ N ++ R) < 2 ^ 128)
    (fitsD : repeatingDenominator N.length R.length < 2 ^ 128) :
    repeatingValue (String.ofList I) (String.ofList N) (String.ofList R) =
      Float.ofNat (repeatingNumerator I N R) / Float.ofNat (repeatingDenominator N.length R.length) := by
  have exact := @exactRepeating?_eq (String.ofList I) (String.ofList N) (String.ofList R)
    (by simpa only [String.toList_ofList] using h)
  simp only [String.toList_ofList] at exact
  rw [repeatingValue, exact, if_pos ⟨fitsW, fitsD⟩]

/-- When the numerator and the denominator are at most `2 ^ 53` both are doubles exactly, and the
value is the double nearest to the repeating decimal. -/
theorem ofFloat_repeatingValue_of_small (h : RepeatingDigits I N R)
    (smallW : repeatingNumerator I N R ≤ 2 ^ 53)
    (smallD : repeatingDenominator N.length R.length ≤ 2 ^ 53) :
    ofFloat (repeatingValue (String.ofList I) (String.ofList N) (String.ofList R)) =
      roundToDouble (repeatingRational I N R) := by
  -- the digits before the block are at most the numerator, so all of them fit twice over
  have prefixLe : digitsValue (I ++ N) ≤ repeatingNumerator I N R := by
    rw [repeatingNumerator_eq]
    have : 1 ≤ 10 ^ R.length - 1 := by
      have := Nat.le_self_pow (List.length_pos_iff.mpr h.block_ne).ne' 10
      omega
    exact Nat.le_add_right_of_le (Nat.le_mul_of_pos_right _ this)
  have fitsW : digitsValue (I ++ N ++ R) < 2 ^ 128 := by
    unfold repeatingNumerator at prefixLe smallW
    omega
  have positive : 0 < repeatingDenominator N.length R.length := by
    unfold repeatingDenominator
    have := Nat.le_self_pow (List.length_pos_iff.mpr h.block_ne).ne' 10
    exact Nat.mul_pos (Nat.pow_pos (by norm_num)) (by omega)
  rw [repeatingValue_of_fits h fitsW (by omega), ofFloat_ofNat_div_ofNat smallW positive smallD,
    repeatingNumerator_div I N h.block_ne]

end Value

/-- Repeating decimals are computed as exact fractions. For decimal digits `I`, `N` and `R`, with
`I` and `R` not empty, the value of `I.N(R)` goes the exact way exactly when all the digits, as
one integer `W`, and the denominator `10 ^ k * (10 ^ d - 1)` fit in 128 bits, and it is then
`(W - P) / (10 ^ k * (10 ^ d - 1))` with each integer made a double; that fraction is the
repeating decimal `I + 0.N + R / (10 ^ k * (10 ^ d - 1))`; and when both integers are at most
`2 ^ 53` the value is the double nearest to it. -/
theorem repeatingValue_exact {I N R : List Char} (h : RepeatingDigits I N R) :
    ((exactRepeating? (String.ofList I) (String.ofList N) (String.ofList R)).isSome ↔
        digitsValue (I ++ N ++ R) < 2 ^ 128 ∧ repeatingDenominator N.length R.length < 2 ^ 128) ∧
      (digitsValue (I ++ N ++ R) < 2 ^ 128 → repeatingDenominator N.length R.length < 2 ^ 128 →
        repeatingValue (String.ofList I) (String.ofList N) (String.ofList R) =
          Float.ofNat (repeatingNumerator I N R) /
            Float.ofNat (repeatingDenominator N.length R.length)) ∧
      (repeatingNumerator I N R : ℚ) / repeatingDenominator N.length R.length =
        repeatingRational I N R ∧
      (repeatingNumerator I N R ≤ 2 ^ 53 → repeatingDenominator N.length R.length ≤ 2 ^ 53 →
        ofFloat (repeatingValue (String.ofList I) (String.ofList N) (String.ofList R)) =
          roundToDouble (repeatingRational I N R)) := by
  have exact := @exactRepeating?_eq (String.ofList I) (String.ofList N) (String.ofList R)
    (by simpa only [String.toList_ofList] using h)
  simp only [String.toList_ofList] at exact
  refine ⟨?_, repeatingValue_of_fits h, repeatingNumerator_div I N h.block_ne,
    ofFloat_repeatingValue_of_small h⟩
  rw [exact]
  split_ifs with fits
  · exact iff_of_true rfl fits
  · exact iff_of_false (by simp) fits

/-- A block of nines: `0.(9)` is the fraction `9 / 9`, taken the exact way. -/
theorem repeatingValue_exact_nines :
    RepeatingDigits ['0'] [] ['9'] ∧
      ((exactRepeating? (String.ofList ['0']) (String.ofList []) (String.ofList ['9'])).isSome ↔
        digitsValue (['0'] ++ [] ++ ['9']) < 2 ^ 128 ∧
          repeatingDenominator ([] : List Char).length ['9'].length < 2 ^ 128) ∧
      (digitsValue (['0'] ++ [] ++ ['9']) < 2 ^ 128 →
        repeatingDenominator ([] : List Char).length ['9'].length < 2 ^ 128 →
        repeatingValue (String.ofList ['0']) (String.ofList []) (String.ofList ['9']) =
          Float.ofNat (repeatingNumerator ['0'] [] ['9']) /
            Float.ofNat (repeatingDenominator ([] : List Char).length ['9'].length)) ∧
      (repeatingNumerator ['0'] [] ['9'] : ℚ) / repeatingDenominator ([] : List Char).length ['9'].length =
        repeatingRational ['0'] [] ['9'] ∧
      (repeatingNumerator ['0'] [] ['9'] ≤ 2 ^ 53 →
        repeatingDenominator ([] : List Char).length ['9'].length ≤ 2 ^ 53 →
        ofFloat (repeatingValue (String.ofList ['0']) (String.ofList []) (String.ofList ['9'])) =
          roundToDouble (repeatingRational ['0'] [] ['9'])) :=
  have digits : RepeatingDigits ['0'] [] ['9'] :=
    ⟨by simp, by simp, List.forall_mem_singleton.mpr (by decide), List.forall_mem_nil _,
      List.forall_mem_singleton.mpr (by decide)⟩
  ⟨digits, repeatingValue_exact digits⟩

end Abacus.Numeral
