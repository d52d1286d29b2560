import Mathlib.Algebra.Order.Floor.Semifield
import Mathlib.Data.Int.Log
import Mathlib.Data.Rat.Floor
import Mathlib.Tactic.FieldSimp
import Mathlib.Tactic.Linarith
import Mathlib.Tactic.Positivity
import Abacus.Proofs.Binary64.Parts
import Abacus.Proofs.Binary64.Rounding

/-!
# Rounding to nearest is correct rounding

The logical float model rounds a product or a quotient from whatever significand and exponent
the operation happens to compute. This module shows that the result depends only on the exact
value: it is `nearest s x`, the rational `x` rounded to 53 significant bits (never below the
exponent `-1074`), to nearest with ties to even (`mul_eq_nearest`, `div_eq_nearest`). Two
products or quotients of the same value are then the same double, whatever their operands.

The proof follows the bits. An extended significand with its round and sticky bits stands for
a quotient `N / D` (`Represents`); shifting it right by one stands for `N / (2 * D)`, so
shifting it by `k` stands for `N / (D * 2 ^ k)`, and rounding it gives the natural number
nearest to that quotient (`Represents.roundedMantissa`).
-/

open Float.Model Float.Model.UnpackedFloat

namespace Abacus.Binary64

section Halves

/-- The natural number nearest to a nonnegative rational, ties to even. -/
def roundEven (y : ℚ) : Nat :=
  if y - ⌊y⌋₊ < 1 / 2 then ⌊y⌋₊
  else if y - ⌊y⌋₊ = 1 / 2 then ⌊y⌋₊ + ⌊y⌋₊ % 2
  else ⌊y⌋₊ + 1

/-- The nearest natural number to a quotient, from the quotient and remainder. -/
theorem roundEven_div (N : Nat) {D : Nat} (pos : 0 < D) :
    roundEven ((N : ℚ) / D) =
      if 2 * (N % D) < D then N / D
      else if 2 * (N % D) = D then N / D + N / D % 2
      else N / D + 1 := by
  have floor : ⌊(N : ℚ) / D⌋₊ = N / D := Nat.floor_div_eq_div N D
  have positive : (0 : ℚ) < D := by exact_mod_cast pos
  have rest : (N : ℚ) / D - (N / D : Nat) = (N % D : Nat) / D := by
    rw [eq_div_iff positive.ne', sub_mul, div_mul_cancel₀ _ positive.ne']
    have := Nat.div_add_mod N D
    have cast : ((D * (N / D) + N % D : Nat) : ℚ) = N := by rw [this]
    push_cast at cast
    linarith
  have below : (N % D : Nat) / (D : ℚ) < 1 / 2 ↔ 2 * (N % D) < D := by
    rw [div_lt_iff₀ positive]
    constructor <;> intro h
    · have : ((2 * (N % D) : Nat) : ℚ) < D := by push_cast; linarith
      exact_mod_cast this
    · have : ((2 * (N % D) : Nat) : ℚ) < D := by exact_mod_cast h
      push_cast at this
      linarith
  have half : (N % D : Nat) / (D : ℚ) = 1 / 2 ↔ 2 * (N % D) = D := by
    rw [div_eq_iff positive.ne']
    constructor <;> intro h
    · have : ((2 * (N % D) : Nat) : ℚ) = D := by push_cast; linarith
      exact_mod_cast this
    · have : ((2 * (N % D) : Nat) : ℚ) = D := by exact_mod_cast h
      push_cast at this
      linarith
  simp only [roundEven, floor, rest, below, half]

/-- The nearest natural number is at most half away. -/
theorem abs_roundEven_sub_le {y : ℚ} (hy : 0 ≤ y) : |(roundEven y : ℚ) - y| ≤ 1 / 2 := by
  have low : (⌊y⌋₊ : ℚ) ≤ y := Nat.floor_le hy
  have high : y < ⌊y⌋₊ + 1 := Nat.lt_floor_add_one y
  have parity : (⌊y⌋₊ % 2 : Nat) ≤ 1 := by omega
  have parity' : ((⌊y⌋₊ % 2 : Nat) : ℚ) ≤ 1 := by exact_mod_cast parity
  rw [abs_le]
  unfold roundEven
  split_ifs with below half
  · constructor <;> linarith
  · push_cast
    constructor <;> linarith [(Nat.cast_nonneg (⌊y⌋₊ % 2) : (0 : ℚ) ≤ _)]
  · push_cast
    constructor <;> linarith

/-- The nearest natural number is at least the integer part. -/
theorem floor_le_roundEven (y : ℚ) : ⌊y⌋₊ ≤ roundEven y := by
  unfold roundEven
  split_ifs <;> omega

/-- Rounding never passes a natural number above. -/
theorem roundEven_le_of_le {y : ℚ} {n : Nat} (le : y ≤ n) : roundEven y ≤ n := by
  have floor : ⌊y⌋₊ ≤ n := Nat.floor_le_of_le le
  rcases Nat.lt_or_eq_of_le floor with lt | eq
  · unfold roundEven
    split_ifs <;> omega
  · -- the integer part is `n` itself, so nothing is left to round
    have none : y - n < 1 / 2 := by linarith
    simp only [roundEven, eq, none, ↓reduceIte, le_refl]

/-- A half above `k` goes to the even neighbour. -/
theorem roundEven_add_half (k : Nat) : roundEven (k + 1 / 2) = k + k % 2 := by
  have floor : ⌊(k : ℚ) + 1 / 2⌋₊ = k := by
    rw [Nat.floor_eq_iff (by positivity)]
    constructor <;> linarith
  unfold roundEven
  rw [floor, add_sub_cancel_left]
  simp


/-- A natural number is its own nearest. -/
theorem roundEven_natCast (n : Nat) : roundEven n = n := by
  simp [roundEven]

end Halves

section Represents

/-- An extended significand stands for the quotient `N / D`: its significand is the integer
part, the round bit says that the rest is at least a half, and the sticky bit that the rest is
neither zero nor a half. -/
structure Represents (em : ExtendedMantissa) (N D : Nat) : Prop where
  mantissa : em.mantissa = N / D
  roundBit : em.roundBit = true ↔ D ≤ 2 * (N % D)
  stickyBit : em.stickyBit = true ↔ N % D ≠ 0 ∧ 2 * (N % D) ≠ D

/-- Shifting right by one halves the quotient: the bit shifted out is the new round bit, and
what was below the old one is kept in the sticky bit. -/
theorem Represents.shiftRightOne {em : ExtendedMantissa} {N D : Nat} (rep : Represents em N D)
    (pos : 0 < D) : Represents em.shiftRightOne N (D * 2) := by
  -- the remainder by `2 * D` is the remainder by `D`, and `D` more when the last bit is set
  have rest : N % (D * 2) = N % D + D * (N / D % 2) := Nat.mod_mul
  have small : N % D < D := Nat.mod_lt N pos
  refine ⟨?_, ?_, ?_⟩
  · simp only [ExtendedMantissa.shiftRightOne, rep.mantissa, Nat.div_div_eq_div_mul]
  · simp only [ExtendedMantissa.shiftRightOne, rep.mantissa, rest, bne_iff_ne, ne_eq]
    rcases Nat.mod_two_eq_zero_or_one (N / D) with bit | bit <;> rw [bit] <;> omega
  · simp only [ExtendedMantissa.shiftRightOne, Bool.or_eq_true, rep.roundBit, rep.stickyBit, rest]
    rcases Nat.mod_two_eq_zero_or_one (N / D) with bit | bit <;> rw [bit] <;> omega

/-- Shifting right by `k` divides the quotient by `2 ^ k`. -/
theorem Represents.shift {em : ExtendedMantissa} {N D : Nat} (rep : Represents em N D)
    (pos : 0 < D) (k : Nat) : Represents (em >>> k) N (D * 2 ^ k) := by
  induction k with
  | zero => simpa [HShiftRight.hShiftRight, Nat.repeat] using rep
  | succ k ih =>
    change Represents (em >>> k).shiftRightOne N (D * 2 ^ (k + 1))
    rw [Nat.pow_succ, ← Nat.mul_assoc]
    exact ih.shiftRightOne (Nat.mul_pos pos (Nat.two_pow_pos k))

/-- Rounding the significand gives the natural number nearest to the quotient. -/
theorem Represents.roundedMantissa {em : ExtendedMantissa} {N D : Nat} (rep : Represents em N D)
    (pos : 0 < D) : em.roundedMantissa = roundEven ((N : ℚ) / D) := by
  obtain ⟨m, r, s⟩ := em
  obtain ⟨mantissa, roundBit, stickyBit⟩ := rep
  dsimp only at mantissa roundBit stickyBit
  subst mantissa
  have small : N % D < D := Nat.mod_lt N pos
  rw [roundEven_div N pos]
  cases r <;> cases s <;>
    simp only [Bool.false_eq_true, false_iff, true_iff] at roundBit stickyBit <;>
    simp only [ExtendedMantissa.roundedMantissa, ExtendedMantissa.accuracy,
      Accuracy.roundToNearestEven] <;>
    split_ifs <;> omega

/-- A significand with the accuracy of the fraction `r / den` stands for `q + r / den`. -/
theorem represents_ofMantissaAndAccuracy (q : Nat) {r den : Nat} (lt : r < den) :
    Represents (ExtendedMantissa.ofMantissaAndAccuracy q (accuracyOfFraction r den))
      (q * den + r) den := by
  have quotient : (q * den + r) / den = q := by
    rw [Nat.add_comm, Nat.add_mul_div_right _ _ (by omega), Nat.div_eq_of_lt lt, Nat.zero_add]
  have remainder : (q * den + r) % den = r := by
    rw [Nat.add_comm, Nat.add_mul_mod_self_right, Nat.mod_eq_of_lt lt]
  unfold accuracyOfFraction
  split_ifs with zero
  · subst zero
    refine ⟨quotient.symm, ?_, ?_⟩ <;>
      simp only [ExtendedMantissa.ofMantissaAndAccuracy, remainder, Bool.false_eq_true,
        false_iff] <;> omega
  · -- the half is compared with the rest to set the round and sticky bits
    rcases h : compare (2 * r) den
    all_goals
      have order := h
      simp only [Nat.compare_eq_lt, Nat.compare_eq_eq, Nat.compare_eq_gt] at order
      refine ⟨quotient.symm, ?_, ?_⟩ <;>
        simp only [ExtendedMantissa.ofMantissaAndAccuracy, remainder, Bool.false_eq_true,
          false_iff, true_iff] <;> omega

end Represents

section Nearest

/-- The exponent of the last place a double keeps of a positive rational: 53 significant bits,
and never below `-1074`. -/
def lastPlace (x : ℚ) : Int := max (Int.log 2 x - 52) (-1074)

/-- The model's parts for a significand `n` rounded at exponent `E`: a zero, `n` itself, or
the carry of `2 ^ 53` into `2 ^ 52` at the next exponent. -/
def carried (s : Sign) (n : Nat) (E : Int) : UnpackedFloat :=
  if h : n = 0 then .zero s
  else if n < 2 ^ 53 then .finite s n E (Nat.pos_of_ne_zero h)
  else .finite s (2 ^ 52) (E + 1) (Nat.two_pow_pos 52)

/-- A nonnegative rational rounded to nearest, ties to even, in the model's unpacked form. The
exponent is not bounded above: packing turns a result too large into an infinity. -/
def nearest (s : Sign) (x : ℚ) : UnpackedFloat :=
  carried s (roundEven (x / 2 ^ lastPlace x)) (lastPlace x)

/-- The value of `nearest`. -/
def nearestValue (x : ℚ) : ℚ := roundEven (x / 2 ^ lastPlace x) * 2 ^ lastPlace x

/-- The leading position of `(q + f) * 2 ^ t`, for a fraction `0 ≤ f < 1`, is that of `q`. -/
theorem log_mantissa {q : Nat} (pos : 0 < q) {f : ℚ} (low : 0 ≤ f) (high : f < 1) (t : Int) :
    Int.log 2 ((q + f) * 2 ^ t) = q.log2 + t := by
  have nonzero : q ≠ 0 := Nat.pos_iff_ne_zero.1 pos
  have lead : ((2 ^ q.log2 : Nat) : ℚ) ≤ q := by exact_mod_cast Nat.log2_self_le nonzero
  have next : (q : ℚ) + 1 ≤ ((2 ^ (q.log2 + 1) : Nat) : ℚ) := by exact_mod_cast Nat.lt_log2_self
  have value : (0 : ℚ) < (q + f) * 2 ^ t := by positivity
  apply le_antisymm
  · rw [← Int.lt_add_one_iff, ← Int.lt_zpow_iff_log_lt (by norm_num) value]
    calc (q + f) * 2 ^ t < ((2 ^ (q.log2 + 1) : Nat) : ℚ) * 2 ^ t :=
          mul_lt_mul_of_pos_right (by linarith) (by positivity)
      _ = ((2 : Nat) : ℚ) ^ ((q.log2 : Int) + t + 1) := by
          push_cast
          rw [← zpow_natCast, ← zpow_add₀ (by norm_num)]
          congr 1
          push_cast
          ring
  · rw [← Int.zpow_le_iff_le_log (by norm_num) value]
    calc ((2 : Nat) : ℚ) ^ ((q.log2 : Int) + t) = ((2 ^ q.log2 : Nat) : ℚ) * 2 ^ t := by
          push_cast
          rw [← zpow_natCast, ← zpow_add₀ (by norm_num)]
      _ ≤ (q + f) * 2 ^ t := mul_le_mul_of_nonneg_right (by linarith) (by positivity)

/-- A rational scaled to its last place has at most 53 bits before the point. -/
theorem div_two_pow_lastPlace_lt (x : ℚ) : x / 2 ^ lastPlace x < 2 ^ 53 := by
  rcases le_or_gt x 0 with nonpos | positive
  · exact lt_of_le_of_lt (div_nonpos_of_nonpos_of_nonneg nonpos (by positivity)) (by positivity)
  · rw [div_lt_iff₀ (by positivity)]
    calc x < 2 ^ (Int.log 2 x + 1) := by simpa using Int.lt_zpow_succ_log_self (by norm_num : 1 < 2) x
      _ ≤ 2 ^ (53 + lastPlace x) := zpow_le_zpow_right₀ (by norm_num) (by simp only [lastPlace]; omega)
      _ = 2 ^ 53 * 2 ^ lastPlace x := by rw [zpow_add₀ (by norm_num)]; norm_num

/-- Rounding after a first shift that reaches the exponent `E` from `-1074` on, with a rounded
significand of at most `2 ^ 53`: only a carry is left to shift. -/
theorem roundWithAccuracy_of_shift (s : Sign) {m : Nat} {e : Int} {acc : Accuracy}
    {em : ExtendedMantissa} {E : Int} (first : shiftToTargetExponent Format.binary64 m e acc = (em, E))
    (at_most : em.roundedMantissa ≤ 2 ^ 53) (least : -1074 ≤ E) :
    roundWithAccuracy Format.binary64 s m e acc = carried s em.roundedMantissa E := by
  rw [roundWithAccuracy, first]
  dsimp only
  generalize em.roundedMantissa = r at *
  unfold carried
  by_cases zero : r = 0
  · subst zero
    rw [shiftToTargetExponent_of_small 0 _ (by decide) least]
    rfl
  by_cases small : r < 2 ^ 53
  · rw [shiftToTargetExponent_of_small r _ small least]
    simp only [zero, small, ↓reduceDIte, ↓reduceIte]
  · have carry : r = 2 ^ 53 := by omega
    subst carry
    rw [shiftToTargetExponent_carry _ least]
    rfl

/-- Rounding `q` and the accuracy of the fraction `r / den` at exponent `t` is rounding the
value `(q + r / den) * 2 ^ t` to nearest, provided `t` is not above the last place kept. -/
theorem roundWithAccuracy_eq_nearest (s : Sign) {q r den : Nat} (t : Int) (pos : 0 < q)
    (lt : r < den) (enough : t ≤ lastPlace ((q + r / den : ℚ) * 2 ^ t)) :
    roundWithAccuracy Format.binary64 s q t (accuracyOfFraction r den) =
      nearest s ((q + r / den : ℚ) * 2 ^ t) := by
  have den_pos : 0 < den := by omega
  have fraction : (0 : ℚ) ≤ r / den ∧ (r : ℚ) / den < 1 := by
    refine ⟨by positivity, (div_lt_one (by exact_mod_cast den_pos)).2 (by exact_mod_cast lt)⟩
  generalize hx : (q + r / den : ℚ) * 2 ^ t = x at enough ⊢
  have log : Int.log 2 x = q.log2 + t := by rw [← hx]; exact log_mantissa pos fraction.1 fraction.2 t
  obtain ⟨k, hk⟩ : ∃ k : Nat, lastPlace x = t + k := ⟨(lastPlace x - t).toNat, by omega⟩
  have first : shiftToTargetExponent Format.binary64 q t (accuracyOfFraction r den) =
      (ExtendedMantissa.ofMantissaAndAccuracy q (accuracyOfFraction r den) >>> k, lastPlace x) := by
    have target : Format.binary64.targetExponent (totalExponent q t) = lastPlace x := by
      rw [targetExponent_eq, lastPlace, log]
    simp only [shiftToTargetExponent, shiftToExponent, target, hk]
    congr <;> omega
  -- the shifted significand stands for `x` in units of its last place
  have rep := (represents_ofMantissaAndAccuracy q lt).shift den_pos k
  have scaled : ((q * den + r : Nat) : ℚ) / ((den * 2 ^ k : Nat) : ℚ) = x / 2 ^ lastPlace x := by
    rw [hk, ← hx, zpow_add₀ (by norm_num), zpow_natCast]
    push_cast
    field_simp
  have rounded : (ExtendedMantissa.ofMantissaAndAccuracy q (accuracyOfFraction r den) >>>
      k).roundedMantissa = roundEven (x / 2 ^ lastPlace x) := by
    rw [rep.roundedMantissa (Nat.mul_pos den_pos (Nat.two_pow_pos k)), scaled]
  have at_most : roundEven (x / 2 ^ lastPlace x) ≤ 2 ^ 53 :=
    roundEven_le_of_le (by exact_mod_cast (div_two_pow_lastPlace_lt x).le)
  rw [roundWithAccuracy_of_shift s first (by rw [rounded]; exact at_most) (le_max_right _ _),
    rounded]
  rfl


end Nearest

section Operations

/-- The product of two positive finite parts is the exact product rounded to nearest, when one
factor has all 53 bits. -/
theorem mul_eq_nearest (s₁ s₂ : Sign) {m₁ m₂ : Nat} (e₁ e₂ : Int) (h₁ : 0 < m₁) (h₂ : 0 < m₂)
    (wide : 2 ^ 52 ≤ m₂) :
    UnpackedFloat.mul Format.binary64 (.finite s₁ m₁ e₁ h₁) (.finite s₂ m₂ e₂ h₂) =
      nearest (s₁ * s₂) (m₁ * 2 ^ e₁ * (m₂ * 2 ^ e₂)) := by
  have value : (((m₁ * m₂ : Nat) : ℚ) + ((0 : Nat) : ℚ) / ((1 : Nat) : ℚ)) * 2 ^ (e₁ + e₂) =
      m₁ * 2 ^ e₁ * (m₂ * 2 ^ e₂) := by
    push_cast
    rw [zpow_add₀ (by norm_num)]
    ring
  -- the product has at least 53 bits, so its last place is at or above `e₁ + e₂`
  have bits : 52 ≤ (m₁ * m₂).log2 :=
    (Nat.le_log2 (Nat.mul_ne_zero (by omega) (by omega))).2
      (le_trans wide (Nat.le_mul_of_pos_left _ h₁))
  have enough : e₁ + e₂ ≤
      lastPlace ((((m₁ * m₂ : Nat) : ℚ) + ((0 : Nat) : ℚ) / ((1 : Nat) : ℚ)) * 2 ^ (e₁ + e₂)) := by
    rw [lastPlace, log_mantissa (Nat.mul_pos h₁ h₂) (by simp) (by simp)]
    omega
  simp only [UnpackedFloat.mul]
  rw [show Accuracy.exact = accuracyOfFraction 0 1 from rfl,
    roundWithAccuracy_eq_nearest _ _ (Nat.mul_pos h₁ h₂) Nat.zero_lt_one enough, value]

/-- Above the least subnormal, a rational is at least two to the power of its last place. -/
theorem two_pow_lastPlace_le {x : ℚ} (above : (2 : ℚ) ^ (-1074 : Int) ≤ x) :
    (2 : ℚ) ^ lastPlace x ≤ x := by
  have positive : 0 < x := lt_of_lt_of_le (by positivity) above
  rcases max_cases (Int.log 2 x - 52) (-1074) with ⟨place, -⟩ | ⟨place, -⟩
  · rw [lastPlace, place]
    calc (2 : ℚ) ^ (Int.log 2 x - 52) ≤ 2 ^ Int.log 2 x :=
          zpow_le_zpow_right₀ (by norm_num) (by omega)
      _ ≤ x := by simpa using Int.zpow_log_le_self (by norm_num : 1 < 2) positive
  · rw [lastPlace, place]
    exact above

/-- The exponent the model divides at, for binary64. -/
theorem targetExponent_binary64 (T : Int) :
    Format.binary64.targetExponent T = max (T - 53) (-1074) := by
  simp only [Format.targetExponent, Format.mantissaBits, Format.minExponent]
  norm_num

/-- The leading bits of two significands bound the leading bit of their quotient from below. -/
theorem le_log_div {m₁ m₂ : Nat} (h₁ : 0 < m₁) (h₂ : 0 < m₂) (e₁ e₂ : Int) :
    (m₁.log2 : Int) + e₁ - (m₂.log2 + 1 + e₂) ≤ Int.log 2 ((m₁ : ℚ) * 2 ^ e₁ / (m₂ * 2 ^ e₂)) := by
  rw [← Int.zpow_le_iff_le_log (by norm_num) (by positivity)]
  have low₁ : ((2 ^ m₁.log2 : Nat) : ℚ) ≤ m₁ := by exact_mod_cast Nat.log2_self_le (by omega)
  have high₂ : (m₂ : ℚ) < ((2 ^ (m₂.log2 + 1) : Nat) : ℚ) := by exact_mod_cast Nat.lt_log2_self
  rw [le_div_iff₀ (by positivity)]
  calc ((2 : Nat) : ℚ) ^ ((m₁.log2 : Int) + e₁ - (m₂.log2 + 1 + e₂)) * (m₂ * 2 ^ e₂)
      ≤ ((2 : Nat) : ℚ) ^ ((m₁.log2 : Int) + e₁ - (m₂.log2 + 1 + e₂)) *
          (((2 ^ (m₂.log2 + 1) : Nat) : ℚ) * 2 ^ e₂) :=
        mul_le_mul_of_nonneg_left (mul_le_mul_of_nonneg_right high₂.le (by positivity))
          (by positivity)
    _ = ((2 ^ m₁.log2 : Nat) : ℚ) * 2 ^ e₁ := by
        push_cast
        rw [← zpow_natCast, ← zpow_natCast, ← zpow_add₀ (by norm_num), ← zpow_add₀ (by norm_num),
          ← zpow_add₀ (by norm_num)]
        congr 1
        push_cast
        ring
    _ ≤ m₁ * 2 ^ e₁ := mul_le_mul_of_nonneg_right low₁ (by positivity)

/-- The quotient of two positive finite parts, from the least subnormal on, is the exact
quotient rounded to nearest. -/
theorem div_eq_nearest (s₁ s₂ : Sign) {m₁ m₂ : Nat} (e₁ e₂ : Int) (h₁ : 0 < m₁) (h₂ : 0 < m₂)
    (above : (2 : ℚ) ^ (-1074 : Int) ≤ m₁ * 2 ^ e₁ / (m₂ * 2 ^ e₂)) :
    UnpackedFloat.div Format.binary64 (.finite s₁ m₁ e₁ h₁) (.finite s₂ m₂ e₂ h₂) =
      nearest (s₁ / s₂) (m₁ * 2 ^ e₁ / (m₂ * 2 ^ e₂)) := by
  simp only [UnpackedFloat.div, divCore, targetExponent_binary64, totalExponent]
  generalize ht : min (e₁ - e₂) (max ((m₁.log2 : Int) + 1 + e₁ - (m₂.log2 + 1 + e₂) - 53) (-1074))
    = t
  generalize hX : (m₁ : ℚ) * 2 ^ e₁ / (m₂ * 2 ^ e₂) = X at above ⊢
  -- the dividend is shifted left so that the quotient is taken at the exponent `t`
  have shifted : ((m₁ <<< (e₁ - e₂ - t).toNat : Nat) : ℚ) * 2 ^ t = m₁ * 2 ^ (e₁ - e₂) := by
    rw [Nat.shiftLeft_eq]
    push_cast
    rw [mul_assoc, ← zpow_natCast, ← zpow_add₀ (by norm_num)]
    congr 2
    omega
  generalize m₁ <<< (e₁ - e₂ - t).toNat = m at shifted
  have split : ((m / m₂ : Nat) : ℚ) + (m % m₂ : Nat) / (m₂ : ℚ) = m / m₂ := by
    have := Nat.div_add_mod m m₂
    have cast : ((m₂ * (m / m₂) + m % m₂ : Nat) : ℚ) = m := by rw [this]
    push_cast at cast
    field_simp
    linarith
  have value : ((m / m₂ : Nat) + (m % m₂ : Nat) / (m₂ : ℚ)) * 2 ^ t = X := by
    rw [split, ← hX, div_mul_eq_mul_div, shifted, zpow_sub₀ (by norm_num)]
    field_simp
  have log := le_log_div h₁ h₂ e₁ e₂
  rw [hX] at log
  have enough : t ≤ lastPlace X := by simp only [lastPlace]; omega
  -- at or below the last place, the quotient has at least one bit
  have quotient : 0 < m / m₂ := by
    have low : (2 : ℚ) ^ t ≤ X :=
      le_trans (zpow_le_zpow_right₀ (by norm_num) enough) (two_pow_lastPlace_le above)
    have : (m₂ : ℚ) ≤ m := by
      rw [← value, split] at low
      have one : (1 : ℚ) ≤ m / m₂ := le_of_mul_le_mul_right (by rwa [one_mul]) (by positivity)
      exact (one_le_div (by exact_mod_cast h₂)).1 one
    exact Nat.div_pos (by exact_mod_cast this) h₂
  rw [roundWithAccuracy_eq_nearest _ t quotient (Nat.mod_lt _ h₂) (by rw [value]; exact enough),
    value]

/-- The model's rounding of `n * 2 ^ c`, after it lowers the exponent to the target, is rounding
to nearest. -/
theorem round_eq_nearest (s : Sign) {n : Nat} (c : Int) (pos : 0 < n) :
    UnpackedFloat.round Format.binary64 s n c = nearest s (n * 2 ^ c) := by
  simp only [UnpackedFloat.round, decreaseExponent, targetExponent_binary64, totalExponent,
    Nat.shiftLeft_eq]
  generalize hj : (c - max ((n.log2 : Int) + 1 + c - 53) (-1074)).toNat = j
  have value : (((n * 2 ^ j : Nat) : ℚ) + ((0 : Nat) : ℚ) / ((1 : Nat) : ℚ)) * 2 ^ (c - j) =
      n * 2 ^ c := by
    push_cast
    rw [zero_div, add_zero, mul_assoc, ← zpow_natCast, ← zpow_add₀ (by norm_num)]
    congr 2
    ring
  have log : Int.log 2 ((n : ℚ) * 2 ^ c) = n.log2 + c := by
    simpa using log_mantissa pos (le_refl (0 : ℚ)) zero_lt_one c
  have enough : c - j ≤ lastPlace ((n : ℚ) * 2 ^ c) := by
    rw [lastPlace, log]
    omega
  rw [show Accuracy.exact = accuracyOfFraction 0 1 from rfl,
    roundWithAccuracy_eq_nearest s (c - j) (Nat.mul_pos pos (Nat.two_pow_pos j)) Nat.zero_lt_one
      (by rw [value]; exact enough), value]

/-- A value with canonical parts rounds to itself. -/
theorem nearest_of_canonical (s : Sign) {M : Nat} {T : Int} (canonical : Canonical M T) :
    nearest s (M * 2 ^ T) = .finite s M T canonical.1 := by
  obtain ⟨pos, small, low, -, normal⟩ := canonical
  have log : Int.log 2 ((M : ℚ) * 2 ^ T) = M.log2 + T := by
    simpa using log_mantissa pos (le_refl (0 : ℚ)) zero_lt_one T
  have bits : M.log2 ≤ 52 := by
    have := (Nat.log2_lt (Nat.pos_iff_ne_zero.1 pos)).2 small
    omega
  have place : lastPlace (M * 2 ^ T) = T := by
    rw [lastPlace, log]
    rcases normal with lead | least
    · have : M.log2 = 52 := le_antisymm bits ((Nat.le_log2 (Nat.pos_iff_ne_zero.1 pos)).2 lead)
      omega
    · omega
  have scaled : (M : ℚ) * 2 ^ T / 2 ^ T = M := by field_simp
  unfold nearest carried
  rw [place, scaled, roundEven_natCast, dif_neg (Nat.pos_iff_ne_zero.1 pos), if_pos small]

end Operations

section Values

/-- Above the least exponent, a positive rational has at least 53 bits before its last place. -/
theorem two_pow_le_div_lastPlace {x : ℚ} (positive : 0 < x) (normal : -1074 < lastPlace x) :
    (2 : ℚ) ^ 52 ≤ x / 2 ^ lastPlace x := by
  have place : lastPlace x = Int.log 2 x - 52 := by simp only [lastPlace] at normal ⊢; omega
  rw [le_div_iff₀ (by positivity), place]
  calc (2 : ℚ) ^ 52 * 2 ^ (Int.log 2 x - 52) = 2 ^ Int.log 2 x := by
        rw [← zpow_natCast, ← zpow_add₀ (by norm_num)]
        congr 1
        omega
    _ ≤ x := by simpa using Int.zpow_log_le_self (by norm_num : 1 < 2) positive

theorem roundEven_zero : roundEven 0 = 0 := by simp [roundEven]

theorem nearest_zero (s : Sign) : nearest s 0 = .zero s := by
  simp [nearest, carried, roundEven_zero]

theorem nearestValue_zero : nearestValue 0 = 0 := by simp [nearestValue, roundEven_zero]

theorem nearestValue_nonneg (x : ℚ) : 0 ≤ nearestValue x := by
  unfold nearestValue
  positivity

/-- The last place grows with the value. -/
theorem lastPlace_mono {x y : ℚ} (positive : 0 < x) (le : x ≤ y) : lastPlace x ≤ lastPlace y := by
  have := Int.log_mono_right (b := 2) positive le
  unfold lastPlace
  omega

/-- Above the least exponent, a value at least twice another has a higher last place. -/
theorem lastPlace_lt_of_two_mul_le {x y : ℚ} (positive : 0 < x) (double : 2 * x ≤ y)
    (normal : -1074 < lastPlace y) : lastPlace x < lastPlace y := by
  have step : Int.log 2 x + 1 ≤ Int.log 2 y := by
    rw [← Int.zpow_le_iff_le_log (by norm_num) (by linarith), Nat.cast_ofNat]
    calc (2 : ℚ) ^ (Int.log 2 x + 1) = 2 * 2 ^ Int.log 2 x := by
          rw [zpow_add_one₀ (by norm_num), mul_comm]
      _ ≤ 2 * x := by
          have := Int.zpow_log_le_self (by norm_num : 1 < 2) positive
          rw [Nat.cast_ofNat] at this
          linarith
      _ ≤ y := double
  unfold lastPlace at normal ⊢
  omega

/-- The nearest double to a nonnegative rational is a zero, or canonical parts worth
`nearestValue x` (the exponent's upper bound apart). -/
theorem nearest_parts (s : Sign) {x : ℚ} (nonneg : 0 ≤ x) :
    (nearest s x = .zero s ∧ nearestValue x = 0) ∨
      ∃ M T h, nearest s x = .finite s M T h ∧ (M : ℚ) * 2 ^ T = nearestValue x ∧
        M < 2 ^ 53 ∧ -1074 ≤ T ∧ (2 ^ 52 ≤ M ∨ T = -1074) := by
  rcases nonneg.lt_or_eq with positive | zero
  swap
  · -- zero rounds to zero
    subst zero
    exact .inl ⟨nearest_zero s, nearestValue_zero⟩
  have least : -1074 ≤ lastPlace x := le_max_right _ _
  have at_most : roundEven (x / 2 ^ lastPlace x) ≤ 2 ^ 53 :=
    roundEven_le_of_le (by exact_mod_cast (div_two_pow_lastPlace_lt x).le)
  -- above the least exponent the significand has all 53 bits
  have normal : -1074 < lastPlace x → 2 ^ 52 ≤ roundEven (x / 2 ^ lastPlace x) := fun above =>
    le_trans (Nat.le_floor (by exact_mod_cast two_pow_le_div_lastPlace positive above))
      (floor_le_roundEven _)
  unfold nearest carried nearestValue
  generalize roundEven (x / 2 ^ lastPlace x) = n at at_most normal ⊢
  split_ifs with zero small
  · exact .inl ⟨rfl, by simp [zero]⟩
  · refine .inr ⟨n, lastPlace x, Nat.pos_of_ne_zero zero, rfl, rfl, small, least, ?_⟩
    by_cases at_least : lastPlace x = -1074
    · exact .inr at_least
    · exact .inl (normal (by omega))
  · -- the carry: `2 ^ 53` units are `2 ^ 52` units of the next exponent
    refine .inr ⟨2 ^ 52, lastPlace x + 1, Nat.two_pow_pos 52, rfl, ?_, by decide, by omega,
      .inl le_rfl⟩
    rw [show n = 2 ^ 53 by omega, zpow_add₀ (by norm_num)]
    push_cast
    ring

/-- Rounding to nearest moves a nonnegative rational by at most half of its last place. -/
theorem abs_nearestValue_sub_le {x : ℚ} (nonneg : 0 ≤ x) :
    |nearestValue x - x| ≤ 2 ^ lastPlace x / 2 := by
  have unit : (0 : ℚ) < 2 ^ lastPlace x := by positivity
  have half := abs_roundEven_sub_le (div_nonneg nonneg unit.le)
  calc |nearestValue x - x| = |(roundEven (x / 2 ^ lastPlace x) : ℚ) - x / 2 ^ lastPlace x| *
        2 ^ lastPlace x := by
        rw [← abs_of_pos unit, ← abs_mul, abs_of_pos unit, nearestValue, sub_mul,
          div_mul_cancel₀ _ unit.ne']
    _ ≤ 1 / 2 * 2 ^ lastPlace x := mul_le_mul_of_nonneg_right half unit.le
    _ = 2 ^ lastPlace x / 2 := by ring

/-- Above the least exponent, the nearest double keeps 53 bits. -/
theorem two_pow_le_nearestValue {x : ℚ} (positive : 0 < x) (normal : -1074 < lastPlace x) :
    (2 : ℚ) ^ 52 * 2 ^ lastPlace x ≤ nearestValue x := by
  have : 2 ^ 52 ≤ roundEven (x / 2 ^ lastPlace x) :=
    le_trans (Nat.le_floor (by exact_mod_cast two_pow_le_div_lastPlace positive normal))
      (floor_le_roundEven _)
  rw [nearestValue]
  exact mul_le_mul_of_nonneg_right (by exact_mod_cast this) (by positivity)

/-- The nearest double is at most `2 ^ 53` units of the last place. -/
theorem nearestValue_le (x : ℚ) : nearestValue x ≤ 2 ^ (lastPlace x + 53) := by
  have : roundEven (x / 2 ^ lastPlace x) ≤ 2 ^ 53 :=
    roundEven_le_of_le (by exact_mod_cast (div_two_pow_lastPlace_lt x).le)
  rw [nearestValue, zpow_add₀ (by norm_num), mul_comm ((2 : ℚ) ^ lastPlace x)]
  exact mul_le_mul_of_nonneg_right (by exact_mod_cast this) (by positivity)

end Values

section Units

theorem ofFloat_ofNat_one : ofFloat (Float.ofNat 1) = .finite false (2 ^ 52) (-52) := by decide

theorem value_ofNat_one : ((2 ^ 52 : Nat) : ℚ) * 2 ^ (-52 : Int) = 1 := by norm_num

/-- Multiplying a finite double by one keeps its parts. -/
theorem ofFloat_mul_ofNat_one {x : Float} {neg : Bool} {m : Nat} {e : Int}
    (parts : ofFloat x = .finite neg m e) : ofFloat (x * Float.ofNat 1) = .finite neg m e := by
  rw [ofFloat_mul, parts, ofFloat_ofNat_one, toUnpacked_pos _ (Nat.two_pow_pos 52)]
  rcases ofBits_finite_canonical parts with ⟨rfl, rfl⟩ | canonical
  · rw [toUnpacked_zero]
    simp only [UnpackedFloat.mul, signOf_mul_positive, ofBits_pack_zero, signOf_beq_negative]
  · rw [toUnpacked_of_pos _ _ canonical.1, mul_eq_nearest _ _ _ _ _ _ le_rfl, value_ofNat_one,
      mul_one, signOf_mul_positive, nearest_of_canonical _ canonical, ofBits_pack_finite _ _ _ _ canonical,
      signOf_beq_negative]

/-- Dividing a finite double by one keeps its parts. -/
theorem ofFloat_div_ofNat_one {x : Float} {neg : Bool} {m : Nat} {e : Int}
    (parts : ofFloat x = .finite neg m e) : ofFloat (x / Float.ofNat 1) = .finite neg m e := by
  rw [ofFloat_div, parts, ofFloat_ofNat_one, toUnpacked_pos _ (Nat.two_pow_pos 52)]
  rcases ofBits_finite_canonical parts with ⟨rfl, rfl⟩ | canonical
  · rw [toUnpacked_zero]
    simp only [UnpackedFloat.div, signOf_div_positive, ofBits_pack_zero, signOf_beq_negative]
  · have above : (2 : ℚ) ^ (-1074 : Int) ≤ m * 2 ^ e :=
      calc (2 : ℚ) ^ (-1074 : Int) ≤ 1 * 2 ^ e := by
            rw [one_mul]; exact zpow_le_zpow_right₀ (by norm_num) canonical.2.2.1
        _ ≤ m * 2 ^ e := mul_le_mul_of_nonneg_right (by exact_mod_cast canonical.1) (by positivity)
    rw [toUnpacked_of_pos _ _ canonical.1,
      div_eq_nearest _ _ _ _ _ _ (by rw [value_ofNat_one, div_one]; exact above),
      value_ofNat_one, div_one, signOf_div_positive, nearest_of_canonical _ canonical,
      ofBits_pack_finite _ _ _ _ canonical, signOf_beq_negative]

end Units

end Abacus.Binary64
