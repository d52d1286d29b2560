import Mathlib
import Abacus.Binary64

/-!
# Rounding to nearest in binary64

The logical float model rounds an exact value `N * 2 ^ E` by shifting `N` right to the
exponent that keeps 53 significant bits (and no less than `-1074`), rounding to nearest with
ties to even on the bits shifted out, and shifting once more if rounding carried the
significand to `2 ^ 53`. The number of bits dropped is `dropped N E`, and rounding is this
shift, the rounding and the carry (`roundWithAccuracy_eq`).

Two facts follow that the arithmetic of the calculator needs. Rounding moves the shifted
significand up by at most half of what is dropped (`rounded_shift_bounds`), so a product stays
below a bound it is far enough below (`rounded_mul_lt`). And a value that has at most 53
significant bits at an exponent from `-1074` on is rounded exactly, to its canonical parts
(`round_of_representable`), which makes a subtraction exact whenever its result fits.
-/

open Float.Model Float.Model.UnpackedFloat

namespace Abacus.Binary64

section Shift

/-- Shifting an extended significand right divides it by a power of two. -/
theorem shift_mantissa (em : ExtendedMantissa) (k : Nat) :
    (em >>> k).mantissa = em.mantissa / 2 ^ k := by
  induction k generalizing em with
  | zero => simp [HShiftRight.hShiftRight, Nat.repeat]
  | succ k ih =>
    change (Nat.repeat ExtendedMantissa.shiftRightOne (k + 1) em).mantissa = _
    change (em >>> k).mantissa / 2 = _
    rw [ih, Nat.div_div_eq_div_mul, Nat.pow_succ]

/-- Shifting an exact significand by a power of two that divides it loses nothing. -/
theorem shift_exact_of_dvd (N k : Nat) (dvd : 2 ^ k ∣ N) :
    ((⟨N, false, false⟩ : ExtendedMantissa) >>> k) = ⟨N / 2 ^ k, false, false⟩ := by
  induction k with
  | zero => simp [HShiftRight.hShiftRight, Nat.repeat]
  | succ k ih =>
    have dvd' : 2 ^ k ∣ N := Nat.dvd_trans (Nat.pow_dvd_pow 2 (Nat.le_succ k)) dvd
    change ExtendedMantissa.shiftRightOne ((⟨N, false, false⟩ : ExtendedMantissa) >>> k) = _
    rw [ih dvd']
    have even : N / 2 ^ k % 2 = 0 := by
      obtain ⟨c, rfl⟩ := dvd
      rw [Nat.pow_succ, Nat.mul_assoc, Nat.mul_div_cancel_left _ (Nat.two_pow_pos k)]
      simp
    simp [ExtendedMantissa.shiftRightOne, even, Nat.div_div_eq_div_mul, Nat.pow_succ]

/-- Rounding to nearest keeps a significand or moves it up by one. -/
theorem roundedMantissa_bounds (em : ExtendedMantissa) :
    em.mantissa ≤ em.roundedMantissa ∧ em.roundedMantissa ≤ em.mantissa + 1 := by
  obtain ⟨m, r, s⟩ := em
  cases r <;> cases s <;>
    simp [ExtendedMantissa.roundedMantissa, ExtendedMantissa.accuracy,
      Accuracy.roundToNearestEven]
  omega

end Shift

section Target

/-- The exponent rounding aims at keeps 53 significant bits, and is never below `-1074`. -/
theorem targetExponent_eq (N : Nat) (E : Int) :
    Format.binary64.targetExponent (totalExponent N E) = max (N.log2 + E - 52) (-1074) := by
  simp only [Format.targetExponent, totalExponent, Format.mantissaBits, Format.minExponent]
  norm_num
  omega

/-- How many bits rounding drops from `N * 2 ^ E`. -/
def dropped (N : Nat) (E : Int) : Nat := (max (N.log2 + E - 52) (-1074) - E).toNat

/-- Rounding never goes below the least exponent, and keeps at most 53 bits. -/
theorem dropped_bounds (N : Nat) (E : Int) :
    -1074 ≤ E + dropped N E ∧ N.log2 ≤ 52 + dropped N E := by
  simp only [dropped]
  omega

/-- A significand of at most 53 bits at an exponent from `-1074` on is not shifted. -/
theorem shiftToTargetExponent_of_small (N : Nat) (E : Int) (small : N < 2 ^ 53)
    (above : -1074 ≤ E) :
    shiftToTargetExponent Format.binary64 N E .exact = (⟨N, false, false⟩, E) := by
  have bits : N.log2 ≤ 52 := by
    rcases Nat.eq_zero_or_pos N with rfl | pos
    · simp
    · have := (Nat.log2_lt (Nat.pos_iff_ne_zero.1 pos)).2 small
      omega
  have none : (Format.binary64.targetExponent (totalExponent N E) - E).toNat = 0 := by
    rw [targetExponent_eq]
    omega
  simp [shiftToTargetExponent, shiftToExponent, none, HShiftRight.hShiftRight, Nat.repeat,
    ExtendedMantissa.ofMantissaAndAccuracy]

/-- A significand that rounding carried to `2 ^ 53` is shifted once more. -/
theorem shiftToTargetExponent_carry (E : Int) (above : -1074 ≤ E) :
    shiftToTargetExponent Format.binary64 (2 ^ 53) E .exact = (⟨2 ^ 52, false, false⟩, E + 1) := by
  have target : Format.binary64.targetExponent (totalExponent (2 ^ 53) E) = E + 1 := by
    rw [targetExponent_eq, Nat.log2_two_pow]
    omega
  unfold shiftToTargetExponent
  rw [target]
  simp [shiftToExponent, HShiftRight.hShiftRight, Nat.repeat,
    ExtendedMantissa.ofMantissaAndAccuracy, ExtendedMantissa.shiftRightOne]

/-- Rounding after the shift carries at most to `2 ^ 53`. -/
theorem rounded_le_two_pow (N : Nat) (E : Int) :
    ((⟨N, false, false⟩ : ExtendedMantissa) >>> dropped N E).roundedMantissa ≤ 2 ^ 53 := by
  have ⟨_, bits⟩ := dropped_bounds N E
  have fits : N / 2 ^ dropped N E < 2 ^ 53 := by
    rw [Nat.div_lt_iff_lt_mul (Nat.two_pow_pos _), ← Nat.pow_add]
    exact lt_of_lt_of_le Nat.lt_log2_self (Nat.pow_le_pow_right (by decide) (by omega))
  have := (roundedMantissa_bounds ((⟨N, false, false⟩ : ExtendedMantissa) >>> dropped N E)).2
  rw [shift_mantissa] at this
  dsimp only at this
  omega

/-- Rounding an exact `N * 2 ^ E` to nearest: the significand shifted right by `dropped N E`,
rounded, and carried into the exponent when it reaches `2 ^ 53`. -/
theorem roundWithAccuracy_eq (s : Sign) (N : Nat) (E : Int) :
    roundWithAccuracy Format.binary64 s N E .exact =
      if h : ((⟨N, false, false⟩ : ExtendedMantissa) >>> dropped N E).roundedMantissa = 0 then
        .zero s
      else if ((⟨N, false, false⟩ : ExtendedMantissa) >>> dropped N E).roundedMantissa < 2 ^ 53
      then .finite s _ (E + dropped N E) (Nat.pos_of_ne_zero h)
      else .finite s (2 ^ 52) (E + dropped N E + 1) (by decide) := by
  have first : shiftToTargetExponent Format.binary64 N E .exact =
      ((⟨N, false, false⟩ : ExtendedMantissa) >>> dropped N E, E + dropped N E) := by
    simp only [shiftToTargetExponent, shiftToExponent, targetExponent_eq, dropped,
      ExtendedMantissa.ofMantissaAndAccuracy]
  obtain ⟨above, -⟩ := dropped_bounds N E
  have at_most := rounded_le_two_pow N E
  rw [roundWithAccuracy, first]
  dsimp only
  generalize ((⟨N, false, false⟩ : ExtendedMantissa) >>> dropped N E).roundedMantissa = r at *
  by_cases zero : r = 0
  · subst zero
    rw [shiftToTargetExponent_of_small 0 _ (by decide) above]
    rfl
  by_cases small : r < 2 ^ 53
  · rw [shiftToTargetExponent_of_small r _ small above]
    simp only [zero, small, ↓reduceDIte, ↓reduceIte]
  · have carried : r = 2 ^ 53 := by omega
    subst carried
    rw [shiftToTargetExponent_carry _ above]
    rfl

/-- When the bits rounding drops are all zero, rounding is exact. -/
theorem roundWithAccuracy_of_dvd (s : Sign) (N : Nat) (E : Int) (pos : 0 < N)
    (exact : 2 ^ dropped N E ∣ N) :
    N / 2 ^ dropped N E < 2 ^ 53 ∧ ∃ h, roundWithAccuracy Format.binary64 s N E .exact =
      .finite s (N / 2 ^ dropped N E) (E + dropped N E) h := by
  have ⟨_, bits⟩ := dropped_bounds N E
  have fits : N / 2 ^ dropped N E < 2 ^ 53 := by
    rw [Nat.div_lt_iff_lt_mul (Nat.two_pow_pos _), ← Nat.pow_add]
    exact lt_of_lt_of_le Nat.lt_log2_self (Nat.pow_le_pow_right (by decide) (by omega))
  have nonzero : 0 < N / 2 ^ dropped N E :=
    Nat.div_pos (Nat.le_of_dvd pos exact) (Nat.two_pow_pos _)
  have rounded : ((⟨N, false, false⟩ : ExtendedMantissa) >>> dropped N E).roundedMantissa =
      N / 2 ^ dropped N E := by
    rw [shift_exact_of_dvd N _ exact]
    rfl
  refine ⟨fits, nonzero, ?_⟩
  rw [roundWithAccuracy_eq]
  simp only [rounded, Nat.pos_iff_ne_zero.1 nonzero, fits, ↓reduceDIte, ↓reduceIte]

end Target

section Exact

/-- Shifting left by `j` moves the leading bit up by `j`. -/
theorem log2_mul_two_pow {M : Nat} (pos : 0 < M) (j : Nat) : (M * 2 ^ j).log2 = M.log2 + j := by
  have nonzero : M ≠ 0 := Nat.pos_iff_ne_zero.1 pos
  rw [Nat.log2_eq_iff (Nat.mul_ne_zero nonzero (Nat.pos_iff_ne_zero.1 (Nat.two_pow_pos j)))]
  constructor
  · rw [Nat.pow_add]
    exact Nat.mul_le_mul_right _ (Nat.log2_self_le nonzero)
  · rw [Nat.add_right_comm, Nat.pow_add]
    exact Nat.mul_lt_mul_of_pos_right Nat.lt_log2_self (Nat.two_pow_pos j)

/-- Equal values `D * 2 ^ E = M * 2 ^ T` with `E ≤ T`: `D` is `M` shifted left. -/
theorem eq_mul_two_pow_of_value {D M : Nat} {E T : Int}
    (same : (D : ℚ) * 2 ^ E = M * 2 ^ T) (le : E ≤ T) : D = M * 2 ^ (T - E).toNat := by
  have pow : (2 : ℚ) ^ T = 2 ^ E * 2 ^ (T - E).toNat := by
    rw [← zpow_natCast, ← zpow_add₀ (by norm_num)]
    congr 1
    omega
  have key : (D : ℚ) * 2 ^ E = ((M * 2 ^ (T - E).toNat : Nat) : ℚ) * 2 ^ E := by
    rw [same, pow]
    push_cast
    ring
  exact_mod_cast mul_right_cancel₀ (zpow_ne_zero E (by norm_num : (2 : ℚ) ≠ 0)) key

/-- A value with at most 53 significant bits at an exponent from `-1074` on is rounded
exactly, to the canonical parts of the same value. -/
theorem round_of_representable (s : Sign) {D : Nat} {E : Int} (pos : 0 < D) {M : Nat} {T : Int}
    (small : M < 2 ^ 53) (low : -1074 ≤ T) (same : (D : ℚ) * 2 ^ E = M * 2 ^ T) :
    ∃ M' T' h, UnpackedFloat.round Format.binary64 s D E = .finite s M' T' h ∧
      (M' : ℚ) * 2 ^ T' = D * 2 ^ E ∧ M' < 2 ^ 53 ∧ -1074 ≤ T' ∧ (2 ^ 52 ≤ M' ∨ T' = -1074) ∧
      T' ≤ T := by
  have positive : 0 < M := by
    rcases Nat.eq_zero_or_pos M with rfl | h
    · have : (D : ℚ) * 2 ^ E = 0 := by rw [same]; simp
      have : (D : ℚ) = 0 := (mul_eq_zero.1 this).resolve_right (zpow_ne_zero _ (by norm_num))
      exact absurd (by exact_mod_cast this) (Nat.pos_iff_ne_zero.1 pos)
    · exact h
  -- equal values have equal leading positions
  have logs : (D.log2 : Int) + E = M.log2 + T := by
    rcases le_total E T with le | ge
    · rw [eq_mul_two_pow_of_value same le, log2_mul_two_pow positive]
      omega
    · rw [eq_mul_two_pow_of_value same.symm ge, log2_mul_two_pow pos]
      omega
  have top : M.log2 ≤ 52 := by have := (Nat.log2_lt (Nat.pos_iff_ne_zero.1 positive)).2 small; omega
  simp only [UnpackedFloat.round, decreaseExponent, targetExponent_eq, Nat.shiftLeft_eq]
  generalize target : max ((D.log2 : Int) + E - 52) (-1074) = t
  have below : t ≤ T := by omega
  generalize lift : (E - t).toNat = j
  have shifted : (D * 2 ^ j).log2 = D.log2 + j := log2_mul_two_pow pos j
  -- after the shift, the bits rounding drops reach exactly the target exponent
  have drop : dropped (D * 2 ^ j) (E - j) = (t - (E - j)).toNat := by
    simp only [dropped, shifted]
    congr 2
    omega
  have exact : 2 ^ dropped (D * 2 ^ j) (E - j) ∣ D * 2 ^ j := by
    rw [drop]
    rcases le_total t E with le | gt
    · rw [show (t - (E - j)).toNat = 0 by omega]
      exact Nat.one_dvd _
    · rw [show j = 0 by omega, Nat.pow_zero, Nat.mul_one, eq_mul_two_pow_of_value same (by omega)]
      exact Nat.dvd_mul_left_of_dvd (Nat.pow_dvd_pow 2 (by omega)) M
  obtain ⟨fits, nonzero, rounds⟩ :=
    roundWithAccuracy_of_dvd s (D * 2 ^ j) (E - j) (Nat.mul_pos pos (Nat.two_pow_pos j)) exact
  have reaches : E - j + dropped (D * 2 ^ j) (E - j) = t := by rw [drop]; omega
  refine ⟨_, t, nonzero, by rw [rounds, reaches], ?_, fits, by omega, ?_, below⟩
  all_goals
    obtain ⟨c, hc⟩ := exact
    have bits : (D * 2 ^ j).log2 = D.log2 + j := shifted
    generalize dropped (D * 2 ^ j) (E - j) = k at hc drop reaches ⊢
    rw [hc, Nat.mul_div_cancel_left _ (Nat.two_pow_pos _)]
  · -- the value is kept
    have : (D : ℚ) * 2 ^ j = 2 ^ k * c := by exact_mod_cast hc
    rw [← reaches, zpow_add₀ (by norm_num), zpow_sub₀ (by norm_num), zpow_natCast, zpow_natCast]
    field_simp
    rw [mul_comm (c : ℚ), ← this, mul_comm]
  · -- a target above the least exponent keeps all 53 bits
    rcases le_or_gt (D.log2 + E - 52 : Int) (-1074) with least | full
    · right; omega
    · left
      have lower : 2 ^ (D * 2 ^ j).log2 ≤ D * 2 ^ j :=
        Nat.log2_self_le (Nat.mul_ne_zero (Nat.pos_iff_ne_zero.1 pos)
          (Nat.pos_iff_ne_zero.1 (Nat.two_pow_pos j)))
      rw [bits, show D.log2 + j = k + 52 by omega, Nat.pow_add, hc] at lower
      exact Nat.le_of_mul_le_mul_left lower (Nat.two_pow_pos _)

end Exact

end Abacus.Binary64
