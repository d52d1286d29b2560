import Abacus.Proofs.Binary64.HalfAway
import Mathlib.Data.Nat.Cast.Field

/-!
# Exact values of doubles, and the safe integers

A finite double with parts `neg`, `m`, `e` is worth `±m * 2 ^ e` (`toRat?`); NaN and the
infinities have no value. A double is its bit pattern, and away from NaN the pattern is fixed by
its parts (`eq_of_ofFloat_eq`); nonzero parts are in turn fixed by their value
(`Canonical.unique`). So a finite double is determined by its value and, for zero, its sign.

The integral helpers compute with this value: `floorMagnitude m e` is `⌊m * 2 ^ e⌋`
(`floorMagnitude_eq_floor`) and `isIntegral m e` says that the floor is exact
(`isIntegral_iff`).

Main statement (`safe_conversions_inverse`): an integer converts to a double exactly when it is
safe, and the double converts back to it; a double converts to an integer exactly when it is
finite, integral and safe, the integer is its value, and converting that integer back gives
the double again, except that negative zero comes back as zero.
-/

namespace Abacus.Binary64

section Value

/-- The exact value of a finite double; NaN and the infinities have none. -/
def toRat? : Binary64 → Option ℚ
  | .finite neg m e => some ((if neg then -(m : ℚ) else m) * 2 ^ e)
  | _ => none

@[simp] theorem toRat?_finite (neg : Bool) (m : Nat) (e : Int) :
    (Binary64.finite neg m e).toRat? = some ((if neg then -(m : ℚ) else m) * 2 ^ e) := rfl

@[simp] theorem toRat?_nan : Binary64.nan.toRat? = none := rfl

@[simp] theorem toRat?_infinite (neg : Bool) : (Binary64.infinite neg).toRat? = none := rfl

/-- Parts with a negative exponent are worth the significand over `2 ^ |e|`. -/
theorem mul_zpow_of_neg (m : Nat) {e : Int} (neg : e < 0) :
    (m : ℚ) * 2 ^ e = m / 2 ^ e.natAbs := by
  rw [eq_div_iff (by positivity), mul_assoc, mul_comm ((2 : ℚ) ^ e),
    two_pow_natAbs_mul_zpow neg, mul_one]

/-- Parts with a nonnegative exponent are worth a natural number. -/
theorem mul_zpow_of_nonneg (m : Nat) {e : Int} (nonneg : 0 ≤ e) :
    (m : ℚ) * 2 ^ e = ((m * 2 ^ e.toNat : Nat) : ℚ) := by
  push_cast
  rw [← zpow_natCast, Int.toNat_of_nonneg nonneg]

/-- `floorMagnitude` is the floor of the value of the parts. -/
theorem floorMagnitude_eq_floor (m : Nat) (e : Int) :
    floorMagnitude m e = ⌊(m : ℚ) * 2 ^ e⌋₊ := by
  by_cases neg : e < 0
  · rw [mul_zpow_of_neg m neg, floorMagnitude, if_pos neg, Nat.pow_eq]
    have floor : ⌊(m : ℚ) / ((2 ^ e.natAbs : Nat) : ℚ)⌋₊ = m / 2 ^ e.natAbs :=
      Nat.floor_div_eq_div m (2 ^ e.natAbs)
    push_cast at floor
    exact floor.symm
  · rw [mul_zpow_of_nonneg m (by omega), Nat.floor_natCast, floorMagnitude, if_neg neg,
      Nat.pow_eq]

/-- `isIntegral` says that the parts are worth a whole number, their `floorMagnitude`. -/
theorem isIntegral_iff (m : Nat) (e : Int) :
    isIntegral m e = true ↔ ((floorMagnitude m e : Nat) : ℚ) = m * 2 ^ e := by
  by_cases neg : e < 0
  · have unit : (0 : ℚ) < 2 ^ e.natAbs := by positivity
    simp only [isIntegral, floorMagnitude, neg, ↓reduceIte, Nat.pow_eq, mul_zpow_of_neg m neg]
    simp only [decide_eq_true_eq, not_le.2 neg, false_or, Bool.or_eq_true, beq_iff_eq]
    constructor
    · intro exact
      rw [Nat.cast_div (Nat.dvd_of_mod_eq_zero exact) (by positivity)]
      push_cast
      rfl
    · intro exact
      -- the quotient times `2 ^ |e|` gives `m` back, so nothing remains
      have back : ((2 ^ e.natAbs * (m / 2 ^ e.natAbs) : Nat) : ℚ) = m := by
        push_cast
        rw [exact, mul_div_cancel₀ _ unit.ne']
      have split := Nat.div_add_mod m (2 ^ e.natAbs)
      have whole : 2 ^ e.natAbs * (m / 2 ^ e.natAbs) = m := by exact_mod_cast back
      omega
  · have nonneg : 0 ≤ e := by omega
    simp only [isIntegral, nonneg, decide_true, Bool.true_or, true_iff]
    rw [floorMagnitude_eq_floor, mul_zpow_of_nonneg m nonneg, Nat.floor_natCast]

end Value

section Identity

/-- A double is its bit pattern. -/
theorem eq_of_toBits_eq {x y : Float} (same : x.toBits = y.toBits) : x = y := by
  rcases x with ⟨⟨bx, vx⟩⟩
  rcases y with ⟨⟨bi, vi⟩⟩
  obtain rfl : bx = bi := same
  rfl

/-- The bit pattern of a double: sign bit, biased exponent field and fraction. NaN has many
patterns; the quiet one with no payload stands for them. -/
def bitsOf : Binary64 → Nat
  | .nan => 0x7FF8000000000000
  | .infinite neg => (if neg then 2 ^ 63 else 0) + 2047 * 2 ^ 52
  | .finite neg m e => (if neg then 2 ^ 63 else 0) + (e + 1074).toNat * 2 ^ 52 + m

/-- Away from NaN, decoding a bit pattern loses nothing: encoding the parts gives it back. -/
theorem bitsOf_ofBits {b : Nat} (lt : b < 2 ^ 64) (number : ofBits b ≠ .nan) :
    (ofBits b).bitsOf = b := by
  have sign : (if (b / 2 ^ 63 % 2 == 1) = true then 2 ^ 63 else 0) = b / 2 ^ 63 % 2 * 2 ^ 63 := by
    split_ifs with one <;> simp only [beq_iff_eq] at one <;> omega
  simp only [ofBits, Nat.pow_eq] at number ⊢
  split_ifs at number ⊢ with top frac zero
  · simp only [bitsOf, sign]
    omega
  · exact absurd rfl number
  · simp only [bitsOf, sign]
    omega
  · simp only [bitsOf, sign]
    omega

/-- Two doubles with the same parts, not NaN, are the same double. -/
theorem eq_of_ofFloat_eq {x y : Float} (same : ofFloat x = ofFloat y)
    (number : ofFloat x ≠ .nan) : x = y := by
  have number' : ofFloat y ≠ .nan := by rw [← same]; exact number
  have bits : x.toBits.toNat = y.toBits.toNat :=
    calc x.toBits.toNat = (ofFloat x).bitsOf := (bitsOf_ofBits x.toBits.toNat_lt number).symm
      _ = (ofFloat y).bitsOf := by rw [same]
      _ = y.toBits.toNat := bitsOf_ofBits y.toBits.toNat_lt number'
  exact eq_of_toBits_eq (UInt64.toNat_inj.1 bits)

/-- Canonical parts of one value are the same parts. -/
theorem Canonical.unique {m m' : Nat} {e e' : Int} (c : Canonical m e) (c' : Canonical m' e')
    (same : (m : ℚ) * 2 ^ e = m' * 2 ^ e') : m = m' ∧ e = e' := by
  -- parts at a lower exponent are the others shifted left, and the shift cannot leave room
  have no_shift : ∀ {m m' : Nat} {e e' : Int}, Canonical m e → Canonical m' e' →
      (m : ℚ) * 2 ^ e = m' * 2 ^ e' → e ≤ e' → e = e' := by
    intro m m' e e' ⟨_, small, low, _, _⟩ ⟨pos', _, _, _, normal'⟩ same le
    have shifted := eq_mul_two_pow_of_value same le
    by_contra ne
    have lead : 2 ^ 52 ≤ m' := normal'.resolve_right (by omega)
    have : m' * 2 ^ 1 ≤ m' * 2 ^ (e' - e).toNat :=
      Nat.mul_le_mul_left _ (Nat.pow_le_pow_right (by decide) (by omega))
    omega
  have exp : e = e' := by
    rcases le_total e e' with le | le
    · exact no_shift c c' same le
    · exact (no_shift c' c same.symm le).symm
  subst exp
  refine ⟨?_, rfl⟩
  exact_mod_cast mul_right_cancel₀ (zpow_ne_zero e (by norm_num : (2 : ℚ) ≠ 0)) same

end Identity

section Safe

/-- An integer converts as its magnitude with its sign. -/
theorem ofInt_eq_signed (n : Int) : Float.ofInt n = signed (decide (n < 0)) n.natAbs := by
  cases n with
  | ofNat k => rfl
  | negSucc k =>
    simp only [Int.negSucc_lt_zero, decide_true, signed, ↓reduceIte]
    rfl

/-- The integer a double converts to is its value, and exactly the safe integral values
convert. -/
theorem toInt?_eq_some_iff (v : Float) (n : Int) :
    toInt? v = some n ↔ (ofFloat v).toRat? = some (n : ℚ) ∧ n.natAbs ≤ maxSafe := by
  unfold toInt?
  cases parts : ofFloat v with
  | nan => simp
  | infinite neg => simp
  | finite neg m e =>
    have nonneg : (0 : ℚ) ≤ m * 2 ^ e := by positivity
    simp only [toRat?_finite, Option.some.injEq, Bool.and_eq_true, decide_eq_true_eq]
    constructor
    · intro converts
      by_cases ok : isIntegral m e = true ∧ floorMagnitude m e ≤ maxSafe
      · rw [if_pos ok, Option.some.injEq] at converts
        obtain ⟨integral, safe⟩ := ok
        have value := (isIntegral_iff m e).1 integral
        subst converts
        cases neg <;> simp [← value, safe]
      · rw [if_neg ok] at converts
        cases converts
    · rintro ⟨value, safe⟩
      -- the magnitude of the value is `|n|`, so the floor is exact and equal to it
      have magnitude : (m : ℚ) * 2 ^ e = (n.natAbs : ℚ) := by
        rw [Nat.cast_natAbs, Int.cast_abs, ← value]
        cases neg <;> simp [abs_of_nonneg nonneg]
      have floor : floorMagnitude m e = n.natAbs := by
        rw [floorMagnitude_eq_floor, magnitude, Nat.floor_natCast]
      have integral : isIntegral m e = true := by
        rw [isIntegral_iff, floor, magnitude]
      rw [if_pos ⟨integral, floor ▸ safe⟩, floor]
      congr 1
      cases neg
      · have : (0 : ℚ) ≤ n := by rw [← value]; simpa using nonneg
        have : 0 ≤ n := by exact_mod_cast this
        simp only [Bool.false_eq_true, ↓reduceIte]
        omega
      · have : (n : ℚ) ≤ 0 := by rw [← value]; simpa using nonneg
        have : n ≤ 0 := by exact_mod_cast this
        simp only [↓reduceIte]
        omega

/-- A safe integer converts to a double that converts back to it. -/
theorem toInt?_of_ofInt? {n : Int} {x : Float} (converts : ofInt? n = some x) :
    toInt? x = some n := by
  unfold ofInt? at converts
  split_ifs at converts with safe
  cases converts
  rw [ofInt_eq_signed, toInt?_signed _ safe]
  congr 1
  split_ifs with negative <;> simp at negative <;> omega

/-- Negative zero converts to zero, and zero converts back to positive zero. -/
theorem ofFloat_neg_zero : ofFloat (-0.0) = .finite true 0 (-1074) := by decide

theorem ofFloat_ofInt_zero : ofFloat (Float.ofInt 0) = .finite false 0 (-1074) := by decide

/-- A double with nonzero parts worth a safe integer is that integer's double: the sign is the
sign of the integer, and the parts are the canonical parts of its magnitude. -/
theorem ofInt_eq_of_canonical {v : Float} {neg : Bool} {m : Nat} {e : Int} {n : Int}
    (parts : ofFloat v = .finite neg m e) (canonical : Canonical m e)
    (value : (if neg then -(m : ℚ) else m) * 2 ^ e = n) (safe : n.natAbs ≤ maxSafe) :
    Float.ofInt n = v := by
  have positive : (0 : ℚ) < m * 2 ^ e := by
    have : (0 : ℚ) < m := by exact_mod_cast canonical.1
    positivity
  have sign : decide (n < 0) = neg := by
    cases neg
    · have : (0 : ℚ) < n := by rw [← value]; simpa using positive
      simp only [decide_eq_false_iff_not, not_lt]
      exact_mod_cast this.le
    · have : (n : ℚ) < 0 := by rw [← value]; simpa using positive
      simp only [decide_eq_true_eq]
      exact_mod_cast this
  have magnitude : (m : ℚ) * 2 ^ e = (n.natAbs : ℚ) := by
    rw [Nat.cast_natAbs, Int.cast_abs, ← value]
    cases neg <;> simp [abs_of_pos positive]
  have nonzero : 0 < n.natAbs := by
    have : (0 : ℚ) < n.natAbs := magnitude ▸ positive
    exact_mod_cast this
  have small : n.natAbs < 2 ^ 53 := by simp only [maxSafe, Nat.pow_eq] at safe; omega
  have own := ofFloat_signed neg nonzero small
  have same := Canonical.unique canonical
    ((ofBits_finite_canonical own).resolve_left
      (by have := two_pow_le_canonical nonzero small; omega))
    (by rw [magnitude, canonical_value small])
  refine eq_of_ofFloat_eq ?_ (by simp [ofInt_eq_signed, sign, own])
  rw [ofInt_eq_signed, sign, own, parts, same.1, same.2]

/-- A double that converts to an integer is, up to the sign of zero, the double of that
integer. -/
theorem ofInt?_of_toInt? {v : Float} {n : Int} (converts : toInt? v = some n) :
    ofInt? n = some (Float.ofInt n) ∧
      (Float.ofInt n = v ∨ (v = -0.0 ∧ Float.ofInt n = 0.0)) := by
  obtain ⟨value, safe⟩ := (toInt?_eq_some_iff v n).1 converts
  refine ⟨by simp [ofInt?, safe], ?_⟩
  cases parts : ofFloat v with
  | nan => simp [parts] at value
  | infinite neg => simp [parts] at value
  | finite neg m e =>
    rw [parts, toRat?_finite, Option.some.injEq] at value
    rcases ofBits_finite_canonical parts with ⟨rfl, rfl⟩ | canonical
    · -- a zero: the integer is zero, whose double is positive zero
      have zero : n = 0 := by simpa using value.symm
      subst zero
      cases neg
      · exact .inl (eq_of_ofFloat_eq (by rw [ofFloat_ofInt_zero, parts]) (by decide))
      · refine .inr ⟨eq_of_ofFloat_eq (by rw [parts, ofFloat_neg_zero]) (by simp [parts]), ?_⟩
        decide
    · exact .inl (ofInt_eq_of_canonical parts canonical value safe)

/-- The safe conversions between integers and doubles: each refuses exactly what is not a safe
integer, and each undoes the other, up to the sign of zero. -/
theorem safe_conversions_inverse :
    (∀ n : Int, (ofInt? n).isSome ↔ n.natAbs ≤ maxSafe) ∧
    (∀ (n : Int) (x : Float), ofInt? n = some x → toInt? x = some n) ∧
    (∀ (v : Float) (n : Int),
      toInt? v = some n ↔ (ofFloat v).toRat? = some (n : ℚ) ∧ n.natAbs ≤ maxSafe) ∧
    (∀ (v : Float) (n : Int), toInt? v = some n →
      ∃ w, ofInt? n = some w ∧ (w = v ∨ (v = -0.0 ∧ w = 0.0))) := by
  refine ⟨fun n => ?_, fun n x => toInt?_of_ofInt?, toInt?_eq_some_iff, fun v n converts => ?_⟩
  · unfold ofInt?
    split_ifs with safe <;> simp [safe]
  · obtain ⟨converts, same⟩ := ofInt?_of_toInt? converts
    exact ⟨_, converts, same⟩

end Safe

end Abacus.Binary64
