import Abacus.Fraction.Approximate
import Abacus.Proofs.Factor
import Mathlib.Data.Nat.Factorization.Basic

/-!
# Denominators and the bases in which a fraction ends

The search for a fraction near a value keeps a denominator from `1` to its bound
(`approximate_denominator_mem`). A fraction `n / d` in lowest terms has a finite expansion in
base `b` exactly when `d` divides a power of `b` (`EndsIn d b`), which is to say that every prime
factor of `d` divides `b`: that is the test the calculator makes on the list of prime factors
(`all_mod_eq_zero_iff_endsIn`). So the base it suggests is the least base from `2` to `16` in
which the fraction ends, the value has a repeating decimal exactly when the fraction does not
end in base ten, and a base that ends a fraction which repeats in decimal is none of the
divisors of a power of ten (`bestFiniteBase_least_ending_base`).
-/
namespace Abacus.Fraction

/-- A fraction with denominator `d` has a finite expansion in base `b`: `d` divides a power of
`b`. -/
def EndsIn (d b : Nat) : Prop := ∃ k, d ∣ b ^ k

/-- `b` is the least base from `2` to `16` in which a fraction with denominator `d` ends. -/
def IsLeastEndingBase (d b : Nat) : Prop :=
  2 ≤ b ∧ b ≤ 16 ∧ EndsIn d b ∧ ∀ c, 2 ≤ c → c < b → ¬ EndsIn d c

section Search

/-- The denominator a search keeps is the one it started with or one of those it tried. -/
theorem bestFrom_denominator (value : Float) (d : Nat) (best : Float × Nat × Float)
    (remaining : Nat) :
    (bestFrom value d best remaining).2.1 = best.2.1 ∨
      d ≤ (bestFrom value d best remaining).2.1 ∧
        (bestFrom value d best remaining).2.1 < d + remaining := by
  induction remaining generalizing d best with
  | zero => exact Or.inl rfl
  | succ remaining ih =>
    simp only [bestFrom]
    generalize Binary64.round (value * Float.ofNat d) = numerator
    generalize (value - numerator / Float.ofNat d).abs = error
    split
    · split
      · exact Or.inr ⟨Nat.le_refl d, by dsimp only; omega⟩
      · rcases ih (d + 1) (numerator, d, error) with kept | tried
        · dsimp only at kept
          exact Or.inr ⟨by omega, by omega⟩
        · exact Or.inr ⟨by omega, by omega⟩
    · rcases ih (d + 1) best with kept | tried
      · exact Or.inl kept
      · exact Or.inr ⟨by omega, by omega⟩

/-- A fraction found for a value has a denominator from `1` to the bound, raised to one. -/
theorem approximate_denominator_mem {bound : Nat} {value : Float} {r : Approximation}
    (found : approximate bound value = some r) :
    1 ≤ r.denominator ∧ r.denominator ≤ max bound 1 := by
  simp only [approximate] at found
  split at found
  · obtain ⟨n, _, rfl⟩ := Option.map_eq_some_iff.1 found
    dsimp only
    have range := bestFrom_denominator value 1 (0.0, 1, Binary64.infinity) (max bound 1)
    generalize (bestFrom value 1 (0.0, 1, Binary64.infinity) (max bound 1)).2.1 = k at range ⊢
    dsimp only at range
    omega
  · cases found

end Search

section Bases

/-- Every prime factor of `d` divides `b` exactly when `d` divides a power of `b`. -/
theorem all_mod_eq_zero_iff_endsIn {d b : Nat} (hd : d ≠ 0) (hb : b ≠ 0) :
    ((primeFactors d).all fun p => b % p == 0) = true ↔ EndsIn d b := by
  rw [EndsIn, Nat.exists_dvd_pow_iff hd hb, List.all_eq_true]
  constructor
  · intro divides p mem
    have ⟨prime, dvd, _⟩ := Nat.mem_primeFactors.1 mem
    have := divides p (mem_primeFactors.2 ⟨prime, dvd, hd⟩)
    exact Nat.mem_primeFactors.2 ⟨prime, Nat.dvd_of_mod_eq_zero (by simpa using this), hb⟩
  · intro sub p mem
    have ⟨prime, dvd, _⟩ := mem_primeFactors.1 mem
    have := (Nat.mem_primeFactors.1 (sub (Nat.mem_primeFactors.2 ⟨prime, dvd, hd⟩))).2.1
    simpa using Nat.mod_eq_zero_of_dvd this

/-- The primes that divide ten are two and five. -/
theorem prime_dvd_ten_iff {p : Nat} (prime : p.Prime) : p ∣ 10 ↔ p = 2 ∨ p = 5 := by
  constructor
  · intro dvd
    rcases (Nat.Prime.dvd_mul prime).1 (show p ∣ 2 * 5 from dvd) with two | five
    · exact Or.inl ((Nat.prime_dvd_prime_iff_eq prime Nat.prime_two).1 two)
    · exact Or.inr ((Nat.prime_dvd_prime_iff_eq prime Nat.prime_five).1 five)
  · rintro (rfl | rfl) <;> decide

/-- A prime factor other than `2` and `5` is there exactly when the fraction does not end in
base ten. -/
theorem any_ne_two_five_iff_not_endsIn_ten {d : Nat} (hd : d ≠ 0) :
    ((primeFactors d).any fun p => p != 2 && p != 5) = true ↔ ¬ EndsIn d 10 := by
  rw [← all_mod_eq_zero_iff_endsIn hd (by decide), List.any_eq_true, Bool.not_eq_true,
    List.all_eq_false]
  refine exists_congr fun p => and_congr_right fun mem => ?_
  have ten := prime_dvd_ten_iff (prime_of_mem_primeFactors mem)
  simp only [bne_iff_ne, ne_eq, Bool.and_eq_true, beq_iff_eq,
    ← Nat.dvd_iff_mod_eq_zero, ten]
  omega

/-- A base that divides a power of ten ends every fraction that ends in base ten. -/
theorem EndsIn.ten_of_dvd_pow {d b j : Nat} (ends : EndsIn d b) (divides : b ∣ 10 ^ j) :
    EndsIn d 10 := by
  obtain ⟨k, dvd⟩ := ends
  exact ⟨j * k, Nat.dvd_trans dvd (by rw [Nat.pow_mul]; exact pow_dvd_pow_of_dvd divides k)⟩

end Bases

section Advice

variable {bound : Nat} {value : Float} {r : Approximation}

theorem hasRepeatingDecimal_of_found (fraction : hasFraction value = true)
    (found : approximate bound value = some r) :
    hasRepeatingDecimal bound value = (primeFactors r.denominator).any fun p => p != 2 && p != 5 := by
  simp [hasRepeatingDecimal, fraction, found]

theorem bestFiniteBase_of_found (fraction : hasFraction value = true)
    (found : approximate bound value = some r) :
    bestFiniteBase bound value =
      (List.range' 2 15).find? fun b => (primeFactors r.denominator).all fun p => b % p == 0 := by
  simp [bestFiniteBase, fraction, found]

/-- The suggested base is the least in which the value's fraction ends. -/
theorem bestFiniteBase_eq_some_iff (fraction : hasFraction value = true)
    (found : approximate bound value = some r) (b : Nat) :
    bestFiniteBase bound value = some b ↔ IsLeastEndingBase r.denominator b := by
  have hd : r.denominator ≠ 0 := by have := (approximate_denominator_mem found).1; omega
  rw [bestFiniteBase_of_found fraction found, List.find?_range'_eq_some, List.mem_range'_1]
  constructor
  · rintro ⟨ends, range, before⟩
    refine ⟨range.1, by omega, (all_mod_eq_zero_iff_endsIn hd (by omega)).1 ends,
      fun c low lt => ?_⟩
    rw [← all_mod_eq_zero_iff_endsIn hd (by omega)]
    simpa using before c low lt
  · rintro ⟨low, high, ends, least⟩
    refine ⟨(all_mod_eq_zero_iff_endsIn hd (by omega)).2 ends, ⟨low, by omega⟩,
      fun c lowc lt => ?_⟩
    rw [Bool.not_eq_true', Bool.eq_false_iff, ne_eq, all_mod_eq_zero_iff_endsIn hd (by omega)]
    exact least c lowc lt

/-- No base is suggested exactly when the fraction ends in no base from `2` to `16`. -/
theorem bestFiniteBase_eq_none_iff (fraction : hasFraction value = true)
    (found : approximate bound value = some r) :
    bestFiniteBase bound value = none ↔ ∀ b, 2 ≤ b → b ≤ 16 → ¬ EndsIn r.denominator b := by
  have hd : r.denominator ≠ 0 := by have := (approximate_denominator_mem found).1; omega
  rw [bestFiniteBase_of_found fraction found, List.find?_range'_eq_none]
  refine forall_congr' fun b => ⟨fun none low high => ?_, fun none low lt => ?_⟩
  · rw [← all_mod_eq_zero_iff_endsIn hd (by omega)]
    simpa using none low (by omega)
  · rw [Bool.not_eq_true', Bool.eq_false_iff, ne_eq, all_mod_eq_zero_iff_endsIn hd (by omega)]
    exact none low (by omega)

/-- The value has a repeating decimal exactly when its fraction does not end in base ten. -/
theorem hasRepeatingDecimal_iff (fraction : hasFraction value = true)
    (found : approximate bound value = some r) :
    hasRepeatingDecimal bound value = true ↔ ¬ EndsIn r.denominator 10 := by
  have hd : r.denominator ≠ 0 := by have := (approximate_denominator_mem found).1; omega
  rw [hasRepeatingDecimal_of_found fraction found, any_ne_two_five_iff_not_endsIn_ten hd]

/-- A value without a fraction part, or not finite, has neither a repeating decimal nor a
suggested base. -/
theorem hasRepeatingDecimal_bestFiniteBase_of_not_hasFraction
    (whole : hasFraction value = false) :
    hasRepeatingDecimal bound value = false ∧ bestFiniteBase bound value = none := by
  simp [hasRepeatingDecimal, bestFiniteBase, whole]

end Advice

/-- The advice after a result follows the criterion of finite expansions. For a finite value
with a fraction part whose fraction `n / d` is found, the suggested base is the least base from
`2` to `16` such that `d` divides a power of it, and there is none when no such base exists; the
value has a repeating decimal exactly when `d` divides no power of ten. A value with a repeating
decimal therefore has none of `2`, `4`, `5`, `8`, `10` and `16` suggested, and a value that is
integral or not finite has neither. -/
theorem bestFiniteBase_least_ending_base (bound : Nat) (value : Float) :
    (∀ r, hasFraction value = true → approximate bound value = some r →
      (∀ b, bestFiniteBase bound value = some b ↔ IsLeastEndingBase r.denominator b) ∧
      (bestFiniteBase bound value = none ↔
        ∀ b, 2 ≤ b → b ≤ 16 → ¬ EndsIn r.denominator b) ∧
      (hasRepeatingDecimal bound value = true ↔ ¬ EndsIn r.denominator 10)) ∧
    (∀ b, hasRepeatingDecimal bound value = true → bestFiniteBase bound value = some b →
      b ∉ [2, 4, 5, 8, 10, 16]) ∧
    (value.isFinite = false ∨ (Binary64.fract value == 0.0) = true →
      hasRepeatingDecimal bound value = false ∧ bestFiniteBase bound value = none) := by
  refine ⟨fun r fraction found =>
      ⟨bestFiniteBase_eq_some_iff fraction found, bestFiniteBase_eq_none_iff fraction found,
        hasRepeatingDecimal_iff fraction found⟩,
    fun b repeats suggested => ?_, fun whole => ?_⟩
  · -- a repeating decimal needs a fraction part and a fraction found
    have fraction : hasFraction value = true := by
      by_contra no
      simp [hasRepeatingDecimal, Bool.eq_false_iff.2 no] at repeats
    obtain ⟨r, found⟩ : ∃ r, approximate bound value = some r := by
      cases h : approximate bound value with
      | none => simp [hasRepeatingDecimal, h] at repeats
      | some r => exact ⟨r, rfl⟩
    have least := (bestFiniteBase_eq_some_iff fraction found b).1 suggested
    have not_ten := (hasRepeatingDecimal_iff fraction found).1 repeats
    intro mem
    -- each of these bases divides `10 ^ 4`
    have divides : b ∣ 10 ^ 4 := by
      simp only [List.mem_cons, List.not_mem_nil, or_false] at mem
      rcases mem with rfl | rfl | rfl | rfl | rfl | rfl <;> decide
    exact not_ten (least.2.2.1.ten_of_dvd_pow divides)
  · have no : hasFraction value = false := by
      rcases whole with infinite | integral
      · simp [hasFraction, infinite]
      · simp [hasFraction, bne, integral]
    exact hasRepeatingDecimal_bestFiniteBase_of_not_hasFraction no

/-- A third is found as `1 / 3`, which ends first in base three and repeats in decimal. -/
theorem bestFiniteBase_least_ending_base_third :
    hasFraction (1.0 / 3.0) = true ∧ approximate 10000 (1.0 / 3.0) = some ⟨1, 3⟩ ∧
      (∀ b, bestFiniteBase 10000 (1.0 / 3.0) = some b ↔ IsLeastEndingBase 3 b) ∧
      (bestFiniteBase 10000 (1.0 / 3.0) = none ↔ ∀ b, 2 ≤ b → b ≤ 16 → ¬ EndsIn 3 b) ∧
      (hasRepeatingDecimal 10000 (1.0 / 3.0) = true ↔ ¬ EndsIn 3 10) := by
  have fraction : hasFraction (1.0 / 3.0) = true := by decide
  have found : approximate 10000 (1.0 / 3.0) = some ⟨1, 3⟩ := by decide +kernel
  exact ⟨fraction, found,
    (bestFiniteBase_least_ending_base 10000 (1.0 / 3.0)).1 ⟨1, 3⟩ fraction found⟩

end Abacus.Fraction
