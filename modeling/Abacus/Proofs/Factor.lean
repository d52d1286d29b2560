import Abacus.Fraction.Factor
import Mathlib.Data.Nat.Factors

/-!
# Trial division is the prime factorisation

`primeFactors n` is the list of primes of `n` with multiplicity, in increasing order, and it is
empty below `2`; so it is `Nat.primeFactorsList n` (`primeFactors_eq_primeFactorsList`).

The loop is carried by one invariant: no prime below the candidate `d` divides what is left of
`n`. Dividing `d` out as often as it goes keeps it for `d + 1`; a candidate that divides is then
prime, since its own least prime factor divides `n` and is not below `d`; and once `d * d`
exceeds what is left (the guard `d ≤ n / d` says `d * d ≤ n`), a remainder above one has no
prime factor at most its square root, so it is prime. A candidate is only passed while
`d * d ≤ n`, so it never exceeds `n`.
-/
namespace Abacus.Fraction

/-- No prime below `d` divides `n`. -/
def NoFactorBelow (d n : Nat) : Prop := ∀ p, p.Prime → p ∣ n → d ≤ p

section DivideOut

variable {d n : Nat} {hd : 2 ≤ d}

/-- The power of `d` taken out times what is left is `n`. -/
theorem divideOut_pow_mul (d n : Nat) (hd : 2 ≤ d) :
    d ^ (divideOut d n hd).1 * (divideOut d n hd).2 = n := by
  fun_induction divideOut d n hd with
  | case1 n h _ k r call ih =>
    -- the recursive call divides the one `d` taken here out of `n`
    rw [call] at ih
    have back : d * (n / d) = n := Nat.mul_div_cancel' (Nat.dvd_of_mod_eq_zero h.2)
    calc d ^ (k + 1) * r = d * (d ^ k * r) := by rw [Nat.pow_succ]; ac_rfl
      _ = n := by rw [ih, back]
  | case2 => simp

/-- What is left of a positive `n` is no longer divisible by `d`. -/
theorem divideOut_not_dvd (hn : 0 < n) : ¬ d ∣ (divideOut d n hd).2 := by
  fun_induction divideOut d n hd with
  | case1 n h _ k r call ih =>
    rw [call] at ih
    apply ih
    exact Nat.div_pos (Nat.le_of_dvd hn (Nat.dvd_of_mod_eq_zero h.2)) (by omega)
  | case2 n h =>
    intro dvd
    exact h ⟨hn, Nat.mod_eq_zero_of_dvd dvd⟩

/-- What is left of a positive `n` is positive. -/
theorem divideOut_pos (hn : 0 < n) : 0 < (divideOut d n hd).2 := by
  have back := divideOut_pow_mul d n hd
  refine Nat.pos_of_ne_zero fun zero => ?_
  rw [zero, Nat.mul_zero] at back
  omega

/-- Dividing `d` out of `n` keeps the invariant, for the next candidate. -/
theorem NoFactorBelow.divideOut (low : NoFactorBelow d n) (hn : 0 < n) :
    NoFactorBelow (d + 1) (divideOut d n hd).2 := by
  intro p prime dvd
  have dvd_n : p ∣ n := by
    rw [← divideOut_pow_mul d n hd]
    exact Dvd.dvd.mul_left dvd _
  rcases Nat.lt_or_eq_of_le (low p prime dvd_n) with lt | rfl
  · exact lt
  · exact absurd dvd (divideOut_not_dvd hn)

end DivideOut

/-- A candidate that divides `n` and has no prime below it dividing `n` is prime. -/
theorem NoFactorBelow.prime_of_dvd {d n : Nat} (low : NoFactorBelow d n) (hd : 2 ≤ d)
    (dvd : d ∣ n) : d.Prime := by
  have least : d.minFac ∣ d := Nat.minFac_dvd d
  have le : d ≤ d.minFac :=
    low _ (Nat.minFac_prime (by omega)) (Nat.dvd_trans least dvd)
  have eq : d.minFac = d := Nat.le_antisymm (Nat.minFac_le (by omega)) le
  exact Nat.prime_def_minFac.2 ⟨hd, eq⟩

/-- Above one and below `d * d`, a number with no prime below `d` dividing it is prime. -/
theorem NoFactorBelow.prime_of_lt_mul_self {d n : Nat} (low : NoFactorBelow d n) (hn : 1 < n)
    (small : n < d * d) : n.Prime := by
  by_contra composite
  have least : d ≤ n.minFac := low _ (Nat.minFac_prime (by omega)) (Nat.minFac_dvd n)
  have square : n.minFac ^ 2 ≤ n := Nat.minFac_sq_le_self (by omega) composite
  have : d * d ≤ n.minFac ^ 2 := by rw [Nat.pow_two]; exact Nat.mul_le_mul least least
  omega

section FactorsFrom

/-- Every factor found from the candidate `d` on is a prime at least `d`. -/
theorem factorsFrom_prime (n d : Nat) (hd : 2 ≤ d) (hn : 0 < n) (low : NoFactorBelow d n) :
    ∀ p ∈ factorsFrom n d hd, p.Prime ∧ d ≤ p := by
  fun_induction factorsFrom n d hd with
  | case1 n d hd guard r ih =>
    have rest := ih (divideOut_pos hn) (low.divideOut hn)
    intro p mem
    rcases List.mem_append.1 mem with here | later
    · -- `d` is taken out at least once, so it divides `n`
      obtain ⟨taken, rfl⟩ := List.mem_replicate.1 here
      have dvd : p ∣ n := by
        rw [← divideOut_pow_mul p n hd]
        exact Dvd.dvd.mul_right (dvd_pow_self p (by omega)) _
      exact ⟨low.prime_of_dvd hd dvd, Nat.le_refl p⟩
    · have ⟨prime, ge⟩ := rest p later
      exact ⟨prime, by omega⟩
  | case2 n d hd guard more =>
    intro p mem
    rw [List.mem_singleton] at mem
    subst mem
    have small : p < d * d := by
      rw [Nat.le_div_iff_mul_le (by omega)] at guard
      omega
    have prime := low.prime_of_lt_mul_self more small
    exact ⟨prime, low p prime (Nat.dvd_refl p)⟩
  | case3 => simp

/-- The factors found from `d` on multiply to `n`. -/
theorem factorsFrom_prod (n d : Nat) (hd : 2 ≤ d) (hn : 0 < n) :
    (factorsFrom n d hd).prod = n := by
  fun_induction factorsFrom n d hd with
  | case1 n d hd guard r ih =>
    rw [List.prod_append, List.prod_replicate, ih (divideOut_pos hn)]
    exact divideOut_pow_mul d n hd
  | case2 => simp
  | case3 n d hd guard more => simp only [List.prod_nil]; omega

/-- The factors found from `d` on come in increasing order. -/
theorem factorsFrom_sorted (n d : Nat) (hd : 2 ≤ d) (hn : 0 < n) (low : NoFactorBelow d n) :
    (factorsFrom n d hd).Pairwise (· ≤ ·) := by
  fun_induction factorsFrom n d hd with
  | case1 n d hd guard r ih =>
    -- the copies of `d` come before the later factors, which are all above `d`
    have above := factorsFrom_prime r (d + 1) (by omega) (divideOut_pos hn) (low.divideOut hn)
    refine List.pairwise_append.2 ⟨?_, ih (divideOut_pos hn) (low.divideOut hn), ?_⟩
    · exact List.pairwise_replicate.2 (Or.inr (Nat.le_refl d))
    · intro a here b later
      rw [(List.mem_replicate.1 here).2]
      exact Nat.le_of_succ_le (above b later).2
  | case2 => exact List.pairwise_singleton _ _
  | case3 => exact List.Pairwise.nil

end FactorsFrom

/-- Every prime divides `n` from the candidate `2` on. -/
theorem noFactorBelow_two (n : Nat) : NoFactorBelow 2 n := fun _ prime _ => prime.two_le

/-- Below `2` there are no factors. -/
theorem primeFactors_of_lt_two {n : Nat} (h : n < 2) : primeFactors n = [] := by
  simp [primeFactors, h]

theorem primeFactors_of_two_le {n : Nat} (h : 2 ≤ n) :
    primeFactors n = factorsFrom n 2 (Nat.le_refl 2) := by
  simp [primeFactors, Nat.not_lt.2 h]

/-- Each factor is prime. -/
theorem prime_of_mem_primeFactors {n p : Nat} (mem : p ∈ primeFactors n) : p.Prime := by
  by_cases h : n < 2
  · simp [primeFactors_of_lt_two h] at mem
  · rw [primeFactors_of_two_le (by omega)] at mem
    exact (factorsFrom_prime n 2 _ (by omega) (noFactorBelow_two n) p mem).1

/-- The factors of a positive number multiply to it. -/
theorem primeFactors_prod {n : Nat} (hn : 0 < n) : (primeFactors n).prod = n := by
  by_cases h : n < 2
  · rw [primeFactors_of_lt_two h, List.prod_nil]
    omega
  · rw [primeFactors_of_two_le (by omega)]
    exact factorsFrom_prod n 2 _ hn

/-- The factors come in increasing order. -/
theorem primeFactors_sorted (n : Nat) : (primeFactors n).SortedLE := by
  rw [List.sortedLE_iff_pairwise]
  by_cases h : n < 2
  · rw [primeFactors_of_lt_two h]
    exact List.Pairwise.nil
  · rw [primeFactors_of_two_le (by omega)]
    exact factorsFrom_sorted n 2 _ (by omega) (noFactorBelow_two n)

/-- Trial division lists the prime factorisation: the primes of `n` with multiplicity in
increasing order, none for `0` and `1`. -/
theorem primeFactors_eq_primeFactorsList (n : Nat) : primeFactors n = n.primeFactorsList := by
  rcases Nat.eq_zero_or_pos n with rfl | hn
  · simp [primeFactors]
  · -- both lists are sorted and are permutations of each other, being factorisations of `n`
    have perm : (primeFactors n).Perm n.primeFactorsList :=
      Nat.primeFactorsList_unique (primeFactors_prod hn) fun _ => prime_of_mem_primeFactors
    exact perm.eq_of_sortedLE (primeFactors_sorted n) (Nat.primeFactorsList_sorted n)

/-- A prime is a factor exactly when it divides a nonzero `n`. -/
theorem mem_primeFactors {n p : Nat} : p ∈ primeFactors n ↔ p.Prime ∧ p ∣ n ∧ n ≠ 0 := by
  rw [primeFactors_eq_primeFactorsList, Nat.mem_primeFactorsList']

/-- Trial division is a complete prime factorisation: empty below `2`, and otherwise the list of
primes in non-decreasing order, with multiplicity, whose product is `n`. -/
theorem primeFactors_factorisation (n : Nat) :
    (n < 2 → primeFactors n = []) ∧
      (2 ≤ n → (primeFactors n).SortedLE ∧ (∀ p ∈ primeFactors n, p.Prime) ∧
        (primeFactors n).prod = n) :=
  ⟨primeFactors_of_lt_two, fun h =>
    ⟨primeFactors_sorted n, fun _ => prime_of_mem_primeFactors, primeFactors_prod (by omega)⟩⟩

theorem primeFactors_factorisation_largest_word :
    (primeFactors (2 ^ 64 - 1)).SortedLE ∧ (∀ p ∈ primeFactors (2 ^ 64 - 1), p.Prime) ∧
      (primeFactors (2 ^ 64 - 1)).prod = 2 ^ 64 - 1 :=
  (primeFactors_factorisation (2 ^ 64 - 1)).2 (by decide)

end Abacus.Fraction
