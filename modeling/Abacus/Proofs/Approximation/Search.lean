import Abacus.Fraction.Approximate
import Abacus.Proofs.Binary64.HalfAway

/-!
# The search for the best fraction

`approximate` tries each denominator `d` from one to the bound with the numerator
`numeratorAt value d`, the value times `d` rounded to an integer, and takes the pair when its
error `errorAt value d` is strictly below the best error so far, stopping at an error of zero.
Errors are magnitudes, never NaN (`nonNegative_errorAt`), so they compare by their keys: the
search keeps the least of the denominators tried whose error is the least (`BestSoFar`, kept by
each step in `bestFrom_spec`), and so ends with the least minimiser of the error over the whole
range (`approximate_eq`). An error of zero is the least there is, so stopping there changes
nothing.

The search starts from an infinite error, and the first denominator is always taken: a finite
value less its rounding is finite (`errorAt_one_lt_infinity`).
-/

namespace Abacus.Fraction

open Abacus.Binary64

/-- The numerator tried with the denominator `d`: the value times `d`, rounded to an integer. -/
def numeratorAt (value : Float) (d : Nat) : Float := Binary64.round (value * Float.ofNat d)

/-- The error of the fraction with the denominator `d`, in binary64 arithmetic. -/
def errorAt (value : Float) (d : Nat) : Float := (value - numeratorAt value d / Float.ofNat d).abs

/-- The key of the error at `d`, by which errors compare. -/
def errorKey (value : Float) (d : Nat) : Nat := orderKey (ofFloat (errorAt value d))

/-- `d` is the least of the denominators from one to `bound` whose error is the least. -/
structure LeastMinimiser (value : Float) (bound d : Nat) : Prop where
  pos : 1 ≤ d
  le_bound : d ≤ bound
  least : ∀ d', 1 ≤ d' → d' ≤ bound → errorAt value d ≤ errorAt value d'
  first : ∀ d', 1 ≤ d' → d' < d → errorAt value d < errorAt value d'

/-- One step of the search, in terms of the numerator and error tried. -/
theorem bestFrom_succ (value : Float) (d : Nat) (best : Float × Nat × Float) (remaining : Nat) :
    bestFrom value d best (remaining + 1) =
      if errorAt value d < best.2.2 then
        if (errorAt value d == 0.0) = true then (numeratorAt value d, d, errorAt value d)
        else bestFrom value (d + 1) (numeratorAt value d, d, errorAt value d) remaining
      else bestFrom value (d + 1) best remaining := rfl

section Errors

variable {value : Float} {neg : Bool} {m : Nat} {e : Int}

/-- Every error tried is a magnitude: not NaN, with a clear sign. -/
theorem nonNegative_errorAt (parts : ofFloat value = .finite neg m e) {d : Nat} (pos : 0 < d)
    (small : d < 2 ^ 53) : NonNegative (ofFloat (errorAt value d)) := by
  have scale := ofFloat_ofNat_eq pos small
  have scale_pos : 0 < d * 2 ^ (52 - d.log2) := Nat.mul_pos pos (Nat.two_pow_pos _)
  have product := ofFloat_mul_ne_nan parts scale
  have numerator := ofFloat_round_ne_nan product
  have quotient := ofFloat_div_ne_nan numerator scale scale_pos
  exact nonNegative_abs (ofFloat_sub_ne_nan parts quotient)

/-- The error at one is finite: the numerator is the value rounded, and the value less its
rounding is finite. -/
theorem errorAt_one_lt_infinity (parts : ofFloat value = .finite neg m e) :
    errorAt value 1 < infinity := by
  -- times one and divided by one, the rounding keeps the parts of the rounded value
  have product := ofFloat_mul_ofNat_one parts
  have rounded : ofFloat (numeratorAt value 1) = ofFloat (round value) := by
    rw [numeratorAt]
    exact ofFloat_round_congr (by rw [product, parts])
  obtain ⟨M, T, whole⟩ := ofFloat_round_finite parts
  have quotient : ofFloat (numeratorAt value 1 / Float.ofNat 1) = ofFloat (round value) := by
    rw [ofFloat_div_ofNat_one (rounded.trans whole), whole]
  obtain ⟨neg', M', T', difference⟩ := ofFloat_sub_round parts quotient
  have magnitude := ofFloat_abs_of_finite difference
  rw [lt_iff_orderKey_lt (nonNegative_errorAt parts Nat.one_pos (by decide))
    nonNegative_infinity, orderKey_infinity, errorAt, magnitude]
  rcases ofBits_finite_canonical magnitude with ⟨rfl, rfl⟩ | canonical
  · decide
  · exact (orderKey_bounds canonical).2

/-- An error equal to zero has the least key. -/
theorem errorKey_of_beq_zero (parts : ofFloat value = .finite neg m e) {d : Nat} (pos : 0 < d)
    (small : d < 2 ^ 53) (zero : (errorAt value d == 0.0) = true) :
    errorKey value d = 2 ^ 53 := by
  rw [errorKey, (beq_iff_orderKey_eq (nonNegative_errorAt parts pos small) nonNegative_zero).1 zero,
    orderKey_zero]

end Errors

section Search

/-- The search has tried the denominators from one to below `d`, and `k` is the least of them
whose error is the least. -/
structure BestSoFar (value : Float) (d k : Nat) : Prop where
  pos : 1 ≤ k
  tried : k < d
  least : ∀ d', 1 ≤ d' → d' < d → errorKey value k ≤ errorKey value d'
  first : ∀ d', 1 ≤ d' → d' < k → errorKey value k < errorKey value d'

variable {value : Float} {d k : Nat}

/-- After the first denominator, it is the best so far. -/
theorem bestSoFar_two : BestSoFar value 2 1 :=
  ⟨le_rfl, by decide, fun d' low high => by rw [show d' = 1 by omega], fun _ low high => by omega⟩

/-- A denominator whose error is below the best so far becomes the best. -/
theorem BestSoFar.take (inv : BestSoFar value d k) (below : errorKey value d < errorKey value k) :
    BestSoFar value (d + 1) d where
  pos := by have := inv.pos; have := inv.tried; omega
  tried := Nat.lt_succ_self d
  least d' low high := by
    rcases Nat.lt_or_eq_of_le (Nat.le_of_lt_succ high) with earlier | rfl
    · exact le_trans below.le (inv.least d' low earlier)
    · exact le_rfl
  first d' low earlier := lt_of_lt_of_le below (inv.least d' low earlier)

/-- A denominator whose error is not below the best so far leaves it. -/
theorem BestSoFar.keep (inv : BestSoFar value d k) (above : errorKey value k ≤ errorKey value d) :
    BestSoFar value (d + 1) k where
  pos := inv.pos
  tried := Nat.lt_succ_of_lt inv.tried
  least d' low high := by
    rcases Nat.lt_or_eq_of_le (Nat.le_of_lt_succ high) with earlier | rfl
    · exact inv.least d' low earlier
    · exact above
  first := inv.first

/-- A best error of zero stays the best however far the search goes on. -/
theorem BestSoFar.of_zero {neg : Bool} {m : Nat} {e : Int} (parts : ofFloat value = .finite neg m e)
    (inv : BestSoFar value d k) (zero : errorKey value k = 2 ^ 53) {D : Nat} (further : d ≤ D)
    (small : D ≤ 2 ^ 53) : BestSoFar value D k where
  pos := inv.pos
  tried := by have := inv.tried; omega
  least d' low high := by
    rw [zero]
    exact (nonNegative_errorAt parts low (by omega)).orderKey_bounds.1
  first := inv.first

/-- The search from `d` with the best `k` so far ends with the best over all the denominators it
tries. -/
theorem bestFrom_spec {neg : Bool} {m : Nat} {e : Int} (parts : ofFloat value = .finite neg m e) :
    ∀ remaining d k, BestSoFar value d k → d + remaining ≤ 2 ^ 53 →
      ∃ k', bestFrom value d (numeratorAt value k, k, errorAt value k) remaining =
        (numeratorAt value k', k', errorAt value k') ∧ BestSoFar value (d + remaining) k' := by
  intro remaining
  induction remaining with
  | zero => exact fun d k inv _ => ⟨k, rfl, inv⟩
  | succ r ih =>
    intro d k inv small
    have nonneg_d := nonNegative_errorAt parts (by have := inv.pos; have := inv.tried; omega)
      (by omega : d < 2 ^ 53)
    have nonneg_k := nonNegative_errorAt parts inv.pos (by have := inv.tried; omega)
    rw [bestFrom_succ]
    by_cases taken : errorAt value d < errorAt value k
    · have below : errorKey value d < errorKey value k :=
        (lt_iff_orderKey_lt nonneg_d nonneg_k).1 taken
      rw [if_pos taken]
      by_cases zero : (errorAt value d == 0.0) = true
      · -- an error of zero stops the search, and nothing later can be below it
        rw [if_pos zero]
        exact ⟨d, rfl, (inv.take below).of_zero parts
          (errorKey_of_beq_zero parts (by have := inv.pos; have := inv.tried; omega) (by omega)
            zero) (by omega) small⟩
      · rw [if_neg zero]
        obtain ⟨k', result, inv'⟩ := ih (d + 1) d (inv.take below) (by omega)
        exact ⟨k', result, by rwa [show d + 1 + r = d + (r + 1) by omega] at inv'⟩
    · have above : errorKey value k ≤ errorKey value d :=
        Nat.le_of_not_lt fun lt => taken ((lt_iff_orderKey_lt nonneg_d nonneg_k).2 lt)
      rw [if_neg taken]
      obtain ⟨k', result, inv'⟩ := ih (d + 1) k (inv.keep above) (by omega)
      exact ⟨k', result, by rwa [show d + 1 + r = d + (r + 1) by omega] at inv'⟩

/-- The best so far over all the denominators up to the bound is their least minimiser. -/
theorem BestSoFar.leastMinimiser {neg : Bool} {m : Nat} {e : Int}
    (parts : ofFloat value = .finite neg m e) {bound : Nat} (small : bound < 2 ^ 53)
    (inv : BestSoFar value (bound + 1) k) : LeastMinimiser value bound k where
  pos := inv.pos
  le_bound := Nat.le_of_lt_succ inv.tried
  least d' low high :=
    (le_iff_orderKey_le (nonNegative_errorAt parts inv.pos (by have := inv.tried; omega))
      (nonNegative_errorAt parts low (by omega))).2 (inv.least d' low (Nat.lt_succ_of_le high))
  first d' low earlier :=
    (lt_iff_orderKey_lt (nonNegative_errorAt parts inv.pos (by have := inv.tried; omega))
      (nonNegative_errorAt parts low (by have := inv.tried; omega))).2 (inv.first d' low earlier)

end Search

/-- The fraction found for a finite value is the numerator tried at the least minimiser of the
error over the denominators from one to the bound (at least one), when that numerator is a safe
integer. -/
theorem approximate_eq (bound : Nat) (value : Float) (finite : value.isFinite = true)
    (word : bound < 2 ^ 32) :
    ∃ d, LeastMinimiser value (max bound 1) d ∧
      approximate bound value = (toInt? (numeratorAt value d)).map fun n => ⟨n, d⟩ := by
  obtain ⟨neg, m, e, parts⟩ := ofFloat_of_isFinite finite
  obtain ⟨n, count⟩ : ∃ n, max bound 1 = n + 1 := ⟨max bound 1 - 1, by omega⟩
  -- the first denominator is always taken, after which the search goes on from two
  have search : ∃ k, bestFrom value 1 (0.0, 1, infinity) (n + 1) =
      (numeratorAt value k, k, errorAt value k) ∧ BestSoFar value (n + 2) k := by
    rw [bestFrom_succ, if_pos (errorAt_one_lt_infinity parts)]
    by_cases zero : (errorAt value 1 == 0.0) = true
    · rw [if_pos zero]
      exact ⟨1, rfl, bestSoFar_two.of_zero parts
        (errorKey_of_beq_zero parts Nat.one_pos (by decide) zero) (by omega) (by omega)⟩
    · rw [if_neg zero]
      obtain ⟨k, result, inv⟩ := bestFrom_spec parts n 2 1 bestSoFar_two (by omega)
      exact ⟨k, result, by rwa [Nat.add_comm] at inv⟩
  obtain ⟨k, result, inv⟩ := search
  refine ⟨k, ?_, ?_⟩
  · rw [count]
    exact inv.leastMinimiser parts (by omega)
  · simp only [approximate, finite, ↓reduceIte, count, result]

end Abacus.Fraction
