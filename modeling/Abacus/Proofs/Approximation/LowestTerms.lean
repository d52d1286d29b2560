import Abacus.Proofs.Approximation.Search

/-!
# The best fraction is in lowest terms

If the numerator `n` and the denominator `d` of the best fraction had a common factor `g ≥ 2`,
the search would have tried `d / g` first and found the very same error there, so `d` would not
be the least minimiser. Two facts make the errors equal.

The numerator at `d` is the value times `d` rounded twice: to a double, then to an integer. When
that gives a multiple `g * k` of the factor, the same two roundings at `d / g` give `k`
(`halfUp_nearestValue_of_mul`): the product at `d / g` is a `g`-th of the one at `d`, so it lies
within a `g`-th of the distance from `k`, and its own last place is lower. The one tie this
leaves, a quarter above `k` at a last place of one half, goes to the even neighbour `2 * k`.

The quotient of the numerator by the denominator is then the double nearest to the fraction
(`ofFloat_quotientAt`), and equal fractions give equal quotients and equal errors.
-/

namespace Abacus.Fraction

open Abacus.Binary64 Float.Model Float.Model.UnpackedFloat

section DoubleRounding

/-- A factor of at least two scales a bound by a half. -/
theorem le_half_of_mul_le {g t c : ℚ} (two : 2 ≤ g) (nonneg : 0 ≤ c) (le : g * t ≤ c) :
    t ≤ c / 2 := by
  rcases le_or_gt t 0 with nonpos | positive
  · linarith
  · nlinarith

/-- A last place of `-2` or below is at most a quarter. -/
theorem two_zpow_le_quarter {L : Int} (le : L ≤ -2) : (2 : ℚ) ^ L ≤ 1 / 4 :=
  calc (2 : ℚ) ^ L ≤ 2 ^ (-2 : Int) := zpow_le_zpow_right₀ (by norm_num) le
    _ = 1 / 4 := by norm_num

/-- A value whose distance from `n`, with half its last place either way, stays within half
of `n` rounds twice to `n`. -/
theorem halfUp_nearestValue_of_near {x : ℚ} (nonneg : 0 ≤ x) {n : Nat}
    (low : (n : ℚ) - 1 / 2 ≤ x - 2 ^ lastPlace x / 2)
    (high : x + 2 ^ lastPlace x / 2 < n + 1 / 2) : halfUp (nearestValue x) = n := by
  have close := abs_le.1 (abs_nearestValue_sub_le nonneg)
  exact (halfUp_eq_iff (nearestValue_nonneg x)).2 ⟨by linarith [close.1], by linarith [close.2]⟩

/-- At a last place of one half, the nearest double is a whole number of halves. -/
theorem nearestValue_of_lastPlace_eq_neg_one {x : ℚ} (half : lastPlace x = -1) :
    nearestValue x = roundEven (2 * x) / 2 := by
  rw [nearestValue, half, show (2 : ℚ) ^ (-1 : Int) = 1 / 2 by norm_num, div_div_eq_mul_div,
    div_one, mul_one_div, mul_comm x]

/-- At a last place of one half, a value within a quarter of `n` rounds twice to `n`: at the
tie `n + 1 / 4` the first rounding goes to the even `2 * n` halves. -/
theorem halfUp_nearestValue_of_quarter {x : ℚ} (nonneg : 0 ≤ x) (half : lastPlace x = -1)
    {n : Nat} (near : |x - n| ≤ 1 / 4) : halfUp (nearestValue x) = n := by
  have unit : (2 : ℚ) ^ (-1 : Int) = 1 / 2 := by norm_num
  have close := abs_le.1 (abs_nearestValue_sub_le nonneg)
  have within := abs_le.1 near
  rw [half, unit] at close
  have value := nearestValue_of_lastPlace_eq_neg_one half
  have at_most : roundEven (2 * x) ≤ 2 * n := by
    rcases within.2.lt_or_eq with below | tie
    · have : (roundEven (2 * x) : ℚ) < 2 * n + 1 := by rw [value] at close; linarith [close.2]
      exact Nat.le_of_lt_succ (by exact_mod_cast this)
    · rw [show 2 * x = ((2 * n : Nat) : ℚ) + 1 / 2 by push_cast; linarith, roundEven_add_half]
      omega
  have bound : (roundEven (2 * x) : ℚ) ≤ 2 * n := by exact_mod_cast at_most
  rw [halfUp_eq_iff (nearestValue_nonneg x)]
  constructor
  · linarith [close.1]
  · rw [value]
    linarith

end DoubleRounding

section Multiple

variable {x : ℚ} {g n : Nat} (positive : 0 < x) (two : 2 ≤ g)
  (rounded : halfUp (nearestValue (g * x)) = g * n)
include positive two rounded

/-- The three places the product can round at, each within `2 ^ 53`. -/
theorem lastPlace_mul_le (small : g * n < 2 ^ 53) : lastPlace (g * x) ≤ 0 := by
  have product : (0 : ℚ) < g * x := by positivity
  have below := ((halfUp_eq_iff (nearestValue_nonneg _)).1 rounded).2
  by_contra! high
  have least := two_pow_le_nearestValue product (by omega)
  have unit : (2 : ℚ) ≤ 2 ^ lastPlace (g * x) :=
    calc (2 : ℚ) = 2 ^ (1 : Int) := by norm_num
      _ ≤ 2 ^ lastPlace (g * x) := zpow_le_zpow_right₀ (by norm_num) (by omega)
  have fits : ((g * n : Nat) : ℚ) + 1 ≤ 2 ^ 53 := by exact_mod_cast small
  linarith

/-- At a last place of a quarter or less, both roundings move by at most an eighth. -/
theorem halfUp_nearestValue_of_mul_fine (fine : lastPlace (g * x) ≤ -2) :
    halfUp (nearestValue x) = n := by
  have gq : (2 : ℚ) ≤ g := by exact_mod_cast two
  have between := (halfUp_eq_iff (nearestValue_nonneg _)).1 rounded
  push_cast at between
  have close := abs_le.1 (abs_nearestValue_sub_le (by positivity : (0 : ℚ) ≤ g * x))
  have unit := two_zpow_le_quarter fine
  have own := two_zpow_le_quarter (le_trans (lastPlace_mono positive (by nlinarith)) fine)
  have upper := le_half_of_mul_le gq (by norm_num : (0 : ℚ) ≤ 5 / 8)
    (show (g : ℚ) * (x - n) ≤ 5 / 8 by linarith [close.2])
  have lower := le_half_of_mul_le gq (by norm_num : (0 : ℚ) ≤ 5 / 8)
    (show (g : ℚ) * (n - x) ≤ 5 / 8 by linarith [close.1])
  exact halfUp_nearestValue_of_near positive.le (by linarith) (by linarith)

/-- At a last place of one half, the product rounds to `g * n` or half below it, and the value's
own last place is a quarter at most. -/
theorem halfUp_nearestValue_of_mul_half (half : lastPlace (g * x) = -1) :
    halfUp (nearestValue x) = n := by
  have gq : (2 : ℚ) ≤ g := by exact_mod_cast two
  have between := (halfUp_eq_iff (nearestValue_nonneg _)).1 rounded
  push_cast at between
  have close := abs_le.1 (abs_nearestValue_sub_le (by positivity : (0 : ℚ) ≤ g * x))
  have unit : (2 : ℚ) ^ (-1 : Int) = 1 / 2 := by norm_num
  rw [half, unit] at close
  have value := nearestValue_of_lastPlace_eq_neg_one half
  have at_most : nearestValue (g * x) ≤ g * n := by
    have lt : (roundEven (2 * (g * x)) : ℚ) < ((2 * (g * n) + 1 : Nat) : ℚ) := by
      rw [value] at between
      push_cast
      linarith [between.2]
    rw [value, div_le_iff₀ (by norm_num)]
    have := Nat.le_of_lt_succ (by exact_mod_cast lt)
    exact_mod_cast (by omega : roundEven (2 * (g * x)) ≤ g * n * 2)
  have own : lastPlace x ≤ -2 := by
    have := lastPlace_lt_of_two_mul_le (y := g * x) positive (by nlinarith) (by omega)
    omega
  have unit' := two_zpow_le_quarter own
  have upper := le_half_of_mul_le gq (by norm_num : (0 : ℚ) ≤ 1 / 4)
    (show (g : ℚ) * (x - n) ≤ 1 / 4 by linarith [close.2])
  have lower := le_half_of_mul_le gq (by norm_num : (0 : ℚ) ≤ 3 / 4)
    (show (g : ℚ) * (n - x) ≤ 3 / 4 by linarith [close.1])
  exact halfUp_nearestValue_of_near positive.le (by linarith) (by linarith)

/-- At a last place of one, the product rounds to `g * n` itself, so the value is within a
quarter of `n`. -/
theorem halfUp_nearestValue_of_mul_whole (whole : lastPlace (g * x) = 0) :
    halfUp (nearestValue x) = n := by
  have gq : (2 : ℚ) ≤ g := by exact_mod_cast two
  have between := (halfUp_eq_iff (nearestValue_nonneg _)).1 rounded
  push_cast at between
  have close := abs_le.1 (abs_nearestValue_sub_le (by positivity : (0 : ℚ) ≤ g * x))
  rw [whole, zpow_zero] at close
  have value : nearestValue (g * x) = roundEven (g * x) := by
    rw [nearestValue, whole, zpow_zero, div_one, mul_one]
  have exact : nearestValue (g * x) = g * n := by
    rw [value] at between ⊢
    have up : (roundEven (g * x) : ℚ) < ((g * n + 1 : Nat) : ℚ) := by push_cast; linarith
    have down : ((g * n : Nat) : ℚ) < ((roundEven (g * x) + 1 : Nat) : ℚ) := by
      push_cast; linarith
    have := Nat.le_of_lt_succ (by exact_mod_cast up)
    have := Nat.le_of_lt_succ (by exact_mod_cast down)
    exact_mod_cast (by omega : roundEven (g * x) = g * n)
  have upper := le_half_of_mul_le gq (by norm_num : (0 : ℚ) ≤ 1 / 2)
    (show (g : ℚ) * (x - n) ≤ 1 / 2 by linarith [close.1])
  have lower := le_half_of_mul_le gq (by norm_num : (0 : ℚ) ≤ 1 / 2)
    (show (g : ℚ) * (n - x) ≤ 1 / 2 by linarith [close.2])
  have own : lastPlace x < 0 := by
    have := lastPlace_lt_of_two_mul_le (y := g * x) positive (by nlinarith) (by omega)
    omega
  rcases (show lastPlace x ≤ -2 ∨ lastPlace x = -1 by omega) with fine | half
  · have unit := two_zpow_le_quarter fine
    exact halfUp_nearestValue_of_near positive.le (by linarith) (by linarith)
  · exact halfUp_nearestValue_of_quarter positive.le half (abs_le.2 ⟨by linarith, by linarith⟩)

end Multiple

/-- Rounding a multiple: when the nearest double to `g * x`, for a factor `g ≥ 2`, rounds to an
integer `g * n` below `2 ^ 53`, the nearest double to `x` rounds to `n`. -/
theorem halfUp_nearestValue_of_mul {x : ℚ} (nonneg : 0 ≤ x) {g n : Nat} (two : 2 ≤ g)
    (rounded : halfUp (nearestValue (g * x)) = g * n) (small : g * n < 2 ^ 53) :
    halfUp (nearestValue x) = n := by
  rcases nonneg.lt_or_eq with positive | zero
  · rcases (show lastPlace (g * x) ≤ -2 ∨ lastPlace (g * x) = -1 ∨ lastPlace (g * x) = 0 by
      have := lastPlace_mul_le positive two rounded small
      omega) with fine | half | whole
    · exact halfUp_nearestValue_of_mul_fine positive two rounded fine
    · exact halfUp_nearestValue_of_mul_half positive two rounded half
    · exact halfUp_nearestValue_of_mul_whole positive two rounded whole
  · -- a zero value rounds to zero both times, and then `g * n = 0` forces `n = 0`
    subst zero
    rw [mul_zero, nearestValue_zero, show (0 : ℚ) = (0 : Nat) by simp, halfUp_natCast] at rounded
    rw [nearestValue_zero, show (0 : ℚ) = (0 : Nat) by simp, halfUp_natCast]
    rcases Nat.mul_eq_zero.1 rounded.symm with g0 | n0
    · omega
    · exact n0.symm

section Numerator

variable {value : Float} {neg : Bool} {m : Nat} {e : Int} {d : Nat}

/-- The value times a denominator is the double nearest to the exact product, or an infinity
past the largest double. -/
theorem ofFloat_mul_ofNat (parts : ofFloat value = .finite neg m e) (pos : 0 < d)
    (small : d < 2 ^ 53) :
    (∃ M T, ofFloat (value * Float.ofNat d) = .finite neg M T ∧
        (M : ℚ) * 2 ^ T = nearestValue (m * 2 ^ e * d)) ∨
      (ofFloat (value * Float.ofNat d) = .infinite neg ∧
        (2 : ℚ) ^ (972 : Int) ≤ nearestValue (m * 2 ^ e * d)) := by
  have scale_pos : 0 < d * 2 ^ (52 - d.log2) := Nat.mul_pos pos (Nat.two_pow_pos _)
  rw [ofFloat_mul, parts, ofFloat_ofNat_eq pos small, toUnpacked_pos _ scale_pos]
  rcases Nat.eq_zero_or_pos m with rfl | nonzero
  · -- zero times the denominator is the zero of the value's sign
    refine .inl ⟨0, -1074, ?_, by simp [nearestValue_zero]⟩
    rw [toUnpacked_zero]
    simp only [UnpackedFloat.mul, signOf_mul_positive]
    rw [ofBits_pack_zero, signOf_beq_negative]
  rw [toUnpacked_of_pos neg e nonzero, mul_eq_nearest _ _ _ _ _ _ (two_pow_le_canonical pos small),
    signOf_mul_positive, canonical_value small]
  rcases nearest_parts (signOf neg) (by positivity : (0 : ℚ) ≤ m * 2 ^ e * d) with
    ⟨vanishing, zero⟩ | ⟨M, T, h, rounded, worth, fits, low, normal⟩
  · refine .inl ⟨0, -1074, ?_, by rw [zero]; simp⟩
    rw [vanishing, ofBits_pack_zero, signOf_beq_negative]
  by_cases top : T ≤ 971
  · refine .inl ⟨M, T, ?_, worth⟩
    rw [rounded, ofBits_pack_finite _ _ _ h ⟨h, fits, low, top, normal⟩, signOf_beq_negative]
  · -- past the largest exponent the product packs to an infinity
    refine .inr ⟨by rw [rounded, ofBits_pack_of_overflow _ h (by omega), signOf_beq_negative], ?_⟩
    rw [← worth]
    calc (2 : ℚ) ^ (972 : Int) ≤ 2 ^ T := zpow_le_zpow_right₀ (by norm_num) (by omega)
      _ ≤ M * 2 ^ T := le_mul_of_one_le_left (by positivity) (by exact_mod_cast h)

/-- With a safe rounded magnitude, the numerator at `d` is the double of the value times `d`
rounded twice, to a double and then to an integer, with the value's sign. -/
theorem ofFloat_numeratorAt (parts : ofFloat value = .finite neg m e) (pos : 0 < d)
    (small : d < 2 ^ 53) (safe : halfUp (nearestValue (m * 2 ^ e * d)) ≤ maxSafe) :
    ofFloat (numeratorAt value d) = ofFloat (signed neg (halfUp (nearestValue (m * 2 ^ e * d)))) := by
  rcases ofFloat_mul_ofNat parts pos small with ⟨M, T, product, worth⟩ | ⟨-, huge⟩
  · rw [numeratorAt, ofFloat_round product (by rwa [worth]), worth]
  · -- an infinite product would round to far more than a safe integer
    have below := ((halfUp_eq_iff (nearestValue_nonneg ((m : ℚ) * 2 ^ e * d))).1 rfl).2
    have bound : (halfUp (nearestValue (m * 2 ^ e * d)) : ℚ) < 2 ^ 53 := by
      have : halfUp (nearestValue (m * 2 ^ e * d)) < 2 ^ 53 := by
        simp only [maxSafe, Nat.pow_eq] at safe
        omega
      exact_mod_cast this
    have far : (2 : ℚ) ^ 53 + 1 / 2 < 2 ^ (972 : Int) :=
      calc (2 : ℚ) ^ 53 + 1 / 2 < 2 ^ (54 : Int) := by norm_num
        _ ≤ 2 ^ (972 : Int) := zpow_le_zpow_right₀ (by norm_num) (by norm_num)
    generalize (2 : ℚ) ^ (972 : Int) = top at huge far
    linarith

/-- Past the safe integers, `toInt?` refuses the numerator. -/
theorem toInt?_numeratorAt_of_large (parts : ofFloat value = .finite neg m e) (pos : 0 < d)
    (small : d < 2 ^ 53) (large : maxSafe < halfUp (nearestValue (m * 2 ^ e * d))) :
    toInt? (numeratorAt value d) = none := by
  rcases ofFloat_mul_ofNat parts pos small with ⟨M, T, product, worth⟩ | ⟨product, -⟩
  · rw [numeratorAt]
    exact toInt?_round_of_large product (by rwa [worth])
  · -- rounding keeps an infinity, which is no integer
    have kept : Binary64.round (value * Float.ofNat d) = value * Float.ofNat d := by
      simp [Binary64.round, product]
    rw [numeratorAt, kept, toInt?, product]

end Numerator

section Quotient

/-- A positive natural number over one below `2 ^ 53` is above the least subnormal. -/
theorem two_pow_le_div {k d : Nat} (nonzero : 0 < k) (pos : 0 < d) (small : d < 2 ^ 53) :
    (2 : ℚ) ^ (-1074 : Int) ≤ k / d := by
  have one : (1 : ℚ) ≤ k := by exact_mod_cast nonzero
  have below : (d : ℚ) ≤ 2 ^ 53 := by exact_mod_cast small.le
  calc (2 : ℚ) ^ (-1074 : Int) ≤ 2 ^ (-53 : Int) := zpow_le_zpow_right₀ (by norm_num) (by norm_num)
    _ = 1 / 2 ^ 53 := by norm_num
    _ ≤ 1 / d := one_div_le_one_div_of_le (by exact_mod_cast pos) below
    _ ≤ k / d := div_le_div_of_nonneg_right one (by positivity)

/-- A safe integer with a sign over a denominator is the double nearest to the fraction, with
that sign. -/
theorem ofFloat_signed_div_ofNat (neg : Bool) {k d : Nat} (safe : k ≤ maxSafe) (pos : 0 < d)
    (small : d < 2 ^ 53) :
    ofFloat (signed neg k / Float.ofNat d) =
      ofBits (UnpackedFloat.pack Format.binary64 (nearest (signOf neg) (k / d))).toNat := by
  have scale_pos : 0 < d * 2 ^ (52 - d.log2) := Nat.mul_pos pos (Nat.two_pow_pos _)
  have fits : k < 2 ^ 53 := by simp only [maxSafe, Nat.pow_eq] at safe; omega
  rw [ofFloat_div, ofFloat_ofNat_eq pos small, toUnpacked_pos _ scale_pos]
  rcases Nat.eq_zero_or_pos k with rfl | nonzero
  · rw [ofFloat_signed_zero, toUnpacked_zero, Nat.cast_zero, zero_div, nearest_zero]
    simp only [UnpackedFloat.div, signOf_div_positive]
  · have above : (2 : ℚ) ^ (-1074 : Int) ≤
        ((k * 2 ^ (52 - k.log2) : Nat) : ℚ) * 2 ^ ((k.log2 : Int) - 52) /
          (((d * 2 ^ (52 - d.log2) : Nat) : ℚ) * 2 ^ ((d.log2 : Int) - 52)) := by
      rw [canonical_value fits, canonical_value small]
      exact two_pow_le_div nonzero pos small
    rw [ofFloat_signed neg nonzero fits,
      toUnpacked_of_pos neg _ (Nat.mul_pos nonzero (Nat.two_pow_pos _)),
      div_eq_nearest _ _ _ _ _ _ above, signOf_div_positive, canonical_value fits,
      canonical_value small]

variable {value : Float} {neg : Bool} {m : Nat} {e : Int} {d : Nat}

/-- The quotient at `d` is the double nearest to the twice rounded numerator over `d`. -/
theorem ofFloat_quotientAt (parts : ofFloat value = .finite neg m e) (pos : 0 < d)
    (small : d < 2 ^ 53) (safe : halfUp (nearestValue (m * 2 ^ e * d)) ≤ maxSafe) :
    ofFloat (numeratorAt value d / Float.ofNat d) =
      ofBits (UnpackedFloat.pack Format.binary64
        (nearest (signOf neg) (halfUp (nearestValue (m * 2 ^ e * d)) / d))).toNat := by
  rw [ofFloat_div, ofFloat_numeratorAt parts pos small safe, ← ofFloat_div,
    ofFloat_signed_div_ofNat neg safe pos small]

/-- Equal quotients give equal errors. -/
theorem ofFloat_errorAt_congr {d' : Nat}
    (same : ofFloat (numeratorAt value d / Float.ofNat d) =
      ofFloat (numeratorAt value d' / Float.ofNat d')) :
    ofFloat (errorAt value d) = ofFloat (errorAt value d') := by
  rw [errorAt, errorAt, ofFloat_abs, ofFloat_abs, ofFloat_sub, ofFloat_sub, same]

end Quotient

section Factor

variable {value : Float} {neg : Bool} {m : Nat} {e : Int} {d : Nat}

/-- A numerator that `toInt?` reads is the value times `d` rounded twice, a safe integer. -/
theorem natAbs_of_toInt?_numeratorAt (parts : ofFloat value = .finite neg m e) (pos : 0 < d)
    (small : d < 2 ^ 53) {n : Int} (numerator : toInt? (numeratorAt value d) = some n) :
    halfUp (nearestValue (m * 2 ^ e * d)) ≤ maxSafe ∧
      n.natAbs = halfUp (nearestValue (m * 2 ^ e * d)) := by
  have safe : halfUp (nearestValue (m * 2 ^ e * d)) ≤ maxSafe := by
    by_contra! large
    rw [toInt?_numeratorAt_of_large parts pos small large] at numerator
    cases numerator
  refine ⟨safe, ?_⟩
  rw [toInt?_congr (ofFloat_numeratorAt parts pos small safe), toInt?_signed neg safe,
    Option.some.injEq] at numerator
  subst numerator
  cases neg <;> simp

/-- A fraction `g * k / (g * d)` with a common factor `g ≥ 2` has the error of `k / d`: the
same two roundings at `d` give `k`, and the quotients are the double nearest to one fraction. -/
theorem ofFloat_errorAt_mul (parts : ofFloat value = .finite neg m e) {g k : Nat} (two : 2 ≤ g)
    (pos : 0 < d) (small : g * d < 2 ^ 53)
    (rounds : halfUp (nearestValue (m * 2 ^ e * (g * d : Nat))) = g * k) (safe : g * k ≤ maxSafe) :
    ofFloat (errorAt value (g * d)) = ofFloat (errorAt value d) := by
  have fits : d < 2 ^ 53 := by nlinarith
  have rounds' : halfUp (nearestValue (m * 2 ^ e * d)) = k := by
    refine halfUp_nearestValue_of_mul (by positivity) two ?_ (by
      simp only [maxSafe, Nat.pow_eq] at safe
      omega)
    rw [← rounds]
    congr 2
    push_cast
    ring
  have safe' : halfUp (nearestValue (m * 2 ^ e * d)) ≤ maxSafe := by
    rw [rounds']
    exact le_trans (Nat.le_mul_of_pos_left k (by omega)) safe
  have fraction : ((g * k : Nat) : ℚ) / (g * d : Nat) = (k : ℚ) / d := by
    push_cast
    exact mul_div_mul_left _ _ (by positivity)
  apply ofFloat_errorAt_congr
  rw [ofFloat_quotientAt parts (by positivity) small (rounds ▸ safe),
    ofFloat_quotientAt parts pos fits safe', rounds, rounds', fraction]

end Factor

/-- The least minimiser's fraction is in lowest terms: a common factor `g ≥ 2` of the numerator
and `d` would make the error at `d / g` the same double, and `d / g` comes first. -/
theorem LeastMinimiser.coprime {value : Float} {neg : Bool} {m : Nat} {e : Int} {bound d : Nat}
    (parts : ofFloat value = .finite neg m e) (small : bound < 2 ^ 53)
    (least : LeastMinimiser value bound d) {n : Int}
    (numerator : toInt? (numeratorAt value d) = some n) : Nat.Coprime n.natAbs d := by
  have pos : 0 < d := least.pos
  have fits : d < 2 ^ 53 := lt_of_le_of_lt least.le_bound small
  obtain ⟨safe, magnitude⟩ := natAbs_of_toInt?_numeratorAt parts pos fits numerator
  rw [magnitude]
  generalize rounds : halfUp (nearestValue (m * 2 ^ e * d)) = K at safe
  -- a common factor `g` splits both: `K = g * K'` and `d = g * d'`
  by_contra shared
  have two : 2 ≤ Nat.gcd K d := by
    have := Nat.gcd_pos_of_pos_right K pos
    unfold Nat.Coprime at shared
    omega
  obtain ⟨K', hK⟩ := Nat.gcd_dvd_left K d
  obtain ⟨d', hd⟩ := Nat.gcd_dvd_right K d
  generalize Nat.gcd K d = g at two hK hd
  subst hK hd
  have pos' : 0 < d' := Nat.pos_of_ne_zero (by rintro rfl; omega)
  have earlier : d' < g * d' := by nlinarith
  have same := ofFloat_errorAt_mul parts two pos' fits rounds safe
  -- the error at `d'` is then not above the error at `d`, yet `d'` comes first
  have first := least.first d' pos' earlier
  rw [lt_iff_orderKey_lt (nonNegative_errorAt parts pos fits)
    (nonNegative_errorAt parts pos' (by omega)), same] at first
  exact lt_irrefl _ first

/-- The best fraction: none for a value that is not finite; otherwise the least denominator up to
the bound whose error is the least, with the numerator there read by `toInt?` (none when it is
not a safe integer), and the fraction in lowest terms. -/
theorem approximate_best_in_lowest_terms (bound : Nat) (value : Float) (word : bound < 2 ^ 32) :
    (value.isFinite = false → approximate bound value = none) ∧
    (value.isFinite = true → ∃ d, LeastMinimiser value (max bound 1) d ∧
      (toInt? (numeratorAt value d) = none → approximate bound value = none) ∧
      ∀ n, toInt? (numeratorAt value d) = some n →
        approximate bound value = some ⟨n, d⟩ ∧ Nat.Coprime n.natAbs d) := by
  constructor
  · intro infinite
    simp [approximate, infinite]
  · intro finite
    obtain ⟨neg, m, e, parts⟩ := ofFloat_of_isFinite finite
    obtain ⟨d, least, result⟩ := approximate_eq bound value finite word
    refine ⟨d, least, fun refused => by rw [result, refused]; rfl, fun n numerator => ?_⟩
    exact ⟨by rw [result, numerator]; rfl, least.coprime parts (by omega) numerator⟩

theorem approximate_best_in_lowest_terms_third :
    (10000 : Nat) < 2 ^ 32 ∧
    ((1.0 / 3.0 : Float).isFinite = false → approximate 10000 (1.0 / 3.0) = none) ∧
    ((1.0 / 3.0 : Float).isFinite = true → ∃ d, LeastMinimiser (1.0 / 3.0) (max 10000 1) d ∧
      (toInt? (numeratorAt (1.0 / 3.0) d) = none → approximate 10000 (1.0 / 3.0) = none) ∧
      ∀ n, toInt? (numeratorAt (1.0 / 3.0) d) = some n →
        approximate 10000 (1.0 / 3.0) = some ⟨n, d⟩ ∧ Nat.Coprime n.natAbs d) :=
  ⟨by decide, approximate_best_in_lowest_terms 10000 (1.0 / 3.0) (by decide)⟩

end Abacus.Fraction
