import Abacus.Proofs.Binary64.Arithmetic
import Abacus.Proofs.Binary64.Nearest
import Abacus.Proofs.Binary64.Order

/-!
# Rounding a double to an integer

`round` takes a double to the nearest integer, halves away from zero. On the parts of a finite
double it is `halfUp` of the magnitude with the sign kept: a double with a fractional exponent
becomes the double of a natural number, and an integral double is kept as it is. So whenever
the rounded magnitude is a safe integer, the result has the parts of that integer with the
sign (`ofFloat_round`), and `toInt?` reads it back (`toInt?_signed`); otherwise `toInt?`
refuses it (`toInt?_round_of_large`).
-/

open Float.Model Float.Model.UnpackedFloat

namespace Abacus.Binary64

section HalfUp

/-- The natural number nearest to a nonnegative rational, halves up. -/
def halfUp (y : ℚ) : Nat := ⌊y + 1 / 2⌋₊

/-- `n` is the nearest natural number, halves up, to what lies from half below it to just
under half above it. -/
theorem halfUp_eq_iff {y : ℚ} (nonneg : 0 ≤ y) {n : Nat} :
    halfUp y = n ↔ (n : ℚ) - 1 / 2 ≤ y ∧ y < n + 1 / 2 := by
  rw [halfUp, Nat.floor_eq_iff (by linarith)]
  constructor <;> rintro ⟨low, high⟩ <;> constructor <;> linarith

theorem halfUp_natCast (n : Nat) : halfUp n = n :=
  (halfUp_eq_iff (Nat.cast_nonneg n)).2 ⟨by linarith, by linarith⟩

/-- Below a natural number, the nearest one is at most it. -/
theorem halfUp_le_of_lt {y : ℚ} {n : Nat} (lt : y < n) : halfUp y ≤ n :=
  Nat.le_of_lt_succ ((Nat.floor_lt' (Nat.succ_ne_zero n)).2 (by push_cast; linarith))

/-- The nearest natural number to `M * 2 ^ T` for a negative `T`, from the quotient and the
remainder by `2 ^ |T|`. -/
theorem halfUp_mul_two_pow {M : Nat} {T : Int} (neg : T < 0) :
    halfUp (M * 2 ^ T) = if 2 * (M % 2 ^ T.natAbs) ≥ 2 ^ T.natAbs then M / 2 ^ T.natAbs + 1
      else M / 2 ^ T.natAbs := by
  have unit : (0 : ℚ) < 2 ^ T.natAbs := by positivity
  generalize hq : M / 2 ^ T.natAbs = q
  generalize hr : M % 2 ^ T.natAbs = r
  have below : r < 2 ^ T.natAbs := hr ▸ Nat.mod_lt M (Nat.two_pow_pos _)
  -- `M * 2 ^ T` is the quotient `q` and the fraction `r / 2 ^ |T|`
  have value : (M : ℚ) * 2 ^ T = q + r / 2 ^ T.natAbs := by
    have split : ((2 ^ T.natAbs * q + r : Nat) : ℚ) = M := by rw [← hq, ← hr, Nat.div_add_mod]
    have inverse : (2 : ℚ) ^ T = 1 / 2 ^ T.natAbs := by
      rw [eq_div_iff unit.ne', mul_comm, two_pow_natAbs_mul_zpow neg]
    rw [← split, inverse]
    push_cast
    field_simp
  have fraction : (r : ℚ) / 2 ^ T.natAbs < 1 := (div_lt_one unit).2 (by exact_mod_cast below)
  have nonneg : (0 : ℚ) ≤ r / 2 ^ T.natAbs := by positivity
  have half : (1 / 2 : ℚ) ≤ r / 2 ^ T.natAbs ↔ 2 ^ T.natAbs ≤ 2 * r := by
    rw [le_div_iff₀ unit]
    constructor <;> intro h
    · have : ((2 ^ T.natAbs : Nat) : ℚ) ≤ ((2 * r : Nat) : ℚ) := by push_cast; linarith
      exact_mod_cast this
    · have : ((2 ^ T.natAbs : Nat) : ℚ) ≤ ((2 * r : Nat) : ℚ) := by exact_mod_cast h
      push_cast at this
      linarith
  rw [value, halfUp_eq_iff (by positivity)]
  split_ifs with above
  · have := half.2 above
    push_cast
    constructor <;> linarith
  · have : ¬ (1 / 2 : ℚ) ≤ r / 2 ^ T.natAbs := fun h => above (half.1 h)
    constructor <;> linarith

end HalfUp

section Signed

/-- A positive natural number below `2 ^ 53` with a sign is a double with the canonical parts of
the number. -/
theorem ofFloat_signed (neg : Bool) {q : Nat} (pos : 0 < q) (small : q < 2 ^ 53) :
    ofFloat (signed neg q) = .finite neg (q * 2 ^ (52 - q.log2)) (q.log2 - 52) := by
  have parts := ofFloat_ofNat_eq pos small
  cases neg
  · exact parts
  · have canonical : Canonical (q * 2 ^ (52 - q.log2)) (q.log2 - 52) :=
      (ofBits_finite_canonical parts).resolve_left
        (by have := Nat.mul_pos pos (Nat.two_pow_pos (52 - q.log2)); omega)
    rw [signed, if_pos rfl, ofFloat_neg, parts, toUnpacked_pos _ canonical.1]
    exact ofBits_pack_finite .negative _ _ canonical.1 canonical

/-- The canonical parts of a natural number below `2 ^ 53` are worth the number. -/
theorem canonical_value {q : Nat} (small : q < 2 ^ 53) :
    ((q * 2 ^ (52 - q.log2) : Nat) : ℚ) * 2 ^ ((q.log2 : Int) - 52) = q := by
  have bits : q.log2 ≤ 52 := by
    rcases Nat.eq_zero_or_pos q with rfl | pos
    · simp
    · have := (Nat.log2_lt (Nat.pos_iff_ne_zero.1 pos)).2 small
      omega
  push_cast
  rw [mul_assoc, ← zpow_natCast, ← zpow_add₀ (by norm_num),
    show ((52 - q.log2 : Nat) : Int) + (q.log2 - 52) = 0 by omega, zpow_zero, mul_one]

/-- The canonical significand of a natural number below `2 ^ 53` has all 53 bits. -/
theorem two_pow_le_canonical {q : Nat} (pos : 0 < q) (small : q < 2 ^ 53) :
    2 ^ 52 ≤ q * 2 ^ (52 - q.log2) := by
  have bits : q.log2 ≤ 52 := by
    have := (Nat.log2_lt (Nat.pos_iff_ne_zero.1 pos)).2 small
    omega
  calc 2 ^ 52 = 2 ^ q.log2 * 2 ^ (52 - q.log2) := by rw [← Nat.pow_add]; congr 1; omega
    _ ≤ q * 2 ^ (52 - q.log2) := Nat.mul_le_mul_right _ (Nat.log2_self_le (by omega))

/-- Zero with a sign is the zero of that sign. -/
theorem ofFloat_signed_zero (neg : Bool) : ofFloat (signed neg 0) = .finite neg 0 (-1074) := by
  cases neg <;> decide

/-- The canonical parts of a natural number below `2 ^ 53` are integral, of that magnitude. -/
theorem floorMagnitude_canonical {q : Nat} (pos : 0 < q) (small : q < 2 ^ 53) :
    floorMagnitude (q * 2 ^ (52 - q.log2)) (q.log2 - 52) = q ∧
      isIntegral (q * 2 ^ (52 - q.log2)) (q.log2 - 52) = true := by
  have bits : q.log2 ≤ 52 := by
    have := (Nat.log2_lt (Nat.pos_iff_ne_zero.1 pos)).2 small
    omega
  have shift : ((q.log2 : Int) - 52).natAbs = 52 - q.log2 := by omega
  by_cases top : q.log2 = 52
  · rw [top]
    simp [floorMagnitude, isIntegral]
  · have neg : (q.log2 : Int) - 52 < 0 := by omega
    simp only [floorMagnitude, isIntegral, neg, shift, ↓reduceIte, Nat.pow_eq,
      Nat.mul_div_cancel _ (Nat.two_pow_pos _), Nat.mul_mod_left]
    simp

/-- A safe natural number with a sign reads back as that integer. -/
theorem toInt?_signed (neg : Bool) {q : Nat} (safe : q ≤ maxSafe) :
    toInt? (signed neg q) = some (if neg then -(q : Int) else q) := by
  rcases Nat.eq_zero_or_pos q with rfl | pos
  · simp only [toInt?, ofFloat_signed_zero, floorMagnitude, isIntegral, Nat.zero_div,
      Nat.zero_mod]
    cases neg <;> decide
  · have small : q < 2 ^ 53 := by simp only [maxSafe, Nat.pow_eq] at safe; omega
    obtain ⟨magnitude, integral⟩ := floorMagnitude_canonical pos small
    simp only [toInt?, ofFloat_signed neg pos small, magnitude, integral, Bool.true_and,
      decide_eq_true_eq, safe, ↓reduceIte]

/-- `toInt?` reads only the parts. -/
theorem toInt?_congr {x y : Float} (same : ofFloat x = ofFloat y) : toInt? x = toInt? y := by
  simp only [toInt?, same]

end Signed

section Round

/-- Rounding reads only the parts. -/
theorem ofFloat_round_congr {x y : Float} (same : ofFloat x = ofFloat y) :
    ofFloat (round x) = ofFloat (round y) := by
  unfold round
  rw [same]
  split
  · split_ifs
    · rfl
    · exact same
  · exact same

/-- A magnitude below `2 ^ 53` with a fractional exponent is below `2 ^ 52`. -/
theorem mul_two_pow_lt_of_neg {M : Nat} {T : Int} (small : M < 2 ^ 53) (neg : T < 0) :
    (M : ℚ) * 2 ^ T < 2 ^ 52 := by
  have half : (2 : ℚ) ^ T ≤ 1 / 2 := by
    calc (2 : ℚ) ^ T ≤ 2 ^ (-1 : Int) := zpow_le_zpow_right₀ (by norm_num) (by omega)
      _ = 1 / 2 := by norm_num
  calc (M : ℚ) * 2 ^ T ≤ M * (1 / 2) := mul_le_mul_of_nonneg_left half (by positivity)
    _ < 2 ^ 53 * (1 / 2) := by
        have : (M : ℚ) < 2 ^ 53 := by exact_mod_cast small
        linarith
    _ = 2 ^ 52 := by norm_num

/-- Rounding a double whose rounded magnitude is safe gives the double of that integer, with
the sign of the double. -/
theorem ofFloat_round {x : Float} {neg : Bool} {M : Nat} {T : Int}
    (parts : ofFloat x = .finite neg M T) (safe : halfUp (M * 2 ^ T) ≤ maxSafe) :
    ofFloat (round x) = ofFloat (signed neg (halfUp (M * 2 ^ T))) := by
  by_cases fractional : T < 0
  · -- the model adds one when the remainder is at least half of `2 ^ |T|`
    have rounds : round x = signed neg (halfUp (M * 2 ^ T)) := by
      simp only [round, parts, fractional, ↓reduceIte, halfUp_mul_two_pow fractional, Nat.pow_eq]
    rw [rounds]
  · -- an integral double is kept, and a safe one has all its bits at the exponent zero
    have whole : round x = x := by simp [round, parts, fractional]
    obtain ⟨pos, small, -, -, normal⟩ : Canonical M T :=
      (ofBits_finite_canonical parts).resolve_left (by omega)
    have lead : 2 ^ 52 ≤ M := normal.resolve_right (by omega)
    have value : halfUp (M * 2 ^ T) = M * 2 ^ T.toNat := by
      rw [← halfUp_natCast (M * 2 ^ T.toNat)]
      congr 1
      push_cast
      rw [← zpow_natCast, Int.toNat_of_nonneg (by omega)]
    have zero : T = 0 := by
      by_contra nonzero
      have : 2 ^ 53 ≤ M * 2 ^ T.toNat :=
        calc 2 ^ 53 = 2 ^ 52 * 2 ^ 1 := by norm_num
          _ ≤ M * 2 ^ T.toNat := Nat.mul_le_mul lead (Nat.pow_le_pow_right (by decide) (by omega))
      simp only [maxSafe, Nat.pow_eq] at safe
      omega
    subst zero
    have top : M.log2 = 52 :=
      le_antisymm (by have := (Nat.log2_lt (Nat.pos_iff_ne_zero.1 pos)).2 small; omega)
        ((Nat.le_log2 (Nat.pos_iff_ne_zero.1 pos)).2 lead)
    rw [whole, value, show (0 : Int).toNat = 0 from rfl, Nat.pow_zero, Nat.mul_one,
      ofFloat_signed neg pos small, top, parts]
    simp

/-- A double whose rounded magnitude is not safe rounds to something `toInt?` refuses. -/
theorem toInt?_round_of_large {x : Float} {neg : Bool} {M : Nat} {T : Int}
    (parts : ofFloat x = .finite neg M T) (large : maxSafe < halfUp (M * 2 ^ T)) :
    toInt? (round x) = none := by
  obtain ⟨-, small, -, -, -⟩ | ⟨rfl, rfl⟩ : Canonical M T ∨ (M = 0 ∧ T = -1074) :=
    (ofBits_finite_canonical parts).symm
  rotate_left
  · -- zero rounds to zero
    have : halfUp (((0 : Nat) : ℚ) * 2 ^ (-1074 : Int)) = 0 := by
      rw [Nat.cast_zero, zero_mul]
      exact (halfUp_eq_iff le_rfl).2 ⟨by norm_num, by norm_num⟩
    omega
  by_cases fractional : T < 0
  · -- with a fractional exponent the magnitude is below `2 ^ 52`, which is safe
    have : halfUp (M * 2 ^ T) ≤ 2 ^ 52 :=
      halfUp_le_of_lt (by exact_mod_cast mul_two_pow_lt_of_neg small fractional)
    simp only [maxSafe, Nat.pow_eq] at large
    omega
  · have whole : round x = x := by simp [round, parts, fractional]
    have value : halfUp (M * 2 ^ T) = M * 2 ^ T.toNat := by
      rw [← halfUp_natCast (M * 2 ^ T.toNat)]
      congr 1
      push_cast
      rw [← zpow_natCast, Int.toNat_of_nonneg (by omega)]
    rw [whole, toInt?, parts]
    simp only [floorMagnitude, fractional, ↓reduceIte, Nat.pow_eq, ← value]
    simp [Nat.not_le.2 large]

/-- Rounding a finite double gives a finite double of the same sign. -/
theorem ofFloat_round_finite {x : Float} {neg : Bool} {M : Nat} {T : Int}
    (parts : ofFloat x = .finite neg M T) : ∃ M' T', ofFloat (round x) = .finite neg M' T' := by
  by_cases fractional : T < 0
  · have small : M < 2 ^ 53 := by
      rcases ofBits_finite_canonical parts with ⟨rfl, -⟩ | canonical
      · norm_num
      · exact canonical.2.1
    have bound : halfUp (M * 2 ^ T) ≤ 2 ^ 52 :=
      halfUp_le_of_lt (by exact_mod_cast mul_two_pow_lt_of_neg small fractional)
    rw [ofFloat_round parts (by simp only [maxSafe, Nat.pow_eq]; omega)]
    rcases Nat.eq_zero_or_pos (halfUp (M * 2 ^ T)) with vanishing | pos
    · exact ⟨_, _, by rw [vanishing, ofFloat_signed_zero]⟩
    · exact ⟨_, _, ofFloat_signed neg pos (by omega)⟩
  · have whole : round x = x := by simp [round, parts, fractional]
    exact ⟨M, T, by rw [whole, parts]⟩

/-- Rounding never makes a NaN. -/
theorem ofFloat_round_ne_nan {x : Float} (h : ofFloat x ≠ .nan) : ofFloat (round x) ≠ .nan := by
  cases parts : ofFloat x with
  | nan => exact absurd parts h
  | infinite negative =>
    have same : round x = x := by simp [round, parts]
    rw [same, parts]
    simp
  | finite negative m e =>
    obtain ⟨M', T', rounded⟩ := ofFloat_round_finite parts
    rw [rounded]
    simp

end Round

section Residue

/-- A nonnegative rational below `2 ^ 61` rounds to a finite double. -/
theorem ofBits_pack_nearest_of_small (s : Sign) {X : ℚ} (nonneg : 0 ≤ X) (small : X < 2 ^ 61) :
    ∃ neg M T, ofBits (UnpackedFloat.pack Format.binary64 (nearest s X)).toNat = .finite neg M T := by
  rcases nearest_parts s nonneg with ⟨zero, -⟩ | ⟨M, T, pos, parts, value, fits, least, normal⟩
  · exact ⟨_, _, _, by rw [zero, ofBits_pack_zero]⟩
  -- the last place of a value below `2 ^ 61` is at most `8`, so the exponent stays small
  have place : lastPlace X ≤ 8 := by
    rcases nonneg.lt_or_eq with positive | rfl
    · have : Int.log 2 X < 61 :=
        (Int.lt_zpow_iff_log_lt (by norm_num) positive).1 (by simpa using small)
      simp only [lastPlace]
      omega
    · simp [lastPlace]
  have bound : (M : ℚ) * 2 ^ T < 2 ^ (62 : Nat) :=
    calc (M : ℚ) * 2 ^ T = nearestValue X := value
      _ ≤ 2 ^ (lastPlace X + 53) := nearestValue_le X
      _ ≤ 2 ^ (61 : Int) := zpow_le_zpow_right₀ (by norm_num) (by omega)
      _ < 2 ^ (62 : Nat) := by norm_num
  have top := exponent_lt_of_lt pos bound
  exact ⟨_, M, T, by rw [parts, ofBits_pack_finite s M T pos ⟨pos, fits, least, by omega, normal⟩]⟩

/-- Normalizing a signed significand of magnitude below `2 ^ 61` gives a finite double. -/
theorem ofBits_pack_normalize_of_small {D : Int} {c : Int}
    (small : (D.natAbs : ℚ) * 2 ^ c < 2 ^ 61) :
    ∃ neg M T, ofBits (UnpackedFloat.pack Format.binary64
      (UnpackedFloat.normalize Format.binary64 D c .positive)).toNat = .finite neg M T := by
  unfold UnpackedFloat.normalize
  split
  · rename_i below
    have negative : D < 0 := compare_lt_iff_lt.1 below
    rw [round_eq_nearest _ _ (by omega)]
    exact ofBits_pack_nearest_of_small _ (by positivity)
      (by rw [show (-D).toNat = D.natAbs by omega]; exact small)
  · exact ⟨_, _, _, ofBits_pack_zero _⟩
  · rename_i above
    have positive : 0 < D := compare_gt_iff_gt.1 above
    rw [round_eq_nearest _ _ (by omega)]
    exact ofBits_pack_nearest_of_small _ (by positivity)
      (by rw [show D.toNat = D.natAbs by omega]; exact small)

/-- A signed difference is at most the sum of the magnitudes. -/
theorem natAbs_apply_sub_le (s₁ s₂ : Sign) (a b : Nat) :
    (s₁.apply a - s₂.apply b).natAbs ≤ a + b := by
  cases s₁ <;> cases s₂ <;> simp only [Sign.apply] <;> omega

/-- A difference of finite doubles below `2 ^ 60` is finite. -/
theorem ofFloat_sub_of_small {x y : Float} {n₁ n₂ : Bool} {m₁ m₂ : Nat} {e₁ e₂ : Int}
    (hx : ofFloat x = .finite n₁ m₁ e₁) (hy : ofFloat y = .finite n₂ m₂ e₂)
    (small₁ : (m₁ : ℚ) * 2 ^ e₁ < 2 ^ 60) (small₂ : (m₂ : ℚ) * 2 ^ e₂ < 2 ^ 60) :
    ∃ neg M T, ofFloat (x - y) = .finite neg M T := by
  have canonical₁ := ofBits_finite_canonical hx
  have canonical₂ := ofBits_finite_canonical hy
  rw [ofFloat_sub, hx, hy]
  rcases toUnpacked_finite n₁ m₁ e₁ with vanishing₁ | ⟨pos₁, finite₁⟩ <;>
    rcases toUnpacked_finite n₂ m₂ e₂ with vanishing₂ | ⟨pos₂, finite₂⟩
  · rw [vanishing₁, vanishing₂]
    simp only [UnpackedFloat.sub]
    split_ifs <;> exact ⟨_, _, _, ofBits_pack_zero _⟩
  · rw [vanishing₁, finite₂]
    exact ⟨_, _, _, ofBits_pack_finite _ _ _ pos₂ (canonical₂.resolve_left (by omega))⟩
  · rw [finite₁, vanishing₂]
    exact ⟨_, _, _, ofBits_pack_finite _ _ _ pos₁ (canonical₁.resolve_left (by omega))⟩
  · rw [finite₁, finite₂]
    simp only [UnpackedFloat.sub, decreaseExponent, Nat.shiftLeft_eq]
    apply ofBits_pack_normalize_of_small
    -- both significands are brought to the smaller exponent, and the difference is at most
    -- their sum there
    generalize hc : min e₁ e₂ = c
    have aligned : ∀ (m : Nat) (e : Int), c ≤ e →
        ((m * 2 ^ (e - c).toNat : Nat) : ℚ) * 2 ^ c = m * 2 ^ e := by
      intro m e le
      push_cast
      rw [mul_assoc, ← zpow_natCast, ← zpow_add₀ (by norm_num)]
      congr 2
      omega
    have sum : ((Sign.apply (signOf n₁) (m₁ * 2 ^ (e₁ - c).toNat : Nat) -
        Sign.apply (signOf n₂) (m₂ * 2 ^ (e₂ - c).toNat : Nat)).natAbs : ℚ) ≤
        ((m₁ * 2 ^ (e₁ - c).toNat + m₂ * 2 ^ (e₂ - c).toNat : Nat) : ℚ) := by
      exact_mod_cast natAbs_apply_sub_le _ _ _ _
    calc _ ≤ ((m₁ * 2 ^ (e₁ - c).toNat + m₂ * 2 ^ (e₂ - c).toNat : Nat) : ℚ) * 2 ^ c :=
          mul_le_mul_of_nonneg_right sum (by positivity)
      _ = m₁ * 2 ^ e₁ + m₂ * 2 ^ e₂ := by
          rw [Nat.cast_add, add_mul, aligned m₁ e₁ (by omega), aligned m₂ e₂ (by omega)]
      _ < 2 ^ 61 := by linarith

/-- A finite double less its rounding to an integer is finite. -/
theorem ofFloat_sub_round {x y : Float} {neg : Bool} {M : Nat} {T : Int}
    (parts : ofFloat x = .finite neg M T) (rounded : ofFloat y = ofFloat (round x)) :
    ∃ neg' M' T', ofFloat (x - y) = .finite neg' M' T' := by
  by_cases fractional : T < 0
  · -- with a fractional exponent the double is below `2 ^ 52`, and so is its rounding
    have small : M < 2 ^ 53 := by
      rcases ofBits_finite_canonical parts with ⟨rfl, -⟩ | canonical
      · norm_num
      · exact canonical.2.1
    have below := mul_two_pow_lt_of_neg small fractional
    have bound : halfUp (M * 2 ^ T) ≤ 2 ^ 52 := halfUp_le_of_lt (by exact_mod_cast below)
    rw [ofFloat_round parts (by simp only [maxSafe, Nat.pow_eq]; omega)] at rounded
    rcases Nat.eq_zero_or_pos (halfUp (M * 2 ^ T)) with vanishing | pos
    · rw [vanishing, ofFloat_signed_zero] at rounded
      exact ofFloat_sub_of_small parts rounded (by linarith) (by simp)
    · rw [ofFloat_signed neg pos (by omega)] at rounded
      refine ofFloat_sub_of_small parts rounded (by linarith) ?_
      rw [canonical_value (by omega)]
      exact_mod_cast (by omega : halfUp (M * 2 ^ T) < 2 ^ 60)
  · -- an integral double is its own rounding, and a double less itself is zero
    have whole : round x = x := by simp [round, parts, fractional]
    rw [whole] at rounded
    rw [ofFloat_sub, rounded, ← ofFloat_sub, ofFloat_sub_self parts]
    exact ⟨_, _, _, rfl⟩

end Residue

end Abacus.Binary64
