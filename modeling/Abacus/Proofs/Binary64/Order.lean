import Abacus.Proofs.Binary64.Parts

/-!
# Comparing doubles that are not below zero

The model compares two unpacked doubles by class, then by exponent, then by significand. On the
doubles that are not NaN and have a clear sign bit (`NonNegative`: plus infinity, the positive
zero, or canonical parts) this is the order of one natural number, `orderKey`: the exponent
shifted above the 53 bits of the significand, with infinity above every finite double
(`compare_toUnpacked`). So `<`, `≤` and `==` on such doubles are the order and the equality of
their keys (`lt_iff_orderKey_lt`, `le_iff_orderKey_le`, `beq_iff_orderKey_eq`), and the positive
zero has the least key.

Magnitudes are such doubles: the magnitude of anything that is not NaN is `NonNegative`
(`nonNegative_abs`), and the arithmetic of finite doubles never makes a NaN.
-/

open Float.Model Float.Model.UnpackedFloat

namespace Abacus.Binary64

/-- The position of a nonnegative double in the order of values: the exponent above the 53
bits of the significand, and infinity above all. -/
def orderKey : Binary64 → Nat
  | .finite _ m e => (e + 1075).toNat * 2 ^ 53 + m
  | _ => 2 ^ 64

/-- The parts of a double that is neither NaN nor below zero, with a clear sign bit: plus
infinity, or a zero at the least exponent, or canonical parts. -/
def NonNegative (b : Binary64) : Prop :=
  b = .infinite false ∨ ∃ m e, b = .finite false m e ∧ ((m = 0 ∧ e = -1074) ∨ Canonical m e)

section Keys

/-- Comparing finite positive parts by exponent then significand is comparing their keys. -/
theorem compare_then_eq {m₁ m₂ : Nat} {e₁ e₂ : Int} (low₁ : -1074 ≤ e₁) (low₂ : -1074 ≤ e₂)
    (small₁ : m₁ < 2 ^ 53) (small₂ : m₂ < 2 ^ 53) :
    (compare e₁ e₂).then (compare m₁ m₂) =
      compare ((e₁ + 1075).toNat * 2 ^ 53 + m₁) ((e₂ + 1075).toNat * 2 ^ 53 + m₂) := by
  rcases lt_trichotomy e₁ e₂ with lt | rfl | gt
  · rw [compare_lt_iff_lt.2 lt, Ordering.lt_then, eq_comm, compare_lt_iff_lt]
    omega
  · rw [compare_eq_iff_eq.2 rfl, Ordering.eq_then]
    rcases lt_trichotomy m₁ m₂ with lt | rfl | gt
    · rw [compare_lt_iff_lt.2 lt, eq_comm, compare_lt_iff_lt]
      omega
    · rw [compare_eq_iff_eq.2 rfl, eq_comm, compare_eq_iff_eq]
    · rw [compare_gt_iff_gt.2 gt, eq_comm, compare_gt_iff_gt]
      omega
  · rw [compare_gt_iff_gt.2 gt, Ordering.gt_then, eq_comm, compare_gt_iff_gt]
    omega

/-- A nonnegative finite double is below infinity, and a positive one above zero. -/
theorem orderKey_bounds {m : Nat} {e : Int} (canonical : Canonical m e) :
    2 ^ 53 < orderKey (.finite false m e) ∧ orderKey (.finite false m e) < 2 ^ 64 := by
  obtain ⟨pos, small, low, high, -⟩ := canonical
  simp only [orderKey]
  omega

/-- A nonnegative double unpacks to plus infinity, the positive zero or positive finite parts,
with its key above the zero's and below the infinity's in the finite case. -/
theorem NonNegative.unpacked {b : Binary64} (h : NonNegative b) :
    (b.toUnpacked = .infinity .positive ∧ orderKey b = 2 ^ 64) ∨
      (b.toUnpacked = .zero .positive ∧ orderKey b = 2 ^ 53) ∨
      ∃ m e pos, b.toUnpacked = .finite .positive m e pos ∧
        orderKey b = (e + 1075).toNat * 2 ^ 53 + m ∧ m < 2 ^ 53 ∧ -1074 ≤ e ∧
        2 ^ 53 < orderKey b ∧ orderKey b < 2 ^ 64 := by
  rcases h with rfl | ⟨m, e, rfl, ⟨rfl, rfl⟩ | canonical⟩
  · exact .inl ⟨rfl, rfl⟩
  · exact .inr (.inl ⟨rfl, rfl⟩)
  · obtain ⟨above, below⟩ := orderKey_bounds canonical
    exact .inr (.inr ⟨m, e, canonical.1, toUnpacked_pos e canonical.1, rfl, canonical.2.1,
      canonical.2.2.1, above, below⟩)

/-- The model's comparison of nonnegative doubles is the comparison of their keys. -/
theorem compare_toUnpacked {a b : Binary64} (ha : NonNegative a) (hb : NonNegative b) :
    UnpackedFloat.compare a.toUnpacked b.toUnpacked = some (compare (orderKey a) (orderKey b)) := by
  rcases ha.unpacked with ⟨ua, ka⟩ | ⟨ua, ka⟩ | ⟨m₁, e₁, pos₁, ua, ka, small₁, low₁, above₁, below₁⟩ <;>
    rcases hb.unpacked with ⟨ub, kb⟩ | ⟨ub, kb⟩ |
      ⟨m₂, e₂, pos₂, ub, kb, small₂, low₂, above₂, below₂⟩ <;>
    simp only [ua, ub, UnpackedFloat.compare, Option.some.injEq]
  -- the infinity is above everything else and equal to itself
  · rw [ka, kb]; rfl
  · exact (compare_gt_iff_gt.2 (by omega)).symm
  · exact (compare_gt_iff_gt.2 (by omega)).symm
  -- the zero is below everything else and equal to itself
  · exact (compare_lt_iff_lt.2 (by omega)).symm
  · rw [ka, kb]; rfl
  · exact (compare_lt_iff_lt.2 (by omega)).symm
  -- positive finite doubles are between, in the order of exponent and significand
  · exact (compare_lt_iff_lt.2 (by omega)).symm
  · exact (compare_gt_iff_gt.2 (by omega)).symm
  · rw [ka, kb]
    exact compare_then_eq low₁ low₂ small₁ small₂

end Keys

section Comparisons

theorem lt_iff_toUnpacked (x y : Float) :
    x < y ↔ UnpackedFloat.lt (ofFloat x).toUnpacked (ofFloat y).toUnpacked = true := by
  rw [← unpack_toModel, ← unpack_toModel]
  show Float.lt x y = true ↔ _
  simp [Float.lt]
  rfl

theorem le_iff_toUnpacked (x y : Float) :
    x ≤ y ↔ UnpackedFloat.le (ofFloat x).toUnpacked (ofFloat y).toUnpacked = true := by
  rw [← unpack_toModel, ← unpack_toModel]
  show Float.le x y = true ↔ _
  simp [Float.le]
  rfl

theorem beq_eq_toUnpacked (x y : Float) :
    (x == y) = UnpackedFloat.beq (ofFloat x).toUnpacked (ofFloat y).toUnpacked := by
  rw [← unpack_toModel, ← unpack_toModel]
  rfl

variable {x y : Float} (hx : NonNegative (ofFloat x)) (hy : NonNegative (ofFloat y))
include hx hy

/-- On nonnegative doubles, `<` is the order of the keys. -/
theorem lt_iff_orderKey_lt : x < y ↔ orderKey (ofFloat x) < orderKey (ofFloat y) := by
  rw [lt_iff_toUnpacked, UnpackedFloat.lt, compare_toUnpacked hx hy, beq_iff_eq,
    Option.some.injEq, compare_lt_iff_lt]

/-- On nonnegative doubles, `≤` is the order of the keys. -/
theorem le_iff_orderKey_le : x ≤ y ↔ orderKey (ofFloat x) ≤ orderKey (ofFloat y) := by
  rw [le_iff_toUnpacked, UnpackedFloat.le, compare_toUnpacked hx hy, Option.any_some,
    Ordering.isLE_iff_ne_gt, compare_gt_iff_gt, not_lt]

/-- On nonnegative doubles, `==` is the equality of the keys. -/
theorem beq_iff_orderKey_eq : (x == y) = true ↔ orderKey (ofFloat x) = orderKey (ofFloat y) := by
  rw [beq_eq_toUnpacked, UnpackedFloat.beq, compare_toUnpacked hx hy, beq_iff_eq,
    Option.some.injEq, compare_eq_iff_eq]

end Comparisons

section Magnitudes

theorem ofFloat_zero : ofFloat 0.0 = .finite false 0 (-1074) := by decide

theorem ofFloat_infinity : ofFloat infinity = .infinite false := by decide

theorem nonNegative_zero : NonNegative (ofFloat 0.0) := by
  rw [ofFloat_zero]
  exact .inr ⟨0, -1074, rfl, .inl ⟨rfl, rfl⟩⟩

theorem nonNegative_infinity : NonNegative (ofFloat infinity) := by
  rw [ofFloat_infinity]
  exact .inl rfl

/-- The positive zero has the least key. -/
theorem orderKey_zero : orderKey (ofFloat 0.0) = 2 ^ 53 := by
  rw [ofFloat_zero]
  rfl

/-- Infinity has the greatest key. -/
theorem orderKey_infinity : orderKey (ofFloat infinity) = 2 ^ 64 := by
  rw [ofFloat_infinity]
  rfl

theorem NonNegative.orderKey_bounds {b : Binary64} (h : NonNegative b) :
    2 ^ 53 ≤ orderKey b ∧ orderKey b ≤ 2 ^ 64 := by
  rcases h.unpacked with ⟨-, key⟩ | ⟨-, key⟩ | ⟨m, e, pos, -, -, -, -, above, below⟩
  all_goals omega

/-- An infinity packs to the bits of an infinity. -/
theorem ofBits_pack_infinity (s : Sign) :
    ofBits (UnpackedFloat.pack Format.binary64 (.infinity s)).toNat = .infinite (s == .negative) := by
  simp [UnpackedFloat.pack, packedInfinity, ofBits_packComponents]

/-- The magnitude of a double that is not NaN is nonnegative. -/
theorem nonNegative_abs {x : Float} (h : ofFloat x ≠ .nan) : NonNegative (ofFloat x.abs) := by
  cases parts : ofFloat x with
  | nan => exact absurd parts h
  | infinite negative =>
    left
    rw [ofFloat_abs, parts]
    exact ofBits_pack_infinity .positive
  | finite negative m e =>
    right
    refine ⟨m, e, ofFloat_abs_of_finite parts, ofBits_finite_canonical parts⟩

end Magnitudes

section Numbers

/-- Rounding always gives a number. -/
theorem roundWithAccuracy_ne_notANumber (s : Sign) (m : Nat) (e : Int) (acc : Accuracy) :
    roundWithAccuracy Format.binary64 s m e acc ≠ .notANumber := by
  unfold roundWithAccuracy
  dsimp only
  split_ifs <;> simp

theorem round_ne_notANumber (s : Sign) (m : Nat) (e : Int) :
    UnpackedFloat.round Format.binary64 s m e ≠ .notANumber :=
  roundWithAccuracy_ne_notANumber _ _ _ _

theorem normalize_ne_notANumber (m e : Int) (s : Sign) :
    UnpackedFloat.normalize Format.binary64 m e s ≠ .notANumber := by
  unfold UnpackedFloat.normalize
  split <;> simp [round_ne_notANumber]

/-- Packing a number never gives the bits of a NaN: the exponent field of a finite result is
below the all-ones field, or the result is an infinity. -/
theorem ofBits_pack_ne_nan {u : UnpackedFloat} (h : u ≠ .notANumber) :
    ofBits (UnpackedFloat.pack Format.binary64 u).toNat ≠ .nan := by
  cases u with
  | notANumber => exact absurd rfl h
  | infinity s => rw [ofBits_pack_infinity]; simp
  | zero s => rw [ofBits_pack_zero]; simp
  | finite s m e hm =>
    simp only [UnpackedFloat.pack]
    split_ifs with beyond normal
    · have := ofBits_pack_infinity s
      simp only [UnpackedFloat.pack] at this
      rw [this]
      simp
    · -- a normal number: its exponent field is below the all-ones field
      rw [ofBits_packComponents, if_neg (by simp only [BitVec.toNat_ofNat]; omega)]
      split_ifs <;> simp
    · rw [ofBits_packComponents]
      simp

/-- Parts at an exponent from `972` on are too large for a double and pack to an infinity. -/
theorem ofBits_pack_of_overflow (s : Sign) {M : Nat} {T : Int} (pos : 0 < M) (large : 972 ≤ T) :
    ofBits (UnpackedFloat.pack Format.binary64 (.finite s M T pos)).toNat =
      .infinite (s == .negative) := by
  have beyond : 2 ^ Format.binary64.exponentBits ≤
      (T + Format.binary64.exponentBias + Format.binary64.mantissaBitsWithoutImplicit).toNat + 1 := by
    simp only [Format.exponentBias]
    omega
  have := ofBits_pack_infinity s
  simp only [UnpackedFloat.pack] at this ⊢
  rw [if_pos beyond, this]

/-- The unpacked form of finite parts is a zero or positive finite parts. -/
theorem toUnpacked_finite (neg : Bool) (m : Nat) (e : Int) :
    (Binary64.finite neg m e).toUnpacked = .zero (signOf neg) ∨
      ∃ pos, (Binary64.finite neg m e).toUnpacked = .finite (signOf neg) m e pos := by
  by_cases vanishing : m = 0
  · exact .inl (by simp [toUnpacked, vanishing])
  · exact .inr ⟨Nat.pos_of_ne_zero vanishing, by simp [toUnpacked, vanishing]⟩

theorem toUnpacked_ne_notANumber {b : Binary64} (h : b ≠ .nan) : b.toUnpacked ≠ .notANumber := by
  cases b with
  | nan => exact absurd rfl h
  | infinite negative => simp [toUnpacked]
  | finite negative m e =>
    rcases toUnpacked_finite negative m e with vanishing | ⟨pos, finite⟩ <;> simp [*]

/-- A product of finite doubles is a number. -/
theorem ofFloat_mul_ne_nan {x y : Float} {n₁ n₂ : Bool} {m₁ m₂ : Nat} {e₁ e₂ : Int}
    (hx : ofFloat x = .finite n₁ m₁ e₁) (hy : ofFloat y = .finite n₂ m₂ e₂) :
    ofFloat (x * y) ≠ .nan := by
  rw [ofFloat_mul, hx, hy]
  apply ofBits_pack_ne_nan
  rcases toUnpacked_finite n₁ m₁ e₁ with vanishing₁ | ⟨pos₁, finite₁⟩ <;>
    rcases toUnpacked_finite n₂ m₂ e₂ with vanishing₂ | ⟨pos₂, finite₂⟩ <;>
    simp [*, UnpackedFloat.mul, roundWithAccuracy_ne_notANumber]

/-- A number divided by a positive finite double is a number. -/
theorem ofFloat_div_ne_nan {x y : Float} {m : Nat} {e : Int} (hx : ofFloat x ≠ .nan)
    (hy : ofFloat y = .finite false m e) (pos : 0 < m) : ofFloat (x / y) ≠ .nan := by
  rw [ofFloat_div, hy, toUnpacked_pos e pos]
  apply ofBits_pack_ne_nan
  have number := toUnpacked_ne_notANumber hx
  generalize (ofFloat x).toUnpacked = u at number ⊢
  cases u <;> simp_all [UnpackedFloat.div, roundWithAccuracy_ne_notANumber]

/-- A finite double less a number is a number. -/
theorem ofFloat_sub_ne_nan {x y : Float} {neg : Bool} {m : Nat} {e : Int}
    (hx : ofFloat x = .finite neg m e) (hy : ofFloat y ≠ .nan) : ofFloat (x - y) ≠ .nan := by
  rw [ofFloat_sub, hx]
  apply ofBits_pack_ne_nan
  have number := toUnpacked_ne_notANumber hy
  generalize (ofFloat y).toUnpacked = u at number ⊢
  rcases toUnpacked_finite neg m e with vanishing | ⟨pos, finite⟩
  · rw [vanishing]
    cases u <;> simp_all [UnpackedFloat.sub]
    split_ifs <;> simp
  · rw [finite]
    cases u <;> simp_all [UnpackedFloat.sub, normalize_ne_notANumber]

end Numbers

end Abacus.Binary64
