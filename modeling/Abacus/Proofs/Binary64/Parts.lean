import Abacus.Binary64
import Mathlib

/-!
# Reading doubles through the logical float model

A `Float` is a 64-bit pattern, and its arithmetic is given by the logical model: a pattern is
unpacked into a sign, a significand and an exponent, the operation is computed on these and
rounded, and the result is packed again. The calculator reads a double through `ofFloat`, the
same decoding done by hand. This module makes the two meet: the model's unpacking is
`ofFloat` followed by `toUnpacked` (`unpack_eq_toUnpacked`), and packing parts that are
canonical (at most 53 significant bits, exactly 53 above the least exponent, an exponent that
fits) reads back the same parts (`ofBits_pack_finite`). Each operation on doubles is then an
operation on parts (`ofFloat_mul`, `ofFloat_sub`, `ofFloat_abs`).
-/

open Float.Model Float.Model.UnpackedFloat

namespace Abacus.Binary64

/-- The model's sign of a sign bit. -/
def signOf (neg : Bool) : Sign := if neg then .negative else .positive

@[simp] theorem signOf_beq_negative (neg : Bool) : (signOf neg == .negative) = neg := by
  cases neg <;> rfl

@[simp] theorem signOf_mul_positive (neg : Bool) : signOf neg * .positive = signOf neg := by
  cases neg <;> rfl

@[simp] theorem signOf_div_positive (neg : Bool) : signOf neg / .positive = signOf neg := by
  cases neg <;> rfl

/-- The parts of a double in the form of the logical float model: a zero significand is a
signed zero. -/
def toUnpacked : Binary64 → UnpackedFloat
  | .nan => .notANumber
  | .infinite negative => .infinity (signOf negative)
  | .finite negative m e =>
    if h : m = 0 then .zero (signOf negative) else
      .finite (signOf negative) m e (Nat.pos_of_ne_zero h)

theorem toNat_unpackMantissa (b : BitVec 64) :
    (@unpackMantissa Format.binary64 b).toNat = b.toNat % 2 ^ 52 := by
  simp [unpackMantissa, BitVec.extractLsb_toNat]

theorem toNat_unpackExponent (b : BitVec 64) :
    (@unpackExponent Format.binary64 b).toNat = b.toNat / 2 ^ 52 % 2 ^ 11 := by
  simp [unpackExponent, BitVec.extractLsb_toNat, Nat.shiftRight_eq_div_pow]

theorem ofBitVec_unpackSign (b : BitVec 64) :
    Sign.ofBitVec (@unpackSign Format.binary64 b) = signOf (b.toNat / 2 ^ 63 % 2 == 1) := by
  have h : (@unpackSign Format.binary64 b).toNat = b.toNat / 2 ^ 63 % 2 := by
    simp [unpackSign, BitVec.extractLsb_toNat, Nat.shiftRight_eq_div_pow]
  have two : b.toNat / 2 ^ 63 % 2 < 2 := Nat.mod_lt _ (by decide)
  simp only [Sign.ofBitVec, signOf, ← BitVec.toNat_inj, h]
  rcases (by omega : b.toNat / 2 ^ 63 % 2 = 0 ∨ b.toNat / 2 ^ 63 % 2 = 1) with z | o
  · simp only [z]; rfl
  · simp only [o]; rfl

/-- The model unpacks a bit pattern into the parts `ofBits` decodes. -/
theorem unpack_eq_toUnpacked (b : BitVec 64) :
    UnpackedFloat.unpack Format.binary64 b = (ofBits b.toNat).toUnpacked := by
  have mantissa := toNat_unpackMantissa b
  have exponent := toNat_unpackExponent b
  have sign := ofBitVec_unpackSign b
  have frac_lt : b.toNat % 2 ^ 52 < 2 ^ 52 := Nat.mod_lt _ (by decide)
  have field_lt : b.toNat / 2 ^ 52 % 2 ^ 11 < 2 ^ 11 := Nat.mod_lt _ (by decide)
  have all_ones : (@unpackExponent Format.binary64 b = -1#11) ↔
      b.toNat / 2 ^ 52 % 2 ^ 11 = 2 ^ 11 - 1 := by
    rw [← BitVec.toNat_inj, exponent]; simp
  have zero_field : (@unpackExponent Format.binary64 b = 0#11) ↔
      b.toNat / 2 ^ 52 % 2 ^ 11 = 0 := by
    rw [← BitVec.toNat_inj, exponent]; simp
  have zero_frac : (@unpackMantissa Format.binary64 b = 0#52) ↔ b.toNat % 2 ^ 52 = 0 := by
    rw [← BitVec.toNat_inj, mantissa]; simp
  have implicit : (1#1 ++ @unpackMantissa Format.binary64 b).toNat =
      b.toNat % 2 ^ 52 + 2 ^ 52 := by
    rw [BitVec.toNat_append, mantissa, ← Nat.shiftLeft_add_eq_or_of_lt frac_lt]
    simp; omega
  simp only [UnpackedFloat.unpack, ofBits, all_ones, zero_field, zero_frac, sign, mantissa,
    exponent, implicit]
  simp only [Nat.reducePow, Nat.reduceSub] at *
  split_ifs <;> simp_all [toUnpacked, Format.exponentBias]

/-- The bits the model packs: sign, biased exponent field and fraction, high to low. -/
theorem toNat_packComponents (s : Sign) (ex : BitVec 11) (mant : BitVec 52) :
    (packComponents Format.binary64 s ex mant).toNat =
      s.toBitVec.toNat * 2 ^ 63 + ex.toNat * 2 ^ 52 + mant.toNat := by
  have hm := mant.isLt
  have he := ex.isLt
  simp only [packComponents, BitVec.toNat_append]
  rw [← Nat.shiftLeft_add_eq_or_of_lt hm, ← Nat.shiftLeft_add_eq_or_of_lt he]
  simp only [Nat.shiftLeft_eq]
  ring

/-- The sign a packed bit pattern reads back. -/
theorem signBit_packComponents (s : Sign) (ex : BitVec 11) (mant : BitVec 52) :
    ((packComponents Format.binary64 s ex mant).toNat / 2 ^ 63 % 2 == 1) = (s == .negative) := by
  rw [toNat_packComponents]
  have low : ex.toNat * 2 ^ 52 + mant.toNat < 2 ^ 63 := by
    have := mant.isLt
    have := ex.isLt
    omega
  cases s
  · have bit : Sign.negative.toBitVec.toNat = 1 := rfl
    rw [bit, show (1 * 2 ^ 63 + ex.toNat * 2 ^ 52 + mant.toNat) / 2 ^ 63 % 2 = 1 by omega]
    rfl
  · have bit : Sign.positive.toBitVec.toNat = 0 := rfl
    rw [bit, show (0 * 2 ^ 63 + ex.toNat * 2 ^ 52 + mant.toNat) / 2 ^ 63 % 2 = 0 by omega]
    rfl

/-- Reading packed parts back. -/
theorem ofBits_packComponents (s : Sign) (ex : BitVec 11) (mant : BitVec 52) :
    ofBits (packComponents Format.binary64 s ex mant).toNat =
      if ex.toNat = 2 ^ 11 - 1 then
        if mant.toNat = 0 then .infinite (s == .negative) else .nan
      else if ex.toNat = 0 then .finite (s == .negative) mant.toNat (-1074)
      else .finite (s == .negative) (mant.toNat + 2 ^ 52) ((ex.toNat : Int) - 1075) := by
  have sign := signBit_packComponents s ex mant
  have bits := toNat_packComponents s ex mant
  have hm := mant.isLt
  have he := ex.isLt
  have hs : s.toBitVec.toNat ≤ 1 := by cases s <;> decide
  have field : (packComponents Format.binary64 s ex mant).toNat / 2 ^ 52 % 2 ^ 11 = ex.toNat := by
    rw [bits]; omega
  have frac : (packComponents Format.binary64 s ex mant).toNat % 2 ^ 52 = mant.toNat := by
    rw [bits]; omega
  simp only [ofBits, Nat.pow_eq, sign, field, frac]

/-- The parts of a finite nonzero double as the model keeps them: at most 53 significant bits,
exactly 53 unless at the least exponent, and an exponent that fits. -/
def Canonical (m : Nat) (e : Int) : Prop :=
  0 < m ∧ m < 2 ^ 53 ∧ -1074 ≤ e ∧ e ≤ 971 ∧ (2 ^ 52 ≤ m ∨ e = -1074)

/-- Packing canonical parts and reading the bits back gives the same parts. -/
theorem ofBits_pack_finite (s : Sign) (m : Nat) (e : Int) (hm : 0 < m)
    (canonical : Canonical m e) :
    ofBits (UnpackedFloat.pack Format.binary64 (.finite s m e hm)).toNat =
      .finite (s == .negative) m e := by
  obtain ⟨_, small, low, high, normal⟩ := canonical
  have biased : (e + ↑Format.binary64.exponentBias + ↑(52 : Nat)).toNat = (e + 1075).toNat := by
    simp only [Format.exponentBias]; norm_num; omega
  simp only [UnpackedFloat.pack, biased]
  rw [if_neg (by omega)]
  by_cases full : m.log2 + 1 = Format.binary64.mantissaBits
  · -- a normal number: the leading bit is implicit and the exponent is biased
    have lead : 2 ^ 52 ≤ m := by
      have := Nat.log2_self_le (Nat.pos_iff_ne_zero.1 hm)
      simp only [Format.mantissaBits] at full
      rw [show m.log2 = 52 by omega] at this
      exact this
    rw [if_pos full, ofBits_packComponents]
    simp only [BitVec.toNat_ofNat]
    rw [if_neg (by omega), if_neg (by omega)]
    congr 1
    · omega
    · omega
  · -- a subnormal number: fewer bits, at the least exponent
    have short : m < 2 ^ 52 := by
      by_contra long
      have := (Nat.le_log2 (Nat.pos_iff_ne_zero.1 hm)).2 (Nat.le_of_not_lt long)
      have := (Nat.log2_lt (Nat.pos_iff_ne_zero.1 hm)).2 small
      simp only [Format.mantissaBits] at full
      omega
    have least : e = -1074 := by omega
    rw [if_neg full, ofBits_packComponents]
    simp only [BitVec.toNat_ofNat, least]
    norm_num
    omega

/-- Canonical positive parts survive packing. -/
theorem ofBits_pack_positive {m : Nat} {e : Int} {h : 0 < m} (canonical : Canonical m e) :
    ofBits (UnpackedFloat.pack Format.binary64 (.finite .positive m e h)).toNat =
      .finite false m e :=
  ofBits_pack_finite .positive m e h canonical

/-- A packed zero reads back as a zero with the least exponent. -/
theorem ofBits_pack_zero (s : Sign) :
    ofBits (UnpackedFloat.pack Format.binary64 (.zero s)).toNat = .finite (s == .negative) 0 (-1074) := by
  simp [UnpackedFloat.pack, packedZero, ofBits_packComponents]

/-- Every finite decoding is a zero at the least exponent or has canonical parts. -/
theorem ofBits_finite_canonical {b : Nat} {neg : Bool} {m : Nat} {e : Int}
    (h : ofBits b = .finite neg m e) : (m = 0 ∧ e = -1074) ∨ Canonical m e := by
  have frac_lt : b % 2 ^ 52 < 2 ^ 52 := Nat.mod_lt _ (by decide)
  have field_lt : b / 2 ^ 52 % 2 ^ 11 < 2 ^ 11 := Nat.mod_lt _ (by decide)
  simp only [ofBits, Nat.pow_eq] at h
  split_ifs at h with all_ones zero_field
  · simp only [Binary64.finite.injEq] at h
    obtain ⟨-, rfl, rfl⟩ := h
    by_cases z : b % 2 ^ 52 = 0
    · exact .inl ⟨z, rfl⟩
    · exact .inr ⟨by omega, by omega, le_refl _, by omega, .inr rfl⟩
  · simp only [Binary64.finite.injEq] at h
    obtain ⟨-, rfl, rfl⟩ := h
    exact .inr ⟨by omega, by omega, by omega, by omega, .inl (by omega)⟩

theorem toUnpacked_pos {m : Nat} (e : Int) (pos : 0 < m) :
    (Binary64.finite false m e).toUnpacked = .finite .positive m e pos := by
  simp [toUnpacked, signOf, Nat.pos_iff_ne_zero.1 pos]

theorem toUnpacked_of_pos (neg : Bool) {m : Nat} (e : Int) (pos : 0 < m) :
    (Binary64.finite neg m e).toUnpacked = .finite (signOf neg) m e pos := by
  simp [toUnpacked, Nat.pos_iff_ne_zero.1 pos]

theorem toUnpacked_zero (neg : Bool) (e : Int) :
    (Binary64.finite neg 0 e).toUnpacked = .zero (signOf neg) := rfl

/-- The unpacked view of the parts of a double. -/
theorem unpack_toModel (x : Float) : x.toModel.unpack = (ofFloat x).toUnpacked :=
  unpack_eq_toUnpacked _

/-- A product, quotient, difference, negation or magnitude is the model's operation on the
parts, packed. -/
theorem ofFloat_mul (x y : Float) :
    ofFloat (x * y) = ofBits (UnpackedFloat.pack Format.binary64
      (UnpackedFloat.mul Format.binary64 (ofFloat x).toUnpacked (ofFloat y).toUnpacked)).toNat := by
  rw [← unpack_toModel, ← unpack_toModel]
  rfl

theorem ofFloat_sub (x y : Float) :
    ofFloat (x - y) = ofBits (UnpackedFloat.pack Format.binary64
      (UnpackedFloat.sub Format.binary64 (ofFloat x).toUnpacked (ofFloat y).toUnpacked)).toNat := by
  rw [← unpack_toModel, ← unpack_toModel]
  rfl

theorem ofFloat_div (x y : Float) :
    ofFloat (x / y) = ofBits (UnpackedFloat.pack Format.binary64
      (UnpackedFloat.div Format.binary64 (ofFloat x).toUnpacked (ofFloat y).toUnpacked)).toNat := by
  rw [← unpack_toModel, ← unpack_toModel]
  rfl

theorem ofFloat_neg (x : Float) :
    ofFloat (-x) = ofBits (UnpackedFloat.pack Format.binary64 (ofFloat x).toUnpacked.neg).toNat := by
  rw [← unpack_toModel]
  rfl

theorem ofFloat_abs (x : Float) :
    ofFloat x.abs = ofBits (UnpackedFloat.pack Format.binary64 (ofFloat x).toUnpacked.abs).toNat := by
  rw [← unpack_toModel]
  rfl

/-- A finite double decodes to finite parts. -/
theorem ofFloat_of_isFinite {x : Float} (finite : x.isFinite = true) :
    ∃ neg m e, ofFloat x = .finite neg m e := by
  have : (ofFloat x).toUnpacked.isFinite = true := by rw [← unpack_toModel]; exact finite
  generalize ofFloat x = b at this ⊢
  cases b with
  | nan => simp [toUnpacked, UnpackedFloat.isFinite] at this
  | infinite negative => simp [toUnpacked, UnpackedFloat.isFinite] at this
  | finite negative m e => exact ⟨negative, m, e, rfl⟩

/-- The magnitude of a finite double has the same parts, with the sign cleared. -/
theorem ofFloat_abs_of_finite {x : Float} {neg : Bool} {m : Nat} {e : Int}
    (parts : ofFloat x = .finite neg m e) : ofFloat x.abs = .finite false m e := by
  rw [ofFloat_abs, parts]
  rcases ofBits_finite_canonical parts with ⟨rfl, rfl⟩ | canonical
  · exact ofBits_pack_zero .positive
  · simp only [toUnpacked, Nat.pos_iff_ne_zero.1 canonical.1, ↓reduceDIte, UnpackedFloat.abs]
    exact ofBits_pack_positive canonical

end Abacus.Binary64
