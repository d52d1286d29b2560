import Abacus.Session.Outcome
import Abacus.Proofs.Binary64.Value
import Abacus.Proofs.Repeating
import Mathlib.Tactic.IntervalCases
import Mathlib.Data.List.TakeWhile

/-!
# Decimals shown to a number of places

A finite double shown with `places` digits after the point is the decimal numeral of its exact
value rounded to that many places, a tie going to the even neighbour (`NearestEven`). The numeral
is the digits of the integer part, without leading zeros, then, unless the fraction is zero, a
point and the digits of the fraction without trailing zeros, and a `-` exactly when the rounded
value is negative, so that a value rounding to zero shows as `0` whatever its sign
(`IsNumeral`). A double that is not finite shows as `NaN`, `inf` or `-inf`.

The text is made in three steps, each with its lemma: the rounded count of units of
`10 ^ (-places)` (`fixedUnits_eq_roundEven`), those units written with all their places, and
trailing zeros and a trailing point cut (`cutZeros_point`).

Main statement: `formatDecimal_rounded_numeral`.
-/

namespace Abacus.Decimal

section Digits

/-- A decimal digit's character lies `d` past `0`. -/
theorem toNat_digitChar {d : Nat} (small : d < 10) : (Nat.digitChar d).toNat = 48 + d := by
  interval_cases d <;> rfl

theorem digitChars_ne_nil (n : Nat) : digitChars n ≠ [] := Nat.toDigits_ne_nil

theorem isDigit_of_mem_digitChars {n : Nat} {c : Char} (mem : c ∈ digitChars n) :
    c.isDigit = true :=
  Nat.isDigit_of_mem_toDigits (by decide) (by decide) mem

/-- The digits of `n` are worth `n`. -/
theorem digitsValue_digitChars (n : Nat) : digitsValue (digitChars n) = n := by
  induction n using Nat.strong_induction_on with
  | _ n ih =>
    rw [digitChars, Nat.toDigits_eq_if (by decide)]
    split_ifs with small
    · simp [digitsValue, toNat_digitChar small]
    · -- the last digit comes off the end
      have rest := ih (n / 10) (by omega)
      rw [digitChars] at rest
      rw [digitsValue_concat, rest, toNat_digitChar (Nat.mod_lt n (by decide))]
      have zero : '0'.toNat = 48 := rfl
      omega

/-- Only zero is written with a leading `0`. -/
theorem eq_zero_of_head_digitChars {n : Nat} (lead : (digitChars n).head? = some '0') : n = 0 := by
  induction n using Nat.strong_induction_on with
  | _ n ih =>
    rw [digitChars, Nat.toDigits_eq_if (by decide)] at lead
    split_ifs at lead with small
    · have same : (Nat.digitChar n).toNat = '0'.toNat := by
        rw [List.head?_cons, Option.some.injEq] at lead
        rw [lead]
      rw [toNat_digitChar small] at same
      have zero : '0'.toNat = 48 := rfl
      omega
    · rw [List.head?_append_of_ne_nil _ Nat.toDigits_ne_nil] at lead
      have := ih (n / 10) (by omega) lead
      omega

/-- A number below `10 ^ d` has at most `d` digits. -/
theorem length_digitChars_le {n d : Nat} (pos : 0 < d) (lt : n < 10 ^ d) :
    (digitChars n).length ≤ d :=
  (Nat.length_toDigits_le_iff (by decide) pos).2 lt

theorem digitsValue_zeros (k : Nat) : digitsValue (zeros k) = 0 := by
  induction k with
  | zero => rfl
  | succ k ih =>
    rw [zeros, List.replicate_succ', digitsValue_concat, ← zeros, ih]
    simp

/-- Leading zeros add nothing. -/
theorem digitsValue_zeros_append (k : Nat) (ds : List Char) :
    digitsValue (zeros k ++ ds) = digitsValue ds := by
  rw [digitsValue_append, digitsValue_zeros, Nat.zero_mul, Nat.zero_add]

/-- Digits worth nothing that do not end in a zero are no digits. -/
theorem eq_nil_of_digitsValue_eq_zero {ds : List Char} (digits : ∀ c ∈ ds, c.isDigit = true)
    (last : ds.getLast? ≠ some '0') (zero : digitsValue ds = 0) : ds = [] := by
  induction ds using List.reverseRecOn with
  | nil => rfl
  | append_singleton init c _ =>
    exfalso
    have digit := digits c (by simp)
    simp only [Char.isDigit, Bool.and_eq_true, decide_eq_true_eq] at digit
    have low : '0'.toNat ≤ c.toNat := UInt32.le_iff_toNat_le.mp digit.1
    rw [digitsValue_concat] at zero
    have same : c = '0' := Char.toNat_inj.1 (by omega)
    exact last (by simp [same])

end Digits

section TrailingZeros

/-- Digits without their trailing zeros. -/
def trimZeros (ds : List Char) : List Char := (ds.reverse.dropWhile (· == '0')).reverse

/-- The zeros cut off are a run of zeros at the end. -/
theorem eq_trimZeros_append (ds : List Char) : ∃ t, ds = trimZeros ds ++ zeros t := by
  have run : ds.reverse.takeWhile (· == '0') =
      List.replicate (ds.reverse.takeWhile (· == '0')).length '0' :=
    List.eq_replicate_iff.2 ⟨rfl, fun c mem => by simpa using List.mem_takeWhile_imp mem⟩
  refine ⟨(ds.reverse.takeWhile (· == '0')).length, ?_⟩
  calc ds = (ds.reverse.takeWhile (· == '0') ++ ds.reverse.dropWhile (· == '0')).reverse := by
        rw [List.takeWhile_append_dropWhile, List.reverse_reverse]
    _ = trimZeros ds ++ zeros (ds.reverse.takeWhile (· == '0')).length := by
        rw [List.reverse_append, trimZeros, zeros, run, List.reverse_replicate,
          List.length_replicate]

theorem mem_of_mem_trimZeros {ds : List Char} {c : Char} (mem : c ∈ trimZeros ds) : c ∈ ds := by
  obtain ⟨t, split⟩ := eq_trimZeros_append ds
  rw [split]
  exact List.mem_append_left _ mem

/-- What remains does not end in a zero. -/
theorem getLast?_trimZeros (ds : List Char) : (trimZeros ds).getLast? ≠ some '0' := by
  intro last
  have stop := List.head?_dropWhile_not (· == '0') ds.reverse
  rw [trimZeros, List.getLast?_reverse] at last
  rw [last] at stop
  exact absurd stop (by decide)

/-- Trailing zeros do not change the value of a fraction. -/
theorem fraction_trimZeros (ds : List Char) :
    (digitsValue (trimZeros ds) : ℚ) / 10 ^ (trimZeros ds).length =
      digitsValue ds / 10 ^ ds.length := by
  obtain ⟨t, split⟩ := eq_trimZeros_append ds
  have value : digitsValue ds = digitsValue (trimZeros ds) * 10 ^ t := by
    conv_lhs => rw [split]
    rw [digitsValue_append, digitsValue_zeros, Nat.add_zero, zeros, List.length_replicate]
  have length : ds.length = (trimZeros ds).length + t := by
    conv_lhs => rw [split]
    rw [List.length_append, zeros, List.length_replicate]
  rw [value, length]
  push_cast
  rw [pow_add, mul_div_mul_right _ _ (by positivity)]

end TrailingZeros

section Cutting

/-- Nothing is dropped from a text whose first character stops the drop. -/
theorem dropWhile_of_head {p : Char → Bool} {cs : List Char}
    (stop : ∀ c ∈ cs.head?, p c = false) : cs.dropWhile p = cs := by
  cases cs with
  | nil => rfl
  | cons c rest => exact List.dropWhile_cons_of_neg (by simpa using stop c rfl)

/-- A text without a point is kept. -/
theorem cutZeros_of_not_mem {cs : List Char} (noPoint : '.' ∉ cs) :
    Session.cutZeros cs = cs := by
  simp [Session.cutZeros, noPoint]

/-- After the point, trailing zeros are cut, and the point too when nothing remains of the
fraction. -/
theorem cutZeros_point {pre frac : List Char} (last : pre.getLast? ≠ some '.')
    (digits : ∀ c ∈ frac, c.isDigit = true) :
    Session.cutZeros (pre ++ '.' :: frac) =
      pre ++ (if trimZeros frac = [] then [] else '.' :: trimZeros frac) := by
  have reversed : (pre ++ '.' :: frac).reverse = frac.reverse ++ '.' :: pre.reverse := by
    simp
  have notPoint : ∀ c ∈ pre.reverse.head?, (c == '.') = false := by
    intro c mem
    rw [List.head?_reverse, Option.mem_def] at mem
    simp only [beq_eq_false_iff_ne, ne_eq]
    intro point
    exact last (point ▸ mem)
  simp only [Session.cutZeros, List.contains_append, List.contains_cons, beq_self_eq_true,
    Bool.true_or, Bool.or_true, ↓reduceIte, reversed, List.dropWhile_append]
  by_cases empty : trimZeros frac = []
  · -- the whole fraction was zeros: the point goes too
    have gone : frac.reverse.dropWhile (· == '0') = [] := by
      simpa [trimZeros] using empty
    rw [gone, List.isEmpty_nil, if_pos rfl, List.dropWhile_cons_of_neg (by decide),
      List.dropWhile_cons_of_pos rfl,
      dropWhile_of_head notPoint, List.reverse_reverse, if_pos empty, List.append_nil]
  · -- a digit other than zero ends the fraction, and it is no point
    have kept : frac.reverse.dropWhile (· == '0') = (trimZeros frac).reverse := by
      rw [trimZeros, List.reverse_reverse]
    obtain ⟨c, rest, split⟩ := List.exists_cons_of_ne_nil
      (show (trimZeros frac).reverse ≠ [] by simpa using empty)
    have digit : c.isDigit = true := by
      have mem : c ∈ trimZeros frac := by
        rw [← List.mem_reverse, split]
        exact List.mem_cons_self
      exact digits c (mem_of_mem_trimZeros mem)
    have notPointC : (c == '.') = false := by
      simp only [Char.isDigit, Bool.and_eq_true, decide_eq_true_eq] at digit
      simp only [beq_eq_false_iff_ne, ne_eq]
      intro point
      rw [point] at digit
      exact absurd digit (by decide)
    rw [kept, split, if_neg (by simp), List.cons_append,
      List.dropWhile_cons_of_neg (by simp [notPointC]), ← List.cons_append, ← split,
      if_neg empty]
    simp

end Cutting

section Rounding

open Binary64

/-- `k` is the integer nearest to `y`, a tie going to the even one. -/
def NearestEven (y : ℚ) (k : Int) : Prop :=
  |y - k| < 1 / 2 ∨ (|y - k| = 1 / 2 ∧ Even k)

/-- `roundEven` rounds a nonnegative rational to the nearest natural, a tie to the even one. -/
theorem nearestEven_roundEven {y : ℚ} (nonneg : 0 ≤ y) : NearestEven y (roundEven y) := by
  have low : (⌊y⌋₊ : ℚ) ≤ y := Nat.floor_le nonneg
  have high : y < ⌊y⌋₊ + 1 := Nat.lt_floor_add_one y
  unfold NearestEven roundEven
  split_ifs with below half
  · left
    rw [abs_lt]
    push_cast
    constructor <;> linarith
  · right
    rcases Nat.even_or_odd ⌊y⌋₊ with even | odd
    · rw [Nat.even_iff.1 even]
      refine ⟨?_, by exact_mod_cast (by simpa using even)⟩
      push_cast
      rw [add_zero, abs_of_nonneg (by linarith)]
      exact half
    · rw [Nat.odd_iff.1 odd]
      refine ⟨?_, by exact_mod_cast (Nat.even_add_one.2 (Nat.not_even_iff_odd.2 odd))⟩
      push_cast
      rw [abs_of_nonpos (by linarith)]
      linarith
  · left
    have above : 1 / 2 < y - ⌊y⌋₊ := lt_of_le_of_ne (not_lt.1 below) (Ne.symm half)
    rw [abs_lt]
    push_cast
    constructor <;> linarith

/-- Rounding to the nearest with ties to even is symmetric. -/
theorem NearestEven.neg {y : ℚ} {k : Int} (nearest : NearestEven y k) :
    NearestEven (-y) (-k) := by
  have same : |-y - ((-k : Int) : ℚ)| = |y - k| := by
    rw [← abs_neg]
    push_cast
    ring_nf
  unfold NearestEven at nearest ⊢
  rw [same, even_neg]
  exact nearest

/-- The rounded quotient of naturals is the rounding of their ratio. -/
theorem roundHalfEven_eq_roundEven (n : Nat) {d : Nat} (pos : 0 < d) :
    roundHalfEven n d = roundEven ((n : ℚ) / d) := by
  rw [roundEven_div n pos, roundHalfEven]
  split_ifs <;> omega

/-- The units of a double at `places` places are its value times `10 ^ places`, rounded half to
even. -/
theorem fixedUnits_eq_roundEven (m : Nat) (e : Int) (places : Nat) :
    fixedUnits m e places = roundEven ((m : ℚ) * 2 ^ e * 10 ^ places) := by
  rw [fixedUnits, Nat.pow_eq, Nat.pow_eq, Nat.pow_eq,
    roundHalfEven_eq_roundEven _ (Nat.two_pow_pos _)]
  congr 1
  push_cast
  -- one of the two powers of two is one
  rcases le_or_gt 0 e with nonneg | neg
  · rw [show (-e).toNat = 0 by omega, pow_zero, div_one, ← zpow_natCast,
      Int.toNat_of_nonneg nonneg]
  · rw [show e.toNat = 0 by omega, pow_zero, mul_one, show (-e).toNat = e.natAbs by omega,
      mul_zpow_of_neg m neg]
    ring

end Rounding

section Numeral

/-- `text` is the decimal numeral of `r`: a `-` exactly when `r` is negative, the digits of the
integer part without leading zeros, and, unless the fraction is zero, a point and the digits of
the fraction without trailing zeros. -/
def IsNumeral (text : List Char) (r : ℚ) : Prop :=
  ∃ whole frac : List Char,
    text = (if r < 0 then ['-'] else []) ++ whole ++ (if frac = [] then [] else '.' :: frac) ∧
    whole ≠ [] ∧ (∀ c ∈ whole, c.isDigit = true) ∧ (∀ c ∈ frac, c.isDigit = true) ∧
    (whole.head? = some '0' → whole = ['0']) ∧ frac.getLast? ≠ some '0' ∧
    |r| = digitsValue whole + (digitsValue frac : ℚ) / 10 ^ frac.length

/-- The digits of a count of units at `places` places, after cutting trailing zeros: the digits of
the integer part and of the fraction, worth the count over `10 ^ places`. -/
theorem cutZeros_unitsText (sign : List Char) (signs : ∀ c ∈ sign, c = '-')
    (units places : Nat) :
    ∃ frac, Session.cutZeros (sign ++ unitsText units places) =
        sign ++ digitChars (units / 10 ^ places) ++ (if frac = [] then [] else '.' :: frac) ∧
      (∀ c ∈ frac, c.isDigit = true) ∧ frac.getLast? ≠ some '0' ∧
      (units : ℚ) / 10 ^ places = (units / 10 ^ places : Nat) +
        (digitsValue frac : ℚ) / 10 ^ frac.length := by
  have whole : ((units / 10 ^ places : Nat) : ℚ) +
      ((units % 10 ^ places : Nat) : ℚ) / 10 ^ places = (units : ℚ) / 10 ^ places := by
    rw [eq_div_iff (by positivity), add_mul, div_mul_cancel₀ _ (by positivity)]
    exact_mod_cast Nat.div_add_mod' units (10 ^ places)
  have pre_last : (sign ++ digitChars (units / 10 ^ places)).getLast? ≠ some '.' := by
    rw [List.getLast?_append_of_ne_nil _ (digitChars_ne_nil _)]
    intro last
    have := isDigit_of_mem_digitChars (List.mem_of_getLast? last)
    exact absurd this (by decide)
  have noPoint : '.' ∉ sign ++ digitChars (units / 10 ^ places) := by
    intro mem
    rcases List.mem_append.1 mem with s | d
    · exact absurd (signs _ s) (by decide)
    · exact absurd (isDigit_of_mem_digitChars d) (by decide)
  by_cases zero : places = 0
  · -- no places: no point, and the whole count is the integer part
    subst zero
    refine ⟨[], ?_, by simp, by simp, ?_⟩
    · simp only [unitsText, Nat.pow_eq, ↓reduceIte, List.append_nil]
      exact cutZeros_of_not_mem noPoint
    · simp [digitsValue]
  · -- the fraction has exactly `places` digits, leading zeros included
    let fracDigits := digitChars (units % 10 ^ places)
    let full := zeros (places - fracDigits.length) ++ fracDigits
    have short : fracDigits.length ≤ places :=
      length_digitChars_le (by omega) (Nat.mod_lt _ (by positivity))
    have full_digits : ∀ c ∈ full, c.isDigit = true := by
      intro c mem
      rcases List.mem_append.1 mem with z | d
      · simp only [zeros] at z
        rw [List.eq_of_mem_replicate z]
        rfl
      · exact isDigit_of_mem_digitChars d
    refine ⟨trimZeros full, ?_, fun c mem => ?_, getLast?_trimZeros full, ?_⟩
    · have shape : unitsText units places = digitChars (units / 10 ^ places) ++ '.' :: full := by
        simp only [unitsText, Nat.pow_eq, zero, ↓reduceIte, full, fracDigits, List.append_assoc,
          List.cons_append]
      rw [shape, ← List.append_assoc, cutZeros_point pre_last full_digits]
    · exact full_digits c (mem_of_mem_trimZeros mem)
    · rw [fraction_trimZeros, ← whole]
      congr 2
      · rw [digitsValue_zeros_append, digitsValue_digitChars]
      · rw [List.length_append, zeros, List.length_replicate]
        congr 1
        omega

/-- The only signed layout of digits that reads `-0` is a minus sign before a lone zero. -/
theorem layout_eq_minus_zero {neg : Bool} {n : Nat} {frac : List Char}
    (written : (if neg then ['-'] else []) ++ digitChars n ++
      (if frac = [] then [] else '.' :: frac) = ['-', '0']) :
    neg = true ∧ n = 0 ∧ frac = [] := by
  have negative : neg = true := by
    cases neg
    · have head := congrArg List.head? written
      rw [if_neg Bool.false_ne_true, List.nil_append,
        List.head?_append_of_ne_nil _ (digitChars_ne_nil _), List.head?_cons] at head
      exact absurd (isDigit_of_mem_digitChars (List.mem_of_mem_head? head)) (by decide)
    · rfl
  subst negative
  rw [if_pos rfl, List.append_assoc, List.singleton_append, List.cons.injEq] at written
  obtain ⟨-, rest⟩ := written
  rcases List.append_eq_singleton_iff.1 rest with ⟨empty, -⟩ | ⟨zero, tail⟩
  · exact absurd empty (digitChars_ne_nil _)
  · have nofrac : frac = [] := by
      by_contra nonempty
      rw [if_neg nonempty] at tail
      exact List.cons_ne_nil _ _ tail
    have integer : n = 0 := by
      have := digitsValue_digitChars n
      rw [zero] at this
      exact this.symm
    exact ⟨rfl, integer, nofrac⟩

end Numeral

end Abacus.Decimal

namespace Abacus.Session

open Decimal Binary64

/-- A double is finite exactly when its parts are. -/
theorem isFinite_eq (v : Float) : v.isFinite = (ofFloat v).toUnpacked.isFinite := by
  rw [← unpack_toModel]
  rfl

/-- A double's text with a fixed number of places is its sign and its units written out. -/
theorem toList_fixed {v : Float} {neg : Bool} {m : Nat} {e : Int}
    (parts : ofFloat v = .finite neg m e) (places : Nat) :
    (Decimal.fixed v places).toList =
      (if neg then ['-'] else []) ++ unitsText (fixedUnits m e places) places := by
  simp [Decimal.fixed, parts, String.toList_ofList]

/-- A finite double shows as the decimal numeral of its units over `10 ^ places`, with its sign. -/
theorem isNumeral_formatDecimal {v : Float} {neg : Bool} {m : Nat} {e : Int}
    (parts : ofFloat v = .finite neg m e) (places : Nat) :
    IsNumeral (formatDecimal v places).toList
      ((if neg then -(fixedUnits m e places : ℚ) else fixedUnits m e places) / 10 ^ places) := by
  have finite : v.isFinite = true := by
    rw [isFinite_eq, parts]
    by_cases zero : m = 0 <;> simp [toUnpacked, zero, Float.Model.UnpackedFloat.isFinite]
  have text := toList_fixed parts places
  generalize fixedUnits m e places = units at text ⊢
  obtain ⟨frac, shown, digits, last, value⟩ :=
    cutZeros_unitsText (if neg then ['-'] else []) (by cases neg <;> simp) units places
  have whole_digits : ∀ c ∈ digitChars (units / 10 ^ places), c.isDigit = true :=
    fun c mem => isDigit_of_mem_digitChars mem
  -- a fraction worth nothing is empty, since it does not end in a zero
  have no_fraction : (digitsValue frac : ℚ) / 10 ^ frac.length = 0 → frac = [] := by
    intro zero
    have : digitsValue frac = 0 := by
      have := (div_eq_zero_iff.1 zero).resolve_right (by positivity)
      exact_mod_cast this
    exact eq_nil_of_digitsValue_eq_zero digits last this
  simp only [formatDecimal, finite, ↓reduceIte, text, shown]
  generalize written : (if neg then ['-'] else []) ++ digitChars (units / 10 ^ places) ++
    (if frac = [] then [] else '.' :: frac) = s
  by_cases minusZero : s = ['-', '0']
  · -- only a negative value that rounds to zero is written `-0`, and it is shown as `0`
    rw [if_pos (beq_iff_eq.2 minusZero)]
    rw [minusZero] at written
    obtain ⟨-, integer, nofrac⟩ := layout_eq_minus_zero written
    have vanishing : (units : ℚ) = 0 := by
      rw [nofrac, integer] at value
      simpa [digitsValue] using value
    refine ⟨['0'], [], by simp [vanishing], by simp, by simp, by simp, by simp, by simp, ?_⟩
    simp [vanishing, digitsValue]
  · -- otherwise the text written is the numeral, with its sign
    rw [if_neg (fun same => minusZero (beq_iff_eq.1 same)), String.toList_ofList, ← written]
    have sign : (if (if neg then -(units : ℚ) else units) / 10 ^ places < 0 then ['-'] else []) =
        (if neg then ['-'] else []) := by
      cases neg
      · simp only [Bool.false_eq_true, ↓reduceIte]
        rw [if_neg (not_lt.2 (by positivity))]
      · have positive : 0 < units := by
          by_contra zero
          have zero : units = 0 := by omega
          subst zero
          have nofrac : frac = [] := no_fraction (by simpa using value.symm)
          apply minusZero
          rw [← written, nofrac]
          simp [digitChars]
        simp only [↓reduceIte]
        rw [if_pos (div_neg_of_neg_of_pos (by simpa using positive) (by positivity))]
    refine ⟨digitChars (units / 10 ^ places), frac, by rw [sign], digitChars_ne_nil _,
      whole_digits, digits, ?_, last, ?_⟩
    · intro lead
      rw [eq_zero_of_head_digitChars lead]
      rfl
    · rw [digitsValue_digitChars, ← value, abs_div,
        abs_of_pos (by positivity : (0 : ℚ) < 10 ^ places)]
      cases neg <;> simp

/-- Shown with `places` digits after the point, a finite double is the decimal numeral of its
exact value rounded to `places` places, a tie going to the even neighbour; a double that is not
finite shows as `NaN`, `inf` or `-inf`. -/
theorem formatDecimal_rounded_numeral (v : Float) (places : Nat) :
    (∀ x, (ofFloat v).toRat? = some x → ∃ k : Int, NearestEven (x * 10 ^ places) k ∧
        IsNumeral (formatDecimal v places).toList (k / 10 ^ places)) ∧
    (ofFloat v = .nan → formatDecimal v places = "NaN") ∧
    (∀ neg, ofFloat v = .infinite neg →
      formatDecimal v places = if neg then "-inf" else "inf") := by
  refine ⟨fun x value => ?_, fun nan => ?_, fun neg infinite => ?_⟩
  · cases parts : ofFloat v with
    | nan => simp [parts] at value
    | infinite neg => simp [parts] at value
    | finite neg m e =>
      rw [parts, toRat?_finite, Option.some.injEq] at value
      subst value
      -- the units are the magnitude times `10 ^ places`, rounded; the sign goes on after
      have rounded := nearestEven_roundEven (by positivity : (0 : ℚ) ≤ m * 2 ^ e * 10 ^ places)
      rw [← fixedUnits_eq_roundEven] at rounded
      have numeral := isNumeral_formatDecimal parts places
      cases neg
      · refine ⟨fixedUnits m e places, ?_, by simpa using numeral⟩
        simpa using rounded
      · refine ⟨-(fixedUnits m e places : Int), ?_, by simpa using numeral⟩
        have := rounded.neg
        rw [show -((m : ℚ) * 2 ^ e * 10 ^ places) = -(m : ℚ) * 2 ^ e * 10 ^ places by ring]
          at this
        simpa using this
  · have finite : v.isFinite = false := by simp [isFinite_eq, nan, toUnpacked,
      Float.Model.UnpackedFloat.isFinite]
    simp [formatDecimal, finite, Decimal.text, nan]
  · have finite : v.isFinite = false := by simp [isFinite_eq, infinite, toUnpacked,
      Float.Model.UnpackedFloat.isFinite]
    cases neg <;> simp [formatDecimal, finite, Decimal.text, infinite]

end Abacus.Session
