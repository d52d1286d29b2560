/-!
# Prime factors by trial division

The prime factors of `n` are found by dividing out each candidate `d = 2, 3, 4, …` as often as
it divides, while `d ≤ n / d` for what is left of `n`; a remainder above one is then prime. The
guard `d ≤ n / d` says `d * d ≤ n` without forming the product. Candidates that are not prime
never divide, since their prime factors were divided out before them.
-/
namespace Abacus.Fraction

/-- Divides `n` by `d` as long as `d` divides it: how many times, and what is left. Zero is left
as it is. -/
def divideOut (d n : Nat) (hd : 2 ≤ d) : Nat × Nat :=
  if h : 0 < n ∧ n % d = 0 then
    have _ : n / d < n := Nat.div_lt_self h.1 hd
    let (k, r) := divideOut d (n / d) hd
    (k + 1, r)
  else (0, n)
termination_by n

theorem divideOut_snd_le (d n : Nat) (hd : 2 ≤ d) : (divideOut d n hd).2 ≤ n := by
  induction n using Nat.strongRecOn with
  | ind n ih =>
    rw [divideOut]
    split
    · next h =>
      have hlt : n / d < n := Nat.div_lt_self h.1 (by omega)
      exact Nat.le_trans (ih (n / d) hlt) (Nat.le_of_lt hlt)
    · exact Nat.le_refl n

/-- The prime factors of `n` from the candidate `d` on, with multiplicity and in increasing
order. -/
def factorsFrom (n d : Nat) (hd : 2 ≤ d) : List Nat :=
  if h : d ≤ n / d then
    let r := (divideOut d n hd).2
    List.replicate (divideOut d n hd).1 d ++ factorsFrom r (d + 1) (by omega)
  else if 1 < n then [n] else []
termination_by n + 1 - d
decreasing_by
  have hr := divideOut_snd_le d n hd
  have hdn : d ≤ n := Nat.le_trans h (Nat.div_le_self n d)
  omega

/-- The prime factors of `n`, with multiplicity and in increasing order; none below `2`. -/
def primeFactors (n : Nat) : List Nat :=
  if n < 2 then [] else factorsFrom n 2 (Nat.le_refl 2)

end Abacus.Fraction
