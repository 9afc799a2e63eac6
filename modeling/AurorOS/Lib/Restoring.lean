import Mathlib.Tactic

/-! # Restoring division

Binary long division takes in the dividend bit by bit, most significant first, and
keeps quotient and remainder of the prefix seen so far.  The lemmas say what one
more bit does to both, and how the bits of a number make up its prefixes.
-/

namespace Restoring

variable {n p d b i w : Nat}

/-- The prefix of `n` without its lowest `i` bits. -/
def prefixOf (n i : Nat) : Nat := n / 2 ^ i

/-- Bit `i` of `n` extends the prefix in front of it. -/
theorem prefixOf_step (n i : Nat) : prefixOf n i = 2 * prefixOf n (i + 1) + n / 2 ^ i % 2 := by
  rw [prefixOf, prefixOf, pow_succ, ← Nat.div_div_eq_div_mul]
  omega

theorem prefixOf_zero (n : Nat) : prefixOf n 0 = n := by
  rw [prefixOf, pow_zero, Nat.div_one]

theorem prefixOf_width (small : n < 2 ^ w) : prefixOf n w = 0 := Nat.div_eq_of_lt small

/-- While a bit is still to come, the prefix fits one bit less than the number. -/
theorem prefixOf_lt (small : n < 2 ^ (w + 1)) : prefixOf n (i + 1) < 2 ^ w := by
  rw [prefixOf, pow_succ, Nat.mul_comm, ← Nat.div_div_eq_div_mul]
  refine (Nat.div_le_self _ _).trans_lt (Nat.div_lt_of_lt_mul ?_)
  rwa [← pow_succ']

/-- A bit that makes the remainder reach the divisor. -/
theorem step_reached (bit : b < 2) (reached : d ≤ 2 * (p % d) + b) (pos : 0 < d) :
    (2 * p + b) / d = 2 * (p / d) + 1 ∧ (2 * p + b) % d = 2 * (p % d) + b - d := by
  have split := Nat.div_add_mod p d
  have small := Nat.mod_lt p pos
  have eq : 2 * p + b = 2 * (p % d) + b - d + d * (2 * (p / d) + 1) := by
    rw [Nat.mul_add, Nat.mul_left_comm]
    omega
  have rest : 2 * (p % d) + b - d < d := by omega
  rw [eq, Nat.add_mul_div_left _ _ pos, Nat.add_mul_mod_self_left, Nat.div_eq_of_lt rest,
    Nat.mod_eq_of_lt rest]
  exact ⟨Nat.zero_add _, rfl⟩

/-- A bit that leaves it below. -/
theorem step_below (below : 2 * (p % d) + b < d) :
    (2 * p + b) / d = 2 * (p / d) ∧ (2 * p + b) % d = 2 * (p % d) + b := by
  have split := Nat.div_add_mod p d
  have pos : 0 < d := by omega
  have eq : 2 * p + b = 2 * (p % d) + b + d * (2 * (p / d)) := by
    rw [Nat.mul_left_comm]
    omega
  rw [eq, Nat.add_mul_div_left _ _ pos, Nat.add_mul_mod_self_left, Nat.div_eq_of_lt below,
    Nat.mod_eq_of_lt below]
  exact ⟨Nat.zero_add _, rfl⟩

end Restoring
