import AurorOS.Lib.Restoring
import AurorOS.Machine

/-! # 64-bit division

The x86_64 build divides natively; the x86 build has no 64-bit division and shifts
and subtracts.  Both loops keep the remainder of a prefix of the dividend, which
never reaches bit 63 before the last shift.
-/

namespace AurorOS.Numbers

open Restoring

/-- `(r << 1) | ((n >> i) & 1)`. -/
def shiftIn (n r : UInt64) (i : Nat) : UInt64 := (r <<< 1) ||| ((n >>> UInt64.ofNat i) &&& 1)

/-- `q` and `r` of `udiv64` after `k` rounds of its loop; round `k` has `i = 63 - k`. -/
def udivRounds (n d : UInt64) : Nat → UInt64 × UInt64
  | 0 => (0, 0)
  | k + 1 =>
      let (q, r) := udivRounds n d k
      let i := 63 - k
      let r := shiftIn n r i
      if r ≥ d then (q ||| (1 <<< UInt64.ofNat i), r - d) else (q, r)

/-- `r` of `umod64` after `k` rounds. -/
def umodRounds (n d : UInt64) : Nat → UInt64
  | 0 => 0
  | k + 1 =>
      let r := shiftIn n (umodRounds n d k) (63 - k)
      if r ≥ d then r - d else r

/-- `none` is the processor's divide fault. -/
def udiv64 : Arch → UInt64 → UInt64 → Option UInt64
  | .x86, n, d => some (udivRounds n d 64).1
  | .x86_64, n, d => if d = 0 then none else some (n / d)

def umod64 : Arch → UInt64 → UInt64 → Option UInt64
  | .x86, n, d => some (umodRounds n d 64)
  | .x86_64, n, d => if d = 0 then none else some (n % d)

variable {n d q r : UInt64} {i k : Nat}

theorem toNat_bit (n : UInt64) (small : i < 64) :
    ((n >>> UInt64.ofNat i) &&& 1).toNat = n.toNat / 2 ^ i % 2 := by
  have index : (UInt64.ofNat i).toNat = i := by
    rw [UInt64.toNat_ofNat', Nat.mod_eq_of_lt (by omega)]
  rw [UInt64.toNat_and, UInt64.toNat_shiftRight, index, Nat.mod_eq_of_lt small,
    Nat.shiftRight_eq_div_pow]
  exact Nat.and_one_is_mod _

/-- Below bit 63 nothing is shifted out. -/
theorem toNat_shiftLeft_one (small : r.toNat < 2 ^ 63) : (r <<< 1).toNat = 2 * r.toNat := by
  have one : (1 : UInt64).toNat % 64 = 1 := rfl
  rw [UInt64.toNat_shiftLeft, one, Nat.shiftLeft_eq, Nat.mod_eq_of_lt (by omega)]
  omega

theorem toNat_shiftIn (n : UInt64) (small : r.toNat < 2 ^ 63) (index : i < 64) :
    (shiftIn n r i).toNat = 2 * r.toNat + n.toNat / 2 ^ i % 2 := by
  have bit : n.toNat / 2 ^ i % 2 < 2 ^ 1 := Nat.mod_lt _ (by decide)
  have join := Nat.shiftLeft_add_eq_or_of_lt bit r.toNat
  rw [shiftIn, UInt64.toNat_or, toNat_shiftLeft_one small, toNat_bit n index, Nat.mul_comm 2]
  rw [Nat.shiftLeft_eq, pow_one] at join
  exact join.symm

/-- A quotient bit lands below the bits that are there. -/
theorem toNat_setBit {m : Nat} (index : i < 64) (above : q.toNat = m * 2 ^ (i + 1)) :
    (q ||| (1 <<< UInt64.ofNat i)).toNat = (2 * m + 1) * 2 ^ i := by
  have place : (UInt64.ofNat i).toNat = i := by
    rw [UInt64.toNat_ofNat', Nat.mod_eq_of_lt (by omega)]
  have power : 2 ^ i < 2 ^ 64 := Nat.pow_lt_pow_right (by decide) index
  have bit : (1 <<< UInt64.ofNat i : UInt64).toNat = 2 ^ i := by
    rw [UInt64.toNat_shiftLeft, place, Nat.mod_eq_of_lt index, Nat.shiftLeft_eq, UInt64.toNat_one,
      Nat.one_mul, Nat.mod_eq_of_lt power]
  have join := Nat.shiftLeft_add_eq_or_of_lt
    (Nat.pow_lt_pow_right (by decide) (Nat.lt_succ_self i) : 2 ^ i < 2 ^ (i + 1)) m
  rw [UInt64.toNat_or, above, bit, ← Nat.shiftLeft_eq, ← join, Nat.shiftLeft_eq, pow_succ]
  ring

/-- After `k` rounds the registers hold quotient and remainder of the first `k`
    bits of the dividend, the quotient at its final place. -/
theorem udivRounds_spec (pos : 0 < d) (rounds : k ≤ 64) :
    (udivRounds n d k).1.toNat = prefixOf n.toNat (64 - k) / d.toNat * 2 ^ (64 - k) ∧
      (udivRounds n d k).2.toNat = prefixOf n.toNat (64 - k) % d.toNat := by
  have divisor : 0 < d.toNat := UInt64.lt_iff_toNat_lt.mp pos
  induction k with
  | zero =>
      rw [prefixOf_width n.toNat_lt]
      simp [udivRounds]
  | succ k ih =>
      obtain ⟨quotient, remainder⟩ := ih (by omega)
      have before : 64 - k = 63 - k + 1 := by omega
      have after : 64 - (k + 1) = 63 - k := by omega
      rw [before] at quotient remainder
      rw [after]
      have index : 63 - k < 64 := by omega
      have small : (udivRounds n d k).2.toNat < 2 ^ 63 := by
        rw [remainder]
        exact (Nat.mod_le _ _).trans_lt (prefixOf_lt n.toNat_lt)
      have shifted := toNat_shiftIn n small index
      have bit : n.toNat / 2 ^ (63 - k) % 2 < 2 := Nat.mod_lt _ (by decide)
      rw [remainder] at shifted
      rw [udivRounds, prefixOf_step n.toNat (63 - k)]
      simp only
      by_cases reached : shiftIn n (udivRounds n d k).2 (63 - k) ≥ d
      · have reachedNat := UInt64.le_iff_toNat_le.mp reached
        rw [shifted] at reachedNat
        obtain ⟨nextQuotient, nextRemainder⟩ := step_reached bit reachedNat divisor
        rw [if_pos reached, nextQuotient, nextRemainder]
        refine ⟨toNat_setBit index quotient, ?_⟩
        rw [UInt64.toNat_sub_of_le _ _ reached, shifted]
      · have belowNat := mt UInt64.le_iff_toNat_le.mpr reached
        rw [shifted] at belowNat
        obtain ⟨nextQuotient, nextRemainder⟩ := step_below (Nat.lt_of_not_le belowNat)
        rw [if_neg reached, nextQuotient, nextRemainder]
        refine ⟨?_, shifted⟩
        rw [quotient, pow_succ]
        ring

/-- `umod64` goes through the same remainders. -/
theorem umodRounds_eq (n d : UInt64) (k : Nat) : umodRounds n d k = (udivRounds n d k).2 := by
  induction k with
  | zero => rfl
  | succ k ih =>
      rw [umodRounds, udivRounds, ih]
      simp only
      split <;> rfl

/-- Both builds return the quotient and the remainder. -/
theorem divmod64_eq (arch : Arch) (n : UInt64) (pos : 0 < d) :
    udiv64 arch n d = some (n / d) ∧ umod64 arch n d = some (n % d) := by
  have nonzero : d ≠ 0 := (UInt64.pos_iff_ne_zero).mp pos
  obtain ⟨quotient, remainder⟩ := udivRounds_spec (n := n) pos (le_refl 64)
  rw [Nat.sub_self, prefixOf_zero] at quotient remainder
  cases arch with
  | x86 =>
      rw [udiv64, umod64, umodRounds_eq]
      refine ⟨congrArg some (UInt64.toNat.inj ?_), congrArg some (UInt64.toNat.inj ?_)⟩
      · rw [quotient, pow_zero, Nat.mul_one, UInt64.toNat_div]
      · rw [remainder, UInt64.toNat_mod]
  | x86_64 => exact ⟨if_neg nonzero, if_neg nonzero⟩

/-- The two builds divide alike, and no round of the x86 build shifts out a bit. -/
theorem builds_divide_alike (n d : UInt64) (pos : 0 < d) :
    (∀ arch, udiv64 arch n d = some (n / d) ∧ umod64 arch n d = some (n % d)) ∧
    ∀ k < 64, ((udivRounds n d k).2 <<< 1).toNat = 2 * (udivRounds n d k).2.toNat ∧
      (umodRounds n d k <<< 1).toNat = 2 * (umodRounds n d k).toNat := by
  refine ⟨fun arch => divmod64_eq arch n pos, ?_⟩
  intro k round
  have small : (udivRounds n d k).2.toNat < 2 ^ 63 := by
    rw [(udivRounds_spec pos round.le).2, show 64 - k = 63 - k + 1 by omega]
    exact (Nat.mod_le _ _).trans_lt (prefixOf_lt n.toNat_lt)
  rw [umodRounds_eq]
  exact ⟨toNat_shiftLeft_one small, toNat_shiftLeft_one small⟩

/-- A divisor above `2^63`, which a prefix of the dividend of 63 bits does not reach. -/
theorem builds_divide_alike_large :
    udiv64 .x86 0xFFFFFFFFFFFFFFFF 0x8000000000000001 = some 1 ∧
      umod64 .x86 0xFFFFFFFFFFFFFFFF 0x8000000000000001 = some 0x7FFFFFFFFFFFFFFE :=
  (builds_divide_alike 0xFFFFFFFFFFFFFFFF 0x8000000000000001 (by decide)).1 .x86

end AurorOS.Numbers
