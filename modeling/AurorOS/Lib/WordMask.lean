import Mathlib.Tactic

/-! # Masking with a complement

C code rounds addresses with `x & ~m`, where the complement is taken at some word
width `w`.  The result is `x`, cut to `w` bits, less the bits of `m` in it.
-/

namespace WordMask

/-- `x & ~m` with the complement taken in `w` bits. -/
def clear (w x m : Nat) : Nat := x &&& (2 ^ w - 1 - m)

variable {w x m k : Nat}

theorem complement_lt (w m : Nat) : 2 ^ w - 1 - m < 2 ^ w := by
  have := Nat.two_pow_pos w
  omega

/-- Bits above the mask's width are dropped. -/
theorem clear_mod (w x m : Nat) : clear w (x % 2 ^ w) m = clear w x m := by
  apply Nat.eq_of_testBit_eq
  intro i
  simp only [clear, Nat.testBit_and, Nat.testBit_mod_two_pow]
  by_cases low : i < w
  · simp [low]
  · have high : (2 ^ w - 1 - m).testBit i = false := by
      apply Nat.testBit_lt_two_pow
      exact (complement_lt w m).trans_le (Nat.pow_le_pow_right (by decide) (by omega))
    simp [high]

/-- A word splits into the bits inside the mask and those outside it. -/
theorem and_add_clear (small : x < 2 ^ w) (mask : m < 2 ^ w) : (x &&& m) + clear w x m = x := by
  have apart : (BitVec.ofNat w x &&& BitVec.ofNat w m) &&&
      (BitVec.ofNat w x &&& ~~~BitVec.ofNat w m) = 0#w := by
    ext i
    simp only [BitVec.getElem_and, BitVec.getElem_not, BitVec.getElem_zero]
    cases (BitVec.ofNat w x)[i] <;> cases (BitVec.ofNat w m)[i] <;> rfl
  have sum := BitVec.toNat_add_of_and_eq_zero apart
  have whole : (BitVec.ofNat w x &&& BitVec.ofNat w m) +
      (BitVec.ofNat w x &&& ~~~BitVec.ofNat w m) =
      BitVec.ofNat w x := by
    rw [BitVec.add_eq_or_of_and_eq_zero _ _ apart]
    ext i
    simp only [BitVec.getElem_or, BitVec.getElem_and, BitVec.getElem_not]
    cases (BitVec.ofNat w x)[i] <;> cases (BitVec.ofNat w m)[i] <;> rfl
  rw [whole] at sum
  simpa only [BitVec.toNat_and, BitVec.toNat_not, BitVec.toNat_ofNat, Nat.mod_eq_of_lt small,
    Nat.mod_eq_of_lt mask, clear] using sum.symm

theorem clear_eq (mask : m < 2 ^ w) : clear w x m = x % 2 ^ w - (x % 2 ^ w &&& m) := by
  have split := and_add_clear (Nat.mod_lt x (Nat.two_pow_pos w)) mask
  rw [clear_mod] at split
  omega

theorem clear_lt (w x m : Nat) : clear w x m < 2 ^ w :=
  Nat.and_le_right.trans_lt (complement_lt w m)

theorem clear_le (mask : m < 2 ^ w) : clear w x m ≤ x % 2 ^ w := by
  rw [clear_eq mask]
  exact Nat.sub_le _ _

/-- Masking takes away no more than the mask. -/
theorem le_clear_add (mask : m < 2 ^ w) : x % 2 ^ w ≤ clear w x m + m := by
  have := Nat.and_le_right (n := x % 2 ^ w) (m := m)
  rw [clear_eq mask]
  omega

/-- Masking with `2 ^ k - 1` rounds down to a multiple of `2 ^ k`. -/
theorem clear_lowBits (narrow : k ≤ w) : clear w x (2 ^ k - 1) = x % 2 ^ w - x % 2 ^ k := by
  have le : 2 ^ k ≤ 2 ^ w := Nat.pow_le_pow_right (by decide) narrow
  have pos := Nat.two_pow_pos k
  rw [clear_eq (by omega), Nat.and_two_pow_sub_one_eq_mod,
    Nat.mod_mod_of_dvd x (Nat.pow_dvd_pow 2 narrow)]

/-- The next multiple of `a` from `x` on. -/
def roundUp (x a : Nat) : Nat := (x + (a - 1)) / a * a

theorem dvd_roundUp (x a : Nat) : a ∣ roundUp x a := Nat.dvd_mul_left _ _

/-- The next multiple is less than `a` away. -/
theorem roundUp_bounds {a : Nat} (pos : 0 < a) : x ≤ roundUp x a ∧ roundUp x a < x + a := by
  have split := Nat.div_add_mod (x + (a - 1)) a
  have rest := Nat.mod_lt (x + (a - 1)) pos
  rw [Nat.mul_comm] at split
  rw [roundUp]
  omega

/-- From a word on, the next multiple of a power of two lies at most at the end of
    the word. -/
theorem roundUp_le (small : x < 2 ^ w) (narrow : k ≤ w) : roundUp x (2 ^ k) ≤ 2 ^ w := by
  have pos := Nat.two_pow_pos k
  have whole : 2 ^ w = 2 ^ (w - k) * 2 ^ k := by rw [← pow_add, Nat.sub_add_cancel narrow]
  rw [roundUp, whole]
  rw [whole] at small
  refine Nat.mul_le_mul_right _ (Nat.le_of_lt_succ ((Nat.div_lt_iff_lt_mul pos).mpr ?_))
  rw [Nat.succ_mul]
  omega

/-- Adding a mask of low bits and clearing them rounds up, modulo the word. -/
theorem clear_add_lowBits (narrow : k ≤ w) :
    clear w (x + (2 ^ k - 1)) (2 ^ k - 1) = roundUp x (2 ^ k) % 2 ^ w := by
  have whole : 2 ^ w = 2 ^ k * 2 ^ (w - k) := by rw [← pow_add, Nat.add_sub_cancel' narrow]
  rw [clear_lowBits narrow, roundUp]
  generalize x + (2 ^ k - 1) = sum
  have low : sum % 2 ^ w % 2 ^ k = sum % 2 ^ k := Nat.mod_mod_of_dvd sum (Nat.pow_dvd_pow 2 narrow)
  have high : sum % 2 ^ w / 2 ^ k = sum / 2 ^ k % 2 ^ (w - k) := by
    rw [whole, Nat.mod_mul_right_div_self]
  have split := Nat.div_add_mod (sum % 2 ^ w) (2 ^ k)
  rw [Nat.mul_comm (sum / 2 ^ k), whole, Nat.mul_mod_mul_left, ← whole, ← high]
  omega

end WordMask
