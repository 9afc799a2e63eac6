import AurorOS.Lib.ByteMemory

/-! # Bits packed into bytes

Bit `i` of a bitmap at address `base` is bit `i % 8` of the byte at `base + i / 8`.
-/

namespace Bitmap

open ByteMemory

def byteOf (base i : Nat) : Nat := base + (i >>> 3)

def testBit (m : Mem) (base i : Nat) : Bool :=
  ((m (byteOf base i)).toNat >>> (i &&& 7)) &&& 1 ≠ 0

/-- `base[i >> 3] |= 1u << (i & 7)`. -/
def setBit (m : Mem) (base i : Nat) : Mem := fun x =>
  if x = byteOf base i then m x ||| UInt8.ofNat (1 <<< (i &&& 7)) else m x

/-- `base[i >> 3] &= ~(1u << (i & 7))`, the complement taken in 32 bits. -/
def clearBit (m : Mem) (base i : Nat) : Mem := fun x =>
  if x = byteOf base i then m x &&& UInt8.ofNat (2 ^ 32 - 1 - (1 <<< (i &&& 7))) else m x

variable {m m' : Mem} {base i j x : Nat}

theorem and_seven (i : Nat) : i &&& 7 = i % 8 := Nat.and_two_pow_sub_one_eq_mod i 3

theorem byteOf_eq (base i : Nat) : byteOf base i = base + i / 8 := by
  rw [byteOf, Nat.shiftRight_eq_div_pow]

theorem testBit_eq (m : Mem) (base i : Nat) :
    testBit m base i = (m (base + i / 8)).toNat.testBit (i % 8) := by
  rw [testBit, byteOf_eq, and_seven, Nat.testBit_eq_decide_div_mod_eq, Nat.and_one_is_mod,
    Nat.shiftRight_eq_div_pow, decide_eq_decide]
  omega

theorem testBit_ofNat_shift {k l : Nat} (small : l < 8) :
    (UInt8.ofNat (1 <<< k)).toNat.testBit l = decide (l = k) := by
  rw [UInt8.toNat_ofNat', Nat.testBit_mod_two_pow, Nat.one_shiftLeft, Nat.testBit_two_pow]
  simp [small, eq_comm]

theorem testBit_ofNat_mask {k l : Nat} (small : l < 8) (narrow : k < 8) :
    (UInt8.ofNat (2 ^ 32 - 1 - 1 <<< k)).toNat.testBit l = !decide (l = k) := by
  have bound : 1 <<< k < 2 ^ 32 := by
    rw [Nat.one_shiftLeft]
    exact Nat.pow_lt_pow_right (by decide) (by omega)
  rw [UInt8.toNat_ofNat', Nat.testBit_mod_two_pow, Nat.sub_sub, Nat.add_comm 1,
    Nat.testBit_two_pow_sub_succ bound, Nat.one_shiftLeft, Nat.testBit_two_pow]
  simp [small, show l < 32 by omega, eq_comm]

theorem testBit_setBit (m : Mem) (base i j : Nat) :
    testBit (setBit m base i) base j = (decide (i = j) || testBit m base j) := by
  simp only [testBit_eq, setBit, byteOf_eq, and_seven]
  split
  · rename_i sameByte
    rw [UInt8.toNat_or, Nat.testBit_or, testBit_ofNat_shift (Nat.mod_lt j (by decide)),
      Bool.or_comm]
    congr 1
    rw [decide_eq_decide]
    omega
  · rename_i otherByte
    have other : i ≠ j := fun same => otherByte (by rw [same])
    simp [other]

theorem testBit_clearBit (m : Mem) (base i j : Nat) :
    testBit (clearBit m base i) base j = (!decide (i = j) && testBit m base j) := by
  simp only [testBit_eq, clearBit, byteOf_eq, and_seven]
  split
  · rename_i sameByte
    rw [UInt8.toNat_and, Nat.testBit_and,
      testBit_ofNat_mask (Nat.mod_lt j (by decide)) (Nat.mod_lt i (by decide)), Bool.and_comm]
    congr 2
    rw [decide_eq_decide]
    omega
  · rename_i otherByte
    have other : i ≠ j := fun same => otherByte (by rw [same])
    simp [other]

theorem setBit_outside (m : Mem) (base i : Nat) (outside : x ≠ base + i / 8) :
    setBit m base i x = m x := by
  simp only [setBit, byteOf_eq, if_neg outside]

theorem clearBit_outside (m : Mem) (base i : Nat) (outside : x ≠ base + i / 8) :
    clearBit m base i x = m x := by
  simp only [clearBit, byteOf_eq, if_neg outside]

/-- A byte of ones is eight set bits. -/
theorem testBit_of_ones (ones : m (base + i / 8) = 0xFF) : testBit m base i = true := by
  have narrow : i % 8 < 8 := Nat.mod_lt i (by decide)
  rw [testBit_eq, ones]
  change (2 ^ 8 - 1).testBit (i % 8) = true
  rw [Nat.testBit_two_pow_sub_one]
  simp [narrow]

end Bitmap

namespace PageRuns

/-- The `n` indices from `i` on are all free. -/
def IsRun (free : Nat → Bool) (i n : Nat) : Prop := ∀ j < n, free (i + j) = true

/-- `i` is the least index with property `p`. -/
def IsFirst (p : Nat → Prop) (i : Nat) : Prop := p i ∧ ∀ j < i, ¬ p j

instance (free : Nat → Bool) (i n : Nat) : Decidable (IsRun free i n) :=
  inferInstanceAs (Decidable (∀ j < n, free (i + j) = true))

variable {free : Nat → Bool} {i k n c : Nat} {p : Nat → Prop}

theorem IsFirst.unique (first : IsFirst p i) (second : IsFirst p k) : i = k := by
  rcases Nat.lt_trichotomy i k with below | same | above
  · exact absurd first.1 (second.2 i below)
  · exact same
  · exact absurd second.1 (first.2 k above)

theorem IsRun.nonempty_start (run : IsRun free i n) (pos : 0 < n) : free i = true := by
  simpa using run 0 pos

/-- No run of `n` starts between `i` and a used index less than `n` further on. -/
theorem not_run_of_hole (hole : free (i + c) = false) (short : c < n) (above : i ≤ k)
    (below : k ≤ i + c) : ¬ IsRun free k n := by
  intro run
  have atHole := run (i + c - k) (by omega)
  rw [show k + (i + c - k) = i + c by omega, hole] at atHole
  exact Bool.false_ne_true atHole

end PageRuns
