import AurorOS.Lib.ByteMemory
import AurorOS.Lib.WordMask

/-! # The two builds

The kernel is compiled for x86 and for x86_64.  `unsigned long` (hence `size_t`)
and pointers are four bytes wide on the former and eight on the latter; the
`uint64_t` and `uint32_t` types are the same on both.
-/

namespace AurorOS

inductive Arch where
  | x86
  | x86_64
  deriving DecidableEq, Repr

namespace Arch

/-- `sizeof(void*)`, which is also `sizeof(unsigned long)`. -/
def wordBytes : Arch → Nat
  | .x86 => 4
  | .x86_64 => 8

/-- The width of `size_t` in bits. -/
def wordBits : Arch → Nat
  | .x86 => 32
  | .x86_64 => 64

/-- One more than the largest `size_t`. -/
def wordSize (arch : Arch) : Nat := 2 ^ arch.wordBits

theorem pow_wordBytes (arch : Arch) : 256 ^ arch.wordBytes = arch.wordSize := by
  cases arch <;> norm_num [wordBytes, wordSize, wordBits]

theorem wordSize_pos (arch : Arch) : 0 < arch.wordSize := Nat.two_pow_pos _

theorem wordSize_le (arch : Arch) : arch.wordSize ≤ 2 ^ 64 := by
  cases arch <;> norm_num [wordSize, wordBits]

theorem le_wordSize (arch : Arch) : 2 ^ 32 ≤ arch.wordSize := by
  cases arch <;> norm_num [wordSize, wordBits]

theorem page_dvd_wordSize (arch : Arch) : 4096 ∣ arch.wordSize := by
  cases arch <;> norm_num [wordSize, wordBits]

/-- `size_t` addition. -/
def add (arch : Arch) (a b : Nat) : Nat := (a + b) % arch.wordSize

/-- `size_t` subtraction. -/
def sub (arch : Arch) (a b : Nat) : Nat := (a + (arch.wordSize - b)) % arch.wordSize

/-- `x & ~m` for an `unsigned long` mask `m`: the complement is one word wide, so
    on x86 the upper half of a `uint64_t` operand is masked off as well. -/
def clear (arch : Arch) (x m : Nat) : Nat := WordMask.clear arch.wordBits x m

theorem add_eq {arch : Arch} {a b : Nat} (fits : a + b < arch.wordSize) : arch.add a b = a + b :=
  Nat.mod_eq_of_lt fits

theorem add_lt (arch : Arch) (a b : Nat) : arch.add a b < arch.wordSize :=
  Nat.mod_lt _ arch.wordSize_pos

theorem sub_eq {arch : Arch} {a b : Nat} (small : a < arch.wordSize) (le : b ≤ a) :
    arch.sub a b = a - b := by
  rw [sub, show a + (arch.wordSize - b) = a - b + arch.wordSize by omega, Nat.add_mod_right,
    Nat.mod_eq_of_lt (by omega)]

/-- Masking takes away no more than the mask. -/
theorem clear_bounds {arch : Arch} {x m : Nat} (small : x < arch.wordSize)
    (mask : m < arch.wordSize) :
    arch.clear x m ≤ x ∧ x ≤ arch.clear x m + m := by
  have cut : x % 2 ^ arch.wordBits = x := Nat.mod_eq_of_lt small
  have upper := WordMask.clear_le (x := x) mask
  have lower := WordMask.le_clear_add (x := x) mask
  rw [cut] at upper lower
  exact ⟨upper, lower⟩

end Arch

/-- `uint64_t` addition. -/
def add64 (a b : Nat) : Nat := (a + b) % 2 ^ 64

/-- `uint64_t` subtraction. -/
def sub64 (a b : Nat) : Nat := (a + (2 ^ 64 - b)) % 2 ^ 64

theorem add64_eq {a b : Nat} (fits : a + b < 2 ^ 64) : add64 a b = a + b := Nat.mod_eq_of_lt fits

theorem add64_lt (a b : Nat) : add64 a b < 2 ^ 64 := Nat.mod_lt _ (Nat.two_pow_pos _)

theorem sub64_eq {a b : Nat} (small : a < 2 ^ 64) (le : b ≤ a) : sub64 a b = a - b := by
  rw [sub64, show a + (2 ^ 64 - b) = a - b + 2 ^ 64 by omega, Nat.add_mod_right,
    Nat.mod_eq_of_lt (by omega)]

/-- How a call can fail to return.  `kernelpanic` halts the machine; `invalidAccess`
    is an access to no live object or beyond an array's end, after which nothing can
    be said; `outOfFuel` says that a loop of the model ran out of its step budget. -/
inductive Fault where
  | kernelpanic (paniccode devnote : String)
  | invalidAccess
  | outOfFuel
  deriving DecidableEq, Repr

end AurorOS
