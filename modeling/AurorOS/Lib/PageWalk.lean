import AurorOS.Lib.ByteMemory

/-! # Page tables

A processor in long mode translates an address through four tables of 512 entries of 8
bytes each.  An entry says whether it is present, what is allowed behind it, and where the
next table or the page is; with bit 7 an entry of the second or third level from below is
that of a large page.
-/

namespace PageWalk

open ByteMemory

/-- Where an address leads and what is allowed there. -/
structure Mapping where
  address : Nat
  writable : Bool
  user : Bool
  deriving DecidableEq, Repr

/-- The bytes that an entry `level` levels above the pages is in charge of. -/
def span (level : Nat) : Nat := 2 ^ (12 + 9 * level)

/-- The physical address in an entry, a multiple of `unit`. -/
def frame (entry unit : Nat) : Nat := entry % 2 ^ 52 / unit * unit

/-- What the bits of an entry allow of what is allowed behind it. -/
def restrict (entry : Nat) (m : Mapping) : Mapping :=
  { m with writable := entry.testBit 1 && m.writable, user := entry.testBit 2 && m.user }

/-- The entry of a table for the address `v`. -/
def entryFor (m : Mem) (level table v : Nat) : Nat := load m (table + 8 * (v / span level % 512)) 8

/-- The translation of `v` from a table on that is `level` levels above the pages; `none` is a
    fault. -/
def walk (m : Mem) : Nat → Nat → Nat → Option Mapping
  | 0, page, v => some ⟨page + v % span 0, true, true⟩
  | level + 1, table, v =>
      let entry := entryFor m level table v
      if entry.testBit 0 = false then none
      else if entry.testBit 7 = true ∧ level = 3 then none
      else if entry.testBit 7 = true ∧ (level = 1 ∨ level = 2) then
        some (restrict entry ⟨frame entry (span level) + v % span level, true, true⟩)
      else (walk m level (frame entry (span 0)) v).map (restrict entry)

variable {m : Mem} {level table v entry : Nat}

/-- A word is its lower bytes and its upper ones. -/
theorem load_add (m : Mem) (a n k : Nat) :
    load m a (n + k) = load m a n + 256 ^ n * load m (a + n) k := by
  induction n generalizing a with
  | zero => rw [Nat.zero_add, Nat.pow_zero, Nat.one_mul, load, Nat.zero_add, Nat.add_zero]
  | succ n ih =>
      rw [Nat.succ_add, load, load, ih, pow_succ', Nat.add_assoc a 1 n, Nat.add_comm 1 n]
      ring

theorem walk_absent (here : entryFor m level table v = entry) (absent : entry.testBit 0 = false) :
    walk m (level + 1) table v = none := by
  simp only [walk, here, if_pos absent]

theorem walk_large (here : entryFor m level table v = entry) (present : entry.testBit 0 = true)
    (large : entry.testBit 7 = true) (place : level = 1 ∨ level = 2) :
    walk m (level + 1) table v =
    some (restrict entry ⟨frame entry (span level) + v % span level, true, true⟩) := by
  have inner : ¬ (entry.testBit 7 = true ∧ level = 3) := by omega
  simp only [walk, here, present, if_neg inner, if_pos (And.intro large place), Bool.true_eq_false,
    if_false]

theorem walk_table (here : entryFor m level table v = entry) (present : entry.testBit 0 = true)
    (small : entry.testBit 7 = false) :
    walk m (level + 1) table v = (walk m level (frame entry (span 0)) v).map (restrict entry) := by
  simp only [walk, here, present, small, Bool.true_eq_false, Bool.false_eq_true, false_and,
    if_false]

/-- An entry that is put together from an address and flags below it. -/
theorem frame_add {unit base flags : Nat} (aligned : unit ∣ base) (low : flags < unit)
    (fits : base + flags < 2 ^ 52) :
    frame (base + flags) unit = base := by
  obtain ⟨k, rfl⟩ := aligned
  have pos : 0 < unit := Nat.zero_lt_of_lt low
  rw [frame, Nat.mod_eq_of_lt fits, Nat.mul_add_div pos, Nat.div_eq_of_lt low, Nat.add_zero,
    Nat.mul_comm]

/-- A flag of such an entry is one of the flags. -/
theorem testBit_add {base flags k i : Nat} (aligned : 2 ^ k ∣ base) (low : flags < 2 ^ k)
    (below : i < k) :
    (base + flags).testBit i = flags.testBit i := by
  obtain ⟨n, rfl⟩ := aligned
  rw [Nat.testBit_two_pow_mul_add _ low, if_pos below]

/-- The bitwise or of an address and flags below it. -/
theorem or_eq_add {base flags k : Nat} (aligned : 2 ^ k ∣ base) (low : flags < 2 ^ k) :
    base ||| flags = base + flags := by
  obtain ⟨n, rfl⟩ := aligned
  exact (Nat.two_pow_add_eq_or_of_lt low n).symm

end PageWalk
