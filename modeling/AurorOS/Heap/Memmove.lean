import AurorOS.Machine

/-! # Copying between ranges that overlap

`memmove` copies upward to a lower address and downward to a higher one, so that no byte
of the source is overwritten before it has been read.
-/

namespace AurorOS.Heap

open ByteMemory

/-- `d[i] = s[i];` -/
def copyByte (arch : Arch) (d s i : Nat) (m : Mem) : Mem :=
  Function.update m (arch.add d i) (m (arch.add s i))

/-- `for (size_t i = 0; i < n; i++) d[i] = s[i];` -/
def copyUp (arch : Arch) (m : Mem) (d s n : Nat) : Mem :=
  (List.range n).foldl (fun m i => copyByte arch d s i m) m

/-- `for (size_t i = n; i > 0; i--) d[i - 1] = s[i - 1];` -/
def copyDown (arch : Arch) (m : Mem) (d s : Nat) : Nat → Mem
  | 0 => m
  | i + 1 => copyDown arch (copyByte arch d s i m) d s i

def memmove (arch : Arch) (m : Mem) (dest src n : Nat) : Mem :=
  if dest = src then m
  else if dest < src then copyUp arch m dest src n
  else copyDown arch m dest src n

/-- The bytes from `lo` to `hi` of the destination hold what those of the source held in `m`,
    and everything else is as it was. -/
structure Moved (m m' : Mem) (d s lo hi : Nat) : Prop where
  copied : ∀ i, lo ≤ i → i < hi → m' (d + i) = m (s + i)
  frame : ∀ x, x < d + lo ∨ d + hi ≤ x → m' x = m x

variable {arch : Arch} {m m' : Mem} {d s n k hi x : Nat}

theorem Moved.none (m : Mem) (d s k : Nat) : Moved m m d s k k where
  copied := by
    intro i above below
    omega
  frame := fun _ _ => rfl

theorem copyByte_eq (dest : d + k < arch.wordSize) (src : s + k < arch.wordSize) :
    copyByte arch d s k m = Function.update m (d + k) (m (s + k)) := by
  rw [copyByte, Arch.add_eq dest, Arch.add_eq src]

/-- A round of the upward loop: the source byte is above what has been written. -/
theorem Moved.up (moved : Moved m m' d s 0 k) (below : d < s) (dest : d + k < arch.wordSize)
    (src : s + k < arch.wordSize) : Moved m (copyByte arch d s k m') d s 0 (k + 1) := by
  rw [copyByte_eq dest src]
  constructor
  · intro i above inside
    by_cases last : i = k
    · subst last
      rw [Function.update_self]
      exact moved.frame _ (by omega)
    · rw [Function.update_of_ne (by omega)]
      exact moved.copied i above (by omega)
  · intro x outside
    rw [Function.update_of_ne (by omega)]
    exact moved.frame x (by omega)

/-- A round of the downward loop: the source byte is below what has been written. -/
theorem Moved.down (moved : Moved m m' d s (k + 1) hi) (above : s < d) (inside : k < hi)
    (dest : d + k < arch.wordSize) (src : s + k < arch.wordSize) :
    Moved m (copyByte arch d s k m') d s k hi := by
  rw [copyByte_eq dest src]
  constructor
  · intro i from_k below
    by_cases first : i = k
    · subst first
      rw [Function.update_self]
      exact moved.frame _ (by omega)
    · rw [Function.update_of_ne (by omega)]
      exact moved.copied i (by omega) below
  · intro x outside
    rw [Function.update_of_ne (by omega)]
    exact moved.frame x (by omega)

theorem moved_copyUp (m : Mem) (below : d < s) (dest : d + n ≤ arch.wordSize)
    (src : s + n ≤ arch.wordSize) :
    Moved m (copyUp arch m d s n) d s 0 n := by
  induction n with
  | zero => exact Moved.none m d s 0
  | succ n ih =>
      have step : copyUp arch m d s (n + 1) = copyByte arch d s n (copyUp arch m d s n) := by
        rw [copyUp, List.range_succ, List.foldl_append]
        rfl
      rw [step]
      exact (ih (by omega) (by omega)).up below (by omega) (by omega)

/-- What is left of the downward loop after the bytes from `k` on. -/
theorem moved_copyDown (moved : Moved m m' d s k hi) (above : s < d) (inside : k ≤ hi)
    (dest : d + hi ≤ arch.wordSize) : Moved m (copyDown arch m' d s k) d s 0 hi := by
  induction k generalizing m' with
  | zero => exact moved
  | succ k ih =>
      have round :=
        moved.down above (by omega : k < hi) (by omega : d + k < arch.wordSize) (by omega)
      exact ih round (by omega)

/-- Between any two ranges that do not wrap, overlapping or not, `memmove` moves the bytes
    that the source held and changes nothing outside the destination. -/
theorem memmove_moves (arch : Arch) (m : Mem) (dest src n : Nat)
    (destFits : dest + n ≤ arch.wordSize) (srcFits : src + n ≤ arch.wordSize) :
    bytesAt (memmove arch m dest src n) dest n = bytesAt m src n ∧
      ∀ x, x < dest ∨ dest + n ≤ x → memmove arch m dest src n x = m x := by
  have moved : Moved m (memmove arch m dest src n) dest src 0 n := by
    rw [memmove]
    rcases Nat.lt_trichotomy dest src with below | same | above
    · rw [if_neg (Nat.ne_of_lt below), if_pos below]
      exact moved_copyUp m below destFits srcFits
    · rw [if_pos same, same]
      exact ⟨fun _ _ _ => rfl, fun _ _ => rfl⟩
    · rw [if_neg (Nat.ne_of_gt above), if_neg (Nat.not_lt_of_gt above)]
      exact moved_copyDown (Moved.none m dest src n) above le_rfl destFits
  constructor
  · refine List.map_congr_left fun i inside => ?_
    exact moved.copied i (Nat.zero_le i) (List.mem_range.mp inside)
  · exact fun x outside => moved.frame x outside

/-- Three bytes are moved up by one, at the end of the address space. -/
theorem memmove_moves_up_one :
    bytesAt (memmove .x86 (fun x => UInt8.ofNat x) 0xFFFFFFFD 0xFFFFFFFC 3) 0xFFFFFFFD 3 =
    [0xFC, 0xFD, 0xFE] :=
  (memmove_moves .x86 (fun x => UInt8.ofNat x) 0xFFFFFFFD 0xFFFFFFFC 3 (by decide) (by decide)).1

end AurorOS.Heap
