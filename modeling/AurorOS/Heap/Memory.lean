import AurorOS.Lib.ByteMemory

/-! # Copying and filling memory

`memcpy`, `memset` and `strcpy`, byte by byte.
-/

namespace AurorOS.Heap

open ByteMemory

/-- `for (size_t i = 0; i < n; i++) d[i] = s[i];` -/
def memcpy (m : Mem) (dest src n : Nat) : Mem :=
  (List.range n).foldl (fun m i => Function.update m (dest + i) (m (src + i))) m

def memset (m : Mem) (ptr : Nat) (value : UInt8) (num : Nat) : Mem :=
  (List.range num).foldl (fun m i => Function.update m (ptr + i) value) m

/-- The string comes without its terminator. -/
def strcpy : Mem → Nat → List UInt8 → Mem
  | m, dest, [] => Function.update m dest 0
  | m, dest, c :: rest => strcpy (Function.update m dest c) (dest + 1) rest

variable {dest src n x ptr num : Nat} {str : List UInt8}

/-- Between ranges that do not overlap every byte arrives as it was. -/
theorem memcpy_apply (m : Mem) (apart : dest + n ≤ src ∨ src + n ≤ dest) (x : Nat) :
    memcpy m dest src n x = if dest ≤ x ∧ x < dest + n then m (src + (x - dest)) else m x := by
  induction n generalizing x with
  | zero => rw [if_neg (by omega), memcpy, List.range_zero, List.foldl_nil]
  | succ n ih =>
      have step : memcpy m dest src (n + 1) =
          Function.update (memcpy m dest src n) (dest + n) (memcpy m dest src n (src + n)) := by
        rw [memcpy, List.range_succ, List.foldl_append]
        rfl
      rw [step]
      by_cases last : x = dest + n
      · subst last
        rw [Function.update_self, ih (by omega), if_neg (by omega), if_pos (by omega),
          Nat.add_sub_cancel_left]
      · rw [Function.update_of_ne last, ih (by omega)]
        by_cases inside : dest ≤ x ∧ x < dest + n
        · rw [if_pos inside, if_pos (by omega)]
        · rw [if_neg inside, if_neg (by omega)]

theorem memcpy_changesIn (m : Mem) (apart : dest + n ≤ src ∨ src + n ≤ dest) :
    ChangesIn m (memcpy m dest src n) dest n := by
  intro x outside
  rw [memcpy_apply m apart, if_neg (by omega)]

/-- The destination holds the bytes of the source. -/
theorem bytesAt_memcpy (m : Mem) (apart : dest + n ≤ src ∨ src + n ≤ dest) :
    bytesAt (memcpy m dest src n) dest n = bytesAt m src n := by
  refine List.map_congr_left fun i inside => ?_
  rw [List.mem_range] at inside
  rw [memcpy_apply m apart, if_pos (by omega), Nat.add_sub_cancel_left]

theorem memset_apply (m : Mem) (ptr : Nat) (value : UInt8) (num x : Nat) :
    memset m ptr value num x = if ptr ≤ x ∧ x < ptr + num then value else m x := by
  induction num generalizing x with
  | zero => rw [if_neg (by omega), memset, List.range_zero, List.foldl_nil]
  | succ num ih =>
      have step : memset m ptr value (num + 1) =
          Function.update (memset m ptr value num) (ptr + num) value := by
        rw [memset, List.range_succ, List.foldl_append]
        rfl
      rw [step]
      by_cases last : x = ptr + num
      · rw [last, Function.update_self, if_pos (by omega)]
      · rw [Function.update_of_ne last, ih]
        by_cases inside : ptr ≤ x ∧ x < ptr + num
        · rw [if_pos inside, if_pos (by omega)]
        · rw [if_neg inside, if_neg (by omega)]

theorem memset_changesIn (m : Mem) (ptr : Nat) (value : UInt8) (num : Nat) :
    ChangesIn m (memset m ptr value num) ptr num := by
  intro x outside
  rw [memset_apply, if_neg (by omega)]

theorem strcpy_changesIn (m : Mem) (dest : Nat) (str : List UInt8) :
    ChangesIn m (strcpy m dest str) dest (str.length + 1) := by
  induction str generalizing m dest with
  | nil =>
      intro x outside
      rw [List.length_nil] at outside
      exact Function.update_of_ne (by omega) _ _
  | cons c rest ih =>
      intro x outside
      rw [List.length_cons] at outside
      rw [strcpy, ih _ _ x (by omega), Function.update_of_ne (by omega)]

/-- The characters and their terminator. -/
theorem bytesAt_strcpy (m : Mem) (dest : Nat) (str : List UInt8) :
    bytesAt (strcpy m dest str) dest (str.length + 1) = str ++ [0] := by
  induction str generalizing m dest with
  | nil =>
      rw [List.length_nil, strcpy, bytesAt]
      simp
  | cons c rest ih =>
      have first : strcpy m dest (c :: rest) dest = c := by
        rw [strcpy, strcpy_changesIn _ _ rest dest (by omega), Function.update_self]
      have behind := ih (Function.update m dest c) (dest + 1)
      rw [bytesAt] at behind ⊢
      rw [List.length_cons, List.range_succ_eq_map, List.map_cons, List.map_map, List.cons_append,
        Nat.add_zero, first, ← behind]
      refine congrArg (c :: ·) (List.map_congr_left fun i _ => ?_)
      rw [Function.comp_apply, strcpy, Nat.add_assoc, Nat.add_comm 1 i]

end AurorOS.Heap
