import Mathlib.Tactic

/-! # Byte-addressed memory

A memory assigns a byte to every address.  Words of any width are loaded and
stored little-endian, as the targets of freestanding C programs do.  The lemmas
say what a store changes (the bytes it covers) and what it leaves alone.
-/

namespace ByteMemory

/-- Every address holds one byte. -/
abbrev Mem := Nat → UInt8

/-- The little-endian value of the `n` bytes at `a`. -/
def load (m : Mem) (a : Nat) : Nat → Nat
  | 0 => 0
  | n + 1 => (m a).toNat + 256 * load m (a + 1) n

/-- Overwrite the `n` bytes at `a` with the little-endian digits of `v`. -/
def store (m : Mem) (a n v : Nat) : Mem := fun x =>
  if a ≤ x ∧ x < a + n then UInt8.ofNat (v / 256 ^ (x - a)) else m x

/-- `m'` holds the same bytes as `m` on `[lo, hi)`. -/
def AgreeOn (m m' : Mem) (lo hi : Nat) : Prop :=
  ∀ x, lo ≤ x → x < hi → m' x = m x

namespace AgreeOn

variable {m m' m'' : Mem} {lo hi lo' hi' : Nat}

theorem refl (m : Mem) (lo hi : Nat) : AgreeOn m m lo hi := fun _ _ _ => rfl

theorem trans (first : AgreeOn m m' lo hi) (second : AgreeOn m' m'' lo hi) :
    AgreeOn m m'' lo hi := by
  intro x above below
  rw [second x above below, first x above below]

theorem mono (same : AgreeOn m m' lo hi) (left : lo ≤ lo') (right : hi' ≤ hi) :
    AgreeOn m m' lo' hi' :=
  fun x above below => same x (left.trans above) (below.trans_le right)

end AgreeOn

theorem load_lt (m : Mem) (a n : Nat) : load m a n < 256 ^ n := by
  induction n generalizing a with
  | zero => simp [load]
  | succ n ih =>
      have byte : (m a).toNat < 256 := (m a).toNat_lt
      have rest := ih (a + 1)
      simp only [load, pow_succ]
      omega

/-- A load depends on nothing but the bytes it covers. -/
theorem load_congr {m m' : Mem} {a n : Nat} (same : AgreeOn m m' a (a + n)) :
    load m' a n = load m a n := by
  induction n generalizing a with
  | zero => rfl
  | succ n ih =>
      have tail := ih (same.mono (Nat.le_succ a) (by omega) : AgreeOn m m' (a + 1) (a + 1 + n))
      simp only [load, tail, same a le_rfl (by omega)]

/-- Bytes that are the base-256 digits of `v` load as `v`, cut to the width. -/
theorem load_of_digits {m : Mem} {a n v : Nat}
    (digits : ∀ k < n, (m (a + k)).toNat = v / 256 ^ k % 256) : load m a n = v % 256 ^ n := by
  induction n generalizing a v with
  | zero => simp [load, Nat.mod_one]
  | succ n ih =>
      have head : (m a).toNat = v % 256 := by simpa using digits 0 (Nat.succ_pos n)
      have tail : load m (a + 1) n = v / 256 % 256 ^ n := by
        apply ih
        intro k below
        have digit := digits (k + 1) (by omega)
        rw [show a + 1 + k = a + (k + 1) by omega, digit, pow_succ', ← Nat.div_div_eq_div_mul]
      rw [load, head, tail, pow_succ', Nat.mod_mul]

theorem store_inside (m : Mem) (a n v : Nat) {k : Nat} (inside : k < n) :
    store m a n v (a + k) = UInt8.ofNat (v / 256 ^ k) := by
  simp [store, inside]

theorem store_outside (m : Mem) (a n v : Nat) {x : Nat} (outside : x < a ∨ a + n ≤ x) :
    store m a n v x = m x := by
  simp only [store, if_neg (by omega : ¬ (a ≤ x ∧ x < a + n))]

theorem load_store_same (m : Mem) (a n v : Nat) : load (store m a n v) a n = v % 256 ^ n := by
  apply load_of_digits
  intro k below
  rw [store_inside m a n v below, UInt8.toNat_ofNat']

theorem load_store_disjoint (m : Mem) (a n v : Nat) {b k : Nat}
    (apart : b + k ≤ a ∨ a + n ≤ b) : load (store m a n v) b k = load m b k := by
  apply load_congr
  intro x above below
  exact store_outside m a n v (by omega)

theorem load_zeros {m : Mem} {a n : Nat} (zeros : ∀ k < n, m (a + k) = 0) : load m a n = 0 := by
  rw [load_of_digits (v := 0), Nat.zero_mod]
  intro k below
  rw [zeros k below, Nat.zero_div]
  rfl

/-- The `n` bytes at `a`. -/
def bytesAt (m : Mem) (a n : Nat) : List UInt8 := (List.range n).map fun i => m (a + i)

@[simp] theorem length_bytesAt (m : Mem) (a n : Nat) : (bytesAt m a n).length = n := by
  rw [bytesAt, List.length_map, List.length_range]

theorem bytesAt_congr {m m' : Mem} {a n : Nat} (same : AgreeOn m m' a (a + n)) :
    bytesAt m' a n = bytesAt m a n := by
  refine List.map_congr_left fun i inside => ?_
  rw [List.mem_range] at inside
  exact same (a + i) (by omega) (by omega)

theorem bytesAt_add (m : Mem) (a n k : Nat) :
    bytesAt m a (n + k) = bytesAt m a n ++ bytesAt m (a + n) k := by
  rw [bytesAt, bytesAt, bytesAt, List.range_add, List.map_append, List.map_map]
  refine congrArg _ (List.map_congr_left fun i _ => ?_)
  rw [Function.comp_apply, Nat.add_assoc]

theorem take_bytesAt (m : Mem) (a n k : Nat) : (bytesAt m a n).take k = bytesAt m a (min k n) := by
  rw [bytesAt, bytesAt, ← List.map_take, List.take_range]

/-- `m'` differs from `m` on the `n` bytes at `a` at most. -/
def ChangesIn (m m' : Mem) (a n : Nat) : Prop := ∀ x, x < a ∨ a + n ≤ x → m' x = m x

namespace ChangesIn

variable {m m' m'' : Mem} {a n b k lo hi : Nat}

theorem trans (first : ChangesIn m m' a n) (second : ChangesIn m' m'' a n) : ChangesIn m m'' a n :=
  fun x outside => (second x outside).trans (first x outside)

theorem mono (changes : ChangesIn m m' b k) (left : a ≤ b) (right : b + k ≤ a + n) :
    ChangesIn m m' a n :=
  fun x outside => changes x (by omega)

theorem agreeOn (changes : ChangesIn m m' a n) (apart : hi ≤ a ∨ a + n ≤ lo) : AgreeOn m m' lo hi :=
  fun x above below => changes x (by omega)

end ChangesIn

theorem store_changesIn (m : Mem) (a n v : Nat) : ChangesIn m (store m a n v) a n :=
  fun _ outside =>
  store_outside m a n v outside

end ByteMemory
