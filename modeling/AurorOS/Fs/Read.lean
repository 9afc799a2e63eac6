import AurorOS.Fs.Model

/-! # Reading files

`emulated_fs_read` reserves a byte of the caller's buffer for a terminator.  The
model lists its stores to the buffer by index, in order, together with where each
stored byte comes from.
-/

namespace AurorOS.Fs

/-- A store to the caller's buffer `out`. -/
inductive OutStore where
  /-- `out[i] = file->data[i]`. -/
  | copy (i : Nat)
  /-- `out[i] = 0`. -/
  | terminate (i : Nat)
  deriving DecidableEq, Repr

def OutStore.index : OutStore → Nat
  | .copy i => i
  | .terminate i => i

/-- A `uint32_t` value converted to `int`. -/
def toInt32 (x : UInt32) : Int := if x.toNat < 2 ^ 31 then x.toNat else x.toNat - 2 ^ 32

/-- `memcpy(out, file->data, n)`. -/
def memcpyStores (n : Nat) : List OutStore := (List.range n).map .copy

/-- `uint32_t to_copy = (file->size < max ? file->size : max - 1);` -/
def toCopy (n : FsNode) (max : UInt32) : UInt32 :=
  if n.size < max.toNat then UInt32.ofNat n.size else max - 1

def emulatedFsRead (n : FsNode) (max : UInt32) : Int × List OutStore :=
  if n.type ≠ .file then (-1, [])
  else if n.data = 0 ∨ n.size = 0 then (0, if max > 0 then [.terminate 0] else [])
  else
    let toCopy := toCopy n max
    (toInt32 toCopy, memcpyStores toCopy.toNat ++ [.terminate toCopy.toNat])

/-- Only indices below `max` are written, and only bytes below the size are copied. -/
def InBounds (n : FsNode) (max : UInt32) : Prop :=
  ∀ store ∈ (emulatedFsRead n max).2, store.index < max.toNat ∧ ∀ i, store = .copy i → i < n.size

variable {n : FsNode} {max : UInt32} {i : Nat}

theorem mem_memcpyStores {store : OutStore} :
    store ∈ memcpyStores i ↔ ∃ k < i, store = .copy k := by
  simp [memcpyStores, eq_comm]

/-- With room for the terminator, as much is copied as the file has and fits. -/
theorem toCopy_eq (n : FsNode) (room : 0 < max) :
    (toCopy n max).toNat = min n.size (max.toNat - 1) := by
  have positive : 0 < max.toNat := UInt32.lt_iff_toNat_lt.mp room
  have bound := max.toNat_lt
  rw [toCopy]
  by_cases fits : n.size < max.toNat
  · rw [if_pos fits, UInt32.toNat_ofNat', Nat.mod_eq_of_lt (by omega)]
    omega
  · have one : (1 : UInt32) ≤ max := UInt32.le_iff_toNat_le.mpr positive
    rw [if_neg fits, UInt32.toNat_sub_of_le _ _ one]
    change max.toNat - 1 = _
    omega

/-- Reads stay in bounds except for a buffer of no bytes and a file with data. -/
theorem read_in_bounds_iff (n : FsNode) (max : UInt32) :
    InBounds n max ↔ 0 < max ∨ n.type ≠ .file ∨ n.data = 0 ∨ n.size = 0 := by
  constructor
  · intro bounded
    by_contra defect
    rw [not_or, not_or, not_not, not_or] at defect
    obtain ⟨noRoom, isFile, hasData, hasSize⟩ := defect
    obtain rfl : max = 0 := by simpa using noRoom
    have stores : .terminate (toCopy n 0).toNat ∈ (emulatedFsRead n 0).2 := by
      rw [emulatedFsRead, if_neg (not_not.mpr isFile), if_neg (not_or.mpr ⟨hasData, hasSize⟩)]
      exact List.mem_append_right _ (List.mem_singleton_self _)
    exact Nat.not_lt_zero _ (bounded _ stores).1
  · intro condition store member
    rw [emulatedFsRead] at member
    split at member
    · cases member
    split at member
    · by_cases room : max > 0
      · rw [if_pos room] at member
        obtain rfl := List.mem_singleton.mp member
        exact ⟨UInt32.lt_iff_toNat_lt.mp room, nofun⟩
      · rw [if_neg room] at member
        cases member
    · rename_i isFile hasData
      rw [not_or] at hasData
      have room : 0 < max := by
        rcases condition with room | notFile | noData | noSize
        · exact room
        · exact absurd notFile isFile
        · exact absurd noData hasData.1
        · exact absurd noSize hasData.2
      have positive : 0 < max.toNat := UInt32.lt_iff_toNat_lt.mp room
      simp only [toCopy_eq n room] at member
      cases List.mem_append.mp member with
      | inl copied =>
          obtain ⟨k, below, rfl⟩ := mem_memcpyStores.mp copied
          refine ⟨?_, ?_⟩
          · simp only [OutStore.index]
            omega
          · intro i same
            obtain rfl := OutStore.copy.inj same
            omega
      | inr last =>
          obtain rfl := List.mem_singleton.mp last
          refine ⟨?_, nofun⟩
          simp only [OutStore.index]
          omega

/-- A file of one byte. -/
def oneByteFile : FsNode where
  name := [97]
  type := .file
  parent := 1
  permissions := 0o755
  owner := 0
  data := 100
  size := 1
  children := fun _ => 0
  childCount := 0

/-- A read of no bytes from it writes all the same. -/
theorem read_not_in_bounds : ¬ ∀ n max, InBounds n max := by
  intro always
  have stores : .terminate (toCopy oneByteFile 0).toNat ∈ (emulatedFsRead oneByteFile 0).2 :=
    List.mem_append_right _ (List.mem_singleton_self _)
  exact Nat.not_lt_zero _ (always oneByteFile 0 _ stores).1

end AurorOS.Fs
