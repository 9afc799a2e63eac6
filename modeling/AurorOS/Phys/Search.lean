import AurorOS.Phys.Pages

/-! # The page search is exact

What `phys_alloc_contiguous` does, said in terms of the bits of the bitmap alone:
it sets the bits of the lowest run that serves the request, and with no such run
it changes nothing.
-/

namespace AurorOS.Phys

open ByteMemory PageRuns

variable {arch : Arch} {s : PhysMem arch} {i j k left size alignment : Nat}

/-- Page `i` starts at a multiple of the alignment, and the pages that hold `size`
    bytes from there on exist and are free. -/
structure ServesAt (s : PhysMem arch) (size alignment i : Nat) : Prop where
  aligned : alignment ∣ 4096 * i
  free : ∀ k, i ≤ k → k < i + (size + 4095) / 4096 →
    k < s.physTotalPages ∧ Bitmap.testBit s.mem s.physBitmap k = false

theorem pageIsFree_iff : pageIsFree s k = true ↔
    k < s.physTotalPages ∧ Bitmap.testBit s.mem s.physBitmap k = false := by
  by_cases counted : k < s.physTotalPages
  · rw [pageIsFree_of_counted counted, Bool.not_eq_true']
    exact (and_iff_right counted).symm
  · exact iff_of_false (mt lt_of_pageIsFree counted) fun both => counted both.1

theorem servesAt_iff (asked : 0 < size) (power : alignment.isPowerOfTwo) :
    ServesAt s size alignment i ↔ Grantable s size alignment i := by
  have effective : effectiveAlignment alignment = alignment :=
    if_neg (Nat.pos_of_isPowerOfTwo power).ne'
  have pos := pagesOf_pos asked
  have last : i + pagesOf size - 1 < i + pagesOf size := by omega
  constructor
  · intro serves
    have inside := (serves.free (i + pagesOf size - 1) (by omega) last).1
    refine ⟨asked, effective.symm ▸ power, ?_, by omega, ?_⟩
    · rw [effective, Nat.mul_comm]
      exact serves.aligned
    · intro k below
      exact pageIsFree_iff.mpr
        (serves.free (i + k) (Nat.le_add_right i k) (Nat.add_lt_add_left below i))
  · intro grant
    refine ⟨?_, ?_⟩
    · have aligned := grant.aligned
      rw [effective, Nat.mul_comm] at aligned
      exact aligned
    · intro k above below
      obtain ⟨j, rfl⟩ := Nat.exists_eq_add_of_le above
      exact pageIsFree_iff.mp (grant.run j (Nat.lt_of_add_lt_add_left below))

/-- The marking loop sets the bits of its pages. -/
theorem testBit_markLoop (s : PhysMem arch) (inside : i + j + left ≤ s.physTotalPages) (k : Nat) :
    Bitmap.testBit (markLoop s i left j).mem s.physBitmap k =
      (Bitmap.testBit s.mem s.physBitmap k || decide (i + j ≤ k ∧ k < i + j + left)) := by
  induction left generalizing s j with
  | zero =>
      have empty : ¬ (i + j ≤ k ∧ k < i + j + 0) := by omega
      simp only [markLoop, empty, decide_false, Bool.or_false]
  | succ left ih =>
      have bound := total_lt s
      have here : add64 i j = i + j := add64_eq (by omega)
      have counted : ¬ i + j ≥ s.physTotalPages := by omega
      have rest := ih (j := j + 1) (markPageUsed s (i + j)) (by
        rw [(markPageUsed_setup s (i + j)).total]
        omega)
      rw [(markPageUsed_setup s (i + j)).bitmap] at rest
      have marked : (markPageUsed s (i + j)).mem = Bitmap.setBit s.mem s.physBitmap (i + j) := by
        rw [markPageUsed, if_neg counted, index_mod s (by omega), bitmapSetBit]
      have joined : (i + j = k ∨ i + (j + 1) ≤ k ∧ k < i + (j + 1) + left) ↔
          i + j ≤ k ∧ k < i + j + (left + 1) := by
        omega
      rw [markLoop, here, rest, marked, Bitmap.testBit_setBit, Bool.or_right_comm, ← Bool.decide_or,
        Bool.or_comm]
      exact congrArg _ (decide_eq_decide.mpr joined)

/-- The page search is exact: the lowest run that serves the request has its bits
    set and its address returned; with no such run nothing changes. -/
theorem page_search_exact (arch : Arch) (s : PhysMem arch) (size alignment : Nat)
    (bitmap : s.physBitmap ≠ 0) (asked : 0 < size) (fits : size + 4095 < arch.wordSize)
    (power : alignment.isPowerOfTwo) :
    (∀ i, IsFirst (ServesAt s size alignment) i →
      (physAllocContiguous s size alignment).1 = 4096 * i ∧
      ∀ k, Bitmap.testBit (physAllocContiguous s size alignment).2.mem s.physBitmap k =
        (Bitmap.testBit s.mem s.physBitmap k || decide (i ≤ k ∧ k < i + (size + 4095) / 4096))) ∧
    ((¬ ∃ i, ServesAt s size alignment i) → physAllocContiguous s size alignment = (0, s)) := by
  have serves : ServesAt s size alignment = Grantable s size alignment := by
    funext i
    exact propext (servesAt_iff asked power)
  rw [serves]
  rcases physAllocContiguous_spec s alignment (by omega : size < arch.wordSize) with
    ⟨i, _, first, eq⟩ | ⟨none, eq⟩
  · refine ⟨?_, fun missing => absurd ⟨i, first.1⟩ missing⟩
    intro l lowest
    obtain rfl := lowest.unique first
    rw [eq]
    refine ⟨Nat.mul_comm l pmPageSize, fun k => ?_⟩
    exact testBit_markLoop s (j := 0) first.1.below k
  · refine ⟨?_, fun _ => eq⟩
    intro i lowest
    exact absurd lowest.1 (none.resolve_left bitmap i)

/-- Eight pages of which pages 1 and 3 are used. -/
def eightPages : PhysMem .x86_64 where
  mem := fun x => if x = 0x1000 then 0x0A else 0
  physBitmap := 0x1000
  physBitmapBytes := 1
  physMemSize := 0x8000
  physTotalPages := 8
  earlyAllocPhysPtr := 0
  earlyAllocPhysEnd := 0
  pagesFit := by decide

/-- Two pages aligned to two are found at page 4. -/
theorem page_search_exact_eight : (physAllocContiguous eightPages 8192 8192).1 = 0x4000 := by
  have serves : ServesAt eightPages 8192 8192 4 := by
    refine ⟨by decide, fun k above below => ?_⟩
    have pages : k = 4 ∨ k = 5 := by omega
    rcases pages with rfl | rfl <;> decide
  have lowest : ∀ i < 4, ¬ ServesAt eightPages 8192 8192 i := by
    intro i below serving
    have aligned := serving.aligned
    have even : i = 0 ∨ i = 2 := by omega
    rcases even with rfl | rfl
    · exact absurd (serving.free 1 (by decide) (by decide)).2 (by decide)
    · exact absurd (serving.free 3 (by decide) (by decide)).2 (by decide)
  exact ((page_search_exact .x86_64 eightPages 8192 8192 (by decide) (by decide) (by decide)
    ⟨13, rfl⟩).1 4 ⟨serves, lowest⟩).1

end AurorOS.Phys
