import AurorOS.Heap.Safety

/-! # Aligned allocations

`malloc_aligned` asks for enough room to move the address up to a multiple of the
alignment and to leave the block's own address in front of it.  The room is summed
up as a `size_t`: where the sum does not wrap everything fits, and where it wraps
nothing does.
-/

namespace AurorOS.Heap

open ByteMemory FirstFit Runs WordMask

/-- `size + alignment + sizeof(void*)`. -/
def alignedTotal (arch : Arch) (size alignment : Nat) : Nat :=
  arch.add (arch.add size alignment) arch.wordBytes

/-- `((uintptr_t)raw + sizeof(void*) + alignment - 1) & ~(alignment - 1)`. -/
def alignedAddr (arch : Arch) (raw alignment : Nat) : Nat :=
  arch.clear (arch.sub (arch.add (arch.add raw arch.wordBytes) alignment) 1) (arch.sub alignment 1)

def mallocAligned (L : Layout) (h : State) (size alignment : Nat) : Except Fault (Nat × State) :=
  match malloc L h (alignedTotal L.arch size alignment) with
  | .error fault => .error fault
  | .ok (raw, h) =>
      if raw = 0 then .ok (0, h)
      else
        let aligned := alignedAddr L.arch raw alignment
        let slot := L.arch.sub aligned L.arch.wordBytes
        .ok (aligned, { h with mem := store h.mem slot L.arch.wordBytes raw })

/-- A result is aligned, and it and the word in front of it lie in the block that
    the inner `malloc` returned. -/
def AlignedFits (L : Layout) (h : State) (size alignment : Nat) : Prop :=
  ∀ q h', mallocAligned L h size alignment = .ok (q, h') → q ≠ 0 →
    alignment ∣ q ∧ ∃ raw inner,
    malloc L h (alignedTotal L.arch size alignment) = .ok (raw, inner) ∧
      raw + L.arch.wordBytes ≤ q ∧
      q + size ≤ raw + get L.arch inner.mem (raw - sizeofMemoryBlock L.arch) .size

/-- The list's first free block of at least `n` bytes is at `b`. -/
def FirstFitAt (L : Layout) (h : State) (n b : Nat) : Prop :=
  ∃ front back, Walk L.arch h.mem L.memoryPool (front ++ b :: back) ∧
    (∀ c ∈ front, ¬ (get L.arch h.mem c .free ≠ 0 ∧ n ≤ get L.arch h.mem c .size)) ∧
    get L.arch h.mem b .free ≠ 0 ∧ n ≤ get L.arch h.mem b .size

/-- The sum is a `size_t`; or it wraps, but the call returns NULL or does not return:
    the wrapped sum is 0 or finds no block, or the address that is rounded up lies
    within one alignment of the end of the address space. -/
def AlignedRoom (L : Layout) (h : State) (size alignment : Nat) : Prop :=
  size + alignment + L.arch.wordBytes < L.arch.wordSize ∨ alignedTotal L.arch size alignment = 0 ∨
    ∀ b, FirstFitAt L h (alignedTotal L.arch size alignment) b →
      roundUp (b + sizeofMemoryBlock L.arch + L.arch.wordBytes) alignment = L.arch.wordSize

variable {L : Layout} {s : Session} {bs : List Block} {size alignment n raw b : Nat}

theorem alignedAddr_eq (arch : Arch) (small : alignment < arch.wordSize)
    (power : alignment.isPowerOfTwo) :
    alignedAddr arch raw alignment = roundUp (raw + arch.wordBytes) alignment % arch.wordSize := by
  obtain ⟨k, rfl⟩ := power
  have pos := Nat.two_pow_pos k
  have narrow : k < arch.wordBits := (Nat.pow_lt_pow_iff_right (by decide)).mp small
  have mask : arch.sub (2 ^ k) 1 = 2 ^ k - 1 := Arch.sub_eq small pos
  have sum : arch.sub (arch.add (arch.add raw arch.wordBytes) (2 ^ k)) 1 =
      (raw + arch.wordBytes + (2 ^ k - 1)) % arch.wordSize := by
    simp only [Arch.add, Arch.sub]
    generalize 2 ^ k = a at *
    cases arch <;> simp only [Arch.wordSize, Arch.wordBits, Arch.wordBytes] <;> omega
  rw [alignedAddr, mask, sum, Arch.clear, Arch.wordSize, clear_mod, clear_add_lowBits narrow.le]

/-- A power of two below the word is at most half of it. -/
theorem two_mul_le_wordSize {arch : Arch} (small : alignment < arch.wordSize)
    (power : alignment.isPowerOfTwo) :
    2 * alignment ≤ arch.wordSize := by
  obtain ⟨k, rfl⟩ := power
  have narrow : k < arch.wordBits := (Nat.pow_lt_pow_iff_right (by decide)).mp small
  rw [← pow_succ']
  exact Nat.pow_le_pow_right (by decide) narrow

/-- What the search loop tests is whether the block fits. -/
theorem seg_fits {arch : Arch} {m : Mem} {prev : Nat} {c : Block} (seg : Seg arch m prev bs 0)
    (member : c ∈ bs) :
    (get arch m c.addr .free ≠ 0 ∧ n ≤ get arch m c.addr .size) ↔ Fits n c = true := by
  induction bs generalizing prev with
  | nil => simp at member
  | cons d rest ih =>
      rcases List.mem_cons.mp member with rfl | behind
      · rw [seg.1.free_iff, seg.1.size]
        simp [Fits]
      · exact ih seg.2 behind

/-- First fit in memory is first fit of the block list. -/
theorem firstFitAt_iff (inv : Inv L s bs) : FirstFitAt L s.heap n b ↔
    ∃ p bs', alloc (sizeofMemoryBlock L.arch) n bs = some (p, bs') ∧
    p = b + sizeofMemoryBlock L.arch := by
  constructor
  · rintro ⟨front, back, walk, skipped, found⟩
    obtain ⟨xs, tail, rfl, rfl, rest⟩ := List.map_eq_append_iff.mp (inv.blocks_eq walk).symm
    obtain ⟨c, ys, rfl, rfl, rfl⟩ := List.map_eq_cons_iff.mp rest
    have fits : Fits n c = true := (seg_fits inv.seg (by simp)).mp found
    have unfit : ∀ d ∈ xs, Fits n d = false := by
      intro d member
      have test := mt (seg_fits (n := n) inv.seg (List.mem_append_left _ member)).mpr
      exact Bool.eq_false_iff.mpr fun fit => skipped d.addr (List.mem_map_of_mem member)
        ((seg_fits inv.seg (List.mem_append_left _ member)).mpr fit)
    exact ⟨_, _, alloc_of_split unfit fits, rfl⟩
  · rintro ⟨p, bs', found, addr⟩
    obtain ⟨front, c, back, rfl, skipped, fits, rfl, rfl⟩ := alloc_eq_some found
    obtain rfl : c.addr = b := Nat.add_right_cancel addr
    have walk := inv.walk
    rw [List.map_append, List.map_cons] at walk
    refine ⟨_, _, walk, ?_, (seg_fits inv.seg (by simp)).mpr fits⟩
    intro d member test
    obtain ⟨e, inFront, rfl⟩ := List.mem_map.mp member
    have fit := (seg_fits inv.seg (List.mem_append_left _ inFront)).mp test
    rw [skipped e inFront] at fit
    exact Bool.false_ne_true fit

/-- The block handed out is as long as was asked for. -/
theorem size_after_alloc {p : Nat} {bs' : List Block} {m' : Mem} (inv : Inv L s bs)
    (found : alloc (sizeofMemoryBlock L.arch) n bs = some (p, bs')) (seg' : Seg L.arch m' 0 bs' 0) :
    get L.arch m' (p - sizeofMemoryBlock L.arch) .size = n ∧
    L.memoryPool + sizeofMemoryBlock L.arch ≤ p ∧ p + n ≤ L.memoryPool + memoryPoolSize := by
  obtain ⟨b, member, _, room, rfl, perm⟩ := alloc_live found
  have inside := inv.laid.mem member
  have pos := L.poolPos
  have stays : (⟨b.addr, n, false⟩ : Block) ∈ bs' :=
    (List.mem_filter.mp (perm.mem_iff.mpr List.mem_cons_self)).1
  have header := (seg_member seg' (alloc_laid inv.laid found) stays).1
  simp only [Block.payload, Block.stop, Nat.add_sub_cancel] at *
  exact ⟨header, by omega, by omega⟩

/-- Where the inner `malloc` returns a block, what matters is where the aligned
    address lies in it. -/
theorem alignedFits_granted {p : Nat} {m' : Mem} (null : p ≠ 0)
    (value : malloc L s.heap (alignedTotal L.arch size alignment) =
    .ok (p, { s.heap with mem := m' }))
    (header : get L.arch m' (p - sizeofMemoryBlock L.arch) .size = n) :
    AlignedFits L s.heap size alignment ↔ (alignedAddr L.arch p alignment ≠ 0 →
      alignment ∣ alignedAddr L.arch p alignment ∧
      p + L.arch.wordBytes ≤ alignedAddr L.arch p alignment ∧
      alignedAddr L.arch p alignment + size ≤ p + n) := by
  constructor
  · intro fits nonzero
    obtain ⟨h', result⟩ : ∃ h', mallocAligned L s.heap size alignment =
      .ok (alignedAddr L.arch p alignment, h') := by
      simp only [mallocAligned, value, if_neg null]
      exact ⟨_, rfl⟩
    obtain ⟨dvd, raw, inner, same, slot, room⟩ := fits _ _ result nonzero
    obtain ⟨rfl, rfl⟩ := Prod.mk.inj (Except.ok.inj (value.symm.trans same))
    rw [header] at room
    exact ⟨dvd, slot, room⟩
  · intro fits q h' result nonzero
    simp only [mallocAligned, value, if_neg null] at result
    obtain ⟨rfl, -⟩ := Prod.mk.inj (Except.ok.inj result)
    obtain ⟨dvd, slot, room⟩ := fits nonzero
    refine ⟨dvd, p, _, value, slot, ?_⟩
    rw [header]
    exact room

/-- An aligned address in a block of the sum that was asked for. -/
theorem within_of_sum {p w W : Nat} (pos : 0 < alignment)
    (inWord : p + (size + alignment + w) ≤ W) :
    alignment ∣ roundUp (p + w) alignment % W ∧ p + w ≤ roundUp (p + w) alignment % W ∧
      roundUp (p + w) alignment % W + size ≤ p + (size + alignment + w) := by
  have bounds := roundUp_bounds (x := p + w) pos
  have unwrapped : roundUp (p + w) alignment % W = roundUp (p + w) alignment :=
    Nat.mod_eq_of_lt (by omega)
  rw [unwrapped]
  exact ⟨dvd_roundUp _ _, bounds.1, by omega⟩

/-- Where the sum wraps, what is left of it is too little for any address but `NULL`. -/
theorem within_wrapped_iff {p w W : Nat} (pos : 0 < alignment) (half : 2 * alignment ≤ W)
    (nonnull : p ≠ 0) (inWord : p < W) (narrow : 2 * w ≤ W) (wraps : W ≤ size + alignment + w) :
    (roundUp (p + w) alignment % W ≠ 0 → alignment ∣ roundUp (p + w) alignment % W ∧
      p + w ≤ roundUp (p + w) alignment % W ∧
      roundUp (p + w) alignment % W + size ≤ p + (size + alignment + w) % W) ↔
      roundUp (p + w) alignment = W := by
  have bounds := roundUp_bounds (x := p + w) pos
  have less : (size + alignment + w) % W ≤ size + alignment + w - W := by
    rw [Nat.mod_eq_sub_mod wraps]
    exact Nat.mod_le _ W
  constructor
  · intro within
    rcases Nat.lt_trichotomy (roundUp (p + w) alignment) W with below | same | past
    · rw [Nat.mod_eq_of_lt below] at within
      obtain ⟨_, slot, room⟩ := within (by omega)
      omega
    · exact same
    · rw [Nat.mod_eq_sub_mod past.le, Nat.mod_eq_of_lt (by omega)] at within
      obtain ⟨_, slot, _⟩ := within (by omega)
      omega
  · intro same nonzero
    rw [same, Nat.mod_self] at nonzero
    exact absurd rfl nonzero

/-- The block that `malloc` takes is the first that fits. -/
theorem firstFitAt_found {p : Nat} {bs' : List Block} (inv : Inv L s bs)
    (found : alloc (sizeofMemoryBlock L.arch) n bs = some (p, bs')) :
    FirstFitAt L s.heap n b ↔ p = b + sizeofMemoryBlock L.arch := by
  rw [firstFitAt_iff inv, found]
  constructor
  · rintro ⟨_, _, same, addr⟩
    obtain ⟨rfl, -⟩ := Prod.mk.inj (Option.some.inj same)
    exact addr
  · exact fun addr => ⟨p, bs', rfl, addr⟩

/-- Over a heap in order. -/
theorem Inv.alignedFits_iff (inv : Inv L s bs) (small : alignment < L.arch.wordSize)
    (power : alignment.isPowerOfTwo) :
    AlignedFits L s.heap size alignment ↔ AlignedRoom L s.heap size alignment := by
  have pos := Nat.pos_of_isPowerOfTwo power
  have total : alignedTotal L.arch size alignment = (size + alignment + L.arch.wordBytes) %
      L.arch.wordSize := by
    rw [alignedTotal, Arch.add, Arch.add, Nat.mod_add_mod]
  rcases inv.malloc_spec (alignedTotal L.arch size alignment) with
    ⟨zero, value⟩ | ⟨_, none, value⟩ | ⟨asked, p, bs', m', found, value, seg', _⟩
  · refine iff_of_true ?_ (.inr (.inl zero))
    intro q h' result nonzero
    simp only [mallocAligned, value] at result
    obtain ⟨rfl, -⟩ := Prod.mk.inj (Except.ok.inj result)
    exact absurd rfl nonzero
  · refine iff_of_true ?_ (.inr (.inr ?_))
    · intro q h' result
      simp only [mallocAligned, value] at result
      cases result
    · intro b first
      obtain ⟨p, bs', found, _⟩ := (firstFitAt_iff inv).mp first
      rw [none] at found
      cases found
  · obtain ⟨header, above, inside⟩ := size_after_alloc inv found seg'
    have poolPos := L.poolPos
    have null : p ≠ 0 := by omega
    have inWord : p + alignedTotal L.arch size alignment ≤ L.arch.wordSize :=
      Nat.le_trans inside L.poolFits
    rw [alignedFits_granted null value header, alignedAddr_eq L.arch small power, AlignedRoom]
    by_cases fits : size + alignment + L.arch.wordBytes < L.arch.wordSize
    · refine iff_of_true ?_ (.inl fits)
      rw [total, Nat.mod_eq_of_lt fits] at inWord ⊢
      exact fun _ => within_of_sum pos inWord
    · have half := two_mul_le_wordSize small power
      have narrow : 2 * L.arch.wordBytes ≤ L.arch.wordSize := by
        cases L.arch <;> decide
      have wrapped := within_wrapped_iff pos half null (by omega) narrow (Nat.le_of_not_lt fits)
      rw [or_iff_right fits, or_iff_right asked.ne']
      simp only [firstFitAt_found inv found]
      rw [total, wrapped]
      constructor
      · rintro atEnd b rfl
        exact atEnd
      · intro atEnd
        have payload : p = p - sizeofMemoryBlock L.arch + sizeofMemoryBlock L.arch := by omega
        rw [payload]
        exact atEnd _ payload

/-- In every reachable heap, for every size and every power of two, an aligned
    allocation lies in its block exactly when the sum asked for is a `size_t`, or the
    wrapped request returns no block or an address that wraps to NULL. -/
theorem aligned_fits_iff (L : Layout) (mem : Mem) (s : Session)
    (reach : Reachable (Step L) (start L mem) s) (size alignment : Nat)
    (small : alignment < L.arch.wordSize) (power : alignment.isPowerOfTwo) :
    AlignedFits L s.heap size alignment ↔ AlignedRoom L s.heap size alignment := by
  obtain ⟨bs, inv⟩ := reachable_inv reach
  exact inv.alignedFits_iff small power

theorem aligned_fits_page :
    AlignedFits exampleLayout (start exampleLayout fun _ => 0).heap 100 4096 :=
  (aligned_fits_iff exampleLayout (fun _ => 0) _ (.refl _) 100 4096 (by decide) ⟨12, rfl⟩).mpr
    (.inl (by decide))

/-- 2^64 - 16 bytes at a multiple of 16 come out as a request for 8 bytes. -/
theorem not_aligned_fits :
    ¬ ∀ (L : Layout) (mem : Mem) (s : Session), Reachable (Step L) (start L mem) s →
    ∀ size alignment, size < L.arch.wordSize → alignment < L.arch.wordSize →
    alignment.isPowerOfTwo → AlignedFits L s.heap size alignment := by
  intro always
  have inv := start_inv exampleLayout (fun _ => 0)
  have fits :=
    always exampleLayout (fun _ => 0) _ (.refl _) (2 ^ 64 - 16) 16 (by decide) (by decide) ⟨4, rfl⟩
  rcases (inv.alignedFits_iff (by decide) ⟨4, rfl⟩).mp fits with room | zero | wraps
  · exact absurd room (by decide)
  · exact absurd zero (by decide)
  · have first : FirstFitAt exampleLayout (start exampleLayout fun _ => 0).heap 8 0x200000 :=
      (firstFitAt_iff inv).mpr ⟨_, _, rfl, rfl⟩
    exact absurd (wraps _ first) (by decide)

end AurorOS.Heap
