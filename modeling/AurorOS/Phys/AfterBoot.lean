import AurorOS.Phys.Initialised

/-! # The page allocator after boot

Which pages the setup leaves free, in terms of the entries' own addresses, and
when the allocator can hand them out.
-/

namespace AurorOS.Phys

open PageRuns

variable {arch : Arch} {M : MultibootMap arch} {s s' : PhysMem arch} {e : MmapEntry}
  {es : List MmapEntry} {b i k bound : Nat}

theorem foldl_stop_le {start : Nat} (starts : start ≤ bound) (all : ∀ e ∈ es, e.stop ≤ bound) :
    es.foldl (fun highest e => if e.stop > highest then e.stop else highest) start ≤ bound := by
  induction es generalizing start with
  | nil => exact starts
  | cons e es ih =>
      refine ih ?_ fun other member => all other (by simp [member])
      have here := all e (by simp)
      dsimp only
      split
      · exact here
      · exact starts

theorem highestEnd_le (all : ∀ e ∈ es, e.stop ≤ bound) : highestEnd es ≤ bound :=
  foldl_stop_le (Nat.zero_le bound) all

theorem le_foldl_stop (es : List MmapEntry) (start : Nat) :
    start ≤ es.foldl (fun highest e => if e.stop > highest then e.stop else highest) start ∧
      ∀ e ∈ es, e.stop ≤
        es.foldl (fun highest e => if e.stop > highest then e.stop else highest) start := by
  induction es generalizing start with
  | nil => simp
  | cons e es ih =>
      obtain ⟨above, rest⟩ := ih (if e.stop > start then e.stop else start)
      simp only [List.foldl_cons]
      have both : start ≤ (if e.stop > start then e.stop else start) ∧
          e.stop ≤ (if e.stop > start then e.stop else start) := by
        split <;> omega
      refine ⟨both.1.trans above, ?_⟩
      intro other member
      rcases List.mem_cons.mp member with rfl | later
      · exact both.2.trans above
      · exact rest other later

theorem le_highestEnd (member : e ∈ es) : e.stop ≤ highestEnd es := (le_foldl_stop es 0).2 e member

/-- A region that ends a page below the top of the address space frees the pages
    that lie wholly inside it. -/
theorem frees_iff (fits : e.addr + e.len + pmPageSize ≤ arch.wordSize) (k : Nat) :
    e.Frees arch k ↔ e.type = 1 ∧ e.addr ≤ k * pmPageSize ∧
    k * pmPageSize + pmPageSize ≤ e.addr + e.len := by
  have top := arch.wordSize_le
  have stop : e.stop = e.addr + e.len := by
    simp only [pmPageSize] at fits
    exact add64_eq (by omega)
  have start : e.regionStart arch = (e.addr + (pmPageSize - 1)) / pmPageSize * pmPageSize :=
    roundUpToPage_of_le (by omega)
  have last : e.regionEnd arch = (e.addr + e.len) / pmPageSize * pmPageSize := by
    rw [MmapEntry.regionEnd, stop]
    simp only [pmPageSize] at fits
    exact roundDownToPage_of_lt (by omega)
  rw [MmapEntry.Frees, start, last]
  simp only [pmPageSize]
  omega

/-- The bitmap's pages, counted from a page boundary. -/
theorem bitmapPage_iff (aligned : pmPageSize ∣ b) (k : Nat) : BitmapPage M b k ↔
    b / pmPageSize ≤ k ∧ k < b / pmPageSize + (M.sized.physBitmapBytes + 4095) / 4096 := by
  obtain ⟨first, rfl⟩ := aligned
  rw [Nat.mul_div_cancel_left first (by decide)]
  simp only [BitmapPage, pagesOf, pmPageSize]
  omega

/-- The free pages after boot on x86_64: those wholly inside an available entry,
    less the bitmap's own; and no entry ends above `phys_mem_size`. -/
theorem free_pages_exact (M : MultibootMap .x86_64) (b : Nat)
    (inRange : ∀ e ∈ M.entries, e.addr + e.len ≤ 2 ^ 64 - 4096) (placed : M.place = some b)
    (scanned : ∃ e ∈ M.entries, HasRoom M.sized e) (untouched : M.Untouched b) :
    ∃ s', M.init = .ok s' ∧ s'.physBitmap = b ∧
      (∀ i < s'.physTotalPages, pageIsFree s' i = true ↔
        (∃ e ∈ M.entries, e.type = 1 ∧ e.addr ≤ 4096 * i ∧ 4096 * i + 4096 ≤ e.addr + e.len) ∧
          ¬ (b / 4096 ≤ i ∧ i < b / 4096 + (s'.physBitmapBytes + 4095) / 4096)) ∧
      ∀ e ∈ M.entries, e.addr + e.len ≤ s'.physMemSize := by
  obtain ⟨s', ended, ready, _, free⟩ := init_untouched placed untouched
  have aligned : pmPageSize ∣ b := by
    rcases M.place_cases placed with ⟨e, _, _, rfl, _, _⟩ | ⟨_, _, none⟩
    · exact dvd_roundUpToPage _ e.addr
    · obtain ⟨e, member, room⟩ := scanned
      exact absurd room (by simpa using List.find?_eq_none.mp none e member)
  have fits : ∀ e ∈ M.entries, e.addr + e.len + pmPageSize ≤ Arch.x86_64.wordSize := by
    intro e member
    have := inRange e member
    simp only [Arch.wordSize, Arch.wordBits, pmPageSize]
    omega
  refine ⟨s', ended, ready.bitmap, ?_, ?_⟩
  · intro i counted
    have frees : (∃ e ∈ M.entries, e.Frees .x86_64 i) ↔
        ∃ e ∈ M.entries, e.type = 1 ∧ e.addr ≤ 4096 * i ∧ 4096 * i + 4096 ≤ e.addr + e.len := by
      refine exists_congr fun e => and_congr_right fun member => ?_
      rw [frees_iff (fits e member), Nat.mul_comm i, pmPageSize]
    rw [free, bitmapPage_iff aligned, frees, ready.bytes, ← ready.total]
    exact and_iff_right counted
  · intro e member
    have range := inRange e member
    have stop : e.stop = e.addr + e.len := add64_eq (by omega)
    have below := le_highestEnd member
    have highest : highestEnd M.entries ≤ 2 ^ 64 - 4096 := by
      refine highestEnd_le fun other inMap => ?_
      have := inRange other inMap
      rw [MmapEntry.stop, add64_eq (by omega)]
      exact this
    have size : M.sized.physMemSize = (highestEnd M.entries + (pmPageSize - 1)) / pmPageSize *
        pmPageSize := by
      refine roundUpToPage_of_le ?_
      simp only [Arch.wordSize, Arch.wordBits, pmPageSize]
      omega
    rw [ready.memSize, size]
    simp only [pmPageSize]
    omega

theorem free_pages_exact_one_region : ∃ s', (regionMap .x86_64 0x1000 0x7000).init = .ok s' ∧
    s'.physBitmap = 0x1000 ∧ ∀ e ∈ (regionMap .x86_64 0x1000 0x7000).entries,
    e.addr + e.len ≤ s'.physMemSize := by
  have placed : (regionMap .x86_64 0x1000 0x7000).place = some 0x1000 := by decide
  have untouched := regionMap_untouched .x86_64 0x1000 0x7000 le_rfl
  obtain ⟨s', ended, bitmap, _, sizes⟩ := free_pages_exact (regionMap .x86_64 0x1000 0x7000) 0x1000
    (by decide)
    placed (by decide) untouched
  exact ⟨s', ended, bitmap, sizes⟩

/-- A free run of `pages` pages at an address that is a multiple of `alignment`. -/
def AlignedRun (s : PhysMem arch) (size alignment i : Nat) : Prop :=
  alignment ∣ i * pmPageSize ∧ i + pagesOf size ≤ s.physTotalPages ∧
    IsRun (pageIsFree s) i (pagesOf size)

/-- Every request for which there is an aligned free run reserves one. -/
def Usable (s : PhysMem arch) : Prop :=
  ∀ size alignment, 0 < size → size < arch.wordSize → alignment < arch.wordSize →
    alignment.isPowerOfTwo →
    (∃ i, AlignedRun s size alignment i) →
    ∃ i, AlignedRun s size alignment i ∧ (physAllocContiguous s size alignment).1 = i * pmPageSize ∧
      ∀ k, pageIsFree (physAllocContiguous s size alignment).2 k = true ↔
        pageIsFree s k = true ∧ ¬ (i ≤ k ∧ k < i + pagesOf size)

/-- The first available entry with room for the bitmap, if there is one, does not
    start at page 0. -/
def PlacedAboveZero (M : MultibootMap arch) : Prop :=
  ∀ e, M.entries.find? (fun e => HasRoom M.sized e) = some e → e.regionStart arch ≠ 0

theorem grantable_iff {size alignment : Nat} (asked : 0 < size) (power : alignment.isPowerOfTwo) :
    Grantable s size alignment i ↔ AlignedRun s size alignment i := by
  have nonzero : alignment ≠ 0 := (Nat.pos_of_isPowerOfTwo power).ne'
  have effective : effectiveAlignment alignment = alignment := if_neg nonzero
  constructor
  · exact fun grant => ⟨effective ▸ grant.aligned, grant.below, grant.run⟩
  · rintro ⟨aligned, below, run⟩
    exact ⟨asked, effective.symm ▸ power, effective.symm ▸ aligned, below, run⟩

/-- A null bitmap makes the allocator refuse everything. -/
theorem usable_iff (s : PhysMem arch) :
    Usable s ↔ s.physBitmap ≠ 0 ∨ ∀ k, pageIsFree s k = false := by
  constructor
  · intro usable
    by_contra neither
    obtain ⟨null, some⟩ := not_or.mp neither
    obtain ⟨k, free⟩ := not_forall.mp some
    have word := arch.le_wordSize
    have run : AlignedRun s 1 1 k := by
      refine ⟨Nat.one_dvd _, lt_of_pageIsFree (by simpa using free), ?_⟩
      intro j below
      obtain rfl : j = 0 := Nat.lt_one_iff.mp below
      simpa using free
    obtain ⟨i, grant, _, after⟩ :=
      usable 1 1 Nat.one_pos (by omega) (by omega) Nat.isPowerOfTwo_one ⟨k, run⟩
    have unchanged : (physAllocContiguous s 1 1).2 = s := by
      rw [physAllocContiguous, if_pos (not_not.mp null)]
    have start := grant.2.2.nonempty_start (pagesOf_pos Nat.one_pos)
    have marked := (after i).mp (unchanged.symm ▸ start)
    exact marked.2 ⟨le_rfl, Nat.lt_add_of_pos_right (pagesOf_pos Nat.one_pos)⟩
  · rintro ready size alignment asked word _ power ⟨k, run⟩
    have start := run.2.2.nonempty_start (pagesOf_pos asked)
    rcases physAllocContiguous_spec s alignment word with ⟨i, _, first, eq⟩ | ⟨failed, _⟩
    · rw [eq]
      exact ⟨i, (grantable_iff asked power).mp first.1, rfl, markLoop_grant first.1⟩
    · rcases failed with null | noRun
      · have noneFree := ready.resolve_left (not_not.mpr null)
        rw [noneFree k] at start
        exact absurd start Bool.false_ne_true
      · exact absurd ((grantable_iff asked power).mpr run) (noRun k)

/-- The bitmap lies at 0 exactly when the region found for it starts there. -/
theorem placedAboveZero_iff (placed : M.place = some b) : PlacedAboveZero M ↔ b ≠ 0 := by
  rcases M.place_cases placed with ⟨e, _, _, rfl, _, found⟩ | ⟨_, pos, none⟩
  · constructor
    · exact fun above => above e found
    · intro above other same
      obtain rfl := Option.some.inj (found.symm.trans same)
      exact above
  · refine iff_of_true ?_ pos.ne'
    intro e found
    rw [none] at found
    cases found

/-- With the bitmap at 0 some page is freed by the region it was placed in, unless
    the size of memory came out as 0. -/
theorem free_page_of_zero {M : MultibootMap .x86_64} (placed : M.place = some 0)
    (free : ∀ k, pageIsFree s' k = true ↔
      k < M.sized.physTotalPages ∧ (∃ e ∈ M.entries, e.Frees .x86_64 k) ∧ ¬ BitmapPage M 0 k)
    (size : M.sized.physMemSize ≠ 0) : ∃ k, pageIsFree s' k = true := by
  rcases M.place_cases placed with ⟨e, member, available, start, room, _⟩ | ⟨_, pos, _⟩
  · have word : Arch.x86_64.wordSize = 2 ^ 64 := rfl
    have stop_lt : e.stop < 2 ^ 64 := add64_lt _ _
    have stop : e.regionEnd .x86_64 = e.stop / pmPageSize * pmPageSize :=
      roundDownToPage_of_lt (by omega)
    have below := le_highestEnd member
    have total : M.sized.physTotalPages = M.sized.physMemSize / pmPageSize := rfl
    have rounded : M.sized.physMemSize =
        add64 (highestEnd M.entries) (pmPageSize - 1) % 2 ^ 64 / pmPageSize * pmPageSize :=
          roundUpToPage_eq _ _
    have highest : highestEnd M.entries < 2 ^ 64 := by
      have bound : highestEnd M.entries ≤ 2 ^ 64 - 1 :=
        highestEnd_le fun e _ => Nat.le_sub_one_of_lt (add64_lt e.addr e.len)
      omega
    refine ⟨pagesOf M.sized.physBitmapBytes, (free _).mpr ⟨?_, ⟨e, member, available, ?_, ?_⟩, ?_⟩⟩
    · simp only [add64, pagesOf, pmPageSize] at *
      omega
    · omega
    · simp only [pagesOf, pmPageSize] at *
      omega
    · rintro ⟨_, inside⟩
      omega
  · omega

/-- Where a place for the bitmap is found, the allocator is usable afterwards
    exactly when that place is not address 0, or else no page is free at all. -/
theorem usable_after_boot_iff (M : MultibootMap .x86_64) (b : Nat) (placed : M.place = some b) :
    ∃ s', M.init = .ok s' ∧ (Usable s' ↔ PlacedAboveZero M ∨ ∀ k, pageIsFree s' k = false) ∧
      (M.Untouched b → (Usable s' ↔ PlacedAboveZero M ∨ M.sized.physMemSize = 0)) := by
  obtain ⟨s', ended⟩ := init_ends M
  have ready : Ready M b s' := by
    rcases init_cases ended with ⟨none, _⟩ | ⟨b', placed', ready⟩
    · rw [none] at placed
      cases placed
    · obtain rfl := Option.some.inj (placed'.symm.trans placed)
      exact ready
  have general : Usable s' ↔ PlacedAboveZero M ∨ ∀ k, pageIsFree s' k = false := by
    rw [usable_iff, ready.bitmap, placedAboveZero_iff placed]
  refine ⟨s', ended, general, ?_⟩
  intro untouched
  rw [general]
  by_cases zero : b = 0
  · subst zero
    refine or_congr_right ⟨?_, ?_⟩
    · intro noneFree
      by_contra size
      obtain ⟨s, same, _, _, free⟩ := init_untouched placed untouched
      obtain rfl := Except.ok.inj (same.symm.trans ended)
      obtain ⟨k, isFree⟩ := free_page_of_zero placed free size
      rw [noneFree k] at isFree
      exact Bool.false_ne_true isFree
    · intro size k
      have total : s'.physTotalPages = 0 := by
        rw [ready.total, show M.sized.physTotalPages = M.sized.physMemSize / pmPageSize from rfl,
          size, Nat.zero_div]
      refine Bool.eq_false_iff.mpr fun free => ?_
      have := lt_of_pageIsFree free
      omega
  · have above := (placedAboveZero_iff placed).mpr zero
    exact iff_of_true (.inl above) (.inl above)

theorem usable_after_boot_one_region :
    ∃ s', (regionMap .x86_64 0x1000 0x7000).init = .ok s' ∧ Usable s' := by
  have placed : (regionMap .x86_64 0x1000 0x7000).place = some 0x1000 := by decide
  obtain ⟨s', ended, usable, _⟩ :=
    usable_after_boot_iff (regionMap .x86_64 0x1000 0x7000) 0x1000 placed
  exact ⟨s', ended, usable.mpr (.inl ((placedAboveZero_iff placed).mpr (by decide)))⟩

/-- An available region at 0, as every PC has: the bitmap goes to address 0, and
    the allocator takes that for no bitmap. -/
theorem not_usable_after_boot : ¬ ∀ (M : MultibootMap .x86_64) (b : Nat), M.place = some b →
    ∃ s', M.init = .ok s' ∧ Usable s' := by
  intro always
  have placed : (regionMap .x86_64 0 0x10000).place = some 0 := by decide
  have untouched : (regionMap .x86_64 0 0x10000).Untouched 0 := by
    rintro x _ below ⟨above, _⟩
    have bytes : (regionMap .x86_64 0 0x10000).sized.physBitmapBytes = 2 := by decide
    simp only [regionMap] at above
    omega
  obtain ⟨s, ended, ready, _, free⟩ := init_untouched placed untouched
  obtain ⟨s', ended', usable⟩ := always _ 0 placed
  obtain rfl := Except.ok.inj (ended.symm.trans ended')
  obtain ⟨k, isFree⟩ := free_page_of_zero placed free (by decide)
  rcases (usable_iff s).mp usable with above | noneFree
  · exact above ready.bitmap
  · rw [noneFree k] at isFree
    exact Bool.false_ne_true isFree

end AurorOS.Phys
