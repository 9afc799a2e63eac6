import AurorOS.Phys.Visits

/-! # The bitmap's own storage

Marking and skipping go by the pages that start at or behind the bitmap's address.
These are all pages of the bitmap if it starts on a page; behind the last region it
need not, and then nothing keeps the page it starts in from being freed.
-/

namespace AurorOS.Phys

/-- Every page with a byte of the bitmap is marked used. -/
def ProtectsBitmap {arch : Arch} (s : PhysMem arch) : Prop :=
  ∀ k < s.physTotalPages,
    (∃ x, s.physBitmap ≤ x ∧ x < s.physBitmap + s.physBitmapBytes ∧ x / pmPageSize = k) →
    pageIsFree s k = false

namespace MultibootMap

variable {arch : Arch}

/-- An available entry has room for the bitmap, or the bitmap fills whole pages. -/
def StartsOnPage (M : MultibootMap arch) : Prop :=
  (∃ e ∈ M.entries, HasRoom M.sized e) ∨ pmPageSize ∣ M.sized.physBitmapBytes

/-- The page of `phys_mem_size - phys_bitmap_bytes - PM_PAGE_SIZE`. -/
def lastResortPage (M : MultibootMap arch) : Nat :=
  (M.sized.physMemSize - M.sized.physBitmapBytes - pmPageSize) / pmPageSize

end MultibootMap

variable {arch : Arch} {M : MultibootMap arch} {s' : PhysMem arch} {b : Nat}

theorem startsOnPage_iff (placed : M.place = some b) : M.StartsOnPage ↔ pmPageSize ∣ b := by
  obtain ⟨pages, whole⟩ : pmPageSize ∣ M.sized.physMemSize := dvd_roundUpToPage arch _
  rcases M.place_cases placed with ⟨e, member, _, rfl, _, found⟩ | ⟨size, _, none⟩
  · have room : HasRoom M.sized e := by simpa using List.find?_some found
    exact iff_of_true (.inl ⟨e, member, room⟩) (dvd_roundUpToPage arch e.addr)
  · have noRoom : ¬ ∃ e ∈ M.entries, HasRoom M.sized e := by simpa using List.find?_eq_none.mp none
    rw [MultibootMap.StartsOnPage, or_iff_right noRoom]
    simp only [pmPageSize] at *
    omega

/-- A bitmap that does not start on a page was placed behind the last region. -/
theorem lastResortPage_eq (placed : M.place = some b) (unaligned : ¬ pmPageSize ∣ b) :
    M.lastResortPage = b / pmPageSize ∧ b / pmPageSize < M.sized.physTotalPages ∧
    0 < M.sized.physBitmapBytes := by
  obtain ⟨pages, whole⟩ : pmPageSize ∣ M.sized.physMemSize := dvd_roundUpToPage arch _
  have total : M.sized.physTotalPages = M.sized.physMemSize / pmPageSize := rfl
  rcases M.place_cases placed with ⟨e, _, _, rfl, _, _⟩ | ⟨size, _, _⟩
  · exact absurd (dvd_roundUpToPage arch e.addr) unaligned
  · have place : M.sized.physMemSize - M.sized.physBitmapBytes - pmPageSize = b := by omega
    refine ⟨congrArg (· / pmPageSize) place, ?_, ?_⟩
    · simp only [pmPageSize] at *
      omega
    · simp only [pmPageSize] at *
      omega

/-- A page with a byte of the bitmap is skipped by the freeing pass, unless the
    bitmap starts inside it. -/
theorem bitmapPage_of_byte {x : Nat} (above : b ≤ x) (below : x < b + M.sized.physBitmapBytes) :
    BitmapPage M b (x / pmPageSize) ∨ (¬ pmPageSize ∣ b ∧ x / pmPageSize = b / pmPageSize) := by
  simp only [BitmapPage, pagesOf, pmPageSize]
  omega

theorem protectsBitmap_iff (placed : M.place = some b) (ended : M.init = .ok s') :
    ProtectsBitmap s' ↔ M.StartsOnPage ∨ ∀ e ∈ M.met b, ¬ e.Frees arch M.lastResortPage := by
  obtain ⟨ready, free⟩ := init_free placed ended
  rw [startsOnPage_iff placed]
  constructor
  · intro keeps
    by_cases aligned : pmPageSize ∣ b
    · exact .inl aligned
    · obtain ⟨page, counted, bytes⟩ := lastResortPage_eq placed aligned
      have used : pageIsFree s' (b / pmPageSize) = false := by
        refine keeps _ (ready.total.symm ▸ counted) ⟨b, ?_, ?_, rfl⟩
        · exact ready.bitmap.le
        · rw [ready.bitmap, ready.bytes]
          omega
      refine .inr fun e member frees => ?_
      have noOwn : ¬ BitmapPage M b (b / pmPageSize) := by
        rintro ⟨start, _⟩
        simp only [pmPageSize] at *
        omega
      have freed := (free (b / pmPageSize)).mpr ⟨counted, ⟨e, member, page ▸ frees⟩, noOwn⟩
      rw [used] at freed
      exact Bool.false_ne_true freed
  · rintro spared k counted ⟨x, above, below, rfl⟩
    rw [ready.bitmap] at above below
    rw [ready.bytes] at below
    refine Bool.eq_false_iff.mpr fun isFree => ?_
    obtain ⟨_, ⟨e, member, frees⟩, noOwn⟩ := (free _).mp isFree
    rcases bitmapPage_of_byte above below with own | ⟨unaligned, first⟩
    · exact noOwn own
    · have none := spared.resolve_left unaligned
      rw [first, ← (lastResortPage_eq placed unaligned).1] at frees
      exact none e member frees

/-- The bitmap's storage is protected exactly when it starts on a page, or no
    available entry that the freeing pass meets covers the page it starts in.  A map
    that the bitmap does not overlap is met as it is. -/
theorem bitmap_protected_iff (M : MultibootMap .x86_64) (b : Nat) (placed : M.place = some b) :
    ∃ s', M.init = .ok s' ∧
      (ProtectsBitmap s' ↔ M.StartsOnPage ∨ ∀ e ∈ M.met b, ¬ e.Frees .x86_64 M.lastResortPage) ∧
      (M.Untouched b →
        (ProtectsBitmap s' ↔
        M.StartsOnPage ∨ ∀ e ∈ M.entries, ¬ e.Frees .x86_64 M.lastResortPage)) := by
  obtain ⟨s', ended⟩ := init_ends M
  have general := protectsBitmap_iff placed ended
  refine ⟨s', ended, general, fun untouched => ?_⟩
  rw [general, MultibootMap.met_untouched placed untouched]

theorem bitmap_protected_one_region :
    ∃ s', (regionMap .x86_64 0x1000 0x7000).init = .ok s' ∧ ProtectsBitmap s' := by
  have placed : (regionMap .x86_64 0x1000 0x7000).place = some 0x1000 := by decide
  obtain ⟨s', ended, spec, _⟩ :=
    bitmap_protected_iff (regionMap .x86_64 0x1000 0x7000) 0x1000 placed
  exact ⟨s', ended, spec.mpr (.inl ((startsOnPage_iff placed).mpr (by decide)))⟩

/-- One available page below 0x8000 bytes of memory: the bitmap's only byte goes to
    0x6fff, inside that page. -/
theorem not_bitmap_protected : ¬ ∀ (M : MultibootMap .x86_64) (b : Nat), M.place = some b →
    ∃ s', M.init = .ok s' ∧ ProtectsBitmap s' := by
  intro always
  have placed : (regionMap .x86_64 0x6000 0x1fff).place = some 0x6fff := by decide
  obtain ⟨s', ended, protects⟩ := always _ _ placed
  have untouched := regionMap_untouched .x86_64 0x6000 0x1fff (show 0x1000 ≤ 0x6fff by decide)
  rw [protectsBitmap_iff placed ended, startsOnPage_iff placed,
    MultibootMap.met_untouched placed untouched] at protects
  rcases protects with aligned | spared
  · exact absurd aligned (by decide)
  · exact spared _ List.mem_cons_self (by decide)

end AurorOS.Phys
