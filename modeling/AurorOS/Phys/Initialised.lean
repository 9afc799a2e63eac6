import AurorOS.Phys.Mmap
import AurorOS.Phys.Pages

/-! # What the boot-time setup establishes

Sizing and placement read the map before anything is written, so they are plain
functions of its entries.  The freeing pass reads the map while the bitmap is
being written; where the bitmap leaves the map untouched, the free pages at the
end are those of the available regions, less the bitmap's own.
-/

namespace AurorOS.Phys

open ByteMemory Scan

variable {arch : Arch} {s s' : PhysMem arch} {x i k b p stop : Nat}

theorem roundDownToPage_eq (arch : Arch) (x : Nat) :
    roundDownToPage arch x = x % arch.wordSize / pmPageSize * pmPageSize := by
  have narrow : 12 ≤ arch.wordBits := by cases arch <;> decide
  have page : pmPageSize = 2 ^ 12 := rfl
  have cut : x % arch.wordSize % 2 ^ 12 = x % 2 ^ 12 := Nat.mod_mod_of_dvd x arch.page_dvd_wordSize
  rw [roundDownToPage, Arch.clear, page, WordMask.clear_lowBits narrow, ← Arch.wordSize, ← cut]
  have split := Nat.div_add_mod (x % arch.wordSize) (2 ^ 12)
  omega

theorem roundUpToPage_eq (arch : Arch) (x : Nat) :
    roundUpToPage arch x = add64 x (pmPageSize - 1) % arch.wordSize / pmPageSize * pmPageSize :=
  roundDownToPage_eq arch (add64 x (pmPageSize - 1))

theorem dvd_roundDownToPage (arch : Arch) (x : Nat) : pmPageSize ∣ roundDownToPage arch x := by
  rw [roundDownToPage_eq]
  exact Nat.dvd_mul_left _ _

theorem dvd_roundUpToPage (arch : Arch) (x : Nat) : pmPageSize ∣ roundUpToPage arch x :=
  dvd_roundDownToPage arch (add64 x (pmPageSize - 1))

theorem roundDownToPage_lt (arch : Arch) (x : Nat) : roundDownToPage arch x < arch.wordSize :=
  clear_lt_wordSize arch x _

theorem roundUpToPage_lt (arch : Arch) (x : Nat) : roundUpToPage arch x < arch.wordSize :=
  clear_lt_wordSize arch _ _

/-- Below the last page of the address space, rounding up is the usual one. -/
theorem roundUpToPage_of_le (fits : x + pmPageSize ≤ arch.wordSize) :
    roundUpToPage arch x = (x + (pmPageSize - 1)) / pmPageSize * pmPageSize := by
  have top := arch.wordSize_le
  simp only [pmPageSize] at fits
  rw [roundUpToPage_eq, add64_eq (by simp only [pmPageSize]; omega),
    Nat.mod_eq_of_lt (by simp only [pmPageSize]; omega)]

theorem roundDownToPage_of_lt (fits : x < arch.wordSize) :
    roundDownToPage arch x = x / pmPageSize * pmPageSize := by
  rw [roundDownToPage_eq, Nat.mod_eq_of_lt fits]

/-- The highest end of an entry. -/
def highestEnd (es : List MmapEntry) : Nat :=
  es.foldl (fun highest e => if e.stop > highest then e.stop else highest) 0

/-- The entry is available and has room for the bitmap. -/
def HasRoom (s : PhysMem arch) (e : MmapEntry) : Prop :=
  e.type = 1 ∧ e.regionBytes arch ≥ bitmapRoom s

instance (s : PhysMem arch) : DecidablePred (HasRoom s) :=
  fun e => inferInstanceAs (Decidable (e.type = 1 ∧ e.regionBytes arch ≥ bitmapRoom s))

namespace MultibootMap

/-- The kernel before the call. -/
def boot (M : MultibootMap arch) : PhysMem arch := bootPhys arch M.mem

def init (M : MultibootMap arch) : Except Fault (PhysMem arch) :=
  physmemInitFromMultiboot M.boot M.mmapAddr M.mmapLength

/-- The state once memory has been sized. -/
def sized (M : MultibootMap arch) : PhysMem arch := setMemSize M.boot (highestEnd M.entries)

/-- Where the bitmap is placed, if a region is found. -/
def place (M : MultibootMap arch) : Option Nat :=
  match M.entries.find? fun e => HasRoom M.sized e with
  | some e => some (e.regionStart arch)
  | none =>
      if M.sized.physMemSize > bitmapRoom M.sized then
        some (sub64 (sub64 M.sized.physMemSize M.sized.physBitmapBytes) pmPageSize)
      else none

/-- The bitmap at `b` shares no byte with the map. -/
def Untouched (M : MultibootMap arch) (b : Nat) : Prop :=
  ∀ x, b ≤ x → x < b + M.sized.physBitmapBytes → ¬ (M.mmapAddr ≤ x ∧ x < M.mmapAddr + M.mmapLength)

variable (M : MultibootMap arch)

theorem highest_walk : walkMmap arch M.mmapAddr M.mmapLength (fun _ => M.boot.mem) sizeBody 0 =
    .ok (highestEnd M.entries) := by
  have fold :=
    scan_yield (fun e highest => if e.stop > highest then e.stop else highest) M.entries 0
  exact (M.walk_reads sizeBody 0).trans (congrArg Except.ok fold)

theorem placeBitmap_sized :
    placeBitmap M.sized M.mmapAddr M.mmapLength = .ok (M.place, M.sized) := by
  have walk : walkMmap arch M.mmapAddr M.mmapLength (fun _ => M.mem) (placeBody M.sized) none =
      .ok ((M.entries.find? fun e => HasRoom M.sized e).map (·.regionStart arch)) :=
    (M.walk_reads _ _).trans
      (congrArg Except.ok (scan_find (HasRoom M.sized) (·.regionStart arch) M.entries))
  have early : ¬ M.sized.earlyAllocPhysEnd > M.sized.earlyAllocPhysPtr := Nat.lt_irrefl 0
  rw [placeBitmap, if_neg early]
  simp only [ne_eq, not_true_eq_false, if_false]
  change (walkMmap arch M.mmapAddr M.mmapLength (fun _ => M.mem) (placeBody M.sized) none >>= _) = _
  rw [walk, place]
  cases M.entries.find? fun e => HasRoom M.sized e with
  | some e => rfl
  | none =>
      simp only [Option.map_none]
      by_cases behind : M.sized.physMemSize > bitmapRoom M.sized
      · rw [if_pos behind, if_pos behind]
        rfl
      · rw [if_neg behind, if_neg behind]
        rfl

/-- The two passes after the bitmap has been placed. -/
def finish (b : Nat) : Except Fault (PhysMem arch) := do
  let s ← walkMmap arch M.mmapAddr M.mmapLength PhysMem.mem (freeBody b) (layBitmap M.sized b)
  let window ← walkMmap arch M.mmapAddr M.mmapLength (fun _ => s.mem) (windowBody s b)
    (s.earlyAllocPhysPtr, s.earlyAllocPhysEnd)
  let window := windowBehind s b window
  return { s with earlyAllocPhysPtr := window.1, earlyAllocPhysEnd := window.2 }

theorem init_eq : M.init = match M.place with
    | none => .ok M.boot
    | some b => M.finish b := by
  have present : M.mmapAddr ≠ 0 := M.addrPos.ne'
  have passes : M.mmapLength ≠ 0 → M.init = match M.place with
      | none => .ok M.boot
      | some b => M.finish b := by
    intro nonempty
    have given : ¬ (M.mmapAddr = 0 ∨ M.mmapLength = 0) := not_or.mpr ⟨present, nonempty⟩
    rw [init, physmemInitFromMultiboot, if_neg given, highest_walk]
    change (placeBitmap M.sized M.mmapAddr M.mmapLength >>= _) = _
    rw [placeBitmap_sized]
    cases M.place with
    | none => rfl
    | some b => rfl
  by_cases empty : M.mmapLength = 0
  · have room := M.laid.room
    have noEntries : M.entries = [] := List.eq_nil_of_length_eq_zero (by omega)
    have nothing : M.place = none := by
      have zero : roundUpToPage arch 0 = 0 := by cases arch <;> decide
      have size : M.sized.physMemSize = 0 := by
        rw [sized, noEntries]
        exact zero
      rw [place, noEntries, List.find?_nil]
      exact if_neg (by omega)
    rw [nothing, init, physmemInitFromMultiboot, if_pos (Or.inr empty)]
    rfl
  · exact passes empty

theorem sized_bytes : M.sized.physBitmapBytes = (M.sized.physTotalPages + 7) / 8 := by
  have fit := M.sized.pagesFit
  simp only [pmPageSize] at fit
  change (M.sized.physTotalPages + 7) / 8 % arch.wordSize = _
  exact Nat.mod_eq_of_lt (by have := arch.le_wordSize; omega)

/-- Twice the size of the bitmap and some pages still fit the address space. -/
theorem sized_bytes_lt : 2 * M.sized.physBitmapBytes + 2 * pmPageSize < arch.wordSize := by
  have bytes := M.sized_bytes
  have fit := M.sized.pagesFit
  have top := arch.le_wordSize
  simp only [pmPageSize] at fit ⊢
  omega

theorem bitmapRoom_sized : bitmapRoom M.sized = M.sized.physBitmapBytes + pmPageSize := by
  have small := M.sized_bytes_lt
  exact Arch.add_eq (by omega)

theorem bitmapPages_sized : bitmapPages M.sized = pagesOf M.sized.physBitmapBytes := by
  have small := M.sized_bytes_lt
  simp only [pmPageSize] at small
  exact requestPages_eq (by simp only [pmPageSize]; omega)

/-- Where a place comes from: an available entry with room, or the end of memory. -/
theorem place_cases (placed : M.place = some b) :
    (∃ e ∈ M.entries, e.type = 1 ∧ b = e.regionStart arch ∧
      b + M.sized.physBitmapBytes + pmPageSize ≤ e.regionEnd arch ∧
      M.entries.find? (fun e => HasRoom M.sized e) = some e) ∨
    (b + M.sized.physBitmapBytes + pmPageSize = M.sized.physMemSize ∧ 0 < b ∧
      M.entries.find? (fun e => HasRoom M.sized e) = none) := by
  have room := M.bitmapRoom_sized
  rw [place] at placed
  cases found : M.entries.find? fun e => HasRoom M.sized e with
  | some e =>
      rw [found] at placed
      obtain rfl := Option.some.inj placed
      obtain ⟨available, bytes⟩ : HasRoom M.sized e := by simpa using List.find?_some found
      rw [room, MmapEntry.regionBytes] at bytes
      refine .inl ⟨e, List.mem_of_find?_eq_some found, available, rfl, ?_, rfl⟩
      split at bytes
      · omega
      · simp only [pmPageSize] at bytes
        omega
  | none =>
      rw [found] at placed
      simp only [room] at placed
      split at placed
      · rename_i behind
        have top := arch.wordSize_le
        have word : M.sized.physMemSize < arch.wordSize := roundUpToPage_lt arch _
        obtain rfl := Option.some.inj placed
        rw [sub64_eq (a := M.sized.physMemSize) (by omega) (by omega),
          sub64_eq (by omega) (by omega)]
        exact .inr ⟨by omega, by omega, rfl⟩
      · cases placed

/-- The bitmap's bytes, and its pages with one more, lie in the address space. -/
theorem place_bounds (placed : M.place = some b) :
    b + M.sized.physBitmapBytes + pmPageSize < arch.wordSize ∧
      b + pagesOf M.sized.physBitmapBytes * pmPageSize + pmPageSize ≤ arch.wordSize := by
  obtain ⟨count, whole⟩ := arch.page_dvd_wordSize
  rcases M.place_cases placed with ⟨e, _, _, rfl, room, _⟩ | ⟨size, _, _⟩
  · have word := roundDownToPage_lt arch e.stop
    obtain ⟨first, start⟩ := dvd_roundUpToPage arch e.addr
    obtain ⟨last, stop⟩ := dvd_roundDownToPage arch e.stop
    change e.regionStart arch = _ at start
    change e.regionEnd arch = _ at stop
    change e.regionEnd arch < _ at word
    simp only [pagesOf, pmPageSize] at *
    omega
  · have word : M.sized.physMemSize < arch.wordSize := roundUpToPage_lt arch _
    obtain ⟨pages, size'⟩ : pmPageSize ∣ M.sized.physMemSize := dvd_roundUpToPage arch _
    simp only [pagesOf, pmPageSize] at *
    omega

theorem bitmapEnd_eq (placed : M.place = some b)
    (bytes : s.physBitmapBytes = M.sized.physBitmapBytes) :
    bitmapEnd s b = b + pagesOf M.sized.physBitmapBytes * pmPageSize := by
  have fits := (M.place_bounds placed).2
  have top := arch.wordSize_le
  have pages := M.bitmapPages_sized
  rw [bitmapPages] at pages
  simp only [pmPageSize] at fits
  rw [bitmapEnd, bitmapPages, bytes, pages, Nat.mod_eq_of_lt (by simp only [pmPageSize]; omega)]
  exact add64_eq (by simp only [pmPageSize]; omega)

end MultibootMap

theorem fillLoop_eq (m : Mem) (base left i x : Nat) :
    fillLoop m base left i x = if base + i ≤ x ∧ x < base + i + left then 0xFF else m x := by
  induction left generalizing m i with
  | zero => simp only [fillLoop, if_neg (show ¬ (base + i ≤ x ∧ x < base + i + 0) by omega)]
  | succ left ih =>
      rw [fillLoop, ih]
      by_cases later : base + (i + 1) ≤ x ∧ x < base + (i + 1) + left
      · rw [if_pos later, if_pos (by omega)]
      · rw [if_neg later]
        by_cases here : x = base + i
        · rw [if_pos (by omega), here]
          exact store_inside m (base + i) 1 0xFF Nat.zero_lt_one
        · rw [if_neg (by omega)]
          exact store_outside m (base + i) 1 0xFF (by omega)

/-- The state while pages are being freed, with the bitmap at `b`. -/
structure Laid (M : MultibootMap arch) (b : Nat) (s : PhysMem arch) : Prop where
  bitmap : s.physBitmap = b
  bytes : s.physBitmapBytes = M.sized.physBitmapBytes
  memSize : s.physMemSize = M.sized.physMemSize
  total : s.physTotalPages = M.sized.physTotalPages
  earlyPtr : s.earlyAllocPhysPtr = 0
  earlyEnd : s.earlyAllocPhysEnd = 0
  frame : ∀ x, x < b ∨ b + M.sized.physBitmapBytes ≤ x → s.mem x = M.mem x

variable {M : MultibootMap arch}

theorem Laid.trans (laid : Laid M b s) (setup : SameSetup s s') : Laid M b s' where
  bitmap := setup.bitmap.trans laid.bitmap
  bytes := setup.bytes.trans laid.bytes
  memSize := setup.memSize.trans laid.memSize
  total := setup.total.trans laid.total
  earlyPtr := setup.earlyPtr.trans laid.earlyPtr
  earlyEnd := setup.earlyEnd.trans laid.earlyEnd
  frame := by
    intro x outside
    refine (setup.frame x ?_).trans (laid.frame x outside)
    rw [laid.bitmap, laid.total, ← M.sized_bytes]
    exact outside

theorem Laid.intact (laid : Laid M b s) (untouched : M.Untouched b) :
    AgreeOn M.mem s.mem M.mmapAddr (M.mmapAddr + M.mmapLength) := by
  intro x above below
  by_cases inBitmap : b ≤ x ∧ x < b + M.sized.physBitmapBytes
  · exact absurd ⟨above, below⟩ (untouched x inBitmap.1 inBitmap.2)
  · exact laid.frame x (by omega)

/-- `layBitmap` before the bitmap's own pages are marked. -/
def blankBitmap (s : PhysMem arch) (b : Nat) : PhysMem arch :=
  { s with physBitmap := b, mem := fillLoop s.mem b s.physBitmapBytes 0 }

theorem layBitmap_eq (placed : M.place = some b) : layBitmap M.sized b =
    markLoop (blankBitmap M.sized b) (b / pmPageSize) (bitmapPages M.sized) 0 := by
  have word := (M.place_bounds placed).1
  have base : b % arch.wordSize = b := Nat.mod_eq_of_lt (by omega)
  simp only [layBitmap, base, blankBitmap]
  rfl

theorem layBitmap_laid (placed : M.place = some b) : Laid M b (layBitmap M.sized b) := by
  have blank : Laid M b (blankBitmap M.sized b) := by
    refine ⟨rfl, rfl, rfl, rfl, rfl, rfl, ?_⟩
    intro x outside
    simp only [blankBitmap, fillLoop_eq]
    exact if_neg (by omega)
  rw [layBitmap_eq placed]
  exact blank.trans (markLoop_setup _ _ _ _)

/-- Every page starts out used. -/
theorem layBitmap_used (placed : M.place = some b) (k : Nat) :
    pageIsFree (layBitmap M.sized b) k = false := by
  have bounds := (M.place_bounds placed).1
  have top := arch.wordSize_le
  have small := M.sized_bytes_lt
  have pages := M.bitmapPages_sized
  have blank : pageIsFree (blankBitmap M.sized b) k = false := by
    by_cases counted : k < (blankBitmap M.sized b).physTotalPages
    · have bytes := M.sized_bytes
      have total : (blankBitmap M.sized b).physTotalPages = M.sized.physTotalPages := rfl
      rw [pageIsFree_of_counted counted, Bitmap.testBit_of_ones, Bool.not_true]
      simp only [blankBitmap, fillLoop_eq]
      exact if_pos (by omega)
    · exact Bool.eq_false_iff.mpr (mt lt_of_pageIsFree counted)
  have fits : b / pmPageSize + 0 + bitmapPages M.sized < 2 ^ 64 := by
    rw [pages]
    simp only [pagesOf, pmPageSize] at *
    omega
  rw [layBitmap_eq placed, markLoop_free _ fits, blank, Bool.false_and]

theorem freeRegion_setup (s : PhysMem arch) (b stop fuel p : Nat) :
    SameSetup s (freeRegion s b stop fuel p) := by
  induction fuel generalizing s p with
  | zero => exact .refl s
  | succ fuel ih =>
      rw [freeRegion]
      split
      · dsimp only
        split
        · exact .refl s
        · rename_i counted
          split
          · exact ih s _
          · rw [index_mod s (by omega)]
            exact (clearPage_setup s (by omega)).trans (ih _ _)
      · exact .refl s

/-- The pages of `[first, pages)` are freed, as far as they are counted and not the
    bitmap's own. -/
theorem freeRegion_free (s : PhysMem arch) {fuel first pages : Nat}
    (word : pages * pmPageSize < 2 ^ 64) (enough : pages ≤ first + fuel) (k : Nat) :
    pageIsFree (freeRegion s b (pages * pmPageSize) fuel (first * pmPageSize)) k = true ↔
      pageIsFree s k = true ∨ (k < s.physTotalPages ∧ first ≤ k ∧ k < pages ∧
        ¬ (b ≤ k * pmPageSize ∧ k * pmPageSize < bitmapEnd s b)) := by
  induction fuel generalizing s first with
  | zero =>
      rw [freeRegion]
      grind
  | succ fuel ih =>
      rw [freeRegion]
      by_cases inside : first < pages
      · have bytes : first * pmPageSize < pages * pmPageSize :=
          Nat.mul_lt_mul_of_pos_right inside (by decide)
        have next : add64 (first * pmPageSize) pmPageSize = (first + 1) * pmPageSize := by
          have fits : (first + 1) * pmPageSize ≤ pages * pmPageSize :=
            Nat.mul_le_mul_right pmPageSize inside
          rw [Nat.succ_mul] at fits ⊢
          exact add64_eq (fits.trans_lt word)
        have index : first * pmPageSize / pmPageSize = first := Nat.mul_div_cancel first (by decide)
        simp only [if_pos bytes, index, next]
        by_cases uncounted : first ≥ s.physTotalPages
        · rw [if_pos uncounted]
          grind
        rw [if_neg uncounted]
        by_cases own : first * pmPageSize ≥ b ∧ first * pmPageSize < bitmapEnd s b
        · rw [if_pos own, ih s (by omega)]
          grind
        · have counted : first < s.physTotalPages := by omega
          have setup := clearPage_setup s counted
          have sameEnd : bitmapEnd (bitmapClearBit s first) b = bitmapEnd s b := rfl
          rw [if_neg own, index_mod s counted, ih _ (by omega), clearPage_free s counted, sameEnd,
            setup.total]
          grind
      · have bytes : ¬ first * pmPageSize < pages * pmPageSize :=
          Nat.not_lt.mpr (Nat.mul_le_mul_right pmPageSize (by omega))
        rw [if_neg bytes]
        grind

/-- What a walk does with the pages of one entry. -/
def MmapEntry.Frees (arch : Arch) (e : MmapEntry) (k : Nat) : Prop :=
  e.type = 1 ∧ e.regionStart arch ≤ k * pmPageSize ∧ k * pmPageSize < e.regionEnd arch

instance (e : MmapEntry) (k : Nat) : Decidable (e.Frees arch k) :=
  inferInstanceAs (Decidable (e.type = 1 ∧ e.regionStart arch ≤ k * pmPageSize ∧
    k * pmPageSize < e.regionEnd arch))

/-- Page `k` is one of the bitmap's own. -/
def BitmapPage (M : MultibootMap arch) (b k : Nat) : Prop :=
  b ≤ k * pmPageSize ∧ k * pmPageSize < b + pagesOf M.sized.physBitmapBytes * pmPageSize

theorem freeBody_setup (b : Nat) (e : MmapEntry) (s : PhysMem arch) :
    SameSetup s (freeBody b e s).run := by
  simp only [freeBody, ForInStep.run]
  split
  · exact freeRegion_setup s b _ _ _
  · exact .refl s

theorem freeBody_free (placed : M.place = some b) (laid : Laid M b s) (e : MmapEntry) (k : Nat) :
    pageIsFree (freeBody b e s).run k = true ↔ pageIsFree s k = true ∨
      (k < M.sized.physTotalPages ∧ e.Frees arch k ∧ ¬ BitmapPage M b k) := by
  obtain ⟨first, start⟩ := dvd_roundUpToPage arch e.addr
  obtain ⟨pages, stop⟩ := dvd_roundDownToPage arch e.stop
  have word := roundDownToPage_lt arch e.stop
  have top := arch.wordSize_le
  change e.regionStart arch = _ at start
  change e.regionEnd arch = _ at stop
  change e.regionEnd arch < _ at word
  rw [Nat.mul_comm] at start stop
  simp only [freeBody, ForInStep.run, MmapEntry.Frees, BitmapPage]
  by_cases available : e.type = 1
  · rw [if_pos available, start, stop]
    rw [stop] at word
    rw [freeRegion_free s (word.trans_le top) (by simp only [pmPageSize]; omega), laid.total,
      M.bitmapEnd_eq placed laid.bytes, Nat.mul_le_mul_right_iff (by decide),
      Nat.mul_lt_mul_right (by decide)]
    grind
  · rw [if_neg available]
    grind

/-- The freeing pass over the entries of an intact map. -/
theorem freeScan_free (placed : M.place = some b) (laid : Laid M b s) (es : List MmapEntry)
    (k : Nat) :
    Laid M b (scan (freeBody b) es s) ∧ (pageIsFree (scan (freeBody b) es s) k = true ↔
      pageIsFree s k = true ∨
      (k < M.sized.physTotalPages ∧ (∃ e ∈ es, e.Frees arch k) ∧ ¬ BitmapPage M b k)) := by
  induction es generalizing s with
  | nil => exact ⟨laid, by simp [scan]⟩
  | cons e es ih =>
      obtain ⟨after, rest⟩ := ih (laid.trans (freeBody_setup b e s))
      refine ⟨after, ?_⟩
      change pageIsFree (scan (freeBody b) es (freeBody b e s).run) k = true ↔ _
      rw [rest, freeBody_free placed laid]
      simp only [List.exists_mem_cons_iff]
      grind

/-- The window is empty at 0 or lies in the address space. -/
structure WindowOk (arch : Arch) (window : Nat × Nat) : Prop where
  ptr : window.1 < arch.wordSize
  stop : window.2 < arch.wordSize

theorem windowBody_ok (b : Nat) (e : MmapEntry) {window : Nat × Nat} (ok : WindowOk arch window) :
    WindowOk arch (windowBody s b e window).run := by
  have start := roundUpToPage_lt arch e.addr
  have stop := roundDownToPage_lt arch e.stop
  have bump := roundUpToPage_lt arch (bitmapEnd s b)
  simp only [windowBody]
  split
  · split
    · split
      · exact ⟨bump, stop⟩
      · exact ok
    · split
      · exact ⟨start, stop⟩
      · exact ok
  · exact ok

/-- At the end, a window that starts at 0 is empty. -/
theorem windowBehind_ok (placed : M.place = some b) (laid : Laid M b s) {window : Nat × Nat}
    (ok : WindowOk arch window) : WindowOk arch (windowBehind s b window) ∧
      ((windowBehind s b window).1 = 0 → (windowBehind s b window).2 = 0) := by
  have size : M.sized.physMemSize < arch.wordSize := roundUpToPage_lt arch _
  have bump := roundUpToPage_lt arch (bitmapEnd s b)
  have zero := arch.wordSize_pos
  rw [windowBehind, laid.memSize]
  by_cases unset : window.1 = 0
  · simp only [if_pos unset]
    split
    · exact ⟨⟨zero, zero⟩, fun _ => rfl⟩
    · rename_i room
      refine ⟨⟨bump, size⟩, fun atZero => ?_⟩
      -- only an empty bitmap at 0 ends at 0, and then there is no memory
      have bound := (M.place_bounds placed).2
      have bytes := M.sized_bytes
      have total : M.sized.physTotalPages = M.sized.physMemSize / pmPageSize := rfl
      obtain ⟨pages, whole⟩ : pmPageSize ∣ M.sized.physMemSize := dvd_roundUpToPage arch _
      rw [M.bitmapEnd_eq placed laid.bytes, roundUpToPage_of_le bound] at atZero
      simp only [pagesOf, pmPageSize] at *
      omega
  · rw [if_neg unset]
    exact ⟨ok, fun atZero => absurd atZero unset⟩

/-- The window that the last pass picks from the map as it was. -/
def MultibootMap.window (M : MultibootMap arch) (b : Nat) : Nat × Nat :=
  windowBehind M.sized b (scan (windowBody M.sized b) M.entries (0, 0))

theorem Laid.window_eq (laid : Laid M b s) : windowBehind s b
    (scan (windowBody s b) M.entries (s.earlyAllocPhysPtr, s.earlyAllocPhysEnd)) = M.window b := by
  have stop : bitmapEnd s b = bitmapEnd M.sized b := by
    rw [bitmapEnd, bitmapEnd, bitmapPages, bitmapPages, laid.bytes]
  have body : windowBody s b = windowBody M.sized b := by
    funext e window
    rw [windowBody, windowBody, stop]
  rw [MultibootMap.window, body, laid.earlyPtr, laid.earlyEnd, windowBehind, windowBehind, stop,
    laid.memSize]

/-- The globals after a setup that placed the bitmap at `b`. -/
structure Ready (M : MultibootMap arch) (b : Nat) (s : PhysMem arch) : Prop where
  bitmap : s.physBitmap = b
  bytes : s.physBitmapBytes = M.sized.physBitmapBytes
  memSize : s.physMemSize = M.sized.physMemSize
  total : s.physTotalPages = M.sized.physTotalPages
  window : WindowOk arch (s.earlyAllocPhysPtr, s.earlyAllocPhysEnd)
  unset : s.earlyAllocPhysPtr = 0 → s.earlyAllocPhysEnd = 0

theorem Laid.ready (placed : M.place = some b) (laid : Laid M b s) {window : Nat × Nat}
    (ok : WindowOk arch window) :
    Ready M b { s with
      earlyAllocPhysPtr := (windowBehind s b window).1, earlyAllocPhysEnd :=
      (windowBehind s b window).2 } := by
  obtain ⟨inside, empty⟩ := windowBehind_ok placed laid ok
  exact ⟨laid.bitmap, laid.bytes, laid.memSize, laid.total, inside, empty⟩

theorem Laid.window_start (laid : Laid M b s) :
    WindowOk arch (s.earlyAllocPhysPtr, s.earlyAllocPhysEnd) := by
  have zero := arch.wordSize_pos
  rw [laid.earlyPtr, laid.earlyEnd]
  exact ⟨zero, zero⟩

/-- However the passes went: nothing is set up when no place is found, and
    otherwise the globals are in order. -/
theorem init_cases (ended : M.init = .ok s') :
    (M.place = none ∧ s' = M.boot) ∨ ∃ b, M.place = some b ∧ Ready M b s' := by
  rw [M.init_eq] at ended
  cases placed : M.place with
  | none =>
      rw [placed] at ended
      exact .inl ⟨rfl, (Except.ok.inj ended).symm⟩
  | some b =>
      rw [placed] at ended
      simp only [MultibootMap.finish] at ended
      refine .inr ⟨b, rfl, ?_⟩
      cases freed : walkMmap arch M.mmapAddr M.mmapLength PhysMem.mem (freeBody b)
        (layBitmap M.sized b) with
      | error fault =>
          rw [freed] at ended
          cases ended
      | ok s =>
          rw [freed] at ended
          have laid : Laid M b s := walkLoop_invariant (I := Laid M b)
            (fun e _ laid => laid.trans (freeBody_setup b e _)) (layBitmap_laid placed) freed
          cases chosen : walkMmap arch M.mmapAddr M.mmapLength (fun _ => s.mem) (windowBody s b)
            (s.earlyAllocPhysPtr, s.earlyAllocPhysEnd) with
          | error fault =>
              simp only [bind, Except.bind, chosen] at ended
              cases ended
          | ok window =>
              simp only [bind, Except.bind, chosen] at ended
              obtain rfl := Except.ok.inj ended
              have ok : WindowOk arch window := walkLoop_invariant (I := WindowOk arch)
                (fun e _ ok => windowBody_ok b e ok) laid.window_start chosen
              exact laid.ready placed ok

/-- A bitmap that leaves the map untouched: the setup ends, and a page is free
    exactly when an available region frees it and it is not the bitmap's own. -/
theorem init_untouched (placed : M.place = some b) (untouched : M.Untouched b) :
    ∃ s', M.init = .ok s' ∧ Ready M b s' ∧
    (s'.earlyAllocPhysPtr, s'.earlyAllocPhysEnd) = M.window b ∧ ∀ k, pageIsFree s' k = true ↔
        k < M.sized.physTotalPages ∧ (∃ e ∈ M.entries, e.Frees arch k) ∧ ¬ BitmapPage M b k := by
  have freed := M.walk_scan PhysMem.mem (Laid M b)
    (fun e s laid => laid.trans (freeBody_setup b e s))
    (fun s laid => laid.intact untouched) (layBitmap_laid placed)
  have pages := freeScan_free placed (layBitmap_laid placed) M.entries
  generalize scan (freeBody b) M.entries (layBitmap M.sized b) = s at freed pages
  have laid := (pages 0).1
  have chosen := M.walk_scan (fun _ => s.mem) (WindowOk arch)
    (fun e _ ok => windowBody_ok (s := s) b e ok)
    (fun _ _ => laid.intact untouched) laid.window_start
  have ok : WindowOk arch
      (scan (windowBody s b) M.entries (s.earlyAllocPhysPtr, s.earlyAllocPhysEnd)) :=
    scan_invariant (fun e _ _ ok => windowBody_ok b e ok) laid.window_start
  refine ⟨_, ?_, laid.ready placed ok, laid.window_eq, ?_⟩
  · rw [M.init_eq, placed]
    simp only [MultibootMap.finish, bind, Except.bind, freed, chosen]
    rfl
  · intro k
    have spec := (pages k).2
    rw [layBitmap_used placed k] at spec
    simp only [Bool.false_eq_true, false_or] at spec
    exact spec

theorem regionMap_untouched (arch : Arch) (addr len : Nat) (above : 0x1000 ≤ b) :
    (regionMap arch addr len).Untouched b := by
  rintro x high _ ⟨_, below⟩
  simp only [regionMap] at below
  omega

/-- On x86_64 the setup always ends. -/
theorem init_ends (M : MultibootMap .x86_64) : ∃ s', M.init = .ok s' := by
  rw [M.init_eq]
  cases M.place with
  | none => exact ⟨_, rfl⟩
  | some b =>
      obtain ⟨s, freed⟩ := M.walk_ends PhysMem.mem (freeBody b) (layBitmap M.sized b)
      obtain ⟨window, chosen⟩ := M.walk_ends (fun _ => s.mem) (windowBody s b)
        (s.earlyAllocPhysPtr, s.earlyAllocPhysEnd)
      simp only [MultibootMap.finish, bind, Except.bind, freed, chosen]
      exact ⟨_, rfl⟩

end AurorOS.Phys
