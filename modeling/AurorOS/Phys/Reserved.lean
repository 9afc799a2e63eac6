import AurorOS.Phys.Initialised
import AurorOS.Phys.Sessions

/-! # Memory in use at boot

While the kernel sets up physical memory, its own image and the memory map are in
use.  The setup knows of neither: it looks at the types of entries alone.
-/

namespace AurorOS.Phys

open Runs

/-- The bytes of page `i`. -/
def pageBytes (i : Nat) : Set Nat := Set.Ico (i * pmPageSize) (i * pmPageSize + pmPageSize)

/-- The bytes that a grant reserves. -/
def Grant.bytes (g : Grant) : Set Nat := Set.Ico g.addr (g.addr + pagesOf g.size * pmPageSize)

variable {arch : Arch} {M : MultibootMap arch} {initial phys : PhysMem arch} {s s' : Session arch}
  {g : Grant} {R : Set Nat} {b i x kernelEnd : Nat}

theorem mem_pageBytes : x ∈ pageBytes i ↔ x / pmPageSize = i := by
  rw [pageBytes, Set.mem_Ico]
  simp only [pmPageSize]
  omega

theorem Held.mem_bytes (held : Held initial phys g) : x ∈ g.bytes ↔ x / pmPageSize ∈ g.pages := by
  obtain ⟨first, addr⟩ := held.pageAddr
  rw [Grant.bytes, Set.mem_Ico, mem_pages, addr, Nat.mul_div_cancel_left _ (by decide)]
  simp only [pmPageSize]
  omega

/-- Held pages lie above page 0. -/
theorem Held.page_pos (held : Held initial phys g) (inside : i ∈ g.pages) : 0 < i := by
  obtain ⟨first, addr⟩ := held.pageAddr
  have nonzero := held.nonzero
  have above := (mem_pages.mp inside).1
  rw [addr, Nat.mul_div_cancel_left _ (by decide)] at above
  rcases Nat.eq_zero_or_pos first with rfl | pos
  · exact absurd addr nonzero
  · omega

theorem mem_bytes_grantAt (inside : x ∈ pageBytes i) :
    x ∈ (grantAt i pmPageSize pmPageSize).bytes := by
  rw [mem_pageBytes] at inside
  rw [Grant.bytes, Set.mem_Ico]
  simp only [grantAt, pagesOf, pmPageSize] at *
  omega

/-- A page that is free at first and is no page 0 can be held, and so can any byte
    of it. -/
theorem hold_page (bitmap : s.phys.physBitmap ≠ 0) (pos : 0 < i) (free : pageIsFree s.phys i = true)
    (inside : x ∈ pageBytes i) : ∃ trace s', Run Step s trace s' ∧ s'.early = s.early ∧
      (∀ entry ∈ trace, entry.2 = .alloc pmPageSize pmPageSize) ∧ ∃ g ∈ s'.live, x ∈ g.bytes := by
  obtain ⟨trace, s', run, held, early, allocs⟩ := obtain_page bitmap pos free
  exact ⟨trace, s', run, early, allocs, _, held, mem_bytes_grantAt inside⟩

/-- The ranges of all runs avoid a set exactly when the free pages do, page 0 apart. -/
theorem grants_avoid_iff (initial : PhysMem arch) (R : Set Nat) :
    (∀ s, Reachable Step (begin initial) s → ∀ g ∈ s.live, Disjoint g.bytes R) ↔
      initial.physBitmap = 0 ∨ ∀ i, 0 < i → pageIsFree initial i = true →
      Disjoint (pageBytes i) R := by
  constructor
  · intro avoid
    by_cases bitmap : initial.physBitmap = 0
    · exact .inl bitmap
    · refine .inr fun i pos free => Set.disjoint_left.mpr fun x inside inR => ?_
      obtain ⟨trace, s, run, _, _, g, live, covers⟩ :=
        hold_page (s := begin initial) bitmap pos free inside
      exact Set.disjoint_left.mp (avoid s run.reachable g live) covers inR
  · intro apart s reach g live
    have held := (reachable_inv reach).held g live
    refine Set.disjoint_left.mpr fun x covers inR => ?_
    have inside := held.mem_bytes.mp covers
    rcases apart with null | pages
    · exact held.bitmap null
    · have page := pages (x / pmPageSize) (held.page_pos inside) (held.wasFree _ inside)
      exact Set.disjoint_left.mp page (mem_pageBytes.mpr rfl) inR

/-- The kernel image, from the linker scripts' load address on, and the map. -/
def MultibootMap.inUse (M : MultibootMap arch) (kernelEnd : Nat) : Set Nat :=
  Set.Ico 0x100000 kernelEnd ∪ Set.Ico M.mmapAddr (M.mmapAddr + M.mmapLength)

/-- The bytes that a bitmap at `b` takes up. -/
def MultibootMap.bitmapBytes (M : MultibootMap arch) (b : Nat) : Set Nat :=
  Set.Ico b (b + M.sized.physBitmapBytes)

/-- `physmem_init_from_multiboot` comes to where it writes the bitmap: the address that it has
    chosen, and the state before it writes. -/
def MultibootMap.Chooses (M : MultibootMap arch) (b : Nat) (s : PhysMem arch) : Prop :=
  ∃ highest, walkMmap arch M.mmapAddr M.mmapLength (fun _ => M.boot.mem) sizeBody 0 = .ok highest ∧
    placeBitmap (setMemSize M.boot highest) M.mmapAddr M.mmapLength = .ok (some b, s)

/-- The bytes of the bitmap that is in use. -/
def PhysMem.ownBitmap (s : PhysMem arch) : Set Nat :=
  Set.Ico s.physBitmap (s.physBitmap + s.physBitmapBytes)

/-- Neither the bitmap that is written, whether or not the call returns, nor any range handed out
    later touches memory in use. -/
def KeepsInUse (M : MultibootMap arch) (kernelEnd : Nat) : Prop :=
  (∀ b s, M.Chooses b s → Disjoint (layBitmap s b).ownBitmap (M.inUse kernelEnd)) ∧
  ∀ phys, M.init = .ok phys → ∀ s, Reachable Step (begin phys) s →
    ∀ g ∈ s.live, Disjoint g.bytes (M.inUse kernelEnd)

/-- The bitmap is placed away from memory in use, and so is every page above page 0
    that an available entry frees and the bitmap does not take, unless the bitmap
    lies at 0 and the allocator is unusable. -/
def SparesInUse (M : MultibootMap arch) (kernelEnd : Nat) : Prop :=
  ∀ b, M.place = some b → Disjoint (M.bitmapBytes b) (M.inUse kernelEnd) ∧
    (b = 0 ∨ ∀ i, 0 < i → i < M.sized.physTotalPages → (∃ e ∈ M.entries, e.Frees arch i) →
      ¬ BitmapPage M b i → Disjoint (pageBytes i) (M.inUse kernelEnd))

theorem MultibootMap.chooses_iff : M.Chooses b initial ↔ M.place = some b ∧ initial = M.sized := by
  constructor
  · rintro ⟨highest, sizing, placing⟩
    obtain rfl := Except.ok.inj (M.highest_walk.symm.trans sizing)
    obtain ⟨placed, same⟩ := Prod.mk.inj (Except.ok.inj (M.placeBitmap_sized.symm.trans placing))
    exact ⟨placed, same.symm⟩
  · rintro ⟨placed, rfl⟩
    exact ⟨_, M.highest_walk, placed ▸ M.placeBitmap_sized⟩

theorem MultibootMap.ownBitmap_eq (placed : M.place = some b) :
    (layBitmap M.sized b).ownBitmap = M.bitmapBytes b := by
  have laid := layBitmap_laid placed
  rw [PhysMem.ownBitmap, laid.bitmap, laid.bytes, MultibootMap.bitmapBytes]

/-- The bitmap that is written is the one at the place that the entries give. -/
theorem MultibootMap.bitmap_apart_iff :
    (∀ b s, M.Chooses b s → Disjoint (layBitmap s b).ownBitmap (M.inUse kernelEnd)) ↔
      ∀ b, M.place = some b → Disjoint (M.bitmapBytes b) (M.inUse kernelEnd) := by
  constructor
  · intro apart b placed
    rw [← ownBitmap_eq placed]
    exact apart b _ (chooses_iff.mpr ⟨placed, rfl⟩)
  · intro apart b s chosen
    obtain ⟨placed, rfl⟩ := chooses_iff.mp chosen
    rw [ownBitmap_eq placed]
    exact apart b placed

theorem untouched_of_disjoint (apart : Disjoint (M.bitmapBytes b) (M.inUse kernelEnd)) :
    M.Untouched b :=
  fun _ above below inMap => Set.disjoint_left.mp apart ⟨above, below⟩ (.inr inMap)

/-- After a setup without a place nothing is ever handed out. -/
theorem no_grants_of_boot (reach : Reachable Step (begin M.boot) s) : s.live = [] := by
  refine List.eq_nil_iff_forall_not_mem.mpr fun g live => ?_
  exact ((reachable_inv reach).held g live).bitmap rfl

/-- What later ranges need, once the bitmap has been placed well. -/
theorem grants_spare_iff (placed : M.place = some b)
    (apart : Disjoint (M.bitmapBytes b) (M.inUse kernelEnd)) :
    (∀ phys, M.init = .ok phys → ∀ s, Reachable Step (begin phys) s →
      ∀ g ∈ s.live, Disjoint g.bytes (M.inUse kernelEnd)) ↔
    (b = 0 ∨ ∀ i, 0 < i → i < M.sized.physTotalPages → (∃ e ∈ M.entries, e.Frees arch i) →
      ¬ BitmapPage M b i → Disjoint (pageBytes i) (M.inUse kernelEnd)) := by
  obtain ⟨phys, ended, ready, _, free⟩ := init_untouched placed (untouched_of_disjoint apart)
  have pages := grants_avoid_iff phys (M.inUse kernelEnd)
  simp only [ready.bitmap, free] at pages
  constructor
  · intro avoid
    refine (pages.mp (avoid phys ended)).imp_right fun all i pos counted frees other => ?_
    exact all i pos ⟨counted, frees, other⟩
  · intro spares other ended'
    obtain rfl := Except.ok.inj (ended.symm.trans ended')
    refine pages.mpr (spares.imp_right fun all i pos page => ?_)
    exact all i pos page.1 page.2.1 page.2.2

/-- Memory in use at boot is kept exactly when placement and available entries
    happen to spare it. -/
theorem keeps_in_use_iff (arch : Arch) (M : MultibootMap arch) (kernelEnd : Nat) :
    KeepsInUse M kernelEnd ↔ SparesInUse M kernelEnd := by
  rw [KeepsInUse, MultibootMap.bitmap_apart_iff]
  constructor
  · rintro ⟨bitmap, grants⟩ b placed
    have apart := bitmap b placed
    exact ⟨apart, (grants_spare_iff placed apart).mp grants⟩
  · intro spares
    refine ⟨fun b placed => (spares b placed).1, ?_⟩
    cases placed : M.place with
    | none =>
        intro phys ended s reach g live
        rcases init_cases ended with ⟨_, rfl⟩ | ⟨b, placed', _⟩
        · rw [no_grants_of_boot reach] at live
          cases live
        · rw [placed] at placed'
          cases placed'
    | some b =>
        obtain ⟨apart, pages⟩ := spares b placed
        exact (grants_spare_iff placed apart).mpr pages

/-- With all memory from 1 MiB on available, the bitmap is laid over the kernel. -/
theorem not_keeps_in_use :
    ¬ ∀ (M : MultibootMap .x86_64) (kernelEnd : Nat), KeepsInUse M kernelEnd := by
  intro all
  have placed : (regionMap .x86_64 0x100000 0x100000).place = some 0x100000 := by decide
  have bytes : (regionMap .x86_64 0x100000 0x100000).sized.physBitmapBytes = 64 := by decide
  have apart :=
    MultibootMap.bitmap_apart_iff.mp (all (regionMap .x86_64 0x100000 0x100000) 0x101000).1 _ placed
  have inBitmap : 0x100000 ∈ (regionMap .x86_64 0x100000 0x100000).bitmapBytes 0x100000 := by
    rw [MultibootMap.bitmapBytes, bytes]
    exact ⟨le_rfl, by decide⟩
  have inKernel : 0x100000 ∈ (regionMap .x86_64 0x100000 0x100000).inUse 0x101000 :=
    .inl ⟨le_rfl, by decide⟩
  exact Set.disjoint_left.mp apart inBitmap inKernel

end AurorOS.Phys
