import AurorOS.Phys.AfterBoot

/-! # The two builds on the same memory map

`round_up_to_page` and `round_down_to_page` mask with the complement of an
`unsigned long`, so the x86 build drops the upper half of every address.  The
builds agree as long as no entry reaches into the last page below 4 GiB.
-/

namespace AurorOS.Phys

/-- The same map as the x86_64 build sees it. -/
def MultibootMap.wide (M : MultibootMap .x86) : MultibootMap .x86_64 :=
  { M with inSpace := M.inSpace.trans (by decide) }

/-- Both builds end with the same sizes, and the x86 build frees only pages wholly
    inside an available entry. -/
def BuildsAgree (M : MultibootMap .x86) : Prop :=
  ∃ s32 s64, M.init = .ok s32 ∧ M.wide.init = .ok s64 ∧
    s32.physMemSize = s64.physMemSize ∧ s32.physTotalPages = s64.physTotalPages ∧
    ∀ k, pageIsFree s32 k = true →
      ∃ e ∈ M.entries, e.type = 1 ∧ e.addr ≤ 4096 * k ∧ 4096 * k + 4096 ≤ e.addr + e.len

variable {arch : Arch} {M : MultibootMap .x86} {e : MmapEntry} {b x : Nat}

theorem wordSize_x86 : Arch.x86.wordSize = 2 ^ 32 := rfl

theorem wordSize_x86_64 : Arch.x86_64.wordSize = 2 ^ 64 := rfl

/-- A place is found whenever memory is larger than the bitmap and a page. -/
theorem place_of_size {M : MultibootMap arch} (large : M.sized.physMemSize > bitmapRoom M.sized) :
    ∃ b, M.place = some b := by
  rw [MultibootMap.place]
  cases M.entries.find? fun e => HasRoom M.sized e with
  | some e => exact ⟨_, rfl⟩
  | none => exact ⟨_, if_pos large⟩

/-- Memory sizes are words of the build, after the setup as before it. -/
theorem init_memSize_lt {M : MultibootMap arch} {s : PhysMem arch} (ended : M.init = .ok s) :
    s.physMemSize < arch.wordSize := by
  rcases init_cases ended with ⟨_, rfl⟩ | ⟨b, _, ready⟩
  · exact arch.wordSize_pos
  · rw [ready.memSize]
    exact roundUpToPage_lt arch _

section LowMap

variable (low : highestEnd M.entries ≤ 2 ^ 32 - 4096)
  (inRange : ∀ e ∈ M.entries, e.addr + e.len ≤ 2 ^ 64 - 4096)

include low

theorem sized_wide : M.wide.sized.physMemSize = M.sized.physMemSize ∧
    M.wide.sized.physTotalPages = M.sized.physTotalPages ∧
    M.wide.sized.physBitmapBytes = M.sized.physBitmapBytes := by
  have memSize : M.wide.sized.physMemSize = M.sized.physMemSize := by
    change roundUpToPage .x86_64 (highestEnd M.entries) = roundUpToPage .x86 (highestEnd M.entries)
    rw [roundUpToPage_of_le, roundUpToPage_of_le]
    · rw [wordSize_x86, pmPageSize]
      omega
    · rw [wordSize_x86_64, pmPageSize]
      omega
  have total : M.wide.sized.physTotalPages = M.sized.physTotalPages :=
    congrArg (· / pmPageSize) memSize
  exact ⟨memSize, total, by rw [M.wide.sized_bytes, M.sized_bytes, total]⟩

include inRange

/-- Every entry ends a page below 4 GiB. -/
theorem entry_low (member : e ∈ M.entries) : e.addr + e.len + pmPageSize ≤ Arch.x86.wordSize := by
  have range := inRange e member
  have below := le_highestEnd member
  rw [MmapEntry.stop, add64_eq (by omega)] at below
  rw [wordSize_x86, pmPageSize]
  omega

theorem region_wide (member : e ∈ M.entries) :
    e.regionStart .x86_64 = e.regionStart .x86 ∧ e.regionEnd .x86_64 = e.regionEnd .x86 := by
  have fits := entry_low low inRange member
  simp only [wordSize_x86, pmPageSize] at fits
  constructor
  · rw [MmapEntry.regionStart, MmapEntry.regionStart, roundUpToPage_of_le, roundUpToPage_of_le]
    · rw [wordSize_x86, pmPageSize]
      omega
    · rw [wordSize_x86_64, pmPageSize]
      omega
  · have stop : e.stop = e.addr + e.len := add64_eq (by omega)
    rw [MmapEntry.regionEnd, MmapEntry.regionEnd, stop, roundDownToPage_of_lt,
      roundDownToPage_of_lt]
    · rw [wordSize_x86]
      omega
    · rw [wordSize_x86_64]
      omega

/-- Both builds place the bitmap alike. -/
theorem place_wide : M.wide.place = M.place := by
  obtain ⟨memSize, _, bytes⟩ := sized_wide low
  have room : bitmapRoom M.wide.sized = bitmapRoom M.sized := by
    rw [M.wide.bitmapRoom_sized, M.bitmapRoom_sized, bytes]
  have same : ∀ e ∈ M.entries, HasRoom M.wide.sized e ↔ HasRoom M.sized e := by
    intro e member
    obtain ⟨start, stop⟩ := region_wide low inRange member
    rw [HasRoom, HasRoom, MmapEntry.regionBytes, MmapEntry.regionBytes, start, stop, room]
  have found : M.wide.entries.find? (fun e => HasRoom M.wide.sized e) =
      M.entries.find? fun e => HasRoom M.sized e :=
    List.find?_congr fun e member => by rw [decide_eq_decide]; exact same e member
  rw [MultibootMap.place, MultibootMap.place, found, memSize, bytes, room]
  cases chosen : M.entries.find? fun e => HasRoom M.sized e with
  | none => rfl
  | some e => exact congrArg some (region_wide low inRange (List.mem_of_find?_eq_some chosen)).1

/-- On a low map the builds agree, provided that the bitmap leaves the map intact. -/
theorem buildsAgree_of_low (untouched : ∀ b, M.place = some b → M.Untouched b) : BuildsAgree M := by
  have samePlace := place_wide low inRange
  obtain ⟨memSize, total, _⟩ := sized_wide low
  obtain ⟨s64, ended64⟩ := init_ends M.wide
  cases placed : M.place with
  | none =>
      rcases init_cases ended64 with ⟨_, rfl⟩ | ⟨b, placed64, _⟩
      · refine ⟨M.boot, _, ?_, ended64, rfl, rfl, ?_⟩
        · rw [M.init_eq, placed]
        · intro k free
          exact absurd (lt_of_pageIsFree free) (Nat.not_lt_zero k)
      · rw [samePlace, placed] at placed64
        cases placed64
  | some b =>
      obtain ⟨s32, ended32, ready32, _, free⟩ := init_untouched placed (untouched b placed)
      rcases init_cases ended64 with ⟨none64, _⟩ | ⟨b', _, ready64⟩
      · rw [samePlace, placed] at none64
        cases none64
      · refine ⟨s32, s64, ended32, ended64, ?_, ?_, ?_⟩
        · rw [ready32.memSize, ready64.memSize, memSize]
        · rw [ready32.total, ready64.total, total]
        · intro k isFree
          obtain ⟨_, ⟨e, member, frees⟩, _⟩ := (free k).mp isFree
          obtain ⟨available, above, below⟩ := (frees_iff (entry_low low inRange member) k).mp frees
          rw [pmPageSize] at above below
          exact ⟨e, member, available, by omega, by omega⟩

end LowMap

/-- Builds that agree on the size of memory read a low map. -/
theorem low_of_buildsAgree (inRange : ∀ e ∈ M.entries, e.addr + e.len ≤ 2 ^ 64 - 4096)
    (agree : BuildsAgree M) :
    highestEnd M.entries ≤ 2 ^ 32 - 4096 := by
  obtain ⟨s32, s64, ended32, ended64, same, _⟩ := agree
  by_contra high
  have word := init_memSize_lt ended32
  rw [wordSize_x86] at word
  have highest : highestEnd M.entries ≤ 2 ^ 64 - 4096 := by
    refine highestEnd_le fun e member => ?_
    have := inRange e member
    rw [MmapEntry.stop, add64_eq (by omega)]
    exact this
  have size : M.wide.sized.physMemSize = (highestEnd M.entries + (pmPageSize - 1)) / pmPageSize *
      pmPageSize := by
    refine roundUpToPage_of_le (x := highestEnd M.entries) ?_
    rw [wordSize_x86_64, pmPageSize]
    omega
  have bytes := M.wide.sized_bytes
  have total : M.wide.sized.physTotalPages = M.wide.sized.physMemSize / pmPageSize := rfl
  have room := M.wide.bitmapRoom_sized
  rw [pmPageSize] at size total room
  obtain ⟨b, placed⟩ := place_of_size (M := M.wide) (by omega)
  rcases init_cases ended64 with ⟨none64, _⟩ | ⟨b', _, ready64⟩
  · rw [none64] at placed
    cases placed
  · rw [same, ready64.memSize] at word
    omega

/-- The builds agree on a map that the bitmap leaves intact exactly when no entry
    reaches into the last page below 4 GiB; and they never agree on another. -/
theorem builds_agree_iff (M : MultibootMap .x86)
    (inRange : ∀ e ∈ M.entries, e.addr + e.len ≤ 2 ^ 64 - 4096) :
    (BuildsAgree M → highestEnd M.entries ≤ 2 ^ 32 - 4096) ∧
      ((∀ b, M.place = some b → M.Untouched b) →
        (BuildsAgree M ↔ highestEnd M.entries ≤ 2 ^ 32 - 4096)) := by
  refine ⟨low_of_buildsAgree inRange, fun untouched => ⟨low_of_buildsAgree inRange, ?_⟩⟩
  exact fun low => buildsAgree_of_low low inRange untouched

theorem builds_agree_one_region : BuildsAgree (regionMap .x86 0x1000 0x7000) := by
  have placed : (regionMap .x86 0x1000 0x7000).place = some 0x1000 := by decide
  have spec := builds_agree_iff (regionMap .x86 0x1000 0x7000) (by decide)
  refine (spec.2 fun b placed' => ?_).mpr (by decide)
  obtain rfl := Option.some.inj (placed.symm.trans placed')
  exact regionMap_untouched .x86 _ _ le_rfl

/-- A region that ends at 4 GiB: the x86 build finds no memory at all. -/
theorem builds_disagree :
    ¬ ∀ M : MultibootMap .x86, (∀ e ∈ M.entries, e.addr + e.len ≤ 2 ^ 64 - 4096) →
    BuildsAgree M := by
  intro all
  have low := low_of_buildsAgree (by decide) (all (regionMap .x86 0x100000 0xfff00000) (by decide))
  exact absurd low (by decide)

end AurorOS.Phys
