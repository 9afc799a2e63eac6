import AurorOS.Lib.Bitmap
import AurorOS.Machine

/-! # Physical memory

The page allocator keeps one bit per page in a bitmap that itself lies in
physical memory, and a separate bump window for early allocations.  Physical
addresses are identity mapped (`phys_to_virt`).  `uint64_t` values are naturals
below 2^64; `size_t` values and masks of type `unsigned long` follow the build.
-/

namespace AurorOS.Phys

open ByteMemory

/-- `PM_PAGE_SIZE`, an `unsigned long`. -/
def pmPageSize : Nat := 4096

def roundUpToPage (arch : Arch) (x : Nat) : Nat :=
  arch.clear (add64 x (pmPageSize - 1)) (pmPageSize - 1)

def roundDownToPage (arch : Arch) (x : Nat) : Nat := arch.clear x (pmPageSize - 1)

/-- Memory and the globals of the allocators.  The pages counted by
    `phys_total_pages` lie in the address space of the build: the count is only
    ever set to `phys_mem_size / PM_PAGE_SIZE`, and `phys_mem_size` to a value of
    `round_up_to_page`. -/
structure PhysMem (arch : Arch) where
  mem : Mem
  physBitmap : Nat
  physBitmapBytes : Nat
  physMemSize : Nat
  physTotalPages : Nat
  earlyAllocPhysPtr : Nat
  earlyAllocPhysEnd : Nat
  pagesFit : physTotalPages * pmPageSize < arch.wordSize

variable {arch : Arch}

def bitmapSetBit (s : PhysMem arch) (bitIndex : Nat) : PhysMem arch :=
  { s with mem := Bitmap.setBit s.mem s.physBitmap bitIndex }

def bitmapClearBit (s : PhysMem arch) (bitIndex : Nat) : PhysMem arch :=
  { s with mem := Bitmap.clearBit s.mem s.physBitmap bitIndex }

def bitmapTestBit (s : PhysMem arch) (bitIndex : Nat) : Bool :=
  Bitmap.testBit s.mem s.physBitmap bitIndex

def markPageUsed (s : PhysMem arch) (pageIndex : Nat) : PhysMem arch :=
  if pageIndex ≥ s.physTotalPages then s else bitmapSetBit s (pageIndex % arch.wordSize)

def pageIsFree (s : PhysMem arch) (pageIndex : Nat) : Bool :=
  if pageIndex ≥ s.physTotalPages then false else !bitmapTestBit s (pageIndex % arch.wordSize)

def earlyPhysAllocPhys (s : PhysMem arch) (size alignment : Nat) : Nat × PhysMem arch :=
  if size = 0 then (0, s)
  else
    let alignment := if alignment = 0 then 1 else alignment
    let ptr := arch.clear (add64 s.earlyAllocPhysPtr (alignment - 1)) (alignment - 1)
    if add64 ptr size > s.earlyAllocPhysEnd then (0, s)
    else (ptr, { s with earlyAllocPhysPtr := add64 ptr size })

/-- `for (j = 0; j < pages; j++) mark_page_used(i + j);` with `pages - j` left to do. -/
def markLoop (s : PhysMem arch) (i : Nat) : Nat → Nat → PhysMem arch
  | 0, _ => s
  | left + 1, j => markLoop (markPageUsed s (add64 i j)) i left (j + 1)

/-- `while (count < pages && page_is_free(i + count)) count++;` with `pages - count`
    left to do. -/
def countLoop (s : PhysMem arch) (i : Nat) : Nat → Nat → Nat
  | 0, count => count
  | left + 1, count =>
      if pageIsFree s (add64 i count) then countLoop s i left (count + 1) else count

/-- The search of `phys_alloc_contiguous` from index `i` on.  Every round of the
    loop moves `i` up, so a budget that reaches past `total_pages` is never short:
    with none left, `i + pages <= total_pages` is false. -/
def searchLoop (s : PhysMem arch) (pages alignPages : Nat) : Nat → Nat → Option Nat
  | 0, _ => none
  | fuel + 1, i =>
      if add64 i pages ≤ s.physTotalPages then
        if i &&& (alignPages - 1) ≠ 0 then searchLoop s pages alignPages fuel (add64 i 1)
        else if pageIsFree s i = false then searchLoop s pages alignPages fuel (add64 i 1)
        else
          let count := countLoop s i (pages - 1) 1
          if count = pages then some i
          else searchLoop s pages alignPages fuel (add64 (add64 i count) 1)
      else none

/-- Pages that a request of `size` bytes asks for. -/
def requestPages (arch : Arch) (size : Nat) : Nat := arch.add size (pmPageSize - 1) / pmPageSize

/-- The alignment in pages, and none for an alignment that is not a power of two. -/
def requestAlign (alignment : Nat) : Option Nat :=
  let alignment := if alignment = 0 then pmPageSize else alignment
  if alignment &&& (alignment - 1) ≠ 0 then none
  else
    let alignPages := alignment / pmPageSize
    some (if alignPages = 0 then 1 else alignPages)

def physAllocContiguous (s : PhysMem arch) (size alignment : Nat) : Nat × PhysMem arch :=
  if s.physBitmap = 0 then (0, s)
  else if size = 0 then (0, s)
  else
    match requestAlign alignment with
    | none => (0, s)
    | some alignPages =>
        let pages := requestPages arch size
        match searchLoop s pages alignPages (s.physTotalPages + 1) 0 with
        | none => (0, s)
        | some i => (i * pmPageSize % 2 ^ 64, markLoop s i pages 0)

/-- `for (i = 0; i < pages; i++) ...` of `phys_free_contiguous`, `pages - i` left to do. -/
def freeLoop (s : PhysMem arch) (firstPage : Nat) : Nat → Nat → PhysMem arch
  | 0, _ => s
  | left + 1, i =>
      let idx := add64 firstPage i
      freeLoop (if idx < s.physTotalPages then bitmapClearBit s (idx % arch.wordSize) else s)
        firstPage left (i + 1)

def physFreeContiguous (s : PhysMem arch) (physAddr size : Nat) : PhysMem arch :=
  if physAddr = 0 ∨ size = 0 then s
  else freeLoop s (physAddr / pmPageSize) (requestPages arch size) 0

end AurorOS.Phys
