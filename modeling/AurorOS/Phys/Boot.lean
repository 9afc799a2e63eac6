import AurorOS.Phys.Model

/-! # Setting up physical memory from the boot loader's map

`physmem_init_from_multiboot` walks the memory map four times: to size memory, to
place the bitmap, to free the pages of available regions, and to choose the early
window.  The map lies in the memory it describes, so each walk reads it afresh,
and the walk that frees pages reads it while it writes the bitmap.
-/

namespace AurorOS.Phys

open ByteMemory

/-- `multiboot_mmap_entry_t`, a packed structure of 24 bytes. -/
structure MmapEntry where
  size : Nat
  addr : Nat
  len : Nat
  type : Nat
  deriving DecidableEq, Repr

def readEntry (m : Mem) (a : Nat) : MmapEntry :=
  ⟨load m a 4, load m (a + 4) 8, load m (a + 12) 8, load m (a + 20) 4⟩

variable {arch : Arch} {σ : Type}

/-- One walk: `while (cur < stop) { body; cur += e->size + sizeof(e->size); }`, where
    a body that is done breaks out.  The size is read once the body has run. -/
def walkLoop (arch : Arch) (stop : Nat) (mem : σ → Mem) (body : MmapEntry → σ → ForInStep σ) :
    Nat → Nat → σ → Except Fault σ
  | 0, _, _ => .error .outOfFuel
  | fuel + 1, cur, acc =>
      if cur < stop then
        match body (readEntry (mem acc) cur) acc with
        | .done acc => .ok acc
        | .yield acc =>
            walkLoop arch stop mem body fuel
              (arch.add cur (arch.add (readEntry (mem acc) cur).size 4)) acc
      else .ok acc

/-- A walk from the start of the map.  One that ends makes fewer rounds than there
    are addresses. -/
def walkMmap (arch : Arch) (mmapAddr mmapLength : Nat) (mem : σ → Mem)
    (body : MmapEntry → σ → ForInStep σ) (acc : σ) : Except Fault σ :=
  walkLoop arch (arch.add mmapAddr mmapLength) mem body arch.wordSize mmapAddr acc

/-- `e->addr + e->len`. -/
def MmapEntry.stop (e : MmapEntry) : Nat := add64 e.addr e.len

def MmapEntry.regionStart (arch : Arch) (e : MmapEntry) : Nat := roundUpToPage arch e.addr

def MmapEntry.regionEnd (arch : Arch) (e : MmapEntry) : Nat := roundDownToPage arch e.stop

def MmapEntry.regionBytes (arch : Arch) (e : MmapEntry) : Nat :=
  if e.regionEnd arch > e.regionStart arch then e.regionEnd arch - e.regionStart arch else 0

def sizeBody (e : MmapEntry) (highest : Nat) : ForInStep Nat :=
  .yield (if e.stop > highest then e.stop else highest)

theorem clear_lt_wordSize (arch : Arch) (x m : Nat) : arch.clear x m < arch.wordSize :=
  WordMask.clear_lt arch.wordBits x m

def setMemSize (s : PhysMem arch) (highest : Nat) : PhysMem arch :=
  { s with
    physMemSize := roundUpToPage arch highest
    physTotalPages := roundUpToPage arch highest / pmPageSize
    physBitmapBytes := (roundUpToPage arch highest / pmPageSize + 7) / 8 % arch.wordSize
    pagesFit := (Nat.div_mul_le_self _ _).trans_lt (clear_lt_wordSize arch _ _) }

/-- `phys_bitmap_bytes + PM_PAGE_SIZE`. -/
def bitmapRoom (s : PhysMem arch) : Nat := arch.add s.physBitmapBytes pmPageSize

def placeBody (s : PhysMem arch) (e : MmapEntry) (found : Option Nat) : ForInStep (Option Nat) :=
  if e.type = 1 ∧ e.regionBytes arch ≥ bitmapRoom s then .done (some (e.regionStart arch))
    else .yield found

/-- The three ways to find a region for the bitmap, in the order of the source. -/
def placeBitmap (s : PhysMem arch) (mmapAddr mmapLength : Nat) :
    Except Fault (Option Nat × PhysMem arch) := do
  let (candidate, s) :=
    if s.earlyAllocPhysEnd > s.earlyAllocPhysPtr then
      earlyPhysAllocPhys s s.physBitmapBytes pmPageSize
    else (0, s)
  if candidate ≠ 0 then return (some candidate, s)
  match ← walkMmap arch mmapAddr mmapLength (fun _ => s.mem) (placeBody s) none with
  | some start => return (some start, s)
  | none =>
      if s.physMemSize > bitmapRoom s then
        return (some (sub64 (sub64 s.physMemSize s.physBitmapBytes) pmPageSize), s)
      else return (none, s)

/-- `for (i = 0; i < phys_bitmap_bytes; i++) phys_bitmap[i] = 0xFF;` with `left`
    rounds left to do. -/
def fillLoop (m : Mem) (base : Nat) : Nat → Nat → Mem
  | 0, _ => m
  | left + 1, i => fillLoop (store m (base + i) 1 0xFF) base left (i + 1)

def bitmapPages (s : PhysMem arch) : Nat := requestPages arch s.physBitmapBytes

/-- `bitmap_phys + bitmap_pages * PM_PAGE_SIZE`. -/
def bitmapEnd (s : PhysMem arch) (bitmapPhys : Nat) : Nat :=
  add64 bitmapPhys (bitmapPages s * pmPageSize % 2 ^ 64)

/-- Everything starts out used; the bitmap's own pages are marked once more. -/
def layBitmap (s : PhysMem arch) (bitmapPhys : Nat) : PhysMem arch :=
  let base := bitmapPhys % arch.wordSize
  let s := { s with physBitmap := base, mem := fillLoop s.mem base s.physBitmapBytes 0 }
  markLoop s (bitmapPhys / pmPageSize) (bitmapPages s) 0

/-- `for (p = start; p < end; p += PM_PAGE_SIZE) ...`.  Each round moves `p` up, so a
    budget of `end - start` rounds is never short. -/
def freeRegion (s : PhysMem arch) (bitmapPhys stop : Nat) : Nat → Nat → PhysMem arch
  | 0, _ => s
  | fuel + 1, p =>
      if p < stop then
        let idx := p / pmPageSize
        if idx ≥ s.physTotalPages then s
        else if p ≥ bitmapPhys ∧ p < bitmapEnd s bitmapPhys then
          freeRegion s bitmapPhys stop fuel (add64 p pmPageSize)
        else freeRegion (bitmapClearBit s (idx % arch.wordSize)) bitmapPhys stop fuel
          (add64 p pmPageSize)
      else s

def freeBody (bitmapPhys : Nat) (e : MmapEntry) (s : PhysMem arch) : ForInStep (PhysMem arch) :=
  .yield <|
    if e.type = 1 then
      freeRegion s bitmapPhys (e.regionEnd arch) (e.regionEnd arch - e.regionStart arch)
        (e.regionStart arch)
    else s

def windowBody (s : PhysMem arch) (bitmapPhys : Nat) (e : MmapEntry) (window : Nat × Nat) :
    ForInStep (Nat × Nat) :=
  let start := e.regionStart arch
  let stop := e.regionEnd arch
  if e.type = 1 then
    if bitmapPhys ≥ start ∧ bitmapPhys < stop then
      let candidateBump := roundUpToPage arch (bitmapEnd s bitmapPhys)
      if add64 candidateBump pmPageSize ≤ stop then .done (candidateBump, stop) else .yield window
    else if start > bitmapPhys then .done (start, stop)
    else .yield window
  else .yield window

/-- The window when no entry offers one: what lies behind the bitmap. -/
def windowBehind (s : PhysMem arch) (bitmapPhys : Nat) (window : Nat × Nat) : Nat × Nat :=
  if window.1 = 0 then
    let ptr := roundUpToPage arch (bitmapEnd s bitmapPhys)
    if ptr ≥ s.physMemSize then (0, 0) else (ptr, s.physMemSize)
  else window

def physmemInitFromMultiboot (s : PhysMem arch) (mmapAddr mmapLength : Nat) :
    Except Fault (PhysMem arch) := do
  if mmapAddr = 0 ∨ mmapLength = 0 then return s
  let highest ← walkMmap arch mmapAddr mmapLength (fun _ => s.mem) sizeBody 0
  let (found, s) ← placeBitmap (setMemSize s highest) mmapAddr mmapLength
  match found with
  | none =>
      return { s with
        physBitmap := 0, physBitmapBytes := 0, physTotalPages := 0, physMemSize := 0
        pagesFit := (Nat.zero_mul _).trans_lt arch.wordSize_pos }
  | some bitmapPhys =>
      let s ← walkMmap arch mmapAddr mmapLength PhysMem.mem (freeBody bitmapPhys)
        (layBitmap s bitmapPhys)
      let window ← walkMmap arch mmapAddr mmapLength (fun _ => s.mem) (windowBody s bitmapPhys)
        (s.earlyAllocPhysPtr, s.earlyAllocPhysEnd)
      let window := windowBehind s bitmapPhys window
      return { s with earlyAllocPhysPtr := window.1, earlyAllocPhysEnd := window.2 }

/-- The allocators' globals before the kernel has set them up. -/
def bootPhys (arch : Arch) (mem : Mem) : PhysMem arch where
  mem := mem
  physBitmap := 0
  physBitmapBytes := 0
  physMemSize := 0
  physTotalPages := 0
  earlyAllocPhysPtr := 0
  earlyAllocPhysEnd := 0
  pagesFit := (Nat.zero_mul _).trans_lt arch.wordSize_pos

end AurorOS.Phys
