import AurorOS.Machine

/-! # The kernel heap

`malloc` and `free` of the kernel keep a doubly linked list of blocks inside the
static array `memory_pool`.  Headers and payloads share the pool, so the model
works on its bytes: a block is an address, and its fields are loads and stores
at the offsets of `memory_block_t`.
-/

namespace AurorOS.Heap

open ByteMemory

def memoryPoolSize : Nat := 1024 * 1024

/-- The build and the place the linker gave `memory_pool`.  A static array is
    never at address zero and never wraps around the address space. -/
structure Layout where
  arch : Arch
  memoryPool : Nat
  poolPos : 0 < memoryPool
  poolFits : memoryPool + memoryPoolSize ≤ arch.wordSize

/-- The fields of `memory_block_t`. -/
inductive Field where
  | size
  | next
  | prev
  | free
  deriving DecidableEq, Repr

def Field.offset (arch : Arch) : Field → Nat
  | .size => 0
  | .next => arch.wordBytes
  | .prev => 2 * arch.wordBytes
  | .free => 3 * arch.wordBytes

/-- `free` is an `int`, the other fields are words. -/
def Field.width (arch : Arch) : Field → Nat
  | .free => 4
  | _ => arch.wordBytes

/-- `sizeof(memory_block_t)`: 16 bytes on x86, 32 with padding on x86_64. -/
def sizeofMemoryBlock (arch : Arch) : Nat := 4 * arch.wordBytes

/-- `block->field`. -/
def get (arch : Arch) (m : Mem) (block : Nat) (f : Field) : Nat :=
  load m (block + f.offset arch) (f.width arch)

/-- `block->field = v`. -/
def set (arch : Arch) (m : Mem) (block : Nat) (f : Field) (v : Nat) : Mem :=
  store m (block + f.offset arch) (f.width arch) v

/-- Memory and the flag `memory_already_initialized`. -/
structure State where
  mem : Mem
  memoryAlreadyInitialized : Bool

/-- The kernel image before `init_memory`: any bytes, flag down. -/
def boot (mem : Mem) : State := ⟨mem, false⟩

def initMemoryHeap (L : Layout) (h : State) : State :=
  let m := set L.arch h.mem L.memoryPool .size (memoryPoolSize - sizeofMemoryBlock L.arch)
  let m := set L.arch m L.memoryPool .next 0
  let m := set L.arch m L.memoryPool .prev 0
  let m := set L.arch m L.memoryPool .free 1
  ⟨m, true⟩

/-- `if (next) next->prev = p;` -/
def relink (arch : Arch) (m : Mem) (next p : Nat) : Mem :=
  if next ≠ 0 then set arch m next .prev p else m

/-- The body of the search loop's `if`: hand out `size` bytes of `current`. -/
def takeBlock (arch : Arch) (m : Mem) (current size : Nat) : Mem :=
  let hdr := sizeofMemoryBlock arch
  let m :=
    if get arch m current .size > arch.add size hdr then
      let newBlock := arch.add (arch.add current hdr) size
      let m := set arch m newBlock .size (arch.sub (arch.sub (get arch m current .size) size) hdr)
      let m := set arch m newBlock .next (get arch m current .next)
      let m := set arch m newBlock .prev current
      let m := set arch m newBlock .free 1
      let m := relink arch m (get arch m current .next) newBlock
      set arch m current .next newBlock
    else m
  let m := set arch m current .size size
  set arch m current .free 0

/-- The search loop of `malloc` from `current` on. -/
def mallocLoop (arch : Arch) (m : Mem) (size : Nat) : Nat → Nat → Except Fault (Nat × Mem)
  | 0, _ => .error .outOfFuel
  | fuel + 1, current =>
      if current = 0 then
        .error (.kernelpanic "OUT_OF_MEMORY" "There is no sufficient memory for allocation.")
      else if get arch m current .free ≠ 0 ∧ get arch m current .size ≥ size then
        .ok (arch.add current (sizeofMemoryBlock arch), takeBlock arch m current size)
      else
        mallocLoop arch m size fuel (get arch m current .next)

/-- A block takes at least a byte of the pool, so a walk longer than the pool
    never ends: the budget of `memoryPoolSize + 1` steps loses nothing. -/
def malloc (L : Layout) (h : State) (size : Nat) : Except Fault (Nat × State) :=
  if h.memoryAlreadyInitialized = false then .ok (0, h)
  else if size = 0 then .ok (0, h)
  else
    match mallocLoop L.arch h.mem size (memoryPoolSize + 1) L.memoryPool with
    | .ok (p, m) => .ok (p, { h with mem := m })
    | .error fault => .error fault

/-- `free`'s merge with the block behind. -/
def mergeNext (arch : Arch) (m : Mem) (block : Nat) : Mem :=
  let hdr := sizeofMemoryBlock arch
  if get arch m block .next ≠ 0 ∧ get arch m (get arch m block .next) .free ≠ 0 then
    let m := set arch m block .size
      (arch.add (get arch m block .size) (arch.add hdr (get arch m (get arch m block .next) .size)))
    let m := set arch m block .next (get arch m (get arch m block .next) .next)
    relink arch m (get arch m block .next) block
  else m

/-- `free`'s merge into the block in front. -/
def mergePrev (arch : Arch) (m : Mem) (block : Nat) : Mem :=
  let hdr := sizeofMemoryBlock arch
  if get arch m block .prev ≠ 0 ∧ get arch m (get arch m block .prev) .free ≠ 0 then
    let m := set arch m (get arch m block .prev) .size
      (arch.add (get arch m (get arch m block .prev) .size) (arch.add hdr (get arch m block .size)))
    let m := set arch m (get arch m block .prev) .next (get arch m block .next)
    relink arch m (get arch m block .next) (get arch m block .prev)
  else m

def free (L : Layout) (h : State) (ptr : Nat) : State :=
  if ptr = 0 ∨ h.memoryAlreadyInitialized = false then h
  else
    let block := L.arch.sub ptr (sizeofMemoryBlock L.arch)
    if get L.arch h.mem block .free ≠ 0 then h
    else
      let m := set L.arch h.mem block .free 1
      let m := mergeNext L.arch m block
      let m := mergePrev L.arch m block
      { h with mem := m }

section Fields

variable {arch : Arch} {m m' : Mem} {a c v : Nat} {f g : Field}

/-- One more than the largest value the field holds. -/
def Field.limit (arch : Arch) : Field → Nat
  | .free => 2 ^ 32
  | _ => arch.wordSize

theorem Field.pow_width (arch : Arch) (f : Field) : 256 ^ f.width arch = f.limit arch := by
  cases f <;> simp [Field.width, Field.limit, Arch.pow_wordBytes]

theorem Field.inside (arch : Arch) (f : Field) :
    f.offset arch + f.width arch ≤ sizeofMemoryBlock arch := by
  cases arch <;> cases f <;> decide

theorem Field.apart (arch : Arch) (distinct : f ≠ g) :
    f.offset arch + f.width arch ≤ g.offset arch ∨
    g.offset arch + g.width arch ≤ f.offset arch := by
  cases arch <;> cases f <;> cases g <;> simp_all [Field.offset, Field.width, Arch.wordBytes]

theorem sizeofMemoryBlock_pos (arch : Arch) : 0 < sizeofMemoryBlock arch := by
  cases arch <;> decide

theorem get_lt (arch : Arch) (m : Mem) (a : Nat) (f : Field) : get arch m a f < f.limit arch := by
  rw [← Field.pow_width]
  exact load_lt m _ _

theorem get_set_same (arch : Arch) (m : Mem) (a : Nat) (f : Field) (fits : v < f.limit arch) :
    get arch (set arch m a f v) a f = v := by
  rw [get, set, load_store_same, Field.pow_width, Nat.mod_eq_of_lt fits]

theorem get_set_ne (arch : Arch) (m : Mem) (a v : Nat) (distinct : f ≠ g) :
    get arch (set arch m a f v) a g = get arch m a g := by
  have := Field.apart arch distinct
  exact load_store_disjoint m _ _ _ (by omega)

theorem get_set_apart (arch : Arch) (m : Mem) (v : Nat) (f g : Field)
    (apart : c + sizeofMemoryBlock arch ≤ a ∨ a + sizeofMemoryBlock arch ≤ c) :
    get arch (set arch m a f v) c g = get arch m c g := by
  have := Field.inside arch f
  have := Field.inside arch g
  exact load_store_disjoint m _ _ _ (by omega)

theorem set_outside (arch : Arch) (m : Mem) (a v : Nat) (f : Field) {x : Nat}
    (outside : x < a ∨ a + sizeofMemoryBlock arch ≤ x) : set arch m a f v x = m x := by
  have := Field.inside arch f
  exact store_outside m _ _ _ (by omega)

theorem get_congr (f : Field) (same : AgreeOn m m' a (a + sizeofMemoryBlock arch)) :
    get arch m' a f = get arch m a f := by
  have := Field.inside arch f
  exact load_congr (same.mono (by omega) (by omega))

theorem set_agreeOn (arch : Arch) (m : Mem) (a v : Nat) (f : Field) {lo hi : Nat}
    (apart : hi ≤ a ∨ a + sizeofMemoryBlock arch ≤ lo) : AgreeOn m (set arch m a f v) lo hi := by
  intro x above below
  exact set_outside arch m a v f (by omega)

end Fields

end AurorOS.Heap
