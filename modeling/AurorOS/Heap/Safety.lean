import AurorOS.Heap.Simulation
import AurorOS.Lib.Runs
import Mathlib.Order.CompletePartialOrder
import Mathlib.Order.Interval.Set.Disjoint

/-! # Heap safety over whole runs

A session is the heap together with the allocations its clients hold.  Clients
call `malloc` with any size, `free` with a pointer they hold, and write the bytes
of what they hold.  The invariant says that memory holds a coalesced block list
laid out in the pool whose live blocks are exactly the allocations held; the
theorem at the end reads off it what the list looks like in memory.
-/

namespace AurorOS.Heap

open ByteMemory FirstFit Runs

/-- A non-null result of `malloc` and the size that was asked for. -/
structure Allocation where
  ptr : Nat
  size : Nat
  deriving DecidableEq, Repr

structure Session where
  heap : State
  live : List Allocation

/-- What a client does; `malloc` is recorded with its result. -/
inductive Call where
  | malloc (size ptr : Nat)
  | free (ptr : Nat)
  | write (addr : Nat) (byte : UInt8)

/-- Sizes are of type `size_t`.  Only held pointers are freed and only held
    bytes are written; a `malloc` that panics has no successor. -/
inductive Step (L : Layout) : Session → Call → Session → Prop where
  | malloc {s n p h} : n < L.arch.wordSize → malloc L s.heap n = .ok (p, h) →
      Step L s (.malloc n p) ⟨h, if p = 0 then s.live else ⟨p, n⟩ :: s.live⟩
  | free {s a} : a ∈ s.live → Step L s (.free a.ptr) ⟨free L s.heap a.ptr, s.live.erase a⟩
  | write {s a x v} : a ∈ s.live → a.ptr ≤ x → x < a.ptr + a.size →
      Step L s (.write x v) ⟨{ s.heap with mem := store s.heap.mem x 1 v.toNat }, s.live⟩

/-- `init_memory_heap` on a booted kernel; nothing is allocated yet. -/
def start (L : Layout) (mem : Mem) : Session := ⟨initMemoryHeap L (boot mem), []⟩

/-- The allocation that a live block serves. -/
def allocationOf (arch : Arch) (b : Block) : Allocation :=
  ⟨b.payload (sizeofMemoryBlock arch), b.size⟩

structure Inv (L : Layout) (s : Session) (bs : List Block) : Prop where
  ready : s.heap.memoryAlreadyInitialized = true
  seg : Seg L.arch s.heap.mem 0 bs 0
  laid : Laid (sizeofMemoryBlock L.arch) L.memoryPool (L.memoryPool + memoryPoolSize) bs
  first : startAddr bs 0 = L.memoryPool
  separate : Coalesced bs
  held : s.live.Perm ((live bs).map (allocationOf L.arch))
  sized : ∀ a ∈ s.live, 0 < a.size

variable {L : Layout} {s s' : Session} {bs : List Block} {n x : Nat} {a : Allocation}

theorem sizeof_lt_pool (arch : Arch) : sizeofMemoryBlock arch < memoryPoolSize := by
  cases arch <;> decide

theorem start_inv (L : Layout) (mem : Mem) :
    Inv L (start L mem) [⟨L.memoryPool, memoryPoolSize - sizeofMemoryBlock L.arch, true⟩] where
  ready := rfl
  seg := by
    have poolFits := L.poolFits
    have room := sizeof_lt_pool L.arch
    have size_pos := sizeofMemoryBlock_pos L.arch
    exact ⟨writeHeader_is L.arch mem L.memoryPool true (by omega) L.arch.wordSize_pos
      L.arch.wordSize_pos, trivial⟩
  laid := by
    have room := sizeof_lt_pool L.arch
    exact ⟨le_rfl, by simp only [Laid, Block.stop]; omega⟩
  first := rfl
  separate := List.isChain_singleton _
  held := List.Perm.refl _
  sized := by simp [start]

/-- A byte of a block's payload belongs to no header of the list. -/
theorem payload_not_inHeader {arch : Arch} {lo hi : Nat} {b : Block}
    (laid : Laid (sizeofMemoryBlock arch) lo hi bs) (member : b ∈ bs)
    (above : b.addr + sizeofMemoryBlock arch ≤ x) (below : x < b.stop (sizeofMemoryBlock arch)) :
    ¬ InHeader arch bs x := by
  rintro ⟨c, inC, aboveC, belowC⟩
  obtain ⟨xs, ys, rfl⟩ := List.append_of_mem member
  obtain ⟨_, tail, across⟩ := List.pairwise_append.mp laid.pairwise
  rcases List.mem_append.mp inC with front | back
  · have := across c front b (by simp)
    simp only [Block.stop] at this below
    omega
  · rcases List.mem_cons.mp back with rfl | behind
    · omega
    · have := (List.pairwise_cons.mp tail).1 c behind
      omega

namespace Inv

variable (inv : Inv L s bs)

include inv

theorem block_of_live (member : a ∈ s.live) :
    ∃ b ∈ bs, b.free = false ∧ a = allocationOf L.arch b := by
  obtain ⟨b, inLive, rfl⟩ := List.mem_map.mp (inv.held.mem_iff.mp member)
  obtain ⟨inBlocks, flag⟩ := List.mem_filter.mp inLive
  exact ⟨b, inBlocks, by simpa using flag, rfl⟩

/-- `malloc` on a heap in order: nothing for zero bytes, a panic when no block
    fits, and otherwise a first-fit allocation. -/
theorem malloc_spec (n : Nat) :
    (n = 0 ∧ malloc L s.heap n = .ok (0, s.heap)) ∨
    (0 < n ∧ alloc (sizeofMemoryBlock L.arch) n bs = none ∧ malloc L s.heap n =
      .error (.kernelpanic "OUT_OF_MEMORY" "There is no sufficient memory for allocation.")) ∨
    (0 < n ∧ ∃ p bs' m', alloc (sizeofMemoryBlock L.arch) n bs = some (p, bs') ∧
      malloc L s.heap n = .ok (p, { s.heap with mem := m' }) ∧
      Seg L.arch m' 0 bs' 0 ∧ FrameOf L.arch s.heap.mem m' bs bs') := by
  rcases Nat.eq_zero_or_pos n with rfl | asked
  · exact .inl ⟨rfl, by simp [malloc, inv.ready]⟩
  · have enough : bs.length < memoryPoolSize + 1 := by
      have := inv.laid.length_le (sizeofMemoryBlock_pos L.arch)
      omega
    have loop := mallocLoop_refines inv.seg inv.laid L.poolPos L.poolFits asked enough
    rw [inv.first] at loop
    have notZero : n ≠ 0 := by omega
    cases found : alloc (sizeofMemoryBlock L.arch) n bs with
    | none =>
        simp only [found] at loop
        exact .inr (.inl ⟨asked, rfl, by simp [malloc, inv.ready, notZero, loop]⟩)
    | some result =>
        obtain ⟨p, bs'⟩ := result
        simp only [found] at loop
        obtain ⟨m', value, seg', frame⟩ := loop
        exact .inr (.inr ⟨asked, p, bs', m', rfl, by simp [malloc, inv.ready, notZero, value], seg',
          frame⟩)

/-- The state after a successful allocation. -/
theorem after_alloc {p : Nat} {bs' : List Block} {m' : Mem} (asked : 0 < n)
    (found : alloc (sizeofMemoryBlock L.arch) n bs = some (p, bs'))
    (seg' : Seg L.arch m' 0 bs' 0) :
    p ≠ 0 ∧ Inv L ⟨{ s.heap with mem := m' }, ⟨p, n⟩ :: s.live⟩ bs' := by
  obtain ⟨b, member, -, -, rfl, perm⟩ := alloc_live found
  have inside := inv.laid.mem member
  have pos := L.poolPos
  refine ⟨?_, ?_⟩
  · simp only [Block.payload]
    omega
  · exact
      { ready := inv.ready
        seg := seg'
        laid := alloc_laid inv.laid found
        first := (alloc_startAddr found).trans inv.first
        separate := alloc_coalesced inv.separate found
        held := by
          have mapped : ((live bs').map (allocationOf L.arch)).Perm
              (⟨b.payload (sizeofMemoryBlock L.arch), n⟩ :: (live bs).map (allocationOf L.arch)) :=
            perm.map (allocationOf L.arch)
          exact (inv.held.cons ⟨b.payload (sizeofMemoryBlock L.arch), n⟩).trans mapped.symm
        sized := by
          intro c member
          rcases List.mem_cons.mp member with rfl | old
          · exact asked
          · exact inv.sized c old }

/-- The allocations held after one of them is released. -/
theorem held_erase {b : Block} (member : b ∈ bs) :
    (s.live.erase (allocationOf L.arch b)).Perm
      ((live (release (sizeofMemoryBlock L.arch) b.addr bs)).map (allocationOf L.arch)) := by
  have size_pos := sizeofMemoryBlock_pos L.arch
  have sublist : ∀ c ∈ live bs, c ∈ bs := fun c inLive => (List.mem_filter.mp inLive).1
  have injective : ∀ c ∈ live bs, allocationOf L.arch c = allocationOf L.arch b ↔
      c.addr = b.addr := by
    intro c inLive
    constructor
    · intro same
      have := congrArg Allocation.ptr same
      simp only [allocationOf, Block.payload] at this
      omega
    · intro same
      rw [inv.laid.eq_of_addr size_pos (sublist c inLive) member same]
  have distinct : ((live bs).map (allocationOf L.arch)).Nodup := by
    have order : (live bs).Pairwise fun c d => c.stop (sizeofMemoryBlock L.arch) ≤ d.addr :=
      inv.laid.pairwise.sublist List.filter_sublist
    refine List.pairwise_map.mpr (order.imp ?_)
    intro c d below same
    have := congrArg Allocation.ptr same
    simp only [allocationOf, Block.payload, Block.stop] at this below
    omega
  refine (inv.held.erase _).trans (List.Perm.of_eq ?_)
  rw [distinct.erase_eq_filter, release_live, List.filter_map]
  congr 1
  apply List.filter_congr
  intro c inLive
  apply Bool.eq_iff_iff.mpr
  simp [injective c inLive]

/-- `free` of a held pointer raises a flag and rearranges links and sizes. -/
theorem free_links (member : a ∈ s.live) :
    ∃ b m', b ∈ bs ∧ b.free = false ∧ a = allocationOf L.arch b ∧
    free L s.heap a.ptr = { s.heap with mem := m' } ∧
      Relinked L.arch bs (set L.arch s.heap.mem b.addr .free 1) m' ∧
      Inv L ⟨{ s.heap with mem := m' }, s.live.erase a⟩
        (release (sizeofMemoryBlock L.arch) b.addr bs) := by
  obtain ⟨b, inBlocks, used, rfl⟩ := inv.block_of_live member
  obtain ⟨m', value, seg', links⟩ := free_refines inv.ready inv.seg inv.laid L.poolPos L.poolFits
    inv.separate inBlocks used (inv.sized _ member)
  refine ⟨b, m', inBlocks, used, rfl, value, links, ?_⟩
  exact
    { ready := inv.ready
      seg := seg'
      laid := release_laid inv.laid
      first := (release_startAddr _ _ _ _).trans inv.first
      separate := release_coalesced _ _ _
      held := inv.held_erase inBlocks
      sized := fun c inRest => inv.sized c (List.mem_of_mem_erase inRest) }

theorem free_spec (member : a ∈ s.live) :
    ∃ b m', b ∈ bs ∧ a = allocationOf L.arch b ∧ free L s.heap a.ptr = { s.heap with mem := m' } ∧
      (∀ y, ¬ InHeader L.arch bs y → m' y = s.heap.mem y) ∧
      Inv L ⟨{ s.heap with mem := m' }, s.live.erase a⟩
        (release (sizeofMemoryBlock L.arch) b.addr bs) := by
  obtain ⟨b, m', inBlocks, _, same, value, links, after⟩ := inv.free_links member
  exact ⟨b, m', inBlocks, same, value, links.raised inBlocks, after⟩

/-- Bytes of a held allocation are payload bytes of its block. -/
theorem held_not_inHeader {b : Block} (member : b ∈ bs) (above : (allocationOf L.arch b).ptr ≤ x)
    (below : x < (allocationOf L.arch b).ptr + b.size) : ¬ InHeader L.arch bs x :=
  payload_not_inHeader inv.laid member above below

theorem after_write (v : UInt8) (member : a ∈ s.live) (above : a.ptr ≤ x)
    (below : x < a.ptr + a.size) :
    Inv L ⟨{ s.heap with mem := store s.heap.mem x 1 v.toNat }, s.live⟩ bs := by
  obtain ⟨b, inBlocks, -, rfl⟩ := inv.block_of_live member
  have outside := inv.held_not_inHeader inBlocks above below
  exact
    { ready := inv.ready
      seg := by
        apply inv.seg.congr
        intro c inC y aboveC belowC
        have apart : y ≠ x := fun same => outside ⟨c, inC, same ▸ aboveC, same ▸ belowC⟩
        exact store_outside s.heap.mem x 1 v.toNat (by omega)
      laid := inv.laid
      first := inv.first
      separate := inv.separate
      held := inv.held
      sized := inv.sized }

end Inv

theorem step_inv {call : Call} (inv : Inv L s bs) (step : Step L s call s') :
    ∃ bs', Inv L s' bs' := by
  cases step with
  | @malloc n p h _ result =>
      rcases inv.malloc_spec n with
        ⟨-, value⟩ | ⟨-, -, value⟩ | ⟨asked, p, bs', m', found, value, seg', -⟩
      · rw [value] at result
        obtain ⟨rfl, rfl⟩ := Prod.mk.inj (Except.ok.inj result)
        exact ⟨bs, inv⟩
      · rw [value] at result
        cases result
      · rw [value] at result
        obtain ⟨rfl, rfl⟩ := Prod.mk.inj (Except.ok.inj result)
        obtain ⟨notNull, after⟩ := inv.after_alloc asked found seg'
        exact ⟨bs', by simpa only [if_neg notNull] using after⟩
  | free member =>
      obtain ⟨b, m', _, _, value, _, after⟩ := inv.free_spec member
      exact ⟨_, by rw [value]; exact after⟩
  | @write a x v member above below => exact ⟨bs, inv.after_write v member above below⟩

theorem reachable_inv {mem : Mem} (reach : Reachable (Step L) (start L mem) s) :
    ∃ bs, Inv L s bs := by
  apply reach.invariant (I := fun s => ∃ bs, Inv L s bs)
  · rintro t call u ⟨bs, inv⟩ step
    exact step_inv inv step
  · exact ⟨_, start_inv L mem⟩

/-- Following `next` from the first address visits exactly these blocks. -/
inductive Walk (arch : Arch) (m : Mem) : Nat → List Nat → Prop where
  | done : Walk arch m 0 []
  | block {b rest} : b ≠ 0 → Walk arch m (get arch m b .next) rest → Walk arch m b (b :: rest)

/-- The list from `memory_pool` on is finite, in address order, linked both ways
    and laid out inside the pool without overlaps. -/
structure Consistent (L : Layout) (m : Mem) (blocks : List Nat) : Prop where
  walk : Walk L.arch m L.memoryPool blocks
  increasing : blocks.Pairwise (· < ·)
  firstPrev : get L.arch m L.memoryPool .prev = 0
  linked : ∀ b ∈ blocks, get L.arch m b .next ≠ 0 → get L.arch m (get L.arch m b .next) .prev = b
  inside : ∀ b ∈ blocks, L.memoryPool ≤ b ∧
    b + sizeofMemoryBlock L.arch + get L.arch m b .size ≤ L.memoryPool + memoryPoolSize
  ordered : ∀ b ∈ blocks, get L.arch m b .next ≠ 0 →
    b + sizeofMemoryBlock L.arch + get L.arch m b .size ≤ get L.arch m b .next

/-- The bytes behind a pointer, as many as its block's header says. -/
def payload (L : Layout) (m : Mem) (a : Allocation) : Set Nat :=
  Set.Ico a.ptr (a.ptr + get L.arch m (a.ptr - sizeofMemoryBlock L.arch) .size)

structure PayloadsSafe (L : Layout) (s : Session) (blocks : List Nat) : Prop where
  ofBlock : ∀ a ∈ s.live, a.ptr - sizeofMemoryBlock L.arch ∈ blocks
  longEnough : ∀ a ∈ s.live, a.size ≤ get L.arch s.heap.mem (a.ptr - sizeofMemoryBlock L.arch) .size
  disjoint : s.live.Pairwise fun a c => Disjoint (payload L s.heap.mem a) (payload L s.heap.mem c)
  apart : ∀ a ∈ s.live, ∀ b ∈ blocks,
    Disjoint (payload L s.heap.mem a) (Set.Ico b (b + sizeofMemoryBlock L.arch))

/-- The calls made into the heap, as against a client's own writes. -/
def Call.IntoHeap : Call → Prop
  | .malloc _ _ | .free _ => True
  | .write _ _ => False

theorem walk_of_seg {arch : Arch} {m : Mem} {prev : Nat} (seg : Seg arch m prev bs 0)
    (notNull : ∀ b ∈ bs, b.addr ≠ 0) : Walk arch m (startAddr bs 0) (bs.map Block.addr) := by
  induction bs generalizing prev with
  | nil => exact .done
  | cons b rest ih =>
      refine .block (notNull b (by simp)) ?_
      rw [startAddr_cons, seg.1.next]
      exact ih seg.2 fun c member => notNull c (List.mem_cons_of_mem b member)

theorem Walk.unique {arch : Arch} {m : Mem} {from_ : Nat} {xs ys : List Nat}
    (first : Walk arch m from_ xs) (second : Walk arch m from_ ys) : xs = ys := by
  induction first generalizing ys with
  | done =>
      cases second with
      | done => rfl
      | block notNull _ => exact absurd rfl notNull
  | block notNull _ ih =>
      cases second with
      | done => exact absurd rfl notNull
      | block _ rest => rw [ih rest]

/-- Every block of a segment has its own header, the header of its successor
    points back, and so does the first header. -/
theorem seg_member {arch : Arch} {m : Mem} {prev lo hi : Nat} {b : Block}
    (seg : Seg arch m prev bs 0) (laid : Laid (sizeofMemoryBlock arch) lo hi bs) (member : b ∈ bs) :
    get arch m b.addr .size = b.size ∧
      (get arch m b.addr .next ≠ 0 → get arch m (get arch m b.addr .next) .prev = b.addr ∧
        b.stop (sizeofMemoryBlock arch) ≤ get arch m b.addr .next) := by
  induction bs generalizing prev lo with
  | nil => simp at member
  | cons c rest ih =>
      rcases List.mem_cons.mp member with rfl | behind
      · refine ⟨seg.1.size, ?_⟩
        rw [seg.1.next]
        intro notLast
        cases rest with
        | nil => exact absurd rfl notLast
        | cons d tail => exact ⟨seg.2.1.prev, laid.2.1⟩
      · exact ih seg.2 laid.2 behind

namespace Inv

variable (inv : Inv L s bs)

include inv

theorem notNull {b : Block} (member : b ∈ bs) : b.addr ≠ 0 := by
  have := inv.laid.mem member
  have := L.poolPos
  omega

theorem walk : Walk L.arch s.heap.mem L.memoryPool (bs.map Block.addr) := by
  rw [← inv.first]
  exact walk_of_seg inv.seg fun b member => inv.notNull member

theorem blocks_eq {blocks : List Nat} (walk : Walk L.arch s.heap.mem L.memoryPool blocks) :
    blocks = bs.map Block.addr :=
  walk.unique inv.walk

theorem consistent : Consistent L s.heap.mem (bs.map Block.addr) where
  walk := inv.walk
  increasing := by
    refine List.pairwise_map.mpr (inv.laid.pairwise.imp ?_)
    intro b c below
    have size_pos := sizeofMemoryBlock_pos L.arch
    simp only [Block.stop] at below
    omega
  firstPrev := by
    have seg := inv.seg
    have first := inv.first
    have pos := L.poolPos
    cases bs with
    | nil =>
        simp only [startAddr_nil] at first
        omega
    | cons b rest =>
        rw [← first]
        exact seg.1.prev
  linked := by
    intro b member notLast
    obtain ⟨block, inBlocks, rfl⟩ := List.mem_map.mp member
    exact ((seg_member inv.seg inv.laid inBlocks).2 notLast).1
  inside := by
    intro b member
    obtain ⟨block, inBlocks, rfl⟩ := List.mem_map.mp member
    rw [(seg_member inv.seg inv.laid inBlocks).1]
    exact inv.laid.mem inBlocks
  ordered := by
    intro b member notLast
    obtain ⟨block, inBlocks, rfl⟩ := List.mem_map.mp member
    have facts := seg_member inv.seg inv.laid inBlocks
    rw [facts.1]
    exact (facts.2 notLast).2

theorem payload_eq {b : Block} (member : b ∈ bs) : payload L s.heap.mem (allocationOf L.arch b) =
    Set.Ico (b.addr + sizeofMemoryBlock L.arch) (b.stop (sizeofMemoryBlock L.arch)) := by
  have header := (seg_member inv.seg inv.laid member).1
  simp only [payload, allocationOf, Block.payload, Nat.add_sub_cancel, header, Block.stop]

theorem payloadsSafe : PayloadsSafe L s (bs.map Block.addr) where
  ofBlock := by
    intro a member
    obtain ⟨b, inBlocks, _, rfl⟩ := inv.block_of_live member
    simpa [allocationOf, Block.payload] using ⟨b, inBlocks, rfl⟩
  longEnough := by
    intro a member
    obtain ⟨b, inBlocks, _, rfl⟩ := inv.block_of_live member
    simp only [allocationOf, Block.payload, Nat.add_sub_cancel]
    rw [(seg_member inv.seg inv.laid inBlocks).1]
  disjoint := by
    have order : (live bs).Pairwise fun b c => b.stop (sizeofMemoryBlock L.arch) ≤ c.addr :=
      inv.laid.pairwise.sublist List.filter_sublist
    have apart : ((live bs).map (allocationOf L.arch)).Pairwise fun a c =>
        Disjoint (payload L s.heap.mem a) (payload L s.heap.mem c) := by
      refine List.pairwise_map.mpr (order.imp_of_mem ?_)
      intro b c inB inC below
      rw [inv.payload_eq (List.mem_filter.mp inB).1, inv.payload_eq (List.mem_filter.mp inC).1,
        Set.Ico_disjoint_Ico]
      simp only [Block.stop] at below ⊢
      omega
    exact (inv.held.pairwise_iff (fun {a c} disjoint => disjoint.symm)).mpr apart
  apart := by
    intro a member b inList
    obtain ⟨c, inBlocks, _, rfl⟩ := inv.block_of_live member
    obtain ⟨d, inD, rfl⟩ := List.mem_map.mp inList
    rw [inv.payload_eq inBlocks, Set.disjoint_left]
    intro x inPayload inHeader
    exact payload_not_inHeader inv.laid inBlocks inPayload.1 inPayload.2 ⟨d, inD, inHeader⟩

/-- A live block's bytes are disturbed by no call into the heap. -/
theorem untouched {call : Call} (step : Step L s call s') (into : call.IntoHeap)
    (member : a ∈ s.live) (inPayload : x ∈ payload L s.heap.mem a) :
    s'.heap.mem x = s.heap.mem x := by
  obtain ⟨b, inBlocks, used, rfl⟩ := inv.block_of_live member
  rw [inv.payload_eq inBlocks] at inPayload
  have outside := payload_not_inHeader inv.laid inBlocks inPayload.1 inPayload.2
  cases step with
  | @malloc n p h _ result =>
      rcases inv.malloc_spec n with
        ⟨-, value⟩ | ⟨-, -, value⟩ | ⟨_, _, bs', m', found, value, _, frame⟩
      · rw [value] at result
        obtain ⟨rfl, rfl⟩ := Prod.mk.inj (Except.ok.inj result)
        rfl
      · rw [value] at result
        cases result
      · rw [value] at result
        obtain ⟨rfl, rfl⟩ := Prod.mk.inj (Except.ok.inj result)
        have stays : b ∈ bs' := by
          obtain ⟨_, _, _, _, _, perm⟩ := alloc_live found
          have inLive : b ∈ live bs := List.mem_filter.mpr ⟨inBlocks, by simp [used]⟩
          exact (List.mem_filter.mp (perm.mem_iff.mpr (List.mem_cons_of_mem _ inLive))).1
        have outside' :=
          payload_not_inHeader (alloc_laid inv.laid found) stays inPayload.1 inPayload.2
        exact frame x outside outside'
  | free freed =>
      obtain ⟨_, m', _, _, value, frame, _⟩ := inv.free_spec freed
      rw [value]
      exact frame x outside
  | write => exact into.elim

end Inv

/-- Heap safety over whole runs. -/
theorem heap_safe (L : Layout) (mem : Mem) (s : Session)
    (reach : Reachable (Step L) (start L mem) s) :
    (∃ blocks, Consistent L s.heap.mem blocks ∧ PayloadsSafe L s blocks) ∧
    (∀ call s', Step L s call s' → call.IntoHeap → ∀ a ∈ s.live, ∀ x ∈ payload L s.heap.mem a,
      s'.heap.mem x = s.heap.mem x) ∧
    ∀ n, malloc L s.heap n ≠ .error .outOfFuel := by
  obtain ⟨bs, inv⟩ := reachable_inv reach
  refine ⟨⟨_, inv.consistent, inv.payloadsSafe⟩, ?_, ?_⟩
  · intro call s' step into a member x inPayload
    exact inv.untouched step into member inPayload
  · intro n
    rcases inv.malloc_spec n with ⟨-, value⟩ | ⟨-, -, value⟩ | ⟨-, _, _, _, -, value, -⟩ <;>
      simp [value]

/-- A kernel for x86_64 whose pool was linked at 2 MiB. -/
def exampleLayout : Layout where
  arch := .x86_64
  memoryPool := 0x200000
  poolPos := by decide
  poolFits := by decide

/-- One allocation of 16 bytes from a zeroed pool. -/
theorem one_malloc : ∃ s, Reachable (Step exampleLayout) (start exampleLayout fun _ => 0) s ∧
    s.live = [⟨0x200020, 16⟩] := by
  have inv := start_inv exampleLayout (fun _ => 0)
  rcases inv.malloc_spec 16 with ⟨zero, -⟩ | ⟨-, none, -⟩ | ⟨asked, p, bs', m', found, value, -⟩
  · cases zero
  · exact absurd none (by decide)
  · have there : p = 0x200020 := by
      have head : (alloc (sizeofMemoryBlock exampleLayout.arch) 16
        [⟨exampleLayout.memoryPool, memoryPoolSize - sizeofMemoryBlock exampleLayout.arch,
          true⟩]).map
          Prod.fst = some 0x200020 := by decide
      rw [found] at head
      exact Option.some.inj head
    subst there
    have step : Step exampleLayout (start exampleLayout fun _ => 0) (.malloc 16 0x200020) _ :=
      .malloc (by decide) value
    exact ⟨_, (Run.single step).reachable, rfl⟩

theorem heap_safe_one_malloc : ∃ s, s.live = [⟨0x200020, 16⟩] ∧
    ∃ blocks, Consistent exampleLayout s.heap.mem blocks ∧ PayloadsSafe exampleLayout s blocks := by
  obtain ⟨s, reach, live⟩ := one_malloc
  exact ⟨s, live, (heap_safe exampleLayout (fun _ => 0) s reach).1⟩

end AurorOS.Heap
