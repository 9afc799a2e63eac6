import AurorOS.Heap.Memory
import AurorOS.Heap.Safety

/-! # The heap as its clients see it

What a client needs to know of the heap: the allocations it holds are in the pool and
apart, it may change what is in them, and a call of `malloc` or `free` changes nothing
but the heap's own bytes.
-/

namespace AurorOS.Heap

open ByteMemory FirstFit

/-- The address is outside `memory_pool`. -/
def Layout.Outside (L : Layout) (x : Nat) : Prop :=
  x < L.memoryPool ∨ L.memoryPool + memoryPoolSize ≤ x

/-- The range is outside `memory_pool`. -/
def Layout.Apart (L : Layout) (a n : Nat) : Prop :=
  a + n ≤ L.memoryPool ∨ L.memoryPool + memoryPoolSize ≤ a

/-- The bytes of the allocations and those outside the pool are as they were. -/
structure Undisturbed (L : Layout) (m m' : Mem) (live : List Allocation) : Prop where
  held : ∀ a ∈ live, AgreeOn m m' a.ptr (a.ptr + a.size)
  outside : ∀ x, L.Outside x → m' x = m x

variable {L : Layout} {h h' : State} {held : List Allocation} {bs : List Block} {m' : Mem}
  {a c : Allocation} {n p x : Nat}

namespace Inv

variable (inv : Inv L ⟨h, held⟩ bs)

include inv

/-- An allocation lies in the pool. -/
theorem inside (member : a ∈ held) :
    L.memoryPool < a.ptr ∧ a.ptr + a.size ≤ L.memoryPool + memoryPoolSize := by
  obtain ⟨b, inBlocks, _, rfl⟩ := inv.block_of_live member
  have range := inv.laid.mem inBlocks
  have size_pos := sizeofMemoryBlock_pos L.arch
  simp only [allocationOf, Block.payload, Block.stop] at range ⊢
  omega

theorem header_in_pool (inHeader : InHeader L.arch bs x) : ¬ L.Outside x := by
  obtain ⟨b, member, above, below⟩ := inHeader
  have range := inv.laid.mem member
  simp only [Block.stop] at range
  rintro (before | behind) <;> omega

theorem held_not_header (member : a ∈ held) (above : a.ptr ≤ x) (below : x < a.ptr + a.size) :
    ¬ InHeader L.arch bs x := by
  obtain ⟨b, inBlocks, _, rfl⟩ := inv.block_of_live member
  exact inv.held_not_inHeader inBlocks above below

/-- Disjoint payloads are apart. -/
theorem apart_of_disjoint (first : a ∈ held) (second : c ∈ held)
    (disjoint : Disjoint (payload L h.mem a) (payload L h.mem c)) :
    a.ptr + a.size ≤ c.ptr ∨ c.ptr + c.size ≤ a.ptr := by
  have longA := inv.payloadsSafe.longEnough a first
  have longC := inv.payloadsSafe.longEnough c second
  have sizeA := inv.sized a first
  have sizeC := inv.sized c second
  rw [payload, payload, Set.Ico_disjoint_Ico] at disjoint
  dsimp only at longA longC sizeA sizeC disjoint
  omega

/-- Two allocations do not overlap. -/
theorem apart (first : a ∈ held) (second : c ∈ held) (other : a ≠ c) :
    a.ptr + a.size ≤ c.ptr ∨ c.ptr + c.size ≤ a.ptr := by
  have : Std.Symm fun a c => Disjoint (payload L h.mem a) (payload L h.mem c) :=
    ⟨fun _ _ apart => apart.symm⟩
  exact inv.apart_of_disjoint first second (inv.payloadsSafe.disjoint.forall first second other)

/-- Clients may change what they hold, and whatever is not in the pool. -/
theorem after_change
    (own : ∀ x, ¬ L.Outside x → (∀ a ∈ held, ¬ (a.ptr ≤ x ∧ x < a.ptr + a.size)) → m' x = h.mem x) :
    Inv L ⟨{ h with mem := m' }, held⟩ bs where
  ready := inv.ready
  seg := by
    refine inv.seg.congr fun b member x above below => ?_
    have inHeader : InHeader L.arch bs x := ⟨b, member, above, below⟩
    exact own x (inv.header_in_pool inHeader) fun a inHeld range =>
      inv.held_not_header inHeld range.1 range.2 inHeader
  laid := inv.laid
  first := inv.first
  separate := inv.separate
  held := inv.held
  sized := inv.sized

/-- `malloc` of some bytes that returns: a new allocation. -/
theorem malloc_returns (asked : 0 < n) (returned : malloc L h n = .ok (p, h')) :
    p ≠ 0 ∧ (∃ bs', Inv L ⟨h', ⟨p, n⟩ :: held⟩ bs') ∧ Undisturbed L h.mem h'.mem held := by
  rcases inv.malloc_spec n with
    ⟨none, -⟩ | ⟨-, -, value⟩ | ⟨-, q, bs', m', found, value, seg', frame⟩
  · omega
  · cases value.symm.trans returned
  · obtain ⟨rfl, rfl⟩ := Prod.mk.inj (Except.ok.inj (value.symm.trans returned))
    obtain ⟨notNull, after⟩ := inv.after_alloc asked found seg'
    refine ⟨notNull, ⟨bs', after⟩, ?_, ?_⟩
    · intro a member x above below
      exact frame x (inv.held_not_header member above below)
        (after.held_not_header (List.mem_cons_of_mem _ member) above below)
    · intro x outside
      exact frame x (fun inHeader => inv.header_in_pool inHeader outside) fun inHeader =>
        after.header_in_pool inHeader outside

theorem malloc_zero : malloc L h 0 = .ok (0, h) := by
  rw [malloc, if_neg (by rw [inv.ready]; exact Bool.noConfusion), if_pos rfl]

/-- The release of an allocation. -/
theorem free_returns (member : a ∈ held) :
    (∃ bs', Inv L ⟨free L h a.ptr, held.erase a⟩ bs') ∧
    Undisturbed L h.mem (free L h a.ptr).mem (held.erase a) := by
  obtain ⟨b, m', _, _, value, frame, after⟩ := inv.free_spec member
  dsimp only at value frame after
  rw [value]
  refine ⟨⟨_, after⟩, ?_, ?_⟩
  · intro c inRest x above below
    exact frame x (inv.held_not_header (List.mem_of_mem_erase inRest) above below)
  · intro x outside
    exact frame x fun inHeader => inv.header_in_pool inHeader outside

omit inv in
/-- The latest allocation is apart from the others. -/
theorem newest_apart (inv : Inv L ⟨h, c :: held⟩ bs) (member : a ∈ held) :
    a.ptr + a.size ≤ c.ptr ∨ c.ptr + c.size ≤ a.ptr :=
  inv.apart_of_disjoint (List.mem_cons_of_mem c member) List.mem_cons_self
    ((List.pairwise_cons.mp inv.payloadsSafe.disjoint).1 a member).symm

end Inv

end AurorOS.Heap
