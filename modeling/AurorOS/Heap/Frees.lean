import AurorOS.Heap.Safety

/-! # After a free

`free` leaves no two free neighbours behind, so a freed block's header is soon
memory inside a larger block.  The header keeps its raised flag there: merges write
links and sizes of listed headers only, and clients keep to what they hold.  A
second `free` of the same pointer finds the flag and returns.
-/

namespace AurorOS.Heap

open ByteMemory FirstFit Runs

variable {L : Layout} {s t : Session} {bs : List Block} {m m' : Mem} {p : Nat} {a : Allocation}

/-- A coalesced list in memory: no two neighbours have their flags raised. -/
theorem seg_coalesced {arch : Arch} {prev : Nat} (seg : Seg arch m prev bs 0)
    (separate : Coalesced bs) :
    (bs.map Block.addr).IsChain fun b c => ¬ (get arch m b .free ≠ 0 ∧ get arch m c .free ≠ 0) := by
  induction bs generalizing prev with
  | nil => exact .nil
  | cons b rest ih =>
      cases rest with
      | nil => exact .singleton _
      | cons c ys =>
          obtain ⟨border, behind⟩ := List.isChain_cons_cons.mp separate
          refine List.isChain_cons_cons.mpr ⟨?_, ih seg.2 behind⟩
          rw [seg.1.free_iff, seg.2.1.free_iff]
          exact border

/-- Whatever was freed in whatever order, no two neighbours of the list are free. -/
theorem eagerly_coalesced (L : Layout) (mem : Mem) (s : Session)
    (reach : Reachable (Step L) (start L mem) s) :
    ∃ blocks, Walk L.arch s.heap.mem L.memoryPool blocks ∧
      blocks.IsChain fun b c => ¬ (get L.arch s.heap.mem b .free ≠ 0 ∧
      get L.arch s.heap.mem c .free ≠ 0) := by
  obtain ⟨bs, inv⟩ := reachable_inv reach
  exact ⟨_, inv.walk, seg_coalesced inv.seg inv.separate⟩

theorem eagerly_coalesced_one : ∃ s : Session, s.live = [⟨0x200020, 16⟩] ∧ ∃ blocks,
    Walk exampleLayout.arch s.heap.mem exampleLayout.memoryPool blocks ∧ blocks.IsChain fun b c =>
      ¬ (get exampleLayout.arch s.heap.mem b .free ≠ 0 ∧
      get exampleLayout.arch s.heap.mem c .free ≠ 0) := by
  obtain ⟨s, reach, live⟩ := one_malloc
  exact ⟨s, live, eagerly_coalesced exampleLayout (fun _ => 0) s reach⟩

/-- The header in front of `p` has its flag raised and shares no byte with a live
    block, nor with a header of the list but itself. -/
structure Stale (L : Layout) (m : Mem) (bs : List Block) (p : Nat) : Prop where
  above : sizeofMemoryBlock L.arch < p
  word : p < L.arch.wordSize
  beside : Beside L.arch bs (p - sizeofMemoryBlock L.arch)
  spare : ∀ c ∈ bs, c.free = false → p ≤ c.addr ∨
    c.stop (sizeofMemoryBlock L.arch) ≤ p - sizeofMemoryBlock L.arch
  flag : get L.arch m (p - sizeofMemoryBlock L.arch) .free ≠ 0

/-- The flag makes `free` return at once. -/
theorem Stale.absorbs {h : State} (stale : Stale L h.mem bs p) : free L h p = h := by
  have above := stale.above
  have block : L.arch.sub p (sizeofMemoryBlock L.arch) = p - sizeofMemoryBlock L.arch :=
    Arch.sub_eq stale.word above.le
  rw [free]
  split
  · rfl
  · simp only [block, if_pos stale.flag]

/-- The blocks that a release leaves live were live before. -/
theorem live_of_release {c : Block} {addr : Nat}
    (member : c ∈ release (sizeofMemoryBlock L.arch) addr bs) (used : c.free = false) :
    c ∈ bs ∧ c.addr ≠ addr := by
  have inLive : c ∈ live (release (sizeofMemoryBlock L.arch) addr bs) :=
    List.mem_filter.mpr ⟨member, by simp [used]⟩
  rw [release_live] at inLive
  obtain ⟨before, other⟩ := List.mem_filter.mp inLive
  exact ⟨(List.mem_filter.mp before).1, by simpa using other⟩

theorem Beside.release {h addr : Nat} (beside : Beside L.arch bs h) :
    Beside L.arch (release (sizeofMemoryBlock L.arch) addr bs) h := by
  intro c member
  obtain ⟨d, inBlocks, same⟩ := mem_release member
  exact same ▸ beside d inBlocks

/-- The header of a listed block is beside all of them. -/
theorem beside_of_mem {arch : Arch} {lo hi : Nat} {b : Block}
    (laid : Laid (sizeofMemoryBlock arch) lo hi bs) (member : b ∈ bs) : Beside arch bs b.addr := by
  intro c inC
  obtain ⟨xs, ys, rfl⟩ := List.append_of_mem member
  obtain ⟨_, tail, across⟩ := List.pairwise_append.mp laid.pairwise
  simp only [Block.stop] at tail across
  rcases List.mem_append.mp inC with front | back
  · have := across c front b (by simp)
    exact .inr (.inr (by omega))
  · rcases List.mem_cons.mp back with rfl | behind
    · exact .inl rfl
    · have := (List.pairwise_cons.mp tail).1 c behind
      exact .inr (.inl (by omega))

section Release

variable {b : Block} (member : b ∈ bs) (links : Relinked L.arch bs (set L.arch m b.addr .free 1) m')

include member links

/-- A header keeps its raised flag while another block is freed. -/
theorem Stale.release (stale : Stale L m bs p) :
    Stale L m' (release (sizeofMemoryBlock L.arch) b.addr bs) p where
  above := stale.above
  word := stale.word
  beside := stale.beside.release
  spare := by
    intro c inRest used
    exact stale.spare c (live_of_release inRest used).1 used
  flag := by
    rw [links.flags _ stale.beside]
    rcases stale.beside b member with same | apart
    · rw [same, get_set_same L.arch m b.addr .free (by norm_num [Field.limit])]
      exact Nat.one_ne_zero
    · rw [get_set_apart L.arch m 1 .free .free apart]
      exact stale.flag

/-- The header of the block that is freed. -/
theorem stale_of_release
    (laid : Laid (sizeofMemoryBlock L.arch) L.memoryPool (L.memoryPool + memoryPoolSize) bs)
    (sized : 0 < b.size) :
    Stale L m' (release (sizeofMemoryBlock L.arch) b.addr bs)
      (b.payload (sizeofMemoryBlock L.arch)) := by
  have inside := laid.mem member
  have pos := L.poolPos
  have top := L.poolFits
  simp only [Block.stop] at inside
  have header : b.payload (sizeofMemoryBlock L.arch) - sizeofMemoryBlock L.arch = b.addr := by
    rw [Block.payload, Nat.add_sub_cancel]
  have beside := beside_of_mem laid member
  refine ⟨?_, ?_, ?_, ?_, ?_⟩
  · simp only [Block.payload]
    omega
  · simp only [Block.payload]
    omega
  · rw [header]
    exact beside.release
  · intro c inRest used
    obtain ⟨inBlocks, other⟩ := live_of_release inRest used
    rw [header]
    obtain ⟨xs, ys, rfl⟩ := List.append_of_mem member
    obtain ⟨_, tail, across⟩ := List.pairwise_append.mp laid.pairwise
    rcases List.mem_append.mp inBlocks with front | back
    · exact .inr (across c front b (by simp))
    · rcases List.mem_cons.mp back with rfl | behind
      · exact absurd rfl other
      · have after := (List.pairwise_cons.mp tail).1 c behind
        simp only [Block.stop] at after
        simp only [Block.payload]
        exact .inl (by omega)
  · rw [header, links.flags _ beside,
      get_set_same L.arch m b.addr .free (by norm_num [Field.limit])]
    exact Nat.one_ne_zero

end Release

/-- A client's write to what it holds reaches no stale header. -/
theorem Stale.write {x : Nat} {v : UInt8} {c : Block} (stale : Stale L m bs p) (member : c ∈ bs)
    (used : c.free = false) (above : c.addr ≤ x) (below : x < c.stop (sizeofMemoryBlock L.arch)) :
    Stale L (store m x 1 v.toNat) bs p where
  above := stale.above
  word := stale.word
  beside := stale.beside
  spare := stale.spare
  flag := by
    have apart := stale.spare c member used
    have front := stale.above
    have same : AgreeOn m (store m x 1 v.toNat) (p - sizeofMemoryBlock L.arch)
        (p - sizeofMemoryBlock L.arch + sizeofMemoryBlock L.arch) := by
      intro y inFront inHeader
      exact store_outside m x 1 v.toNat (by omega)
    rw [get_congr .free same]
    exact stale.flag

/-- A session since some free, with the pointers freed in it. -/
structure Episode where
  session : Session
  freed : List Nat

/-- `free` of a held pointer, `free` of a pointer freed before, and a client's write
    to what it holds; no `malloc`. -/
inductive FreeStep (L : Layout) : Episode → Call → Episode → Prop where
  | free {s fs a} : a ∈ s.live →
      FreeStep L ⟨s, fs⟩ (.free a.ptr) ⟨⟨free L s.heap a.ptr, s.live.erase a⟩, a.ptr :: fs⟩
  | again {s fs p} : p ∈ fs → FreeStep L ⟨s, fs⟩ (.free p) ⟨⟨free L s.heap p, s.live⟩, fs⟩
  | write {s fs a x v} : a ∈ s.live → a.ptr ≤ x → x < a.ptr + a.size →
      FreeStep L ⟨s, fs⟩ (.write x v)
        ⟨⟨{ s.heap with mem := store s.heap.mem x 1 v.toNat }, s.live⟩, fs⟩

/-- The heap is in order and every freed pointer has a stale header in front. -/
def FreesInv (L : Layout) (e : Episode) : Prop :=
  ∃ bs, Inv L e.session bs ∧ ∀ p ∈ e.freed, Stale L e.session.heap.mem bs p

theorem freesInv_free {fs : List Nat} (inv : FreesInv L ⟨s, fs⟩) (member : a ∈ s.live) :
    FreesInv L ⟨⟨free L s.heap a.ptr, s.live.erase a⟩, a.ptr :: fs⟩ := by
  obtain ⟨bs, inv, stale⟩ := inv
  obtain ⟨b, m', inBlocks, _, rfl, value, links, after⟩ := inv.free_links member
  have sized := inv.sized _ member
  rw [value]
  refine ⟨_, after, fun q freed => ?_⟩
  rcases List.mem_cons.mp freed with rfl | before
  · exact stale_of_release inBlocks links inv.laid sized
  · exact (stale q before).release inBlocks links

theorem freeStep_inv {e e' : Episode} {call : Call} (inv : FreesInv L e)
    (step : FreeStep L e call e') :
    FreesInv L e' := by
  cases step with
  | free member => exact freesInv_free inv member
  | again freed =>
      obtain ⟨bs, inv, stale⟩ := inv
      rw [(stale _ freed).absorbs]
      exact ⟨bs, inv, stale⟩
  | write member above below =>
      obtain ⟨bs, inv, stale⟩ := inv
      obtain ⟨b, inBlocks, used, rfl⟩ := inv.block_of_live member
      refine ⟨bs, inv.after_write _ member above below, fun q freed => ?_⟩
      simp only [allocationOf, Block.payload] at above below
      refine (stale q freed).write inBlocks used (by omega) ?_
      simp only [Block.stop]
      omega

/-- Freed pointers stay freed: nothing is handed out. -/
theorem FreeStep.keeps {e e' : Episode} {call : Call} (step : FreeStep L e call e')
    (freed : p ∈ e.freed) :
    p ∈ e'.freed := by
  cases step with
  | free _ => exact List.mem_cons_of_mem _ freed
  | again _ => exact freed
  | write _ _ _ => exact freed

/-- A pointer freed once may be freed again as long as no block has been handed out
    since: nothing changes. -/
theorem double_free_absorbed (L : Layout) (mem : Mem) (s : Session)
    (reach : Reachable (Step L) (start L mem) s) (a : Allocation) (member : a ∈ s.live)
    (trace : List (Episode × Call)) (e : Episode)
    (run : Run (FreeStep L) ⟨⟨free L s.heap a.ptr, s.live.erase a⟩, [a.ptr]⟩ trace e) :
    free L e.session.heap a.ptr = e.session.heap := by
  obtain ⟨bs, inv⟩ := reachable_inv reach
  have first : FreesInv L ⟨⟨free L s.heap a.ptr, s.live.erase a⟩, [a.ptr]⟩ :=
    freesInv_free ⟨bs, inv, by simp⟩ member
  have last : FreesInv L e ∧ a.ptr ∈ e.freed := by
    refine run.invariant (I := fun e => FreesInv L e ∧ a.ptr ∈ e.freed) ?_
      ⟨first, List.mem_cons_self⟩
    rintro before call after ⟨inv, freed⟩ step
    exact ⟨freeStep_inv inv step, step.keeps freed⟩
  obtain ⟨⟨_, _, stale⟩, freed⟩ := last
  exact (stale _ freed).absorbs

/-- The only allocation, freed three times. -/
theorem double_free_absorbed_one : ∃ s : Session, s.live = [⟨0x200020, 16⟩] ∧
    free exampleLayout (free exampleLayout (free exampleLayout s.heap 0x200020) 0x200020) 0x200020 =
      free exampleLayout (free exampleLayout s.heap 0x200020) 0x200020 := by
  obtain ⟨s, reach, live⟩ := one_malloc
  have run : Run (FreeStep exampleLayout)
      ⟨⟨free exampleLayout s.heap 0x200020, s.live.erase ⟨0x200020, 16⟩⟩, [0x200020]⟩ _ _ :=
    .single (.again List.mem_cons_self)
  exact ⟨s, live, double_free_absorbed exampleLayout (fun _ => 0) s reach ⟨0x200020, 16⟩
    (by simp [live]) _ _ run⟩

end AurorOS.Heap
