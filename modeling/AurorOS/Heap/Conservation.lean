import AurorOS.Heap.Safety

/-! # Heap conservation over whole runs

The headers and payloads of the block list should account for the whole pool.
They do exactly as long as no `malloc` meets a first fit that is larger than
asked for but too small to be split: `malloc` then shrinks the block's size all
the same, and the difference is in no block any more.  No later step gives it
back, so conservation of a run is decided by its steps.
-/

namespace AurorOS.Heap

open ByteMemory FirstFit Runs

/-- What the blocks of the list add up to. -/
def listedBytes (L : Layout) (m : Mem) (blocks : List Nat) : Nat :=
  (blocks.map fun b => sizeofMemoryBlock L.arch + get L.arch m b .size).sum

/-- The list accounts for the pool, and when nothing is held it is the one free
    block that `init_memory_heap` made. -/
def Conserved (L : Layout) (s : Session) : Prop :=
  ∃ blocks, Walk L.arch s.heap.mem L.memoryPool blocks ∧
    listedBytes L s.heap.mem blocks = memoryPoolSize ∧
    (s.live = [] → blocks = [L.memoryPool] ∧ get L.arch s.heap.mem L.memoryPool .free ≠ 0 ∧
      get L.arch s.heap.mem L.memoryPool .size = memoryPoolSize - sizeofMemoryBlock L.arch)

/-- The block at which the search of `malloc(n)` stops. -/
def searchStop (L : Layout) (m : Mem) (n : Nat) (blocks : List Nat) : Option Nat :=
  blocks.find? fun b => decide (get L.arch m b .free ≠ 0 ∧ get L.arch m b .size ≥ n)

/-- The first fit of this call, if it is a `malloc`, has exactly the size asked
    for or is large enough to be split. -/
def KeepsAll (L : Layout) (s : Session) : Call → Prop
  | .malloc n _ => n = 0 ∨ ∀ blocks b, Walk L.arch s.heap.mem L.memoryPool blocks →
      searchStop L s.heap.mem n blocks = some b →
        get L.arch s.heap.mem b .size = n ∨
        n + sizeofMemoryBlock L.arch < get L.arch s.heap.mem b .size
  | _ => True

variable {L : Layout} {s s' : Session} {bs : List Block} {n : Nat}

/-- Reading the flags of a segment. -/
theorem seg_free {arch : Arch} {m : Mem} {prev : Nat} {b : Block} (seg : Seg arch m prev bs 0)
    (member : b ∈ bs) : get arch m b.addr .free ≠ 0 ↔ b.free = true := by
  induction bs generalizing prev with
  | nil => simp at member
  | cons c rest ih =>
      rcases List.mem_cons.mp member with rfl | behind
      · exact seg.1.free_iff
      · exact ih seg.2 behind

theorem lost_eq_zero {hdr : Nat} : lost hdr n bs = 0 ↔
    ∀ b, bs.find? (Fits n) = some b → b.size = n ∨ n + hdr < b.size := by
  unfold lost
  cases found : bs.find? (Fits n) with
  | none => simp
  | some b =>
      have room := le_of_fits (List.find?_some found)
      simp only [Option.some.injEq, forall_eq']
      split <;> omega

namespace Inv

variable (inv : Inv L s bs)

include inv

theorem listedBytes_eq :
    listedBytes L s.heap.mem (bs.map Block.addr) = total (sizeofMemoryBlock L.arch) bs := by
  simp only [listedBytes, total, List.map_map]
  congr 1
  apply List.map_congr_left
  intro b member
  simp only [Function.comp, (seg_member inv.seg inv.laid member).1]

theorem searchStop_eq (n : Nat) :
    searchStop L s.heap.mem n (bs.map Block.addr) = (bs.find? (Fits n)).map Block.addr := by
  have same : ∀ b ∈ bs, decide (get L.arch s.heap.mem b.addr .free ≠ 0 ∧
      get L.arch s.heap.mem b.addr .size ≥ n) = Fits n b := by
    intro b member
    rw [Bool.eq_iff_iff, decide_eq_true_eq, seg_free inv.seg member,
      (seg_member inv.seg inv.laid member).1]
    simp [Fits]
  rw [searchStop, List.find?_map]
  congr 1
  clear inv
  induction bs with
  | nil => rfl
  | cons b rest ih =>
      have tail := ih fun c member => same c (List.mem_cons_of_mem b member)
      simp only [List.find?_cons, Function.comp, same b (by simp)]
      split
      · rfl
      · exact tail

/-- The condition on a step, read on the list: nothing is lost. -/
theorem keepsAll_malloc (p : Nat) :
    KeepsAll L s (.malloc n p) ↔ n = 0 ∨ lost (sizeofMemoryBlock L.arch) n bs = 0 := by
  simp only [KeepsAll, lost_eq_zero]
  apply or_congr_right
  constructor
  · intro keeps b found
    have member := List.mem_of_find?_eq_some found
    have stop : searchStop L s.heap.mem n (bs.map Block.addr) = some b.addr := by
      rw [inv.searchStop_eq, found]
      rfl
    have sizes := keeps _ b.addr inv.walk stop
    rwa [(seg_member inv.seg inv.laid member).1] at sizes
  · intro keeps blocks a walk stop
    rw [inv.blocks_eq walk, inv.searchStop_eq, Option.map_eq_some_iff] at stop
    obtain ⟨b, found, rfl⟩ := stop
    rw [(seg_member inv.seg inv.laid (List.mem_of_find?_eq_some found)).1]
    exact keeps b found

/-- Every step keeps the list's total or loses what its first fit loses. -/
theorem step_total {call : Call} (step : Step L s call s') :
    ∃ bs', Inv L s' bs' ∧
    total (sizeofMemoryBlock L.arch) bs' ≤ total (sizeofMemoryBlock L.arch) bs ∧
      (total (sizeofMemoryBlock L.arch) bs' = total (sizeofMemoryBlock L.arch) bs ↔
      KeepsAll L s call) := by
  cases step with
  | @malloc n p h _ result =>
      rcases inv.malloc_spec n with
        ⟨rfl, value⟩ | ⟨-, -, value⟩ | ⟨asked, p, bs', m', found, value, seg', -⟩
      · rw [value] at result
        obtain ⟨rfl, rfl⟩ := Prod.mk.inj (Except.ok.inj result)
        exact ⟨bs, inv, le_rfl, by simp [inv.keepsAll_malloc]⟩
      · rw [value] at result
        cases result
      · rw [value] at result
        obtain ⟨rfl, rfl⟩ := Prod.mk.inj (Except.ok.inj result)
        obtain ⟨notNull, after⟩ := inv.after_alloc asked found seg'
        have balance := alloc_total found
        refine ⟨bs', by simpa only [if_neg notNull] using after, by omega, ?_⟩
        rw [inv.keepsAll_malloc]
        omega
  | free member =>
      obtain ⟨b, m', _, _, value, _, after⟩ := inv.free_spec member
      refine ⟨_, by rw [value]; exact after, ?_, ?_⟩
      · rw [release_total]
      · simp [release_total, KeepsAll]
  | @write a x v member above below =>
      exact ⟨bs, inv.after_write v member above below, le_rfl, by simp [KeepsAll]⟩

/-- The property of the state, read on the list. -/
theorem conserved_iff : Conserved L s ↔ total (sizeofMemoryBlock L.arch) bs = memoryPoolSize := by
  constructor
  · rintro ⟨blocks, walk, sum, -⟩
    rwa [inv.blocks_eq walk, inv.listedBytes_eq] at sum
  · intro whole
    refine ⟨_, inv.walk, inv.listedBytes_eq.trans whole, ?_⟩
    intro nothingHeld
    have dead : live bs = [] := by
      have perm := inv.held
      rw [nothingHeld] at perm
      simpa using perm.nil_eq.symm
    have some : bs ≠ [] := by
      rintro rfl
      have := inv.first
      have := L.poolPos
      simp only [startAddr_nil] at *
      omega
    obtain ⟨b, rfl, isFree⟩ := eq_singleton_of_coalesced inv.separate dead some
    have atPool : b.addr = L.memoryPool := inv.first
    rw [total_cons, total_nil] at whole
    refine ⟨by simp [atPool], ?_, ?_⟩
    · rw [← atPool]
      exact (seg_free inv.seg (by simp)).mpr isFree
    · rw [← atPool, (seg_member inv.seg inv.laid (by simp : b ∈ [b])).1]
      omega

end Inv

theorem start_total (L : Layout) : total (sizeofMemoryBlock L.arch)
    [⟨L.memoryPool, memoryPoolSize - sizeofMemoryBlock L.arch, true⟩] = memoryPoolSize := by
  have room := sizeof_lt_pool L.arch
  rw [total_cons, total_nil]
  simp only
  omega

/-- The total at the end of a run tells whether any step lost bytes. -/
theorem run_total {mem : Mem} {trace : List (Session × Call)}
    (run : Run (Step L) (start L mem) trace s) :
    ∃ bs, Inv L s bs ∧ total (sizeofMemoryBlock L.arch) bs ≤ memoryPoolSize ∧
      (total (sizeofMemoryBlock L.arch) bs = memoryPoolSize ↔ EveryStep (KeepsAll L) trace) := by
  induction run with
  | nil => exact ⟨_, start_inv L mem, (start_total L).le, by simp [start_total L, EveryStep]⟩
  | @snoc trace t call u _ step ih =>
      obtain ⟨bs, inv, bound, same⟩ := ih
      obtain ⟨bs', inv', less, keeps⟩ := inv.step_total step
      refine ⟨bs', inv', less.trans bound, ?_⟩
      rw [everyStep_snoc, ← same, ← keeps]
      omega

/-- Heap conservation over whole runs: the list accounts for the pool in every
    state of a run exactly when every `malloc` of the run keeps all bytes. -/
theorem heap_conserved_iff (L : Layout) (mem : Mem) (trace : List (Session × Call)) (s : Session)
    (run : Run (Step L) (start L mem) trace s) :
    Always (Conserved L) trace s ↔ EveryStep (KeepsAll L) trace := by
  constructor
  · intro always
    obtain ⟨bs, inv, _, same⟩ := run_total run
    exact same.mp (inv.conserved_iff.mp always.last)
  · intro every
    have whole : Always (fun t => ∃ bs, Inv L t bs ∧
        total (sizeofMemoryBlock L.arch) bs = memoryPoolSize) trace s := by
      refine run.always_of_steps ?_ ⟨_, start_inv L mem, start_total L⟩ every
      rintro t call u ⟨bs, inv, sum⟩ keeps step
      obtain ⟨bs', inv', _, same⟩ := inv.step_total step
      exact ⟨bs', inv', (same.mpr keeps).trans sum⟩
    constructor
    · intro entry member
      obtain ⟨bs, inv, sum⟩ := whole.1 entry member
      exact inv.conserved_iff.mpr sum
    · obtain ⟨bs, inv, sum⟩ := whole.2
      exact inv.conserved_iff.mpr sum

/-- The state after one `malloc` on a fresh heap, when it succeeds. -/
theorem malloc_from_start (n p : Nat) (bs' : List Block) (small : n < exampleLayout.arch.wordSize)
    (found : alloc (sizeofMemoryBlock exampleLayout.arch) n [⟨exampleLayout.memoryPool,
    memoryPoolSize - sizeofMemoryBlock exampleLayout.arch, true⟩] = some (p, bs')) (asked : 0 < n) :
    ∃ s, Step exampleLayout (start exampleLayout fun _ => 0) (.malloc n p) s ∧
    Inv exampleLayout s bs' := by
  have inv := start_inv exampleLayout (fun _ => 0)
  rcases inv.malloc_spec n with ⟨zero, -⟩ | ⟨-, none, -⟩ | ⟨-, p', bs'', m', found', value, seg', -⟩
  · omega
  · rw [none] at found
    cases found
  · rw [found'] at found
    obtain ⟨rfl, rfl⟩ := Prod.mk.inj (Option.some.inj found)
    obtain ⟨notNull, after⟩ := inv.after_alloc asked found' seg'
    refine ⟨_, .malloc small value, ?_⟩
    simpa only [if_neg notNull] using after

theorem heap_conserved_after_split : ∃ s trace,
    Run (Step exampleLayout) (start exampleLayout fun _ => 0) trace s ∧ trace ≠ [] ∧
      (Always (Conserved exampleLayout) trace s ↔ EveryStep (KeepsAll exampleLayout) trace) := by
  obtain ⟨s, step, -⟩ := malloc_from_start 16 0x200020
    [⟨0x200000, 16, false⟩, ⟨0x200030, 1048496, true⟩] (by decide) (by decide) (by decide)
  exact ⟨s, _, Run.single step, by simp, heap_conserved_iff _ _ _ _ (Run.single step)⟩

/-- One allocation of 1048543 bytes from the 1048544 of a fresh pool loses a byte. -/
theorem heap_not_conserved :
    ¬ ∀ s, Reachable (Step exampleLayout) (start exampleLayout fun _ => 0) s →
    Conserved exampleLayout s := by
  intro conserved
  obtain ⟨s, step, inv⟩ := malloc_from_start 1048543 0x200020
    [⟨0x200000, 1048543, false⟩] (by decide) (by decide) (by decide)
  have sum := inv.conserved_iff.mp (conserved s (Run.single step).reachable)
  exact absurd sum (by decide)

end AurorOS.Heap
