import AurorOS.Heap.Representation

/-! # `malloc` and `free` refine first fit with coalescing

The byte-level functions are followed pointer by pointer.  Where memory holds a
block list, `mallocLoop` computes `FirstFit.alloc` of it and `free` computes
`FirstFit.release`; bytes outside the headers of the lists never change.
-/

namespace AurorOS.Heap

open ByteMemory FirstFit

variable {arch : Arch} {m m' : Mem} {prev lo hi n : Nat} {b q : Block} {bs rest xs ys : List Block}

theorem startAddr_lt (seg : Seg arch m prev (b :: rest) 0) : startAddr rest 0 < arch.wordSize := by
  rw [← seg.1.next]
  exact get_lt arch m b.addr .next

/-- A header for what is left of `b` behind its first `n` bytes, with `next` hung
    behind it. -/
def carve (arch : Arch) (m : Mem) (b : Block) (n next : Nat) : Mem :=
  let new := b.addr + sizeofMemoryBlock arch + n
  relink arch (writeHeader arch m new (b.size - n - sizeofMemoryBlock arch) next b.addr true)
    next new

section Split

variable (seg : Seg arch m prev (b :: rest) 0)
  (laid : Laid (sizeofMemoryBlock arch) lo hi (b :: rest)) (pos : 0 < lo) (top : hi ≤ arch.wordSize)
  (room : n + sizeofMemoryBlock arch < b.size)

include seg laid pos top room

theorem takeBlock_eq_carve : takeBlock arch m b.addr n =
    set arch (set arch
      (set arch (carve arch m b n (startAddr rest 0)) b.addr .next
        (b.addr + sizeofMemoryBlock arch + n)) b.addr .size n) b.addr .free 0 := by
  have header := seg.1
  have lower := laid.1
  have upper := laid.2.bounds
  simp only [Block.stop] at upper
  have sum : arch.add n (sizeofMemoryBlock arch) = n + sizeofMemoryBlock arch :=
    Arch.add_eq (by omega)
  have payload : arch.add b.addr (sizeofMemoryBlock arch) = b.addr + sizeofMemoryBlock arch :=
    Arch.add_eq (by omega)
  have place : arch.add (arch.add b.addr (sizeofMemoryBlock arch)) n =
      b.addr + sizeofMemoryBlock arch + n := by
    rw [payload, Arch.add_eq (by omega)]
  have remaining : arch.sub b.size n = b.size - n := Arch.sub_eq (by omega) (by omega)
  have leftover : arch.sub (arch.sub b.size n) (sizeofMemoryBlock arch) =
      b.size - n - sizeofMemoryBlock arch := by
    rw [remaining, Arch.sub_eq (by omega) (by omega)]
  have readB : ∀ m v f g,
      get arch (set arch m (b.addr + sizeofMemoryBlock arch + n) f v) b.addr g =
      get arch m b.addr g :=
    fun m v f g => get_set_apart arch m v f g (.inl (by omega))
  simp only [takeBlock, readB, header.size, header.next, sum, place, leftover, if_pos room,
    gt_iff_lt, carve, writeHeader, Bool.toNat_true]

/-- The new block heads the rest, and the old header is still as it was. -/
theorem carve_seg :
    let carved := carve arch m b n (startAddr rest 0)
    HeaderIs arch carved b.addr b.size (startAddr rest 0) prev b.free ∧
      Seg arch carved b.addr
        (⟨b.addr + sizeofMemoryBlock arch + n, b.size - n - sizeofMemoryBlock arch, true⟩ :: rest)
          0 := by
  have lower := laid.1
  have upper := laid.2.bounds
  simp only [Block.stop] at upper
  let new := b.addr + sizeofMemoryBlock arch + n
  have newBelow : new + sizeofMemoryBlock arch ≤ b.stop (sizeofMemoryBlock arch) := by
    simp only [new, Block.stop]
    omega
  let built :=
    writeHeader arch m new (b.size - n - sizeofMemoryBlock arch) (startAddr rest 0) b.addr true
  have builtAgree : ∀ {lo' hi' : Nat}, hi' ≤ new ∨ new + sizeofMemoryBlock arch ≤ lo' →
      AgreeOn m built lo' hi' := by
    intro lo' hi' outside x above below
    exact writeHeader_frame arch m new _ _ _ _ (by omega)
  have newHeader : HeaderIs arch built new (b.size - n - sizeofMemoryBlock arch)
      (startAddr rest 0) b.addr true :=
    writeHeader_is arch m new true (by omega) (startAddr_lt seg) (by omega)
  have builtRest : Seg arch built b.addr rest 0 :=
    seg.2.congr_of_laid laid.2 (builtAgree (.inr newBelow))
  have inFront : b.addr + sizeofMemoryBlock arch ≤ b.stop (sizeofMemoryBlock arch) := by
    simp only [Block.stop]
    omega
  refine ⟨?_, ?_, ?_⟩
  · exact (seg.1.congr (builtAgree (.inl (by omega)))).congr (relink_agreeOn laid.2 (.inl inFront))
  · exact newHeader.congr (relink_agreeOn laid.2 (.inl newBelow))
  · exact relink_seg laid.2 (by omega) (by omega) builtRest

/-- The body of `malloc`'s loop when the rest of the block is split off. -/
theorem takeBlock_split :
    let new := b.addr + sizeofMemoryBlock arch + n
    let left := b.size - n - sizeofMemoryBlock arch
    Seg arch (takeBlock arch m b.addr n) prev (⟨b.addr, n, false⟩ :: ⟨new, left, true⟩ :: rest) 0 ∧
      ∀ x, ¬ InHeader arch (b :: rest) x → ¬ (new ≤ x ∧ x < new + sizeofMemoryBlock arch) →
        takeBlock arch m b.addr n x = m x := by
  intro new left
  have lower := laid.1
  have upper := laid.2.bounds
  simp only [Block.stop] at upper
  have value := takeBlock_eq_carve seg laid pos top room
  obtain ⟨headerB, headerNew, segRest⟩ := carve_seg seg laid pos top room
  -- the three writes that follow stay inside the header of `b`
  have agree : ∀ {lo' hi' : Nat}, b.addr + sizeofMemoryBlock arch ≤ lo' →
      AgreeOn (carve arch m b n (startAddr rest 0)) (takeBlock arch m b.addr n) lo' hi' := by
    intro lo' hi' above
    rw [value]
    exact ((set_agreeOn arch _ b.addr _ _ (.inr above)).trans
      (set_agreeOn arch _ b.addr _ _ (.inr above))).trans (set_agreeOn arch _ b.addr _ _
      (.inr above))
  refine ⟨⟨?_, ?_, ?_⟩, ?_⟩
  · rw [value]
    exact ((headerB.setNext (by omega)).setSize (by omega)).setFree false
  · exact headerNew.congr (agree (Nat.le_add_right _ n))
  · exact segRest.congr_of_laid laid.2 (agree (by simp only [Block.stop]; omega))
  · intro x outside outsideNew
    rw [inHeader_cons, not_or] at outside
    have carved : carve arch m b n (startAddr rest 0) x = m x :=
      (relink_frame outside.2).trans (writeHeader_frame arch m new _ _ _ _ outsideNew)
    rw [value, set_frame _ _ _ _ _ outside.1, set_frame _ _ _ _ _ outside.1,
      set_frame _ _ _ _ _ outside.1, carved]

end Split

/-- The body of `malloc`'s loop when the block is handed out whole. -/
theorem takeBlock_whole (seg : Seg arch m prev (b :: rest) 0)
    (laid : Laid (sizeofMemoryBlock arch) lo hi (b :: rest)) (pos : 0 < lo)
    (top : hi ≤ arch.wordSize) (fits : n ≤ b.size) (tight : ¬ n + sizeofMemoryBlock arch < b.size) :
    Seg arch (takeBlock arch m b.addr n) prev (⟨b.addr, n, false⟩ :: rest) 0 ∧
      ∀ x, ¬ InHeader arch (b :: rest) x → takeBlock arch m b.addr n x = m x := by
  have header := seg.1
  have lower := laid.1
  have upper := laid.2.bounds
  simp only [Block.stop] at upper
  have sum : arch.add n (sizeofMemoryBlock arch) = n + sizeofMemoryBlock arch :=
    Arch.add_eq (by omega)
  have value : takeBlock arch m b.addr n =
      set arch (set arch m b.addr .size n) b.addr .free 0 := by
    simp only [takeBlock, header.size, sum, gt_iff_lt, if_neg tight]
  have finalAgree : AgreeOn m (takeBlock arch m b.addr n) (b.stop (sizeofMemoryBlock arch)) hi := by
    rw [value]
    have above : hi ≤ b.addr ∨ b.addr + sizeofMemoryBlock arch ≤ b.stop (sizeofMemoryBlock arch) :=
      Or.inr (by simp only [Block.stop]; omega)
    exact (set_agreeOn arch m b.addr _ _ above).trans (set_agreeOn arch _ b.addr _ _ above)
  refine ⟨⟨?_, seg.2.congr_of_laid laid.2 finalAgree⟩, ?_⟩
  · rw [value]
    exact (header.setSize (v := n) (by omega)).setFree false
  · intro x outside
    rw [inHeader_cons, not_or] at outside
    rw [value, set_frame _ _ _ _ _ outside.1, set_frame _ _ _ _ _ outside.1]

theorem takeBlock_seg (seg : Seg arch m prev (b :: rest) 0)
    (laid : Laid (sizeofMemoryBlock arch) lo hi (b :: rest)) (pos : 0 < lo)
    (top : hi ≤ arch.wordSize) (fits : n ≤ b.size) :
    let placed := place (sizeofMemoryBlock arch) n b ++ rest
    Seg arch (takeBlock arch m b.addr n) prev placed 0 ∧
      FrameOf arch m (takeBlock arch m b.addr n) (b :: rest) placed := by
  unfold place
  split
  · rename_i room
    obtain ⟨split, frame⟩ := takeBlock_split seg laid pos top room
    refine ⟨split, ?_⟩
    intro x outside outsideNew
    simp only [List.cons_append, List.nil_append, inHeader_cons, not_or] at outsideNew
    exact frame x outside outsideNew.2.1
  · rename_i tight
    obtain ⟨whole, frame⟩ := takeBlock_whole seg laid pos top fits tight
    exact ⟨whole, fun x outside _ => frame x outside⟩

/-- The search loop computes first fit, from any point of the list on. -/
theorem mallocLoop_refines (seg : Seg arch m prev bs 0)
    (laid : Laid (sizeofMemoryBlock arch) lo hi bs) (pos : 0 < lo) (top : hi ≤ arch.wordSize)
    (asked : 0 < n) {fuel : Nat} (enough : bs.length < fuel) :
    match alloc (sizeofMemoryBlock arch) n bs with
    | none => mallocLoop arch m n fuel (startAddr bs 0) =
        .error (.kernelpanic "OUT_OF_MEMORY" "There is no sufficient memory for allocation.")
    | some (p, bs') => ∃ m', mallocLoop arch m n fuel (startAddr bs 0) = .ok (p, m') ∧
        Seg arch m' prev bs' 0 ∧ FrameOf arch m m' bs bs' := by
  induction bs generalizing prev lo fuel with
  | nil =>
      obtain ⟨fuel, rfl⟩ : ∃ k, fuel = k + 1 := ⟨fuel - 1, by simp at enough; omega⟩
      rfl
  | cons b rest ih =>
      obtain ⟨fuel, rfl⟩ : ∃ k, fuel = k + 1 := ⟨fuel - 1, by simp at enough; omega⟩
      have header := seg.1
      have lower := laid.1
      have upper := laid.2.bounds
      simp only [Block.stop] at upper
      have notNull : b.addr ≠ 0 := by omega
      have enoughRest : rest.length < fuel := by simpa using enough
      have test : (get arch m b.addr .free ≠ 0 ∧ get arch m b.addr .size ≥ n) ↔
          Fits n b = true := by
        rw [header.free_iff, header.size]
        simp [Fits]
      by_cases fit : Fits n b = true
      · obtain ⟨placed, frame⟩ := takeBlock_seg seg laid pos top (le_of_fits fit)
        have payload : arch.add b.addr (sizeofMemoryBlock arch) =
            b.payload (sizeofMemoryBlock arch) :=
          Arch.add_eq (by have := le_of_fits fit; omega)
        simp only [alloc, if_pos fit, startAddr_cons, mallocLoop, if_neg notNull,
          if_pos (test.mpr fit), payload]
        exact ⟨_, rfl, placed, frame⟩
      · have skip := ih seg.2 laid.2 (by simp only [Block.stop]; omega) enoughRest
        simp only [alloc, if_neg fit, startAddr_cons, mallocLoop, if_neg notNull,
          if_neg (mt test.mp fit), header.next]
        cases found : alloc (sizeofMemoryBlock arch) n rest with
        | none => simpa only [found, Option.map_none] using skip
        | some result =>
            obtain ⟨p, rest'⟩ := result
            simp only [found] at skip
            obtain ⟨m', value, segRest, frame⟩ := skip
            have laidRest := alloc_laid laid.2 found
            have sameHeader : AgreeOn m m' b.addr (b.addr + sizeofMemoryBlock arch) := by
              intro x above below
              have before : x < b.stop (sizeofMemoryBlock arch) ∨ hi ≤ x :=
                Or.inl (by simp only [Block.stop]; omega)
              exact frame x (not_inHeader_of_laid laid.2 before)
                (not_inHeader_of_laid laidRest before)
            refine ⟨m', value, ⟨?_, segRest⟩, ?_⟩
            · rw [alloc_startAddr found]
              exact header.congr sameHeader
            · intro x outside outside'
              rw [inHeader_cons, not_or] at outside outside'
              exact frame x outside.2 outside'.2

/-- `q` counts in `c`, the block behind it, and points to `next`, the one after that. -/
def widen (arch : Arch) (m : Mem) (q c : Block) (next : Nat) : Mem :=
  set arch (set arch m q.addr .size (q.size + (sizeofMemoryBlock arch + c.size))) q.addr .next next

section Absorb

variable {c : Block} (seg : Seg arch m prev (q :: c :: ys) 0)
  (laid : Laid (sizeofMemoryBlock arch) lo hi (q :: c :: ys))
  (top : hi ≤ arch.wordSize)

include laid top

theorem absorbed_size : q.size + (sizeofMemoryBlock arch + c.size) < arch.wordSize ∧
    arch.add q.size (arch.add (sizeofMemoryBlock arch) c.size) =
    q.size + (sizeofMemoryBlock arch + c.size) := by
  have behind := laid.2.1
  have upper := laid.2.2.bounds
  have size_pos := sizeofMemoryBlock_pos arch
  simp only [Block.stop] at behind upper
  refine ⟨by omega, ?_⟩
  rw [Arch.add_eq (by omega : sizeofMemoryBlock arch + c.size < arch.wordSize),
    Arch.add_eq (by omega)]

include seg

theorem widen_header : HeaderIs arch (widen arch m q c (startAddr ys 0)) q.addr
    (q.size + (sizeofMemoryBlock arch + c.size)) (startAddr ys 0) prev q.free :=
  (seg.1.setSize (absorbed_size laid top).1).setNext (startAddr_lt seg.2)

/-- Both merges end alike: the front header has been widened, and what follows is
    hung behind it. -/
theorem absorb_seg (pos : 0 < lo) :
    let absorbed := relink arch (widen arch m q c (startAddr ys 0)) (startAddr ys 0) q.addr
    Seg arch absorbed prev (⟨q.addr, q.size + (sizeofMemoryBlock arch + c.size), q.free⟩ :: ys) 0 ∧
      Relinked arch (q :: c :: ys) m absorbed := by
  have lower := laid.1
  have between := laid.2.1
  have upper := laid.2.2.bounds
  have size_pos := sizeofMemoryBlock_pos arch
  simp only [Block.stop] at between upper
  have behind : AgreeOn m (widen arch m q c (startAddr ys 0)) (c.stop (sizeofMemoryBlock arch))
      hi := by
    have above : hi ≤ q.addr ∨ q.addr + sizeofMemoryBlock arch ≤ c.stop (sizeofMemoryBlock arch) :=
      Or.inr (by simp only [Block.stop]; omega)
    exact (set_agreeOn arch m q.addr _ _ above).trans (set_agreeOn arch _ q.addr _ _ above)
  have tail : Seg arch (widen arch m q c (startAddr ys 0)) c.addr ys 0 :=
    seg.2.2.congr_of_laid laid.2.2 behind
  refine ⟨⟨?_, ?_⟩, ?_⟩
  · refine (widen_header seg laid top).congr (relink_agreeOn laid.2.2 (.inl ?_))
    simp only [Block.stop]
    omega
  · exact relink_seg laid.2.2 (by simp only [Block.stop]; omega) (by omega) tail
  · have widened : Relinked arch (q :: c :: ys) m (widen arch m q c (startAddr ys 0)) :=
      (relinked_set _ List.mem_cons_self (by decide)).trans
        (relinked_set _ List.mem_cons_self (by decide))
    refine widened.trans ((relinked_relink _ ys q.addr).of_subset ?_)
    exact fun b member => List.mem_cons_of_mem _ (List.mem_cons_of_mem _ member)

end Absorb

/-- The merge with the block behind is `joinCons` of a free block. -/
theorem mergeNext_seg (seg : Seg arch m prev (b :: rest) 0)
    (laid : Laid (sizeofMemoryBlock arch) lo hi (b :: rest)) (pos : 0 < lo)
    (top : hi ≤ arch.wordSize) (isFree : b.free = true) :
    Seg arch (mergeNext arch m b.addr) prev (joinCons (sizeofMemoryBlock arch) b rest) 0 ∧
      Relinked arch (b :: rest) m (mergeNext arch m b.addr) := by
  have header := seg.1
  have next := header.next
  cases rest with
  | nil =>
      have unchanged : mergeNext arch m b.addr = m := by
        rw [startAddr_nil] at next
        simp [mergeNext, next]
      rw [unchanged]
      exact ⟨seg, .refl arch _ m⟩
  | cons c ys =>
      have headerC := seg.2.1
      have lower := laid.1
      have lowerC := laid.2.1
      simp only [Block.stop] at lowerC
      have notNull : c.addr ≠ 0 := by omega
      rw [startAddr_cons] at next
      by_cases freeC : c.free = true
      · have readC : ∀ m v f g, get arch (set arch m b.addr f v) c.addr g = get arch m c.addr g :=
          fun m v f g => get_set_apart arch m v f g (.inr (by omega))
        obtain ⟨fits, sum⟩ := absorbed_size laid top
        have value : mergeNext arch m b.addr =
            relink arch (widen arch m b c (startAddr ys 0)) (startAddr ys 0) b.addr := by
          have sized := header.setSize fits
          have isFreeC : get arch m c.addr .free ≠ 0 := headerC.free_iff.mpr freeC
          simp only [mergeNext, next, header.size, headerC.size, sum, sized.next,
            startAddr_cons, readC, headerC.next, ne_eq, notNull, not_false_eq_true, isFreeC,
            and_self, if_true]
          exact congrArg (fun n => relink arch _ n b.addr) (widen_header seg laid top).next
        rw [joinCons, if_pos (by simp [isFree, freeC]), value]
        exact absorb_seg seg laid top pos
      · have unchanged : mergeNext arch m b.addr = m := by
          have notFree := not_not.mp (mt headerC.free_iff.mp freeC)
          simp [mergeNext, next, notFree]
        rw [joinCons, if_neg (by simp [freeC]), unchanged]
        exact ⟨seg, .refl arch _ m⟩

/-- The merge into the block in front is `joinCons` of that block. -/
theorem mergePrev_seg (seg : Seg arch m prev (q :: b :: ys) 0)
    (laid : Laid (sizeofMemoryBlock arch) lo hi (q :: b :: ys)) (pos : 0 < lo)
    (top : hi ≤ arch.wordSize) (isFree : b.free = true) :
    Seg arch (mergePrev arch m b.addr) prev (joinCons (sizeofMemoryBlock arch) q (b :: ys)) 0 ∧
      Relinked arch (q :: b :: ys) m (mergePrev arch m b.addr) := by
  have header := seg.1
  have headerB := seg.2.1
  have lower := laid.1
  have lowerB := laid.2.1
  simp only [Block.stop] at lowerB
  have notNull : q.addr ≠ 0 := by omega
  have front := headerB.prev
  by_cases freeQ : q.free = true
  · have readB : ∀ m v f g, get arch (set arch m q.addr f v) b.addr g = get arch m b.addr g :=
      fun m v f g => get_set_apart arch m v f g (.inr (by omega))
    have value : mergePrev arch m b.addr =
        relink arch (widen arch m q b (startAddr ys 0)) (startAddr ys 0) q.addr := by
      have isFreeQ : get arch m q.addr .free ≠ 0 := header.free_iff.mpr freeQ
      simp only [mergePrev, front, header.size, headerB.size, (absorbed_size laid top).2, readB,
        headerB.next, ne_eq, notNull, not_false_eq_true, isFreeQ, and_self, if_true, widen]
    rw [joinCons, if_pos (by simp [isFree, freeQ]), value]
    exact absorb_seg seg laid top pos
  · have unchanged : mergePrev arch m b.addr = m := by
      have notFree := not_not.mp (mt header.free_iff.mp freeQ)
      simp [mergePrev, front, notFree]
    rw [joinCons, if_neg (by simp [freeQ]), unchanged]
    exact ⟨seg, .refl arch _ m⟩

/-- Raising the flag of one block, in place. -/
theorem setFree_seg (seg : Seg arch m prev (b :: rest) 0)
    (laid : Laid (sizeofMemoryBlock arch) lo hi (b :: rest)) :
    Seg arch (set arch m b.addr .free 1) prev ({ b with free := true } :: rest) 0 := by
  refine ⟨seg.1.setFree true, seg.2.congr_of_laid laid.2 ?_⟩
  exact set_agreeOn arch m b.addr 1 .free (.inr (by simp only [Block.stop]; omega))

/-- Blocks laid out below `mid` do not notice what happens to headers above it. -/
theorem agreeOn_front {mid : Nat} (laid : Laid (sizeofMemoryBlock arch) lo mid xs)
    (laidTail : Laid (sizeofMemoryBlock arch) mid hi ys)
    (frame : ∀ x, ¬ InHeader arch ys x → m' x = m x) :
    ∀ b ∈ xs, AgreeOn m m' b.addr (b.addr + sizeofMemoryBlock arch) := by
  intro b member x above below
  have inside := laid.mem member
  simp only [Block.stop] at inside
  exact frame x (not_inHeader_of_laid laidTail (.inl (by omega)))

/-- Raising the flag of a block and merging it with the one behind. -/
theorem raise_merge (seg : Seg arch m prev (b :: ys) 0)
    (laid : Laid (sizeofMemoryBlock arch) lo hi (b :: ys)) (pos : 0 < lo)
    (top : hi ≤ arch.wordSize) :
    let merged := mergeNext arch (set arch m b.addr .free 1) b.addr
    Seg arch merged prev (joinCons (sizeofMemoryBlock arch) { b with free := true } ys) 0 ∧
      Relinked arch (b :: ys) (set arch m b.addr .free 1) merged := by
  have laidRaised : Laid (sizeofMemoryBlock arch) lo hi ({ b with free := true } :: ys) := laid
  obtain ⟨merged, links⟩ := mergeNext_seg (setFree_seg seg laid) laidRaised pos top rfl
  refine ⟨merged, links.mono fun c member => ?_⟩
  rcases List.mem_cons.mp member with rfl | behind
  · exact ⟨b, List.mem_cons_self, rfl⟩
  · exact ⟨c, List.mem_cons_of_mem b behind, rfl⟩

/-- Bytes outside the headers when a flag has been raised and links have changed. -/
theorem Relinked.raised (links : Relinked arch bs (set arch m b.addr .free 1) m')
    (member : b ∈ bs) :
    ∀ x, ¬ InHeader arch bs x → m' x = m x := by
  intro x outside
  exact (links.frame x outside).trans
    (set_frame arch m b.addr 1 .free fun inside => outside ⟨b, member, inside⟩)

/-- A free block merges into the one in front, where it has already absorbed the one
    behind. -/
theorem mergePrev_joined (laid : Laid (sizeofMemoryBlock arch) lo hi (q :: b :: ys)) (pos : 0 < lo)
    (top : hi ≤ arch.wordSize) (header : HeaderIs arch m q.addr q.size b.addr prev q.free)
    (joined : Seg arch m q.addr (joinCons (sizeofMemoryBlock arch) { b with free := true } ys) 0) :
    Seg arch (mergePrev arch m b.addr) prev
        (joinCons (sizeofMemoryBlock arch) q
          (joinCons (sizeofMemoryBlock arch) { b with free := true } ys)) 0 ∧
      Relinked arch (q :: b :: ys) m (mergePrev arch m b.addr) := by
  have laidRaised :
    Laid (sizeofMemoryBlock arch) (q.stop (sizeofMemoryBlock arch)) hi
      ({ b with free := true } :: ys) :=
    laid.2
  have laidJoined := joinCons_laid laidRaised.1 laidRaised.2
  obtain ⟨size, zs, shape⟩ := joinCons_eq_cons (sizeofMemoryBlock arch) { b with free := true } ys
  have among : ∀ c ∈ { b with size := size, free := true } :: zs, c.addr = b.addr ∨ c ∈ ys :=
    fun c member => mem_joinCons (b := { b with free := true }) (shape ▸ member)
  rw [shape] at joined laidJoined ⊢
  have pair : Seg arch m prev (q :: { b with size := size, free := true } :: zs) 0 :=
    ⟨header, joined⟩
  have laidPair : Laid (sizeofMemoryBlock arch) lo hi
      (q :: { b with size := size, free := true } :: zs) :=
    ⟨laid.1, laidJoined⟩
  obtain ⟨merged, links⟩ := mergePrev_seg pair laidPair pos top rfl
  refine ⟨merged, links.mono fun c member => ?_⟩
  rcases List.mem_cons.mp member with rfl | behind
  · exact ⟨c, List.mem_cons_self, rfl⟩
  · rcases among c behind with addr | later
    · exact ⟨b, List.mem_cons_of_mem q List.mem_cons_self, addr.symm⟩
    · exact ⟨c, List.mem_cons_of_mem q (List.mem_cons_of_mem b later), rfl⟩

/-- `free` of a live block is three changes of memory. -/
theorem free_eq {L : Layout} {h : State} (ready : h.memoryAlreadyInitialized = true)
    (header : get L.arch h.mem b.addr .free = 0) (nonnull : 0 < b.addr)
    (below : b.addr + sizeofMemoryBlock L.arch < L.arch.wordSize) :
    free L h (b.payload (sizeofMemoryBlock L.arch)) =
      { h with
        mem := mergePrev L.arch (mergeNext L.arch (set L.arch h.mem b.addr .free 1) b.addr)
          b.addr } := by
  have block : L.arch.sub (b.payload (sizeofMemoryBlock L.arch)) (sizeofMemoryBlock L.arch) =
      b.addr := by
    rw [Block.payload, Arch.sub_eq (by omega) (by omega), Nat.add_sub_cancel]
  have notNull : b.payload (sizeofMemoryBlock L.arch) ≠ 0 := by
    simp only [Block.payload]
    omega
  simp [free, notNull, ready, block, header]

/-- `free` of a live block's payload releases that block. -/
theorem free_refines {L : Layout} {h : State} (ready : h.memoryAlreadyInitialized = true)
    (seg : Seg L.arch h.mem 0 bs 0) (laid : Laid (sizeofMemoryBlock L.arch) lo hi bs)
    (pos : 0 < lo) (top : hi ≤ L.arch.wordSize) (separate : Coalesced bs)
    (member : b ∈ bs) (used : b.free = false) (sized : 0 < b.size) :
    ∃ m', free L h (b.payload (sizeofMemoryBlock L.arch)) = { h with mem := m' } ∧
      Seg L.arch m' 0 (release (sizeofMemoryBlock L.arch) b.addr bs) 0 ∧
      Relinked L.arch bs (set L.arch h.mem b.addr .free 1) m' := by
  have inside := laid.mem member
  simp only [Block.stop] at inside
  have size_pos := sizeofMemoryBlock_pos L.arch
  obtain ⟨xs, ys, rfl⟩ := List.append_of_mem member
  obtain ⟨mid, laidFront, laidTail⟩ := Laid.append_iff.mp laid
  obtain ⟨segFront, segTail⟩ := seg_append.mp seg
  have midPos : 0 < mid := pos.trans_le laidFront.bounds
  have live : get L.arch h.mem b.addr .free = 0 := by
    rw [segTail.1.free, used]
    rfl
  refine ⟨_, free_eq ready live (by omega) (by omega), ?_⟩
  obtain ⟨joined, links⟩ := raise_merge segTail laidTail midPos top
  have frame := links.raised List.mem_cons_self
  generalize mergeNext L.arch (set L.arch h.mem b.addr .free 1) b.addr =
    merged at joined links frame ⊢
  rcases List.eq_nil_or_concat xs with rfl | ⟨xs', q, rfl⟩
  · have none : get L.arch merged b.addr .prev = 0 := by
      obtain ⟨size, zs, shape⟩ :=
        joinCons_eq_cons (sizeofMemoryBlock L.arch) { b with free := true } ys
      rw [shape] at joined
      exact joined.1.prev
    have last : mergePrev L.arch merged b.addr = merged := by
      simp [mergePrev, none]
    rw [last, List.nil_append, release_first laidTail size_pos separate]
    exact ⟨joined, links⟩
  · rw [List.concat_eq_append] at *
    rw [List.append_assoc] at seg separate laid ⊢
    simp only [List.cons_append, List.nil_append] at seg separate laid ⊢
    obtain ⟨low, laidXs, laidQ⟩ := Laid.append_iff.mp laidFront
    obtain ⟨segXs, segQ⟩ := seg_append.mp segFront
    have laidTriple : Laid (sizeofMemoryBlock L.arch) low hi (q :: b :: ys) :=
      ⟨laidQ.1, laidTail.mono laidQ.2⟩
    have endQ : endAddr (endAddr 0 xs') [q] = q.addr := rfl
    rw [endAddr_append, endQ] at joined
    have headerQ := segQ.1.congr (agreeOn_front laidFront laidTail frame q (by simp))
    obtain ⟨final, finalLinks⟩ :=
      mergePrev_joined laidTriple (pos.trans_le laidXs.bounds) top headerQ joined
    have total : Relinked L.arch (q :: b :: ys) (set L.arch h.mem b.addr .free 1)
        (mergePrev L.arch merged b.addr) :=
      (links.of_subset fun c behind => List.mem_cons_of_mem q behind).trans finalLinks
    have tailFrame := total.raised (List.mem_cons_of_mem q List.mem_cons_self)
    rw [release_middle laid size_pos separate]
    refine ⟨seg.replace_tail final (joinCons_startAddr _ q _ 0)
      (agreeOn_front laidXs laidTriple tailFrame), ?_⟩
    exact total.of_subset fun c behind => List.mem_append_right xs' behind

end AurorOS.Heap
