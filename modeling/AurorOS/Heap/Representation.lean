import AurorOS.Heap.Model
import AurorOS.Lib.FirstFit

/-! # Block lists in memory

`Seg m prev bs next` says that memory holds the list `bs`: each block's header
carries its size, its flag, the address of the block in front and the address of
the block behind.  The lemmas here transport that fact through each pointer
update that `malloc` and `free` make; `Heap.Simulation` composes them.
-/

namespace AurorOS.Heap

open ByteMemory FirstFit

/-- The header at `a` has these fields. -/
structure HeaderIs (arch : Arch) (m : Mem) (a size next prev : Nat) (isFree : Bool) : Prop where
  size : get arch m a .size = size
  next : get arch m a .next = next
  prev : get arch m a .prev = prev
  free : get arch m a .free = isFree.toNat

/-- Memory holds `bs` as a doubly linked segment between `prev` and `next`. -/
def Seg (arch : Arch) (m : Mem) : Nat → List Block → Nat → Prop
  | _, [], _ => True
  | prev, b :: rest, next =>
      HeaderIs arch m b.addr b.size (startAddr rest next) prev b.free ∧ Seg arch m b.addr rest next

/-- Address of the last block of the list, or `prev` when the list is empty. -/
def endAddr : Nat → List Block → Nat
  | prev, [] => prev
  | _, b :: rest => endAddr b.addr rest

/-- `x` is a byte of some block's header. -/
def InHeader (arch : Arch) (bs : List Block) (x : Nat) : Prop :=
  ∃ b ∈ bs, b.addr ≤ x ∧ x < b.addr + sizeofMemoryBlock arch

/-- Outside the headers of `bs` and `bs'` nothing changed. -/
def FrameOf (arch : Arch) (m m' : Mem) (bs bs' : List Block) : Prop :=
  ∀ x, ¬ InHeader arch bs x → ¬ InHeader arch bs' x → m' x = m x

variable {arch : Arch} {m m' : Mem} {prev next lo hi a : Nat} {b c : Block} {bs xs ys : List Block}

theorem HeaderIs.congr {size next prev : Nat} {isFree : Bool}
    (header : HeaderIs arch m a size next prev isFree)
    (same : AgreeOn m m' a (a + sizeofMemoryBlock arch)) :
    HeaderIs arch m' a size next prev isFree where
  size := (get_congr .size same).trans header.size
  next := (get_congr .next same).trans header.next
  prev := (get_congr .prev same).trans header.prev
  free := (get_congr .free same).trans header.free

theorem HeaderIs.free_iff {size next prev : Nat} {isFree : Bool}
    (header : HeaderIs arch m a size next prev isFree) :
    get arch m a .free ≠ 0 ↔ isFree = true := by
  rw [header.free]
  cases isFree <;> simp

theorem Seg.congr (seg : Seg arch m prev bs next)
    (same : ∀ b ∈ bs, AgreeOn m m' b.addr (b.addr + sizeofMemoryBlock arch)) :
    Seg arch m' prev bs next := by
  induction bs generalizing prev with
  | nil => trivial
  | cons b rest ih =>
      refine ⟨seg.1.congr (same b (by simp)), ih seg.2 ?_⟩
      intro c member
      exact same c (List.mem_cons_of_mem b member)

/-- A change below or above the region a segment is laid out in does not reach it. -/
theorem Seg.congr_of_laid (seg : Seg arch m prev bs next)
    (laid : Laid (sizeofMemoryBlock arch) lo hi bs) (same : AgreeOn m m' lo hi) :
    Seg arch m' prev bs next := by
  apply seg.congr
  intro b member
  have inside := laid.mem member
  simp only [Block.stop] at inside
  exact same.mono inside.1 (by omega)

theorem seg_append : Seg arch m prev (xs ++ ys) next ↔
    Seg arch m prev xs (startAddr ys next) ∧ Seg arch m (endAddr prev xs) ys next := by
  induction xs generalizing prev with
  | nil => simp [Seg, endAddr]
  | cons b rest ih =>
      have sameStart : startAddr (rest ++ ys) next = startAddr rest (startAddr ys next) := by
        cases rest <;> rfl
      simp only [List.cons_append, Seg, endAddr, ih, sameStart, and_assoc]

/-- Replace the tail of a list: memory changes behind `xs`, the tail starts where
    it started. -/
theorem Seg.replace_tail {ys' : List Block} (seg : Seg arch m prev (xs ++ ys) next)
    (tail : Seg arch m' (endAddr prev xs) ys' next) (start : startAddr ys' next = startAddr ys next)
    (same : ∀ b ∈ xs, AgreeOn m m' b.addr (b.addr + sizeofMemoryBlock arch)) :
    Seg arch m' prev (xs ++ ys') next := by
  have front := (seg_append.mp seg).1.congr same
  exact seg_append.mpr ⟨by rw [start]; exact front, tail⟩

theorem endAddr_append (prev : Nat) (xs ys : List Block) :
    endAddr prev (xs ++ ys) = endAddr (endAddr prev xs) ys := by
  induction xs generalizing prev with
  | nil => rfl
  | cons b rest ih => exact ih b.addr

theorem not_inHeader_of_laid {x : Nat} (laid : Laid (sizeofMemoryBlock arch) lo hi bs)
    (outside : x < lo ∨ hi ≤ x) : ¬ InHeader arch bs x := by
  rintro ⟨b, member, above, below⟩
  have inside := laid.mem member
  simp only [Block.stop] at inside
  omega

theorem inHeader_cons {x : Nat} : InHeader arch (b :: bs) x ↔
    (b.addr ≤ x ∧ x < b.addr + sizeofMemoryBlock arch) ∨ InHeader arch bs x := by
  simp only [InHeader, List.mem_cons, or_and_right, exists_or, exists_eq_left]

/-- A store to one block's header reaches no byte outside it. -/
theorem set_frame (arch : Arch) (m : Mem) (a v : Nat) (f : Field) {x : Nat}
    (outside : ¬ (a ≤ x ∧ x < a + sizeofMemoryBlock arch)) : set arch m a f v x = m x :=
  set_outside arch m a v f (by omega)

theorem flag_lt (arch : Arch) (flag : Bool) : flag.toNat < Field.limit arch .free := by
  cases flag <;> norm_num [Field.limit]

theorem HeaderIs.setSize {size next prev v : Nat} {isFree : Bool}
    (header : HeaderIs arch m a size next prev isFree) (fits : v < arch.wordSize) :
    HeaderIs arch (set arch m a .size v) a v next prev isFree where
  size := get_set_same arch m a .size fits
  next := (get_set_ne arch m a v (by decide)).trans header.next
  prev := (get_set_ne arch m a v (by decide)).trans header.prev
  free := (get_set_ne arch m a v (by decide)).trans header.free

theorem HeaderIs.setNext {size next prev v : Nat} {isFree : Bool}
    (header : HeaderIs arch m a size next prev isFree) (fits : v < arch.wordSize) :
    HeaderIs arch (set arch m a .next v) a size v prev isFree where
  size := (get_set_ne arch m a v (by decide)).trans header.size
  next := get_set_same arch m a .next fits
  prev := (get_set_ne arch m a v (by decide)).trans header.prev
  free := (get_set_ne arch m a v (by decide)).trans header.free

theorem HeaderIs.setPrev {size next prev v : Nat} {isFree : Bool}
    (header : HeaderIs arch m a size next prev isFree) (fits : v < arch.wordSize) :
    HeaderIs arch (set arch m a .prev v) a size next v isFree where
  size := (get_set_ne arch m a v (by decide)).trans header.size
  next := (get_set_ne arch m a v (by decide)).trans header.next
  prev := get_set_same arch m a .prev fits
  free := (get_set_ne arch m a v (by decide)).trans header.free

theorem HeaderIs.setFree {size next prev : Nat} {isFree : Bool}
    (header : HeaderIs arch m a size next prev isFree) (flag : Bool) :
    HeaderIs arch (set arch m a .free flag.toNat) a size next prev flag where
  size := (get_set_ne arch m a _ (by decide)).trans header.size
  next := (get_set_ne arch m a _ (by decide)).trans header.next
  prev := (get_set_ne arch m a _ (by decide)).trans header.prev
  free := get_set_same arch m a .free (flag_lt arch flag)

/-- All four fields of the header at `a`, in the order `malloc` writes them. -/
def writeHeader (arch : Arch) (m : Mem) (a size next prev : Nat) (flag : Bool) : Mem :=
  set arch (set arch (set arch (set arch m a .size size) a .next next) a .prev prev) a .free
    flag.toNat

theorem writeHeader_is (arch : Arch) (m : Mem) (a : Nat) {size next prev : Nat} (flag : Bool)
    (fitsSize : size < arch.wordSize) (fitsNext : next < arch.wordSize)
    (fitsPrev : prev < arch.wordSize) :
    HeaderIs arch (writeHeader arch m a size next prev flag) a size next prev flag where
  size := by
    rw [writeHeader, get_set_ne _ _ _ _ (by decide), get_set_ne _ _ _ _ (by decide),
      get_set_ne _ _ _ _ (by decide), get_set_same _ _ _ _ fitsSize]
  next := by
    rw [writeHeader, get_set_ne _ _ _ _ (by decide), get_set_ne _ _ _ _ (by decide),
      get_set_same _ _ _ _ fitsNext]
  prev := by
    rw [writeHeader, get_set_ne _ _ _ _ (by decide), get_set_same _ _ _ _ fitsPrev]
  free := get_set_same _ _ _ _ (flag_lt arch flag)

theorem writeHeader_frame (arch : Arch) (m : Mem) (a size next prev : Nat) (flag : Bool) {x : Nat}
    (outside : ¬ (a ≤ x ∧ x < a + sizeofMemoryBlock arch)) :
    writeHeader arch m a size next prev flag x = m x := by
  rw [writeHeader, set_frame _ _ _ _ _ outside, set_frame _ _ _ _ _ outside,
    set_frame _ _ _ _ _ outside, set_frame _ _ _ _ _ outside]

/-- `if (next) next->prev = p;` hangs the segment behind `p`. -/
theorem relink_seg {p : Nat} (laid : Laid (sizeofMemoryBlock arch) lo hi bs) (pos : 0 < lo)
    (fits : p < arch.wordSize) (seg : Seg arch m prev bs 0) :
    Seg arch (relink arch m (startAddr bs 0) p) p bs 0 := by
  cases bs with
  | nil => trivial
  | cons b rest =>
      have notNull : b.addr ≠ 0 := by
        have := laid.1
        omega
      rw [startAddr, relink, if_pos notNull]
      refine ⟨seg.1.setPrev fits, ?_⟩
      apply seg.2.congr_of_laid laid.2
      exact set_agreeOn arch m b.addr p .prev (by simp only [Block.stop]; omega)

theorem relink_frame {p x : Nat} (outside : ¬ InHeader arch bs x) :
    relink arch m (startAddr bs 0) p x = m x := by
  cases bs with
  | nil => rfl
  | cons b rest =>
      rw [startAddr, relink]
      split
      · exact set_frame arch m b.addr p .prev (fun inside => outside ⟨b, by simp, inside⟩)
      · rfl

theorem relink_agreeOn {p : Nat} (laid : Laid (sizeofMemoryBlock arch) lo hi bs) {lo' hi' : Nat}
    (apart : hi' ≤ lo ∨ hi ≤ lo') : AgreeOn m (relink arch m (startAddr bs 0) p) lo' hi' := by
  intro x above below
  exact relink_frame (not_inHeader_of_laid laid (by omega))

/-- The header at `h` is that of a block of the list, or overlaps none of theirs. -/
def Beside (arch : Arch) (bs : List Block) (h : Nat) : Prop :=
  ∀ c ∈ bs, h = c.addr ∨ h + sizeofMemoryBlock arch ≤ c.addr ∨ c.addr + sizeofMemoryBlock arch ≤ h

/-- Nothing changed but headers of `bs`, and no flag. -/
structure Relinked (arch : Arch) (bs : List Block) (m m' : Mem) : Prop where
  frame : ∀ x, ¬ InHeader arch bs x → m' x = m x
  flags : ∀ h, Beside arch bs h → get arch m' h .free = get arch m h .free

theorem Relinked.refl (arch : Arch) (bs : List Block) (m : Mem) : Relinked arch bs m m :=
  ⟨fun _ _ => rfl, fun _ _ => rfl⟩

theorem Relinked.trans {m'' : Mem} (first : Relinked arch bs m m')
    (second : Relinked arch bs m' m'') :
    Relinked arch bs m m'' where
  frame := fun x outside => (second.frame x outside).trans (first.frame x outside)
  flags := fun h beside => (second.flags h beside).trans (first.flags h beside)

/-- More headers may change than do. -/
theorem Relinked.mono (same : Relinked arch xs m m') (among : ∀ b ∈ xs, ∃ c ∈ ys, c.addr = b.addr) :
    Relinked arch ys m m' where
  frame := by
    intro x outside
    refine same.frame x ?_
    rintro ⟨b, member, inside⟩
    obtain ⟨c, inYs, addr⟩ := among b member
    exact outside ⟨c, inYs, addr ▸ inside⟩
  flags := by
    intro h beside
    refine same.flags h fun b member => ?_
    obtain ⟨c, inYs, addr⟩ := among b member
    exact addr ▸ beside c inYs

theorem Relinked.of_subset (same : Relinked arch xs m m') (subset : ∀ b ∈ xs, b ∈ ys) :
    Relinked arch ys m m' :=
  same.mono fun b member => ⟨b, subset b member, rfl⟩

theorem relinked_set {f : Field} (v : Nat) (member : b ∈ bs) (link : f ≠ .free) :
    Relinked arch bs m (set arch m b.addr f v) where
  frame := fun _ outside => set_frame arch m b.addr v f fun inside => outside ⟨b, member, inside⟩
  flags := by
    intro h beside
    rcases beside b member with rfl | apart
    · exact get_set_ne arch m b.addr v link
    · exact get_set_apart arch m v f .free apart

theorem relinked_relink (m : Mem) (bs : List Block) (p : Nat) :
    Relinked arch bs m (relink arch m (startAddr bs 0) p) := by
  cases bs with
  | nil => exact .refl arch [] m
  | cons b rest =>
      rw [startAddr, relink]
      split
      · exact relinked_set p List.mem_cons_self (by decide)
      · exact .refl arch _ m

end AurorOS.Heap
