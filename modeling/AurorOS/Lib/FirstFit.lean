import Mathlib.Tactic

/-! # First-fit block lists with eager coalescing

A pool of storage is a list of blocks in address order.  Each block starts with
a header of `hdr` bytes, followed by `size` payload bytes, and is free or live.
An allocation takes the first free block that is large enough and splits off
what remains if a further header and at least one byte fit there.  A release
marks a block free and merges every two neighbouring free blocks.

Nothing here fixes a memory layout: a concrete allocator refines these lists.
-/

namespace FirstFit

structure Block where
  addr : Nat
  size : Nat
  free : Bool
  deriving DecidableEq, Repr

section Layout

variable (hdr : Nat)

def Block.payload (b : Block) : Nat := b.addr + hdr

def Block.stop (b : Block) : Nat := b.addr + hdr + b.size

/-- Address of the first block of the list, or `next` when the list is empty. -/
def startAddr : List Block → Nat → Nat
  | [], next => next
  | b :: _, _ => b.addr

/-- The blocks lie in `[lo, hi)` in strictly increasing, non-overlapping order. -/
def Laid : Nat → Nat → List Block → Prop
  | lo, hi, [] => lo ≤ hi
  | lo, hi, b :: rest => lo ≤ b.addr ∧ Laid (b.stop hdr) hi rest

/-- Headers and payloads together. -/
def total (bs : List Block) : Nat := (bs.map fun b => hdr + b.size).sum

/-- The live blocks, in address order. -/
def live (bs : List Block) : List Block := bs.filter fun b => !b.free

/-- No two neighbours are both free. -/
def Coalesced (bs : List Block) : Prop := bs.IsChain fun b c => ¬ (b.free = true ∧ c.free = true)

/-- A free block that can hold `n` bytes. -/
def Fits (n : Nat) (b : Block) : Bool := b.free && decide (n ≤ b.size)

/-- What becomes of the free block `b` when `n` of its bytes are handed out. -/
def place (n : Nat) (b : Block) : List Block :=
  if n + hdr < b.size then
    [⟨b.addr, n, false⟩, ⟨b.addr + hdr + n, b.size - n - hdr, true⟩]
  else
    [⟨b.addr, n, false⟩]

/-- First-fit allocation: the payload's address and the new list. -/
def alloc (n : Nat) : List Block → Option (Nat × List Block)
  | [] => none
  | b :: rest =>
      if Fits n b then
        some (b.payload hdr, place hdr n b ++ rest)
      else
        (alloc n rest).map fun r => (r.1, b :: r.2)

/-- The bytes that an allocation of `n` drops from the list's total: those of a
    first fit too small to be split. -/
def lost (n : Nat) (bs : List Block) : Nat :=
  match bs.find? (Fits n) with
  | none => 0
  | some b => if n + hdr < b.size then 0 else b.size - n

/-- Put `b` in front, merging it with the first block if both are free. -/
def joinCons (b : Block) : List Block → List Block
  | [] => [b]
  | c :: rest =>
      if b.free && c.free then { b with size := b.size + (hdr + c.size) } :: rest
      else b :: c :: rest

def coalesce : List Block → List Block
  | [] => []
  | b :: rest => joinCons hdr b (coalesce rest)

/-- Mark the block at `a` free. -/
def mark (a : Nat) (bs : List Block) : List Block :=
  bs.map fun b => if b.addr = a then { b with free := true } else b

def release (a : Nat) (bs : List Block) : List Block := coalesce hdr (mark a bs)

end Layout

variable {hdr lo hi n a : Nat} {b : Block} {bs bs' xs ys : List Block}

@[simp] theorem startAddr_nil (next : Nat) : startAddr [] next = next := rfl

@[simp] theorem startAddr_cons (b : Block) (bs : List Block) (next : Nat) :
    startAddr (b :: bs) next = b.addr := rfl

theorem Laid.bounds (laid : Laid hdr lo hi bs) : lo ≤ hi := by
  induction bs generalizing lo with
  | nil => exact laid
  | cons b rest ih =>
      have := ih laid.2
      simp only [Block.stop] at this
      have := laid.1
      omega

theorem Laid.mono {lo' : Nat} (laid : Laid hdr lo hi bs) (lower : lo' ≤ lo) :
    Laid hdr lo' hi bs := by
  cases bs with
  | nil => exact lower.trans laid
  | cons b rest => exact ⟨lower.trans laid.1, laid.2⟩

theorem Laid.mem (laid : Laid hdr lo hi bs) (member : b ∈ bs) :
    lo ≤ b.addr ∧ b.stop hdr ≤ hi := by
  induction bs generalizing lo with
  | nil => simp at member
  | cons c rest ih =>
      rcases List.mem_cons.mp member with rfl | later
      · exact ⟨laid.1, laid.2.bounds⟩
      · have inRest := ih laid.2 later
        have first := laid.1
        simp only [Block.stop] at inRest ⊢
        omega

theorem Laid.append_iff : Laid hdr lo hi (xs ++ ys) ↔
    ∃ mid, Laid hdr lo mid xs ∧ Laid hdr mid hi ys := by
  induction xs generalizing lo with
  | nil =>
      constructor
      · exact fun laid => ⟨lo, le_rfl, laid⟩
      · rintro ⟨mid, lower, laid⟩
        exact laid.mono lower
  | cons b rest ih =>
      simp only [List.cons_append, Laid, ih]
      constructor
      · rintro ⟨lower, mid, front, back⟩
        exact ⟨mid, ⟨lower, front⟩, back⟩
      · rintro ⟨mid, ⟨lower, front⟩, back⟩
        exact ⟨lower, mid, front, back⟩

/-- A list of blocks with nonempty headers is no longer than the space it lies in. -/
theorem Laid.length_le (pos : 0 < hdr) (laid : Laid hdr lo hi bs) : lo + bs.length ≤ hi := by
  induction bs generalizing lo with
  | nil => exact laid
  | cons b rest ih =>
      have tail := ih laid.2
      have first := laid.1
      simp only [Block.stop, List.length_cons] at tail ⊢
      omega

/-- Blocks are in address order, each ending before the next begins. -/
theorem Laid.pairwise (laid : Laid hdr lo hi bs) :
    bs.Pairwise fun b c => b.stop hdr ≤ c.addr := by
  induction bs generalizing lo with
  | nil => exact .nil
  | cons b rest ih =>
      refine .cons ?_ (ih laid.2)
      intro c member
      exact (laid.2.mem member).1

/-- The address of a block singles it out in the list. -/
theorem Laid.eq_of_addr (pos : 0 < hdr) (laid : Laid hdr lo hi bs) {c : Block}
    (inB : b ∈ bs) (inC : c ∈ bs) (same : b.addr = c.addr) : b = c := by
  induction bs generalizing lo with
  | nil => simp at inB
  | cons d rest ih =>
      have apart : ∀ x ∈ rest, d.addr ≠ x.addr := by
        intro x member
        have := (laid.2.mem member).1
        simp only [Block.stop] at this
        omega
      rcases List.mem_cons.mp inB with headB | tailB <;>
        rcases List.mem_cons.mp inC with headC | tailC
      · rw [headB, headC]
      · exact absurd (headB ▸ same) (apart c tailC)
      · exact absurd (headC ▸ same.symm) (apart b tailB)
      · exact ih laid.2 tailB tailC

/-- What an allocation does, all in one: the list splits at its first fit. -/
theorem alloc_eq_some {p : Nat} (taken : alloc hdr n bs = some (p, bs')) :
    ∃ front b back, bs = front ++ b :: back ∧ (∀ c ∈ front, Fits n c = false) ∧ Fits n b = true ∧
      p = b.payload hdr ∧ bs' = front ++ (place hdr n b ++ back) := by
  induction bs generalizing bs' with
  | nil => simp [alloc] at taken
  | cons c rest ih =>
      by_cases fit : Fits n c = true
      · simp only [alloc, if_pos fit, Option.some.injEq, Prod.mk.injEq] at taken
        exact ⟨[], c, rest, rfl, by simp, fit, taken.1.symm, taken.2.symm⟩
      · simp only [alloc, if_neg fit, Option.map_eq_some_iff] at taken
        obtain ⟨⟨p', tail⟩, found, same⟩ := taken
        obtain ⟨rfl, rfl⟩ := Prod.mk.inj same
        obtain ⟨front, b, back, split, skipped, fits, payload, result⟩ := ih found
        refine ⟨c :: front, b, back, by rw [split, List.cons_append], ?_, fits, payload,
          by rw [result, List.cons_append]⟩
        intro d member
        rcases List.mem_cons.mp member with rfl | inFront
        · exact Bool.eq_false_iff.mpr fit
        · exact skipped d inFront

theorem free_of_fits (fit : Fits n b = true) : b.free = true := by
  simp only [Fits, Bool.and_eq_true] at fit
  exact fit.1

theorem le_of_fits (fit : Fits n b = true) : n ≤ b.size := by
  simp only [Fits, Bool.and_eq_true, decide_eq_true_eq] at fit
  exact fit.2

theorem place_startAddr (hdr n : Nat) (b : Block) (back : List Block) (d : Nat) :
    startAddr (place hdr n b ++ back) d = b.addr := by
  unfold place
  split <;> rfl

theorem place_laid (fits : n ≤ b.size) (lower : lo ≤ b.addr) (laid : Laid hdr (b.stop hdr) hi bs) :
    Laid hdr lo hi (place hdr n b ++ bs) := by
  unfold place
  split
  · refine ⟨lower, le_rfl, laid.mono ?_⟩
    simp only [Block.stop]
    omega
  · refine ⟨lower, laid.mono ?_⟩
    simp only [Block.stop]
    omega

/-- The other way round: the first block that fits is the one taken. -/
theorem alloc_of_split {front back : List Block} (skipped : ∀ c ∈ front, Fits n c = false)
    (fits : Fits n b = true) :
    alloc hdr n (front ++ b :: back) = some (b.payload hdr, front ++ (place hdr n b ++ back)) := by
  induction front with
  | nil => simp only [List.nil_append, alloc, if_pos fits]
  | cons c rest ih =>
      have unfit : ¬ Fits n c = true := Bool.eq_false_iff.mp (skipped c List.mem_cons_self)
      have behind := ih fun d member => skipped d (List.mem_cons_of_mem c member)
      simp only [List.cons_append, alloc, if_neg unfit, behind, Option.map_some]

theorem alloc_laid {p : Nat} (laid : Laid hdr lo hi bs) (taken : alloc hdr n bs = some (p, bs')) :
    Laid hdr lo hi bs' := by
  obtain ⟨front, b, back, rfl, -, fits, -, rfl⟩ := alloc_eq_some taken
  obtain ⟨mid, laidFront, lower, laidBack⟩ := Laid.append_iff.mp laid
  exact Laid.append_iff.mpr ⟨mid, laidFront, place_laid (le_of_fits fits) lower laidBack⟩

theorem alloc_startAddr {p d : Nat} (taken : alloc hdr n bs = some (p, bs')) :
    startAddr bs' d = startAddr bs d := by
  obtain ⟨front, b, back, rfl, -, -, -, rfl⟩ := alloc_eq_some taken
  cases front with
  | nil => exact place_startAddr hdr n b back d
  | cons c rest => rfl

theorem alloc_coalesced {p : Nat} (separate : Coalesced bs)
    (taken : alloc hdr n bs = some (p, bs')) : Coalesced bs' := by
  obtain ⟨front, b, back, rfl, -, fits, -, rfl⟩ := alloc_eq_some taken
  have isFree := free_of_fits fits
  obtain ⟨chainFront, chainTail, border⟩ := List.isChain_append.mp separate
  have chainBack : Coalesced back := chainTail.tail
  have backHead : ∀ c ∈ back.head?, c.free = false := by
    intro c member
    have := chainTail.rel_head? member
    simpa [isFree] using this
  refine List.isChain_append.mpr ⟨chainFront, ?_, ?_⟩
  · unfold place
    split
    · refine List.IsChain.cons_cons (by simp) (List.isChain_cons.mpr ⟨?_, chainBack⟩)
      intro c member
      simp [backHead c member]
    · refine List.isChain_cons.mpr ⟨?_, chainBack⟩
      intro c _
      simp
  · intro c member d first
    have : d.free = false := by
      unfold place at first
      split at first <;> simp at first <;> simp [← first]
    simp [this]

@[simp] theorem total_nil : total hdr [] = 0 := rfl

theorem total_append : total hdr (xs ++ ys) = total hdr xs + total hdr ys := by
  simp [total]

theorem total_cons : total hdr (b :: bs) = hdr + b.size + total hdr bs := by
  simp [total]

theorem lost_of_split {front back : List Block} (skipped : ∀ c ∈ front, Fits n c = false)
    (fits : Fits n b = true) :
    lost hdr n (front ++ b :: back) = if n + hdr < b.size then 0 else b.size - n := by
  have noneInFront : front.find? (Fits n) = none := by
    rw [List.find?_eq_none]
    intro c member
    simp [skipped c member]
  simp [lost, List.find?_append, noneInFront, fits]

/-- An allocation keeps the list's total but for what its first fit loses. -/
theorem alloc_total {p : Nat} (taken : alloc hdr n bs = some (p, bs')) :
    total hdr bs' + lost hdr n bs = total hdr bs := by
  obtain ⟨front, b, back, rfl, skipped, fits, -, rfl⟩ := alloc_eq_some taken
  have room := le_of_fits fits
  rw [lost_of_split skipped fits]
  unfold place
  split <;> simp only [total_append, total_cons, total_nil] <;> omega

theorem live_cons : live (b :: bs) = if b.free then live bs else b :: live bs := by
  cases free : b.free <;> simp [live, free]

theorem live_append : live (xs ++ ys) = live xs ++ live ys := by
  simp [live]

/-- An allocation adds one live block, of exactly the size asked for. -/
theorem alloc_live {p : Nat} (taken : alloc hdr n bs = some (p, bs')) :
    ∃ b ∈ bs, b.free = true ∧ n ≤ b.size ∧ p = b.payload hdr ∧
      (live bs').Perm (⟨b.addr, n, false⟩ :: live bs) := by
  obtain ⟨front, b, back, rfl, -, fits, rfl, rfl⟩ := alloc_eq_some taken
  refine ⟨b, by simp, free_of_fits fits, le_of_fits fits, rfl, ?_⟩
  have placed : live (place hdr n b) = [⟨b.addr, n, false⟩] := by
    unfold place
    split <;> rfl
  have skipB : live (b :: back) = live back := by
    simp [live, free_of_fits fits]
  rw [live_append, live_append, live_append, placed, skipB]
  exact List.perm_middle

theorem joinCons_startAddr (hdr : Nat) (b : Block) (bs : List Block) (d : Nat) :
    startAddr (joinCons hdr b bs) d = b.addr := by
  cases bs with
  | nil => rfl
  | cons c rest =>
      simp only [joinCons]
      split <;> rfl

theorem joinCons_eq_cons (hdr : Nat) (b : Block) (bs : List Block) :
    ∃ size rest, joinCons hdr b bs = { b with size := size } :: rest := by
  cases bs with
  | nil => exact ⟨b.size, [], rfl⟩
  | cons c rest =>
      simp only [joinCons]
      split
      · exact ⟨_, rest, rfl⟩
      · exact ⟨b.size, c :: rest, rfl⟩

/-- Joining brings in no new address. -/
theorem mem_joinCons {c : Block} (member : c ∈ joinCons hdr b bs) : c.addr = b.addr ∨ c ∈ bs := by
  cases bs with
  | nil => exact .inl (by rw [List.mem_singleton.mp member])
  | cons d rest =>
      rw [joinCons] at member
      split at member
      · rcases List.mem_cons.mp member with rfl | behind
        · exact .inl rfl
        · exact .inr (List.mem_cons_of_mem d behind)
      · rcases List.mem_cons.mp member with rfl | behind
        · exact .inl rfl
        · exact .inr behind

theorem joinCons_laid (lower : lo ≤ b.addr) (laid : Laid hdr (b.stop hdr) hi bs) :
    Laid hdr lo hi (joinCons hdr b bs) := by
  cases bs with
  | nil => exact ⟨lower, laid⟩
  | cons c rest =>
      simp only [joinCons]
      split
      · refine ⟨lower, laid.2.mono ?_⟩
        have := laid.1
        simp only [Block.stop] at this ⊢
        omega
      · exact ⟨lower, laid⟩

theorem joinCons_total : total hdr (joinCons hdr b bs) = total hdr (b :: bs) := by
  cases bs with
  | nil => rfl
  | cons c rest =>
      simp only [joinCons]
      split
      · simp only [total_cons]
        omega
      · rfl

theorem joinCons_live : live (joinCons hdr b bs) = live (b :: bs) := by
  cases bs with
  | nil => rfl
  | cons c rest =>
      simp only [joinCons]
      split
      · rename_i both
        obtain ⟨freeB, freeC⟩ := (Bool.and_eq_true _ _).mp both
        simp [live, freeB, freeC]
      · rfl

theorem joinCons_coalesced (separate : Coalesced bs) : Coalesced (joinCons hdr b bs) := by
  cases bs with
  | nil => exact List.isChain_singleton _
  | cons c rest =>
      simp only [joinCons]
      split
      · rename_i both
        obtain ⟨freeB, freeC⟩ := (Bool.and_eq_true _ _).mp both
        obtain ⟨border, chain⟩ := List.isChain_cons.mp separate
        refine List.isChain_cons.mpr ⟨?_, chain⟩
        intro d first
        simpa [freeB, freeC] using border d first
      · rename_i notBoth
        exact List.IsChain.cons_cons (by simpa using notBoth) separate

theorem joinCons_of_separate (border : ¬ (b.free = true ∧ (bs.head?.any (·.free)) = true)) :
    joinCons hdr b bs = b :: bs := by
  cases bs with
  | nil => rfl
  | cons c rest => simp_all [joinCons]

theorem coalesce_startAddr (hdr : Nat) (bs : List Block) (d : Nat) :
    startAddr (coalesce hdr bs) d = startAddr bs d := by
  cases bs with
  | nil => rfl
  | cons b rest => exact joinCons_startAddr hdr b _ d

theorem coalesce_laid (laid : Laid hdr lo hi bs) : Laid hdr lo hi (coalesce hdr bs) := by
  induction bs generalizing lo with
  | nil => exact laid
  | cons b rest ih => exact joinCons_laid laid.1 (ih laid.2)

theorem mem_coalesce {c : Block} (member : c ∈ coalesce hdr bs) : ∃ d ∈ bs, d.addr = c.addr := by
  induction bs with
  | nil => simp [coalesce] at member
  | cons b rest ih =>
      rcases mem_joinCons member with addr | behind
      · exact ⟨b, List.mem_cons_self, addr.symm⟩
      · obtain ⟨d, inRest, addr⟩ := ih behind
        exact ⟨d, List.mem_cons_of_mem b inRest, addr⟩

theorem coalesce_total (hdr : Nat) (bs : List Block) :
    total hdr (coalesce hdr bs) = total hdr bs := by
  induction bs with
  | nil => rfl
  | cons b rest ih =>
      rw [coalesce, joinCons_total, total_cons, total_cons, ih]

theorem coalesce_live (hdr : Nat) (bs : List Block) : live (coalesce hdr bs) = live bs := by
  induction bs with
  | nil => rfl
  | cons b rest ih =>
      rw [coalesce, joinCons_live, live_cons, live_cons, ih]

theorem Coalesced.rest (separate : Coalesced (b :: bs)) : Coalesced bs := separate.tail

theorem coalesce_coalesced (hdr : Nat) (bs : List Block) : Coalesced (coalesce hdr bs) := by
  induction bs with
  | nil => exact List.isChain_nil
  | cons b rest ih => exact joinCons_coalesced ih

/-- Nothing is left to do on a coalesced list. -/
theorem coalesce_eq_self (separate : Coalesced bs) : coalesce hdr bs = bs := by
  induction bs with
  | nil => rfl
  | cons b rest ih =>
      rw [coalesce, ih separate.tail]
      apply joinCons_of_separate
      cases rest with
      | nil => simp
      | cons c rest' => simpa using (List.isChain_cons_cons.mp separate).1

/-- Freeing one block of a coalesced list merges at most its two neighbours. -/
theorem coalesce_middle {q : Block} (separateFront : Coalesced (xs ++ [q]))
    (separateBack : Coalesced ys) :
    coalesce hdr (xs ++ q :: b :: ys) = xs ++ joinCons hdr q (joinCons hdr b ys) := by
  induction xs with
  | nil => simp only [List.nil_append, coalesce, coalesce_eq_self separateBack]
  | cons c rest ih =>
      rw [List.cons_append, coalesce, ih separateFront.tail]
      apply joinCons_of_separate
      cases rest with
      | nil =>
          have border := (List.isChain_cons_cons.mp separateFront).1
          have first : (joinCons hdr q (joinCons hdr b ys)).head?.any (·.free) = q.free := by
            cases joinCons hdr b ys with
            | nil => rfl
            | cons d rest' =>
                simp only [joinCons]
                split <;> rfl
          simpa [first] using border
      | cons d rest' => simpa using (List.isChain_cons_cons.mp separateFront).1

theorem mark_startAddr (a : Nat) (bs : List Block) (d : Nat) :
    startAddr (mark a bs) d = startAddr bs d := by
  cases bs with
  | nil => rfl
  | cons b rest =>
      simp only [mark, List.map_cons, startAddr]
      split <;> rfl

theorem mark_laid (laid : Laid hdr lo hi bs) : Laid hdr lo hi (mark a bs) := by
  induction bs generalizing lo with
  | nil => exact laid
  | cons b rest ih =>
      have tail := ih laid.2
      by_cases here : b.addr = a
      · simp only [mark, List.map_cons, if_pos here]
        exact ⟨laid.1, tail⟩
      · simp only [mark, List.map_cons, if_neg here]
        exact ⟨laid.1, tail⟩

theorem mark_total (a : Nat) (bs : List Block) : total hdr (mark a bs) = total hdr bs := by
  simp only [total, mark, List.map_map]
  congr 1
  apply List.map_congr_left
  intro b _
  simp only [Function.comp]
  split <;> rfl

theorem mark_live (a : Nat) (bs : List Block) :
    live (mark a bs) = (live bs).filter fun b => b.addr ≠ a := by
  induction bs with
  | nil => rfl
  | cons b rest ih =>
      rw [mark] at ih
      rw [mark, List.map_cons, live_cons, live_cons, ih]
      by_cases here : b.addr = a <;> cases free : b.free <;> simp [here, free]

/-- With only the block at `a` marked, the rest of the list stands as it was. -/
theorem mark_middle {ys : List Block} (front : ∀ c ∈ xs, c.addr ≠ b.addr)
    (back : ∀ c ∈ ys, c.addr ≠ b.addr) :
    mark b.addr (xs ++ b :: ys) = xs ++ { b with free := true } :: ys := by
  have untouched : ∀ {zs : List Block}, (∀ c ∈ zs, c.addr ≠ b.addr) →
      zs.map (fun c => if c.addr = b.addr then { c with free := true } else c) = zs := by
    intro zs distinct
    conv_rhs => rw [← List.map_id zs]
    apply List.map_congr_left
    intro c member
    simp [distinct c member]
  simp only [mark, List.map_append, List.map_cons, if_pos, untouched front, untouched back]

/-- Releasing the first block of a coalesced list merges it with the block behind. -/
theorem release_first (laid : Laid hdr lo hi (b :: ys)) (pos : 0 < hdr)
    (separate : Coalesced (b :: ys)) :
    release hdr b.addr (b :: ys) = joinCons hdr { b with free := true } ys := by
  have back : ∀ c ∈ ys, c.addr ≠ b.addr := by
    intro c member
    have := (laid.2.mem member).1
    simp only [Block.stop] at this
    omega
  have marked : mark b.addr ([] ++ b :: ys) = [] ++ { b with free := true } :: ys :=
    mark_middle (by simp) back
  simp only [List.nil_append] at marked
  rw [release, marked, coalesce, coalesce_eq_self separate.rest]

/-- Releasing a block further on merges it with both neighbours. -/
theorem release_middle {q : Block} (laid : Laid hdr lo hi (xs ++ q :: b :: ys)) (pos : 0 < hdr)
    (separate : Coalesced (xs ++ q :: b :: ys)) :
    release hdr b.addr (xs ++ q :: b :: ys) =
      xs ++ joinCons hdr q (joinCons hdr { b with free := true } ys) := by
  have order := laid.pairwise
  rw [show xs ++ q :: b :: ys = (xs ++ [q]) ++ b :: ys by simp] at order separate ⊢
  obtain ⟨_, orderTail, across⟩ := List.pairwise_append.mp order
  have front : ∀ c ∈ xs ++ [q], c.addr ≠ b.addr := by
    intro c member
    have := across c member b (by simp)
    simp only [Block.stop] at this
    omega
  have back : ∀ c ∈ ys, c.addr ≠ b.addr := by
    intro c member
    have := (List.pairwise_cons.mp orderTail).1 c member
    simp only [Block.stop] at this
    omega
  obtain ⟨separateFront, separateTail, _⟩ := List.isChain_append.mp separate
  rw [release, mark_middle front back,
    show (xs ++ [q]) ++ { b with free := true } :: ys =
    xs ++ q :: { b with free := true } :: ys by simp]
  exact coalesce_middle separateFront (Coalesced.rest separateTail)

theorem release_startAddr (hdr a : Nat) (bs : List Block) (d : Nat) :
    startAddr (release hdr a bs) d = startAddr bs d := by
  rw [release, coalesce_startAddr, mark_startAddr]

theorem release_laid (laid : Laid hdr lo hi bs) : Laid hdr lo hi (release hdr a bs) :=
  coalesce_laid (mark_laid laid)

theorem release_total (hdr a : Nat) (bs : List Block) :
    total hdr (release hdr a bs) = total hdr bs := by
  rw [release, coalesce_total, mark_total]

theorem release_live (hdr a : Nat) (bs : List Block) :
    live (release hdr a bs) = (live bs).filter fun b => b.addr ≠ a := by
  rw [release, coalesce_live, mark_live]

/-- A release brings in no new address. -/
theorem mem_release {c : Block} (member : c ∈ release hdr a bs) : ∃ d ∈ bs, d.addr = c.addr := by
  obtain ⟨marked, inMarked, addr⟩ := mem_coalesce member
  obtain ⟨d, inBlocks, rfl⟩ := List.mem_map.mp inMarked
  refine ⟨d, inBlocks, ?_⟩
  rw [← addr]
  split <;> rfl

theorem release_coalesced (hdr a : Nat) (bs : List Block) : Coalesced (release hdr a bs) :=
  coalesce_coalesced hdr _

/-- A coalesced list without live blocks is a single free block. -/
theorem eq_singleton_of_coalesced (separate : Coalesced bs) (dead : live bs = []) (some : bs ≠ []) :
    ∃ b, bs = [b] ∧ b.free = true := by
  have allFree : ∀ b ∈ bs, b.free = true := by
    intro b member
    by_contra notFree
    have : b ∈ live bs := List.mem_filter.mpr ⟨member, by simpa using notFree⟩
    simp [dead] at this
  match bs, some with
  | [b], _ => exact ⟨b, rfl, allFree b (by simp)⟩
  | b :: c :: rest, _ =>
      have border := (List.isChain_cons_cons.mp separate).1
      exact absurd ⟨allFree b (by simp), allFree c (by simp)⟩ border

end FirstFit
