import AurorOS.Phys.Reserved

/-! # Two allocators over one memory

Early allocations move a pointer through a window of physical memory; page
allocations take bits of the bitmap.  Neither looks at the other's bookkeeping, so
their ranges stay apart exactly when no free page lies in the window.
-/

namespace AurorOS.Phys

open Runs

/-- The bytes of an early range. -/
def EarlyGrant.bytes (e : EarlyGrant) : Set Nat := Set.Ico e.addr (e.addr + e.size)

/-- The ranges held are pairwise disjoint, early ranges and page ranges alike. -/
structure RangesDisjoint {arch : Arch} (s : Session arch) : Prop where
  pages : s.live.Pairwise fun g h => Disjoint g.bytes h.bytes
  early : s.early.Pairwise fun d e => Disjoint d.bytes e.bytes
  across : ∀ g ∈ s.live, ∀ e ∈ s.early, Disjoint g.bytes e.bytes

/-- Neither aligning the window's pointer nor adding the size leaves the word. -/
def NoWrap {arch : Arch} (s : Session arch) : Event → Prop
  | .early size alignment =>
      s.phys.earlyAllocPhysPtr + ((if alignment = 0 then 1 else alignment) - 1) < arch.wordSize ∧
        bumpStart s.phys alignment + size < 2 ^ 64
  | _ => True

/-- What is left of the window. -/
def windowBytes {arch : Arch} (phys : PhysMem arch) : Set Nat :=
  Set.Ico phys.earlyAllocPhysPtr phys.earlyAllocPhysEnd

/-- No page but page 0 is both free and in the window. -/
def WindowApart {arch : Arch} (phys : PhysMem arch) : Prop :=
  phys.physBitmap = 0 ∨ ∀ i, 0 < i → pageIsFree phys i = true →
    Disjoint (pageBytes i) (windowBytes phys)

/-- Over every run without wrapping requests the ranges held are disjoint. -/
def StaysDisjoint {arch : Arch} (phys : PhysMem arch) : Prop :=
  ∀ trace s, Run Step (begin phys) trace s → EveryStep NoWrap trace → Always RangesDisjoint trace s

variable {arch : Arch} {M : MultibootMap arch} {initial phys : PhysMem arch} {s s' : Session arch}
  {event : Event} {size alignment b x : Nat}

/-- Early ranges lie between the window's first pointer and the present one. -/
structure WindowInv (initial : PhysMem arch) (s : Session arch) : Prop where
  stop : s.phys.earlyAllocPhysEnd = initial.earlyAllocPhysEnd
  moved : initial.earlyAllocPhysPtr ≤ s.phys.earlyAllocPhysPtr
  inside : ∀ e ∈ s.early, initial.earlyAllocPhysPtr ≤ e.addr ∧
    e.addr + e.size ≤ s.phys.earlyAllocPhysPtr ∧
    e.addr + e.size ≤ initial.earlyAllocPhysEnd
  apart : s.early.Pairwise fun d e => Disjoint d.bytes e.bytes

theorem begin_window (phys : PhysMem arch) : WindowInv phys (begin phys) :=
  ⟨rfl, le_rfl, by simp [begin], List.Pairwise.nil⟩

/-- Aligning up does not move the pointer down. -/
theorem le_bumpStart
    (fits : phys.earlyAllocPhysPtr + ((if alignment = 0 then 1 else alignment) - 1) <
    arch.wordSize) :
    phys.earlyAllocPhysPtr ≤ bumpStart phys alignment := by
  have one := arch.le_wordSize
  have top := arch.wordSize_le
  rw [bumpStart]
  generalize effective : (if alignment = 0 then 1 else alignment) = a at fits
  have low := (Arch.clear_bounds fits (by omega : a - 1 < arch.wordSize)).2
  rw [add64_eq (by omega)]
  omega

theorem WindowInv.step (inv : WindowInv initial s) (permitted : NoWrap s event)
    (taken : Step s event s') :
    WindowInv initial s' := by
  cases taken with
  | @alloc size alignment addr phys word _ result =>
      have setup := physAllocContiguous_setup s.phys alignment word
      rw [result] at setup
      exact ⟨setup.earlyEnd.trans inv.stop, setup.earlyPtr.symm ▸ inv.moved,
        setup.earlyPtr.symm ▸ inv.inside, inv.apart⟩
  | @free g _ =>
      have setup := physFreeContiguous_setup s.phys g.addr g.size
      exact ⟨setup.earlyEnd.trans inv.stop, setup.earlyPtr.symm ▸ inv.moved,
        setup.earlyPtr.symm ▸ inv.inside, inv.apart⟩
  | @early size alignment addr phys _ _ result =>
      rcases earlyPhysAllocPhys_cases s.phys size alignment with ⟨_, eq⟩ | ⟨asked, room, eq⟩
      · obtain ⟨rfl, rfl⟩ := Prod.mk.inj (result.symm.trans eq)
        rw [if_pos rfl]
        exact inv
      · obtain ⟨rfl, rfl⟩ := Prod.mk.inj (result.symm.trans eq)
        have up := le_bumpStart permitted.1
        have moved := inv.moved
        have sum : add64 (bumpStart s.phys alignment) size = bumpStart s.phys alignment + size :=
          add64_eq permitted.2
        rw [sum, inv.stop] at room
        simp only [sum]
        have older : ∀ e ∈ s.early, initial.earlyAllocPhysPtr ≤ e.addr ∧
            e.addr + e.size ≤ bumpStart s.phys alignment + size ∧
            e.addr + e.size ≤ initial.earlyAllocPhysEnd := by
          intro e member
          obtain ⟨above, below, ends⟩ := inv.inside e member
          exact ⟨above, by omega, ends⟩
        by_cases null : bumpStart s.phys alignment = 0
        · rw [if_pos null]
          exact ⟨inv.stop, by simp only; omega, older, inv.apart⟩
        · rw [if_neg null]
          refine ⟨inv.stop, by simp only; omega, ?_, List.pairwise_cons.mpr ⟨?_, inv.apart⟩⟩
          · intro e member
            rcases List.mem_cons.mp member with rfl | old
            · exact ⟨by simp only; omega, le_rfl, room⟩
            · exact older e old
          · intro e member
            have below := (inv.inside e member).2.1
            rw [Set.disjoint_left]
            rintro x ⟨above, _⟩ ⟨_, under⟩
            simp only at above
            omega

theorem Held.disjoint_bytes {g h : Grant} (first : Held initial phys g)
    (second : Held initial phys h) (apart : Disjoint g.pages h.pages) :
    Disjoint g.bytes h.bytes := by
  rw [Set.disjoint_left]
  intro x inFirst inSecond
  exact Finset.disjoint_left.mp apart (first.mem_bytes.mp inFirst) (second.mem_bytes.mp inSecond)

/-- Both invariants together keep the ranges disjoint, if the window and the free
    pages were apart. -/
theorem rangesDisjoint_of_inv (pages : PageInv initial s) (window : WindowInv initial s)
    (avoid : ∀ g ∈ s.live, Disjoint g.bytes (windowBytes initial)) : RangesDisjoint s where
  pages := pages.apart.imp_of_mem fun first second apart =>
    (pages.held _ first).disjoint_bytes (pages.held _ second) apart
  early := window.apart
  across := by
    intro g live e early
    obtain ⟨above, _, ends⟩ := window.inside e early
    rw [Set.disjoint_left]
    rintro x inPages ⟨low, high⟩
    exact Set.disjoint_left.mp (avoid g live) inPages ⟨above.trans low, by omega⟩

/-- An early request with no alignment is placed at the pointer itself. -/
theorem bumpStart_one (word : phys.earlyAllocPhysPtr < arch.wordSize) :
    bumpStart phys 1 = phys.earlyAllocPhysPtr := by
  have top := arch.wordSize_le
  have bounds := Arch.clear_bounds word arch.wordSize_pos
  simp only [bumpStart, Nat.one_ne_zero, if_false, Nat.sub_self]
  rw [add64_eq (by omega)]
  exact le_antisymm bounds.1 bounds.2

/-- The whole window can be taken at once. -/
theorem take_window (initial : PhysMem arch) (ptr : initial.earlyAllocPhysPtr ≠ 0)
    (nonempty : initial.earlyAllocPhysPtr < initial.earlyAllocPhysEnd)
    (word : initial.earlyAllocPhysEnd < arch.wordSize) :
    ∃ event s, Step (begin initial) event s ∧ NoWrap (begin initial) event ∧
      (∃ e ∈ s.early, e.bytes = windowBytes initial) ∧ s.phys.physBitmap = initial.physBitmap ∧
      ∀ k, pageIsFree s.phys k = pageIsFree initial k := by
  have top := arch.wordSize_le
  have one := arch.le_wordSize
  have start : bumpStart initial 1 = initial.earlyAllocPhysPtr := bumpStart_one (by omega)
  obtain ⟨size, whole⟩ := Nat.exists_eq_add_of_lt nonempty
  have sum : add64 initial.earlyAllocPhysPtr (size + 1) = initial.earlyAllocPhysEnd := by
    rw [add64_eq (by omega)]
    omega
  have small : size + 1 < arch.wordSize := by omega
  rcases earlyPhysAllocPhys_cases initial (size + 1) 1 with ⟨refused, _⟩ | ⟨_, _, eq⟩
  · rw [start, sum] at refused
    omega
  · have taken : Step (begin initial) (.early (size + 1) 1) _ := .early small (by omega) eq
    rw [start, if_neg ptr] at taken
    refine ⟨_, _, taken, ⟨?_, ?_⟩, ⟨_, List.mem_cons_self, ?_⟩, rfl, fun _ => rfl⟩
    · simp only [begin, Nat.one_ne_zero, if_false]
      omega
    · simp only [begin, start]
      omega
    · simp only [EarlyGrant.bytes, windowBytes, whole, Nat.add_assoc]

/-- Where the window and a free page meet, one early request and enough requests
    for pages get the same byte twice. -/
theorem overlap_of_meeting (bitmap : initial.physBitmap ≠ 0) {i : Nat} (pos : 0 < i)
    (free : pageIsFree initial i = true) (inPage : x ∈ pageBytes i)
    (inWindow : x ∈ windowBytes initial) (ptr : initial.earlyAllocPhysPtr ≠ 0)
    (word : initial.earlyAllocPhysEnd < arch.wordSize) :
    ∃ trace s, Run Step (begin initial) trace s ∧ EveryStep NoWrap trace ∧ ¬ RangesDisjoint s := by
  obtain ⟨event, s, taken, permitted, ⟨e, early, bytes⟩, bitmap', pages⟩ :=
    take_window initial ptr (inWindow.1.trans_lt inWindow.2) word
  obtain ⟨trace, s', run, sameEarly, allocs, g, live, covers⟩ :=
    hold_page (bitmap' ▸ bitmap) pos ((pages i).trans free) inPage
  refine ⟨_, s', (Run.single taken).append run, ?_, ?_⟩
  · intro entry member
    rcases List.mem_append.mp member with first | later
    · rw [List.mem_singleton.mp first]
      exact permitted
    · rw [allocs entry later]
      trivial
  · intro disjoint
    rw [← bytes] at inWindow
    exact Set.disjoint_left.mp (disjoint.across g live e (sameEarly ▸ early)) covers inWindow

/-- The run lemma, both ways. -/
theorem staysDisjoint_iff (word : initial.earlyAllocPhysEnd < arch.wordSize)
    (unset : initial.earlyAllocPhysPtr = 0 → initial.earlyAllocPhysEnd = 0) :
    StaysDisjoint initial ↔ WindowApart initial := by
  constructor
  · intro stays
    by_contra meet
    obtain ⟨bitmap, meet⟩ := not_or.mp meet
    push Not at meet
    obtain ⟨i, pos, free, meet⟩ := meet
    obtain ⟨x, inPage, inWindow⟩ := Set.not_disjoint_iff.mp meet
    have ptr : initial.earlyAllocPhysPtr ≠ 0 := by
      intro zero
      have := unset zero
      have := inWindow.2
      omega
    obtain ⟨trace, s, run, permitted, overlap⟩ :=
      overlap_of_meeting bitmap pos free inPage inWindow ptr word
    exact overlap (stays trace s run permitted).last
  · intro apart trace s run permitted
    have avoid := (grants_avoid_iff initial (windowBytes initial)).mpr apart
    have both : Always (fun t => Reachable Step (begin initial) t ∧
        WindowInv initial t) trace s := by
      refine run.always_of_steps ?_ ⟨.refl _, begin_window initial⟩ permitted
      rintro t event u ⟨reach, window⟩ permitted taken
      exact ⟨reach.tail taken, window.step permitted taken⟩
    exact both.mono fun t inv => rangesDisjoint_of_inv (reachable_inv inv.1) inv.2 (avoid t inv.1)

/-- The setup leaves a window within the address space that is empty if unset. -/
theorem init_window {phys : PhysMem arch} (ended : M.init = .ok phys) :
    phys.earlyAllocPhysEnd < arch.wordSize ∧
    (phys.earlyAllocPhysPtr = 0 → phys.earlyAllocPhysEnd = 0) := by
  rcases init_cases ended with ⟨_, rfl⟩ | ⟨b, _, ready⟩
  · exact ⟨arch.wordSize_pos, fun _ => rfl⟩
  · exact ⟨ready.window.stop, ready.unset⟩

/-- In terms of the map: no page above page 0 that an available entry frees and the
    bitmap does not take lies in the window picked from the map. -/
def MapApart (M : MultibootMap arch) (b : Nat) : Prop :=
  b = 0 ∨ ∀ i, 0 < i → i < M.sized.physTotalPages → (∃ e ∈ M.entries, e.Frees arch i) →
    ¬ BitmapPage M b i →
    Disjoint (pageBytes i) (Set.Ico (M.window b).1 (M.window b).2)

/-- The two allocators keep apart over every run exactly when the setup leaves no
    free page, page 0 aside, in the window; where the bitmap leaves the map
    untouched this can be told from the map, and with no bitmap it always holds. -/
theorem allocators_apart_iff (arch : Arch) (M : MultibootMap arch) (phys : PhysMem arch)
    (ended : M.init = .ok phys) :
    (StaysDisjoint phys ↔ WindowApart phys) ∧
      (M.place = none → StaysDisjoint phys) ∧
      ∀ b, M.place = some b → M.Untouched b → (StaysDisjoint phys ↔ MapApart M b) := by
  obtain ⟨word, unset⟩ := init_window ended
  have general := staysDisjoint_iff word unset
  refine ⟨general, ?_, ?_⟩
  · intro none
    rcases init_cases ended with ⟨_, rfl⟩ | ⟨b, placed, _⟩
    · exact general.mpr (.inl rfl)
    · rw [none] at placed
      cases placed
  · intro b placed untouched
    obtain ⟨phys', ended', ready, window, free⟩ := init_untouched placed untouched
    obtain rfl := Except.ok.inj (ended'.symm.trans ended)
    have bytes : windowBytes phys' = Set.Ico (M.window b).1 (M.window b).2 := by
      rw [windowBytes, ← window]
    rw [general, WindowApart, MapApart, ready.bitmap, bytes]
    refine or_congr_right (forall_congr' fun i => forall_congr' fun pos => ?_)
    rw [free]
    exact ⟨fun all counted frees other => all ⟨counted, frees, other⟩,
      fun all page => all page.1 page.2.1 page.2.2⟩

theorem allocators_apart_one_region : ∃ phys, (regionMap .x86_64 0x1000 0x7000).init = .ok phys ∧
    (StaysDisjoint phys ↔ MapApart (regionMap .x86_64 0x1000 0x7000) 0x1000) := by
  have placed : (regionMap .x86_64 0x1000 0x7000).place = some 0x1000 := by decide
  obtain ⟨phys, ended⟩ := init_ends (regionMap .x86_64 0x1000 0x7000)
  have spec := allocators_apart_iff _ _ phys ended
  exact ⟨phys, ended, spec.2.2 0x1000 placed (regionMap_untouched .x86_64 0x1000 0x7000 le_rfl)⟩

/-- Of seven available pages the bitmap takes the first; the window is the other
    six, and all of these are free in the bitmap as well. -/
theorem not_allocators_apart :
    ¬ ∀ (M : MultibootMap .x86_64) (phys : PhysMem .x86_64), M.init = .ok phys →
    ∀ s, Reachable Step (begin phys) s → RangesDisjoint s := by
  intro always
  have placed : (regionMap .x86_64 0x1000 0x7000).place = some 0x1000 := by decide
  obtain ⟨phys, ended, ready, window, free⟩ :=
    init_untouched placed (regionMap_untouched .x86_64 0x1000 0x7000 le_rfl)
  have picked : (regionMap .x86_64 0x1000 0x7000).window 0x1000 = (0x2000, 0x8000) := by decide
  obtain ⟨ptr, stop⟩ := Prod.mk.inj (window.trans picked)
  have isFree : pageIsFree phys 2 = true := by
    refine (free 2).mpr ⟨by decide, ⟨_, List.mem_cons_self, by decide⟩, ?_⟩
    rintro ⟨_, below⟩
    exact absurd below (by decide)
  have inWindow : 0x2000 ∈ windowBytes phys := by
    rw [windowBytes, ptr, stop]
    exact ⟨le_rfl, by decide⟩
  have bitmap : phys.physBitmap ≠ 0 := by
    rw [ready.bitmap]
    decide
  obtain ⟨trace, s, run, _, overlap⟩ := overlap_of_meeting bitmap (by decide) isFree
    (mem_pageBytes.mpr rfl) inWindow
    (by rw [ptr]; decide) ready.window.stop
  exact overlap (always _ phys ended s run.reachable)

end AurorOS.Phys
