import AurorOS.Lib.Runs
import AurorOS.Phys.Pages
import Mathlib.Order.CompletePartialOrder
import Mathlib.Order.Interval.Finset.Nat

/-! # Runs of the page allocator

A session is the state of the allocators together with the ranges their clients
hold.  Clients request pages with any size and alignment, hand back page ranges
they hold with the size they asked for, and make early allocations.  The
invariant ties the bits of the bitmap to the ranges held.
-/

namespace AurorOS.Phys

open PageRuns Runs

/-- A nonzero result of `phys_alloc_contiguous` and what was asked for. -/
structure Grant where
  addr : Nat
  size : Nat
  alignment : Nat
  deriving DecidableEq, Repr

/-- The pages of a grant. -/
def Grant.pages (g : Grant) : Finset Nat :=
  Finset.Ico (g.addr / pmPageSize) (g.addr / pmPageSize + pagesOf g.size)

/-- A nonzero result of `early_phys_alloc_phys` and its size. -/
structure EarlyGrant where
  addr : Nat
  size : Nat
  deriving DecidableEq, Repr

structure Session (arch : Arch) where
  phys : PhysMem arch
  live : List Grant
  early : List EarlyGrant

inductive Event where
  | alloc (size alignment : Nat)
  | free (g : Grant)
  | early (size alignment : Nat)

variable {arch : Arch}

/-- Sizes and alignments are of type `size_t`; only held ranges are freed. -/
inductive Step : Session arch → Event → Session arch → Prop where
  | alloc {s size alignment addr phys} : size < arch.wordSize → alignment < arch.wordSize →
      physAllocContiguous s.phys size alignment = (addr, phys) →
      Step s (.alloc size alignment)
        ⟨phys, if addr = 0 then s.live else ⟨addr, size, alignment⟩ :: s.live, s.early⟩
  | free {s g} : g ∈ s.live →
      Step s (.free g) ⟨physFreeContiguous s.phys g.addr g.size, s.live.erase g, s.early⟩
  | early {s size alignment addr phys} : size < arch.wordSize → alignment < arch.wordSize →
      earlyPhysAllocPhys s.phys size alignment = (addr, phys) →
      Step s (.early size alignment)
        ⟨phys, s.live, if addr = 0 then s.early else ⟨addr, size⟩ :: s.early⟩

/-- Nothing is held yet. -/
def begin (phys : PhysMem arch) : Session arch := ⟨phys, [], []⟩

/-- What holds of a range while it is held, with respect to the bitmap that the
    session began with and the present one. -/
structure Held (initial now : PhysMem arch) (g : Grant) : Prop where
  bitmap : initial.physBitmap ≠ 0
  nonzero : g.addr ≠ 0
  pageAddr : pmPageSize ∣ g.addr
  asked : 0 < g.size
  fits : g.size + (pmPageSize - 1) < arch.wordSize
  aligned : effectiveAlignment g.alignment ∣ g.addr
  below : g.addr / pmPageSize + pagesOf g.size ≤ initial.physTotalPages
  wasFree : ∀ k ∈ g.pages, pageIsFree initial k = true
  isUsed : ∀ k ∈ g.pages, pageIsFree now k = false

structure PageInv (initial : PhysMem arch) (s : Session arch) : Prop where
  bitmap : s.phys.physBitmap = initial.physBitmap
  total : s.phys.physTotalPages = initial.physTotalPages
  held : ∀ g ∈ s.live, Held initial s.phys g
  apart : s.live.Pairwise fun g h => Disjoint g.pages h.pages
  shrinks : ∀ k, pageIsFree s.phys k = true → pageIsFree initial k = true

variable {initial phys : PhysMem arch} {s s' : Session arch} {event : Event} {g h : Grant}
  {size alignment i k : Nat}

theorem begin_inv (phys : PhysMem arch) : PageInv phys (begin phys) :=
  ⟨rfl, rfl, by simp [begin], List.Pairwise.nil, fun _ free => free⟩

theorem mem_pages :
    k ∈ g.pages ↔ g.addr / pmPageSize ≤ k ∧ k < g.addr / pmPageSize + pagesOf g.size :=
  Finset.mem_Ico

theorem card_pages (g : Grant) : g.pages.card = pagesOf g.size := by
  rw [Grant.pages, Nat.card_Ico, Nat.add_sub_cancel_left]

/-- The range that starts at page `i`. -/
def grantAt (i size alignment : Nat) : Grant := ⟨i * pmPageSize, size, alignment⟩

theorem mem_pages_grantAt :
    k ∈ (grantAt i size alignment).pages ↔ i ≤ k ∧ k < i + pagesOf size := by
  rw [mem_pages, grantAt, Nat.mul_div_cancel _ (by decide)]

/-- Where an early request is placed: the window's pointer, aligned up. -/
def bumpStart (phys : PhysMem arch) (alignment : Nat) : Nat :=
  let alignment := if alignment = 0 then 1 else alignment
  arch.clear (add64 phys.earlyAllocPhysPtr (alignment - 1)) (alignment - 1)

/-- An early request fails with nothing changed, or moves the window's pointer
    past the range it returns. -/
theorem earlyPhysAllocPhys_cases (phys : PhysMem arch) (size alignment : Nat) :
    ((size = 0 ∨ phys.earlyAllocPhysEnd < add64 (bumpStart phys alignment) size) ∧
      earlyPhysAllocPhys phys size alignment = (0, phys)) ∨
    (0 < size ∧ add64 (bumpStart phys alignment) size ≤ phys.earlyAllocPhysEnd ∧
      earlyPhysAllocPhys phys size alignment = (bumpStart phys alignment,
        { phys with earlyAllocPhysPtr := add64 (bumpStart phys alignment) size })) := by
  rw [earlyPhysAllocPhys]
  by_cases nothing : size = 0
  · exact .inl ⟨.inl nothing, if_pos nothing⟩
  · rw [if_neg nothing]
    by_cases full : add64 (bumpStart phys alignment) size > phys.earlyAllocPhysEnd
    · exact .inl ⟨.inr full, if_pos full⟩
    · exact .inr ⟨by omega, by omega, if_neg full⟩

/-- Early allocations leave the pages and the window's end alone. -/
theorem early_setup (phys : PhysMem arch) (size alignment : Nat) :
    (earlyPhysAllocPhys phys size alignment).2.physBitmap = phys.physBitmap ∧
      (earlyPhysAllocPhys phys size alignment).2.physTotalPages = phys.physTotalPages ∧
      (earlyPhysAllocPhys phys size alignment).2.earlyAllocPhysEnd = phys.earlyAllocPhysEnd ∧
      ∀ k, pageIsFree (earlyPhysAllocPhys phys size alignment).2 k = pageIsFree phys k := by
  rcases earlyPhysAllocPhys_cases phys size alignment with ⟨_, eq⟩ | ⟨_, _, eq⟩
  · rw [eq]
    exact ⟨rfl, rfl, rfl, fun _ => rfl⟩
  · rw [eq]
    exact ⟨rfl, rfl, rfl, fun _ => rfl⟩

/-- A request that fits below the page count does not wrap when rounded up. -/
theorem Grantable.fits (grant : Grantable phys size alignment i) :
    size + (pmPageSize - 1) < arch.wordSize := by
  obtain ⟨count, whole⟩ := arch.page_dvd_wordSize
  have fit := phys.pagesFit
  have below := grant.below
  simp only [pagesOf, pmPageSize] at below fit ⊢
  omega

/-- The pages a request is granted were free. -/
theorem Grantable.pages_free (grant : Grantable phys size alignment i) {k : Nat}
    (inside : k ∈ (grantAt i size alignment).pages) : pageIsFree phys k = true := by
  obtain ⟨above, below⟩ := mem_pages_grantAt.mp inside
  obtain ⟨j, rfl⟩ := Nat.exists_eq_add_of_le above
  exact grant.run j (by omega)

theorem Held.mono (held : Held initial phys g) {later : PhysMem arch}
    (used : ∀ k ∈ g.pages, pageIsFree later k = false) : Held initial later g :=
  { held with isUsed := used }

/-- Marking pages used takes nothing from a held range. -/
theorem Held.after_mark (held : Held initial phys g) (grant : Grantable phys size alignment i) :
    Held initial (markLoop phys i (pagesOf size) 0) g := by
  refine held.mono fun k inside => ?_
  rw [Bool.eq_false_iff]
  intro free
  have before := ((markLoop_grant grant k).mp free).1
  rw [held.isUsed k inside] at before
  exact Bool.false_ne_true before

/-- Freeing a held range frees its pages and no others. -/
theorem Held.free_iff (held : Held initial phys g)
    (total : phys.physTotalPages = initial.physTotalPages) (k : Nat) :
    pageIsFree (physFreeContiguous phys g.addr g.size) k = true ↔
      pageIsFree phys k = true ∨ k ∈ g.pages := by
  have nonzero := held.nonzero
  have below := held.below
  have bound := total_lt initial
  have address : g.addr = g.addr / pmPageSize * pmPageSize :=
    (Nat.div_mul_cancel held.pageAddr).symm
  have first : g.addr / pmPageSize ≠ 0 := by
    intro zero
    rw [zero, Nat.zero_mul] at address
    exact nonzero address
  have spec := physFreeContiguous_free phys (by omega) first held.asked held.fits k
  rw [← address] at spec
  rw [spec, mem_pages, total]
  constructor
  · exact Or.imp_right fun inside => ⟨inside.1, inside.2.1⟩
  · exact Or.imp_right fun inside => ⟨inside.1, inside.2, by omega⟩

namespace PageInv

variable (inv : PageInv initial s)

include inv

/-- A held range shares no page with any other held range. -/
theorem apart_of_erase (member : g ∈ s.live) (other : h ∈ s.live.erase g) :
    Disjoint g.pages h.pages := by
  have cut := (List.perm_cons_erase member).pairwise_iff
    (R := fun g h : Grant => Disjoint g.pages h.pages)
    fun apart => apart.symm
  exact (List.pairwise_cons.mp (cut.mp inv.apart)).1 h other

theorem after_grant (bitmap : s.phys.physBitmap ≠ 0) (grant : Grantable s.phys size alignment i)
    (nonzero : i * pmPageSize ≠ 0) :
    PageInv initial ⟨markLoop s.phys i (pagesOf size) 0, grantAt i size alignment :: s.live,
    s.early⟩ := by
  have setup := markLoop_setup s.phys i (pagesOf size) 0
  have marked : ∀ k, pageIsFree (markLoop s.phys i (pagesOf size) 0) k = true ↔
      pageIsFree s.phys k = true ∧ k ∉ (grantAt i size alignment).pages := by
    intro k
    rw [mem_pages_grantAt]
    exact markLoop_grant grant k
  refine ⟨setup.bitmap.trans inv.bitmap, setup.total.trans inv.total, ?_, ?_, ?_⟩
  · intro h member
    rcases List.mem_cons.mp member with rfl | old
    · have below := grant.below
      refine ⟨inv.bitmap ▸ bitmap, nonzero, Nat.dvd_mul_left pmPageSize i, grant.asked, grant.fits,
        grant.aligned, ?_, ?_, ?_⟩
      · rw [grantAt, Nat.mul_div_cancel _ (by decide), ← inv.total]
        exact below
      · exact fun k inside => inv.shrinks k (grant.pages_free inside)
      · intro k inside
        rw [Bool.eq_false_iff]
        exact fun free => ((marked k).mp free).2 inside
    · exact (inv.held h old).after_mark grant
  · refine List.pairwise_cons.mpr ⟨fun h old => ?_, inv.apart⟩
    rw [Finset.disjoint_left]
    intro k inside other
    have free := grant.pages_free inside
    rw [(inv.held h old).isUsed k other] at free
    exact Bool.false_ne_true free
  · exact fun k free => inv.shrinks k ((marked k).mp free).1

theorem after_free (member : g ∈ s.live) :
    PageInv initial ⟨physFreeContiguous s.phys g.addr g.size, s.live.erase g, s.early⟩ := by
  have setup := physFreeContiguous_setup s.phys g.addr g.size
  have freed := (inv.held g member).free_iff inv.total
  refine ⟨setup.bitmap.trans inv.bitmap, setup.total.trans inv.total, ?_, ?_, ?_⟩
  · intro h remains
    have held := inv.held h (List.mem_of_mem_erase remains)
    refine held.mono fun k inside => ?_
    rw [Bool.eq_false_iff]
    intro free
    rcases (freed k).mp free with before | returned
    · rw [held.isUsed k inside] at before
      exact Bool.false_ne_true before
    · exact Finset.disjoint_left.mp (inv.apart_of_erase member remains) returned inside
  · exact inv.apart.sublist List.erase_sublist
  · intro k free
    rcases (freed k).mp free with before | returned
    · exact inv.shrinks k before
    · exact (inv.held g member).wasFree k returned

theorem after_early (size alignment : Nat) (early : List EarlyGrant) :
    PageInv initial ⟨(earlyPhysAllocPhys s.phys size alignment).2, s.live, early⟩ := by
  obtain ⟨bitmap, total, _, same⟩ := early_setup s.phys size alignment
  refine ⟨bitmap.trans inv.bitmap, total.trans inv.total, ?_, inv.apart, ?_⟩
  · intro g member
    exact (inv.held g member).mono fun k inside =>
      (same k).trans ((inv.held g member).isUsed k inside)
  · exact fun k free => inv.shrinks k ((same k).symm.trans free)

/-- The step lemma: every event keeps the invariant. -/
theorem step (taken : Step s event s') : PageInv initial s' := by
  cases taken with
  | @alloc size alignment addr phys word _ result =>
      rcases physAllocContiguous_spec s.phys alignment word with
        ⟨i, bitmap, first, eq⟩ | ⟨_, eq⟩
      · obtain ⟨rfl, rfl⟩ := Prod.mk.inj (result.symm.trans eq)
        by_cases zero : i * pmPageSize = 0
        · -- a run at page 0 is marked but never held
          have setup := markLoop_setup s.phys i (pagesOf size) 0
          rw [if_pos zero]
          refine ⟨setup.bitmap.trans inv.bitmap, setup.total.trans inv.total, ?_, inv.apart, ?_⟩
          · exact fun g member => (inv.held g member).after_mark first.1
          · exact fun k free => inv.shrinks k ((markLoop_grant first.1 k).mp free).1
        · rw [if_neg zero]
          exact inv.after_grant bitmap first.1 zero
      · obtain ⟨rfl, rfl⟩ := Prod.mk.inj (result.symm.trans eq)
        rw [if_pos rfl]
        exact inv
  | free member => exact inv.after_free member
  | @early size alignment addr phys _ _ result =>
      have after :=
        inv.after_early size alignment (if addr = 0 then s.early else ⟨addr, size⟩ :: s.early)
      rw [result] at after
      exact after

end PageInv

/-- The invariant in every state that a session can reach. -/
theorem reachable_inv (reach : Reachable Step (begin initial) s) : PageInv initial s :=
  reach.invariant (fun _ _ _ inv taken => inv.step taken) (begin_inv initial)

theorem grantable_page (free : pageIsFree phys i = true) :
    Grantable phys pmPageSize pmPageSize i := by
  refine ⟨by decide, ⟨12, rfl⟩, Nat.dvd_mul_left _ _, lt_of_pageIsFree free, ?_⟩
  intro j below
  obtain rfl : j = 0 := Nat.lt_one_iff.mp below
  exact free

/-- The free pages below page `i`. -/
def freeBelow (phys : PhysMem arch) (i : Nat) : Finset Nat :=
  (Finset.range i).filter fun k => pageIsFree phys k = true

/-- A grant below page `i` uses some of them up. -/
theorem freeBelow_grant_lt {j : Nat} (grant : Grantable phys size alignment j) (below : j < i) :
    (freeBelow (markLoop phys j (pagesOf size) 0) i).card < (freeBelow phys i).card := by
  have marked := markLoop_grant grant
  have counted := pagesOf_pos grant.asked
  refine Finset.card_lt_card (Finset.ssubset_iff_subset_ne.mpr ⟨?_, ?_⟩)
  · intro k inside
    simp only [freeBelow, Finset.mem_filter, marked] at inside ⊢
    exact ⟨inside.1, inside.2.1⟩
  · intro same
    have lowest := grant.run.nonempty_start counted
    have member : j ∈ freeBelow phys i := by
      simp [freeBelow, lowest, below]
    rw [← same] at member
    have stays := (marked j).mp (Finset.mem_filter.mp member).2
    omega

/-- Requests for single pages are served from below, so that enough of them get
    any page that is free. -/
theorem obtain_page (bitmap : s.phys.physBitmap ≠ 0) (pos : 0 < i)
    (free : pageIsFree s.phys i = true) :
    ∃ trace s', Run Step s trace s' ∧ grantAt i pmPageSize pmPageSize ∈ s'.live ∧
    s'.early = s.early ∧ ∀ entry ∈ trace, entry.2 = .alloc pmPageSize pmPageSize := by
  have word : pmPageSize < arch.wordSize := Nat.lt_of_lt_of_le (by decide) arch.le_wordSize
  -- on the number of free pages below `i`
  generalize count : (freeBelow s.phys i).card = n
  induction n using Nat.strong_induction_on generalizing s with
  | _ n ih =>
      rcases physAllocContiguous_spec s.phys pmPageSize word with
        ⟨j, _, first, eq⟩ | ⟨failed, _⟩
      · have taken : Step s (.alloc pmPageSize pmPageSize) _ := .alloc word word eq
        have least : j ≤ i := by
          by_contra above
          exact first.2 i (by omega) (grantable_page free)
        rcases Nat.eq_or_lt_of_le least with rfl | below
        · have nonzero : j * pmPageSize ≠ 0 := Nat.mul_ne_zero pos.ne' (by decide)
          rw [if_neg nonzero] at taken
          exact ⟨_, _, Run.single taken, List.mem_cons_self, rfl, by simp⟩
        · have setup := markLoop_setup s.phys j (pagesOf pmPageSize) 0
          have marked := markLoop_grant first.1
          have one : pagesOf pmPageSize = 1 := rfl
          have fewer : (freeBelow (markLoop s.phys j (pagesOf pmPageSize) 0) i).card < n :=
            count ▸ freeBelow_grant_lt first.1 below
          have still := (marked i).mpr ⟨free, by omega⟩
          obtain ⟨trace, s', run, held, early, allocs⟩ :=
            ih _ fewer (s := ⟨_, _, _⟩) (setup.bitmap ▸ bitmap) still rfl
          refine ⟨_, s', (Run.single taken).append run, held, early, ?_⟩
          intro entry member
          rcases List.mem_append.mp member with old | new
          · rw [List.mem_singleton.mp old]
          · exact allocs entry new
      · rcases failed with null | noRun
        · exact absurd null bitmap
        · exact absurd (grantable_page free) (noRun i)

/-- Page allocator runs: held ranges are pairwise disjoint, lie below the page
    count, are aligned as requested and consist of pages that were free at first;
    freeing one frees exactly its pages. -/
theorem page_ranges_sound (arch : Arch) (initial : PhysMem arch) (s : Session arch)
    (reach : Reachable Step (begin initial) s) :
    s.live.Pairwise (fun g h => Disjoint g.pages h.pages) ∧
    s.phys.physTotalPages = initial.physTotalPages ∧
    (∀ g ∈ s.live, (if g.alignment = 0 then pmPageSize else g.alignment) ∣ g.addr ∧
      ∀ k ∈ g.pages, k < initial.physTotalPages ∧ pageIsFree initial k = true) ∧
    (∀ g ∈ s.live, (∀ k ∈ g.pages, pageIsFree s.phys k = false) ∧
      ∀ k, pageIsFree (physFreeContiguous s.phys g.addr g.size) k = true ↔
        pageIsFree s.phys k = true ∨ k ∈ g.pages) := by
  have inv := reachable_inv reach
  refine ⟨inv.apart, inv.total, ?_, ?_⟩
  · intro g member
    have held := inv.held g member
    exact ⟨held.aligned,
      fun k inside => ⟨lt_of_pageIsFree (held.wasFree k inside), held.wasFree k inside⟩⟩
  · intro g member
    exact ⟨(inv.held g member).isUsed, (inv.held g member).free_iff inv.total⟩

/-- Four pages whose bitmap at 1 MiB has only page 0 marked used. -/
def exampleMem : PhysMem .x86_64 where
  mem := fun x => if x = 0x100000 then 1 else 0
  physBitmap := 0x100000
  physBitmapBytes := 1
  physMemSize := 0x4000
  physTotalPages := 4
  earlyAllocPhysPtr := 0
  earlyAllocPhysEnd := 0
  pagesFit := by decide

theorem page_ranges_sound_one_alloc : ∃ s, Reachable Step (begin exampleMem) s ∧
    s.live = [⟨8192, 5000, 8192⟩] ∧ s.live.Pairwise (fun g h => Disjoint g.pages h.pages) := by
  have taken : Step (begin exampleMem) (.alloc 5000 8192) _ := .alloc (by decide) (by decide) rfl
  have reach := (Run.single taken).reachable
  exact ⟨_, reach, by decide, (page_ranges_sound _ _ _ reach).1⟩

end AurorOS.Phys
