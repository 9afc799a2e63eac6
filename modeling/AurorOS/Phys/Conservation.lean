import AurorOS.Phys.Sessions

/-! # Page conservation

`phys_alloc_contiguous` reports failure as 0, which is also the address of page 0.
A run that it finds at page 0 is marked used and then reported as a failure, so
nobody holds it and nobody can give it back.
-/

namespace AurorOS.Phys

open PageRuns Runs

variable {arch : Arch} {initial phys : PhysMem arch} {s s' : Session arch} {event : Event}
  {g : Grant} {size alignment i k : Nat}

/-- The first page run that a request can get is the one at page 0. -/
structure TakesPageZero (phys : PhysMem arch) (size alignment : Nat) : Prop where
  bitmap : phys.physBitmap ≠ 0
  asked : 0 < size
  power : (if alignment = 0 then pmPageSize else alignment).isPowerOfTwo
  below : pagesOf size ≤ phys.physTotalPages
  run : ∀ k < pagesOf size, pageIsFree phys k = true

/-- The event is no request that takes page 0. -/
def SparesPageZero (s : Session arch) : Event → Prop
  | .alloc size alignment => ¬ TakesPageZero s.phys size alignment
  | _ => True

/-- The counted pages whose bit is set. -/
def usedPages (phys : PhysMem arch) : Finset Nat :=
  (Finset.range phys.physTotalPages).filter fun k => pageIsFree phys k = false

def heldPages (s : Session arch) : Nat := (s.live.map fun g => pagesOf g.size).sum

/-- The used pages are those used at first and those of the ranges held. -/
def PagesConserved (initial : PhysMem arch) (s : Session arch) : Prop :=
  (usedPages s.phys).card = (usedPages initial).card + heldPages s

theorem takesPageZero_iff : TakesPageZero phys size alignment ↔
    phys.physBitmap ≠ 0 ∧ Grantable phys size alignment 0 := by
  constructor
  · intro takes
    refine ⟨takes.bitmap, takes.asked, takes.power, ?_, ?_, ?_⟩
    · rw [Nat.zero_mul]
      exact dvd_zero _
    · exact (Nat.zero_add _).trans_le takes.below
    · intro j inside
      rw [Nat.zero_add]
      exact takes.run j inside
  · rintro ⟨bitmap, grant⟩
    refine ⟨bitmap, grant.asked, grant.power, (Nat.zero_add _).symm.trans_le grant.below, ?_⟩
    intro k inside
    have free := grant.run k inside
    rwa [Nat.zero_add] at free

theorem mem_usedPages :
    k ∈ usedPages phys ↔ k < phys.physTotalPages ∧ pageIsFree phys k = false := by
  rw [usedPages, Finset.mem_filter, Finset.mem_range]

theorem usedPages_grant (grant : Grantable phys size alignment i) :
    (usedPages (markLoop phys i (pagesOf size) 0)).card = (usedPages phys).card + pagesOf size := by
  have total := (markLoop_setup phys i (pagesOf size) 0).total
  have below := grant.below
  have joined : usedPages (markLoop phys i (pagesOf size) 0) =
      usedPages phys ∪ (grantAt i size alignment).pages := by
    ext k
    have marked := markLoop_grant grant k
    have counted := lt_of_pageIsFree (s := phys) (i := k)
    rw [Finset.mem_union, mem_usedPages, mem_usedPages, mem_pages_grantAt, total]
    grind
  have apart : Disjoint (usedPages phys) (grantAt i size alignment).pages := by
    rw [Finset.disjoint_left]
    intro k used inside
    have free := grant.pages_free inside
    rw [(mem_usedPages.mp used).2] at free
    exact Bool.false_ne_true free
  rw [joined, Finset.card_union_of_disjoint apart, card_pages, grantAt]

theorem usedPages_free (held : Held initial phys g)
    (total : phys.physTotalPages = initial.physTotalPages) :
    (usedPages (physFreeContiguous phys g.addr g.size)).card + pagesOf g.size =
    (usedPages phys).card := by
  have setup := physFreeContiguous_setup phys g.addr g.size
  have freed := held.free_iff total
  have below := held.below
  have joined : usedPages phys = usedPages (physFreeContiguous phys g.addr g.size) ∪ g.pages := by
    ext k
    have used := held.isUsed k
    have counted : k ∈ g.pages → k < phys.physTotalPages := by
      intro inside
      have := (mem_pages.mp inside).2
      omega
    rw [Finset.mem_union, mem_usedPages, mem_usedPages, setup.total]
    grind
  have apart : Disjoint (usedPages (physFreeContiguous phys g.addr g.size)) g.pages := by
    rw [Finset.disjoint_left]
    intro k used inside
    have free := (freed k).mpr (.inr inside)
    rw [(mem_usedPages.mp used).2] at free
    exact Bool.false_ne_true free
  rw [joined, Finset.card_union_of_disjoint apart, card_pages]

theorem heldPages_erase (member : g ∈ s.live) :
    heldPages s = pagesOf g.size + ((s.live.erase g).map fun g => pagesOf g.size).sum := by
  have cut := ((List.perm_cons_erase member).map fun g => pagesOf g.size).sum_eq
  rw [heldPages, cut, List.map_cons, List.sum_cons]

/-- One call: a result of 0 leaves memory unchanged unless page 0 is taken. -/
theorem failure_unchanged_iff (phys : PhysMem arch) (word : size < arch.wordSize) :
    ((physAllocContiguous phys size alignment).1 = 0 →
      (physAllocContiguous phys size alignment).2.mem = phys.mem) ↔
      ¬ TakesPageZero phys size alignment := by
  rw [takesPageZero_iff]
  rcases physAllocContiguous_spec phys alignment word with ⟨i, bitmap, first, eq⟩ | ⟨none, eq⟩
  · rw [eq]
    constructor
    · rintro unchanged ⟨_, grant⟩
      obtain rfl : i = 0 := first.unique ⟨grant, by omega⟩
      have same := pageIsFree_congr (markLoop_setup phys 0 _ 0) (unchanged (Nat.zero_mul _)) 0
      have marked := (markLoop_grant grant 0).mp
        (same.trans (grant.run.nonempty_start (pagesOf_pos grant.asked)))
      have := pagesOf_pos grant.asked
      omega
    · intro spares zero
      have atZero : i = 0 := (Nat.mul_eq_zero.mp zero).resolve_right (by decide)
      exact absurd ⟨bitmap, atZero ▸ first.1⟩ spares
  · rw [eq]
    refine iff_of_true (fun _ => rfl) ?_
    rintro ⟨bitmap, grant⟩
    rcases none with noBitmap | noRun
    · exact bitmap noBitmap
    · exact noRun 0 grant

/-- The step lemma: the balance of used and held pages never falls, and it stays
    exactly when page 0 is spared. -/
theorem PageInv.step_balance (inv : PageInv initial s) (taken : Step s event s') :
    ∃ lost, (usedPages s'.phys).card + heldPages s = (usedPages s.phys).card + heldPages s' + lost ∧
      (lost = 0 ↔ SparesPageZero s event) := by
  cases taken with
  | @alloc size alignment addr phys word _ result =>
      simp only [SparesPageZero]
      rw [takesPageZero_iff]
      rcases physAllocContiguous_spec s.phys alignment word with
        ⟨i, bitmap, first, eq⟩ | ⟨none, eq⟩
      · obtain ⟨rfl, rfl⟩ := Prod.mk.inj (result.symm.trans eq)
        have counted := usedPages_grant first.1
        have pos := pagesOf_pos first.1.asked
        by_cases zero : i * pmPageSize = 0
        · have atZero : i = 0 := (Nat.mul_eq_zero.mp zero).resolve_right (by decide)
          refine ⟨pagesOf size, ?_, iff_of_false (by omega) ?_⟩
          · simp only [heldPages, if_pos zero, counted]
            omega
          · exact not_not.mpr ⟨bitmap, atZero ▸ first.1⟩
        · refine ⟨0, ?_, iff_of_true rfl ?_⟩
          · simp only [heldPages, if_neg zero, counted, List.map_cons, List.sum_cons]
            omega
          · rintro ⟨_, grant⟩
            rw [first.unique ⟨grant, by omega⟩, Nat.zero_mul] at zero
            exact zero rfl
      · obtain ⟨rfl, rfl⟩ := Prod.mk.inj (result.symm.trans eq)
        refine ⟨0, by simp [heldPages], iff_of_true rfl ?_⟩
        rintro ⟨bitmap, grant⟩
        rcases none with noBitmap | noRun
        · exact bitmap noBitmap
        · exact noRun 0 grant
  | free member =>
      have counted := usedPages_free (inv.held _ member) inv.total
      have sum := heldPages_erase member
      refine ⟨0, ?_, iff_of_true rfl trivial⟩
      simp only [heldPages] at sum ⊢
      omega
  | @early size alignment addr phys _ _ result =>
      obtain ⟨_, total, _, same⟩ := early_setup s.phys size alignment
      simp only [result] at total same
      refine ⟨0, ?_, iff_of_true rfl trivial⟩
      simp only [usedPages, heldPages, total, same, Nat.add_zero]

/-- The balance at the end of a run tells whether any step lost pages. -/
theorem run_balance {trace : List (Session arch × Event)} (run : Run Step (begin initial) trace s) :
    (usedPages initial).card + heldPages s ≤ (usedPages s.phys).card ∧
      (PagesConserved initial s ↔ EveryStep SparesPageZero trace) := by
  induction run with
  | nil => simp [begin, heldPages, PagesConserved, EveryStep]
  | @snoc trace t event u earlier taken ih =>
      obtain ⟨bound, same⟩ := ih
      obtain ⟨lost, balance, spares⟩ := (reachable_inv earlier.reachable).step_balance taken
      rw [everyStep_snoc, ← same, ← spares]
      simp only [PagesConserved]
      omega

/-- Page conservation: a failing call leaves the bitmap unchanged exactly when it
    does not take page 0, and the page count balances in every state of a run
    exactly when no call of the run takes it. -/
theorem pages_conserved_iff (arch : Arch) :
    (∀ (phys : PhysMem arch) (size alignment : Nat), size < arch.wordSize →
    alignment < arch.wordSize → (((physAllocContiguous phys size alignment).1 = 0 →
        (physAllocContiguous phys size alignment).2.mem = phys.mem) ↔
        ¬ TakesPageZero phys size alignment)) ∧
    (∀ (initial : PhysMem arch) (trace : List (Session arch × Event)) (s : Session arch),
      Run Step (begin initial) trace s →
      (Always (PagesConserved initial) trace s ↔ EveryStep SparesPageZero trace)) := by
  refine ⟨fun phys size alignment word _ => failure_unchanged_iff phys word, ?_⟩
  intro initial trace s run
  constructor
  · exact fun always => (run_balance run).2.mp always.last
  · intro every
    have balanced : Always (fun t => PageInv initial t ∧ PagesConserved initial t) trace s := by
      refine run.always_of_steps ?_
        ⟨begin_inv initial, by simp [PagesConserved, begin, heldPages]⟩ every
      rintro t event u ⟨inv, balance⟩ spares taken
      obtain ⟨lost, moved, same⟩ := inv.step_balance taken
      have kept := same.mpr spares
      refine ⟨inv.step taken, ?_⟩
      simp only [PagesConserved] at balance ⊢
      omega
    exact balanced.mono fun _ both => both.2

theorem pages_conserved_one_alloc : ∃ trace s, Run Step (begin exampleMem) trace s ∧ trace ≠ [] ∧
    ¬ TakesPageZero exampleMem 5000 8192 ∧
    (Always (PagesConserved exampleMem) trace s ↔ EveryStep SparesPageZero trace) := by
  have taken : Step (begin exampleMem) (.alloc 5000 8192) _ := .alloc (by decide) (by decide) rfl
  have run := Run.single taken
  have calls := (pages_conserved_iff .x86_64).1 exampleMem 5000 8192 (by decide) (by decide)
  have granted : (physAllocContiguous exampleMem 5000 8192).1 ≠ 0 := by decide
  exact ⟨_, _, run, by simp, calls.mp fun zero => absurd zero granted,
    (pages_conserved_iff .x86_64).2 _ _ _ run⟩

/-- The four pages of the example with page 0 free as well. -/
def allFree : PhysMem .x86_64 := { exampleMem with mem := fun _ => 0 }

/-- A request for one page is answered with 0 and takes page 0 all the same. -/
theorem pages_not_conserved : (physAllocContiguous allFree 4096 4096).1 = 0 ∧
    (physAllocContiguous allFree 4096 4096).2.mem ≠ allFree.mem ∧
    ∃ s, Reachable Step (begin allFree) s ∧ ¬ PagesConserved allFree s := by
  have marked : (physAllocContiguous allFree 4096 4096).2.mem 0x100000 ≠ allFree.mem 0x100000 := by
    decide
  have taken : Step (begin allFree) (.alloc 4096 4096) _ := .alloc (by decide) (by decide) rfl
  refine ⟨by decide, fun same => marked (by rw [same]), _, (Run.single taken).reachable, ?_⟩
  rw [PagesConserved]
  decide

end AurorOS.Phys
