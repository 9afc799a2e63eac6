import AurorOS.Phys.Model

/-! # What the page functions do to the set of free pages

One specification lemma for each function of the page allocator.  Marking and
freeing loops change exactly the pages they name; the search of
`phys_alloc_contiguous` finds the lowest suitably aligned run.
-/

namespace AurorOS.Phys

open ByteMemory PageRuns

variable {arch : Arch} {s s' s'' : PhysMem arch} {i j k pages alignPages size alignment : Nat}

/-- Nothing but memory differs, and memory differs at most in the bytes that hold
    bits of counted pages. -/
structure SameSetup (s s' : PhysMem arch) : Prop where
  bitmap : s'.physBitmap = s.physBitmap
  bytes : s'.physBitmapBytes = s.physBitmapBytes
  memSize : s'.physMemSize = s.physMemSize
  total : s'.physTotalPages = s.physTotalPages
  earlyPtr : s'.earlyAllocPhysPtr = s.earlyAllocPhysPtr
  earlyEnd : s'.earlyAllocPhysEnd = s.earlyAllocPhysEnd
  frame : ∀ x, x < s.physBitmap ∨ s.physBitmap + (s.physTotalPages + 7) / 8 ≤ x → s'.mem x = s.mem x

theorem SameSetup.refl (s : PhysMem arch) : SameSetup s s :=
  ⟨rfl, rfl, rfl, rfl, rfl, rfl, fun _ _ => rfl⟩

theorem SameSetup.trans (first : SameSetup s s') (second : SameSetup s' s'') : SameSetup s s'' where
  bitmap := second.bitmap.trans first.bitmap
  bytes := second.bytes.trans first.bytes
  memSize := second.memSize.trans first.memSize
  total := second.total.trans first.total
  earlyPtr := second.earlyPtr.trans first.earlyPtr
  earlyEnd := second.earlyEnd.trans first.earlyEnd
  frame := by
    intro x outside
    have outside' := outside
    rw [← first.bitmap, ← first.total] at outside'
    exact (second.frame x outside').trans (first.frame x outside)

theorem total_lt (s : PhysMem arch) : s.physTotalPages < 2 ^ 52 := by
  have fit := s.pagesFit
  have top := arch.wordSize_le
  simp only [pmPageSize] at fit
  omega

theorem index_mod (s : PhysMem arch) (counted : i < s.physTotalPages) : i % arch.wordSize = i := by
  have fit := s.pagesFit
  simp only [pmPageSize] at fit
  exact Nat.mod_eq_of_lt (by omega)

theorem requestPages_lt (arch : Arch) (size : Nat) : requestPages arch size < 2 ^ 52 := by
  have low := arch.add_lt size (pmPageSize - 1)
  have top := arch.wordSize_le
  simp only [requestPages, pmPageSize] at low ⊢
  omega

theorem pageIsFree_of_counted (counted : i < s.physTotalPages) :
    pageIsFree s i = !Bitmap.testBit s.mem s.physBitmap i := by
  rw [pageIsFree, if_neg (by omega), bitmapTestBit, index_mod s counted]

theorem lt_of_pageIsFree (free : pageIsFree s i = true) : i < s.physTotalPages := by
  by_contra uncounted
  rw [pageIsFree, if_pos (by omega)] at free
  exact Bool.false_ne_true free

theorem pageIsFree_congr (setup : SameSetup s s') (same : s'.mem = s.mem) (i : Nat) :
    pageIsFree s' i = pageIsFree s i := by
  simp only [pageIsFree, bitmapTestBit, setup.total, setup.bitmap, same]

theorem markPageUsed_setup (s : PhysMem arch) (i : Nat) : SameSetup s (markPageUsed s i) := by
  rw [markPageUsed]
  split
  · exact .refl s
  · rename_i counted
    refine ⟨rfl, rfl, rfl, rfl, rfl, rfl, ?_⟩
    intro x outside
    rw [index_mod s (by omega)]
    exact Bitmap.setBit_outside s.mem _ _ (by omega)

theorem markPageUsed_free (s : PhysMem arch) (i j : Nat) :
    pageIsFree (markPageUsed s i) j = (pageIsFree s j && !decide (j = i)) := by
  rw [markPageUsed]
  split
  · rename_i uncounted
    by_cases same : j = i
    · simp [same, pageIsFree, uncounted]
    · simp [same]
  · rename_i counted
    rw [index_mod s (by omega)]
    by_cases inside : j < s.physTotalPages
    · have insideAfter : j < (bitmapSetBit s i).physTotalPages := inside
      rw [pageIsFree_of_counted insideAfter, pageIsFree_of_counted inside]
      simp only [bitmapSetBit, Bitmap.testBit_setBit, Bool.not_or, eq_comm (a := i)]
      rw [Bool.and_comm]
    · have := mt (lt_of_pageIsFree (s := s) (i := j)) inside
      have after := mt (lt_of_pageIsFree (s := bitmapSetBit s i) (i := j)) inside
      simp only [Bool.not_eq_true] at this after
      rw [this, after, Bool.false_and]

theorem clearPage_setup (s : PhysMem arch) (counted : i < s.physTotalPages) :
    SameSetup s (bitmapClearBit s i) := by
  refine ⟨rfl, rfl, rfl, rfl, rfl, rfl, ?_⟩
  intro x outside
  exact Bitmap.clearBit_outside s.mem _ _ (by omega)

theorem clearPage_free (s : PhysMem arch) (counted : i < s.physTotalPages) (j : Nat) :
    pageIsFree (bitmapClearBit s i) j = (pageIsFree s j || decide (j = i)) := by
  by_cases inside : j < s.physTotalPages
  · have insideAfter : j < (bitmapClearBit s i).physTotalPages := inside
    rw [pageIsFree_of_counted insideAfter, pageIsFree_of_counted inside]
    simp only [bitmapClearBit, Bitmap.testBit_clearBit, eq_comm (a := i)]
    cases Bitmap.testBit s.mem s.physBitmap j <;> simp
  · have before := mt (lt_of_pageIsFree (s := s) (i := j)) inside
    have after := mt (lt_of_pageIsFree (s := bitmapClearBit s i) (i := j)) inside
    simp only [Bool.not_eq_true] at before after
    rw [before, after, Bool.false_or, eq_comm, decide_eq_false_iff_not]
    omega

theorem markLoop_setup (s : PhysMem arch) (i left j : Nat) : SameSetup s (markLoop s i left j) := by
  induction left generalizing s j with
  | zero => exact .refl s
  | succ left ih => exact (markPageUsed_setup s _).trans (ih _ (j + 1))

theorem markLoop_free (s : PhysMem arch) {i left j : Nat} (fits : i + j + left < 2 ^ 64) (k : Nat) :
    pageIsFree (markLoop s i left j) k =
    (pageIsFree s k && !decide (i + j ≤ k ∧ k < i + j + left)) := by
  induction left generalizing s j with
  | zero =>
      have empty : ¬ (i + j ≤ k ∧ k < i + j + 0) := by omega
      simp only [markLoop, empty, decide_false, Bool.not_false, Bool.and_true]
  | succ left ih =>
      have here : add64 i j = i + j := add64_eq (by omega)
      rw [markLoop, here, ih _ (by omega), markPageUsed_free, Bool.and_assoc, ← Bool.not_or]
      congr 2
      rw [Bool.eq_iff_iff]
      simp only [Bool.or_eq_true, decide_eq_true_eq]
      omega

theorem freeLoop_setup (s : PhysMem arch) (first left i : Nat) :
    SameSetup s (freeLoop s first left i) := by
  induction left generalizing s i with
  | zero => exact .refl s
  | succ left ih =>
      rw [freeLoop]
      refine SameSetup.trans ?_ (ih _ (i + 1))
      split
      · rename_i counted
        rw [index_mod s counted]
        exact clearPage_setup s counted
      · exact .refl s

theorem freeLoop_free (s : PhysMem arch) {first left i : Nat} (fits : first + i + left < 2 ^ 64)
    (k : Nat) :
    pageIsFree (freeLoop s first left i) k = (pageIsFree s k ||
      decide (first + i ≤ k ∧ k < first + i + left ∧ k < s.physTotalPages)) := by
  induction left generalizing s i with
  | zero =>
      have empty : ¬ (first + i ≤ k ∧ k < first + i + 0 ∧ k < s.physTotalPages) := by omega
      simp only [freeLoop, empty, decide_false, Bool.or_false]
  | succ left ih =>
      have here : add64 first i = first + i := add64_eq (by omega)
      rw [freeLoop, here]
      by_cases counted : first + i < s.physTotalPages
      · rw [if_pos counted, index_mod s counted, ih _ (by omega), clearPage_free s counted,
          Bool.or_assoc]
        congr 1
        rw [Bool.eq_iff_iff]
        simp only [Bool.or_eq_true, decide_eq_true_eq, (clearPage_setup s counted).total]
        omega
      · rw [if_neg counted, ih _ (by omega)]
        congr 1
        rw [decide_eq_decide]
        omega

/-- A run that a request for `pages` pages aligned to `alignPages` may get. -/
def Suits (s : PhysMem arch) (pages alignPages i : Nat) : Prop :=
  i &&& (alignPages - 1) = 0 ∧ i + pages ≤ s.physTotalPages ∧ IsRun (pageIsFree s) i pages

theorem countLoop_spec (s : PhysMem arch) {i left count : Nat} (fits : i + count + left < 2 ^ 64) :
    count ≤ countLoop s i left count ∧ countLoop s i left count ≤ count + left ∧
      (∀ j, count ≤ j → j < countLoop s i left count → pageIsFree s (i + j) = true) ∧
      (countLoop s i left count < count + left →
      pageIsFree s (i + countLoop s i left count) = false) := by
  induction left generalizing count with
  | zero =>
      refine ⟨le_rfl, le_rfl, ?_, ?_⟩
      · intro j above below
        simp only [countLoop] at below
        omega
      · intro short
        simp only [countLoop] at short
        omega
  | succ left ih =>
      have here : add64 i count = i + count := add64_eq (by omega)
      rw [countLoop, here]
      by_cases free : pageIsFree s (i + count) = true
      · obtain ⟨lower, upper, run, stop⟩ := @ih (count + 1) (by omega)
        rw [if_pos free]
        refine ⟨by omega, by omega, ?_, ?_⟩
        · intro j above below
          rcases Nat.eq_or_lt_of_le above with rfl | later
          · exact free
          · exact run j later below
        · intro short
          exact stop (by omega)
      · rw [if_neg free]
        refine ⟨le_rfl, by omega, ?_, ?_⟩
        · intro j above below
          omega
        · intro _
          simpa using free

/-- A request of no pages never matches: the count starts at one. -/
theorem searchLoop_zero (s : PhysMem arch) (alignPages fuel i : Nat) :
    searchLoop s 0 alignPages fuel i = none := by
  induction fuel generalizing i with
  | zero => rfl
  | succ fuel ih =>
      simp only [searchLoop, Nat.zero_sub, countLoop, ih]
      simp

/-- What a search from `i` on may answer. -/
def Answers (s : PhysMem arch) (pages alignPages i : Nat) : Option Nat → Prop
  | some k => i ≤ k ∧ Suits s pages alignPages k ∧ ∀ l, i ≤ l → l < k → ¬ Suits s pages alignPages l
  | none => ∀ l, i ≤ l → ¬ Suits s pages alignPages l

/-- Moving on to a later index is sound when nothing suits in between. -/
theorem Answers.skip {result : Option Nat} (later : i < j)
    (gap : ∀ l, i ≤ l → l < j → ¬ Suits s pages alignPages l)
    (rest : Answers s pages alignPages j result) : Answers s pages alignPages i result := by
  cases result with
  | none =>
      intro l above
      by_cases inGap : l < j
      · exact gap l above inGap
      · exact rest l (by omega)
  | some k =>
      obtain ⟨reached, suits, least⟩ := rest
      refine ⟨by omega, suits, ?_⟩
      intro l above below
      by_cases inGap : l < j
      · exact gap l above inGap
      · exact least l (by omega) below

/-- The search from `i` on yields the lowest suitable run from `i` on. -/
theorem searchLoop_spec (s : PhysMem arch) (alignPages fuel : Nat) (asked : 0 < pages)
    (small : pages < 2 ^ 52) (start : i ≤ s.physTotalPages + 1)
    (enough : s.physTotalPages + 1 ≤ i + fuel) :
    Answers s pages alignPages i (searchLoop s pages alignPages fuel i) := by
  have bound := total_lt s
  induction fuel generalizing i with
  | zero =>
      intro l above suits
      have := suits.2.1
      omega
  | succ fuel ih =>
      have sum : add64 i pages = i + pages := add64_eq (by omega)
      have next : add64 i 1 = i + 1 := add64_eq (by omega)
      rw [searchLoop, sum, next]
      by_cases room : i + pages ≤ s.physTotalPages
      · rw [if_pos room]
        -- a failing start index is left behind alone
        have leave : ¬ Suits s pages alignPages i →
            Answers s pages alignPages i (searchLoop s pages alignPages fuel (i + 1)) := by
          intro unsuited
          refine Answers.skip (Nat.lt_succ_self i) ?_ (ih (by omega) (by omega))
          intro l above below
          obtain rfl : l = i := by omega
          exact unsuited
        by_cases misaligned : i &&& (alignPages - 1) ≠ 0
        · rw [if_pos misaligned]
          exact leave fun suits => misaligned suits.1
        rw [if_neg misaligned]
        by_cases used : pageIsFree s i = false
        · rw [if_pos used]
          refine leave fun suits => ?_
          rw [suits.2.2.nonempty_start asked] at used
          exact Bool.false_ne_true used.symm
        rw [if_neg used]
        have free : pageIsFree s i = true := by simpa using used
        have fits : i + 1 + (pages - 1) < 2 ^ 64 := by omega
        obtain ⟨lower, upper, run, stop⟩ := countLoop_spec s fits
        generalize countLoop s i (pages - 1) 1 = count at lower upper run stop ⊢
        by_cases full : count = pages
        · rw [if_pos full]
          refine ⟨le_rfl, ⟨not_not.mp misaligned, room, ?_⟩, by omega⟩
          intro j below
          cases j with
          | zero => exact free
          | succ j => exact run (j + 1) (by omega) (by omega)
        · have hole := stop (by omega)
          have here : add64 (add64 i count) 1 = i + count + 1 := by
            rw [add64_eq (a := i) (by omega), add64_eq (by omega)]
          rw [if_neg full, here]
          -- every run that starts up to the hole would contain it
          refine Answers.skip (by omega) ?_ (ih (by omega) (by omega))
          intro l above below suits
          exact not_run_of_hole hole (by omega) above (by omega) suits.2.2
      · rw [if_neg room]
        intro l above suits
        have := suits.2.1
        omega

/-- Pages that hold `size` bytes. -/
def pagesOf (size : Nat) : Nat := (size + (pmPageSize - 1)) / pmPageSize

/-- The alignment in bytes that a request gets. -/
def effectiveAlignment (alignment : Nat) : Nat := if alignment = 0 then pmPageSize else alignment

/-- Page `i` starts a free run that a request for `size` bytes aligned to
    `alignment` asks for. -/
structure Grantable (s : PhysMem arch) (size alignment i : Nat) : Prop where
  asked : 0 < size
  power : (effectiveAlignment alignment).isPowerOfTwo
  aligned : effectiveAlignment alignment ∣ i * pmPageSize
  below : i + pagesOf size ≤ s.physTotalPages
  run : IsRun (pageIsFree s) i (pagesOf size)

theorem pagesOf_pos (asked : 0 < size) : 0 < pagesOf size := by
  simp only [pagesOf, pmPageSize]
  omega

theorem requestPages_eq (fits : size + (pmPageSize - 1) < arch.wordSize) :
    requestPages arch size = pagesOf size := by
  rw [requestPages, Arch.add_eq fits, pagesOf]

/-- A size so large that rounding it up wraps asks for no page at all. -/
theorem requestPages_wrapped (word : size < arch.wordSize)
    (wraps : arch.wordSize ≤ size + (pmPageSize - 1)) :
    requestPages arch size = 0 := by
  have top := arch.le_wordSize
  simp only [pmPageSize] at wraps
  simp only [requestPages, Arch.add, pmPageSize]
  rw [show size + (4096 - 1) = size + (4096 - 1) - arch.wordSize + arch.wordSize by omega,
    Nat.add_mod_right, Nat.mod_eq_of_lt (by omega)]
  omega

theorem effectiveAlignment_pos (alignment : Nat) : 0 < effectiveAlignment alignment := by
  rw [effectiveAlignment]
  split
  · decide
  · omega

theorem requestAlign_none (other : ¬ (effectiveAlignment alignment).isPowerOfTwo) :
    requestAlign alignment = none := by
  have bits :=
    mt (Nat.and_sub_one_eq_zero_iff_isPowerOfTwo (effectiveAlignment_pos alignment).ne').mp other
  simp only [effectiveAlignment] at bits
  simp only [requestAlign, ne_eq, bits, not_false_eq_true, if_true]

/-- An accepted alignment masks page indices as it divides addresses. -/
theorem requestAlign_some (power : (effectiveAlignment alignment).isPowerOfTwo) :
    ∃ alignPages, requestAlign alignment = some alignPages ∧
      ∀ i, i &&& (alignPages - 1) = 0 ↔ effectiveAlignment alignment ∣ i * pmPageSize := by
  have bits :=
    (Nat.and_sub_one_eq_zero_iff_isPowerOfTwo (effectiveAlignment_pos alignment).ne').mpr power
  obtain ⟨k, eq⟩ := power
  have page : pmPageSize = 2 ^ 12 := rfl
  refine ⟨if effectiveAlignment alignment / pmPageSize = 0 then 1
    else effectiveAlignment alignment / pmPageSize, ?_, ?_⟩
  · simp only [effectiveAlignment] at bits ⊢
    simp only [requestAlign, ne_eq, bits, not_true_eq_false, if_false]
    rfl
  · intro i
    rw [eq, page]
    by_cases small : k < 12
    · have none_left : 2 ^ k / 2 ^ 12 = 0 :=
        Nat.div_eq_of_lt (Nat.pow_lt_pow_right (by decide) small)
      rw [none_left, if_pos rfl, Nat.sub_self, Nat.and_zero]
      exact iff_of_true rfl (Dvd.dvd.mul_left (Nat.pow_dvd_pow 2 small.le) i)
    · obtain ⟨l, rfl⟩ : ∃ l, k = l + 12 := ⟨k - 12, by omega⟩
      have pos := Nat.two_pow_pos l
      rw [Nat.pow_add, Nat.mul_div_cancel _ (by decide), if_neg (by omega),
        Nat.and_two_pow_sub_one_eq_mod, Nat.mul_dvd_mul_iff_right (by decide),
        Nat.dvd_iff_mod_eq_zero]

/-- `phys_alloc_contiguous` reserves the lowest page run that the request can get,
    and otherwise fails with nothing changed. -/
theorem physAllocContiguous_spec (s : PhysMem arch) (alignment : Nat)
    (word : size < arch.wordSize) :
    (∃ i, s.physBitmap ≠ 0 ∧ IsFirst (Grantable s size alignment) i ∧
      physAllocContiguous s size alignment = (i * pmPageSize, markLoop s i (pagesOf size) 0)) ∨
    ((s.physBitmap = 0 ∨ ∀ i, ¬ Grantable s size alignment i) ∧
      physAllocContiguous s size alignment = (0, s)) := by
  have fit := s.pagesFit
  have top := arch.wordSize_le
  rw [physAllocContiguous]
  by_cases noBitmap : s.physBitmap = 0
  · rw [if_pos noBitmap]
    exact .inr ⟨.inl noBitmap, rfl⟩
  rw [if_neg noBitmap]
  by_cases nothing : size = 0
  · rw [if_pos nothing]
    exact .inr ⟨.inr fun i grant => absurd grant.asked (by omega), rfl⟩
  rw [if_neg nothing]
  by_cases power : (effectiveAlignment alignment).isPowerOfTwo
  · obtain ⟨alignPages, accepted, mask⟩ := requestAlign_some power
    rw [accepted]
    by_cases wraps : arch.wordSize ≤ size + (pmPageSize - 1)
    · simp only [requestPages_wrapped word wraps, searchLoop_zero]
      refine .inr ⟨.inr fun i grant => ?_, trivial⟩
      obtain ⟨count, whole⟩ := arch.page_dvd_wordSize
      have below := grant.below
      simp only [pagesOf, pmPageSize] at below wraps fit
      omega
    · have pages_eq : requestPages arch size = pagesOf size := requestPages_eq (by omega)
      have suits_iff : ∀ i, Suits s (pagesOf size) alignPages i ↔ Grantable s size alignment i := by
        intro i
        constructor
        · exact fun suits => ⟨by omega, power, (mask i).mp suits.1, suits.2.1, suits.2.2⟩
        · exact fun grant => ⟨(mask i).mpr grant.aligned, grant.below, grant.run⟩
      have answers := searchLoop_spec s alignPages (s.physTotalPages + 1) (pagesOf_pos (by omega))
        (pages_eq ▸ requestPages_lt arch size) (Nat.zero_le _) (Nat.zero_add _).ge
      simp only [pages_eq]
      cases found : searchLoop s (pagesOf size) alignPages (s.physTotalPages + 1) 0 with
      | none =>
          rw [found] at answers
          exact .inr ⟨.inr fun i grant => answers i (Nat.zero_le i) ((suits_iff i).mpr grant), rfl⟩
      | some i =>
          rw [found] at answers
          obtain ⟨_, suits, least⟩ := answers
          have grant := (suits_iff i).mp suits
          have small : i * pmPageSize < 2 ^ 64 :=
            (Nat.mul_le_mul_right pmPageSize (Nat.le_of_add_right_le grant.below)).trans_lt
              (fit.trans_le top)
          have address : i * pmPageSize % 2 ^ 64 = i * pmPageSize := Nat.mod_eq_of_lt small
          refine .inl ⟨i, noBitmap, ⟨grant, ?_⟩, congrArg (·, _) address⟩
          exact fun l before other => least l (Nat.zero_le l) before ((suits_iff l).mpr other)
  · rw [requestAlign_none power]
    exact .inr ⟨.inr fun i grant => power grant.power, rfl⟩

/-- Marking a granted run uses up its pages and no others. -/
theorem markLoop_grant {size alignment : Nat} (grant : Grantable s size alignment i) (k : Nat) :
    pageIsFree (markLoop s i (pagesOf size) 0) k = true ↔
      pageIsFree s k = true ∧ ¬ (i ≤ k ∧ k < i + pagesOf size) := by
  have bound := total_lt s
  have below := grant.below
  rw [markLoop_free s (by omega), Bool.and_eq_true, Nat.add_zero, Bool.not_eq_true',
    decide_eq_false_iff_not]

/-- `phys_free_contiguous` frees the counted pages of a range that does not start
    on page 0, and no others. -/
theorem physFreeContiguous_free (s : PhysMem arch) (inside : i < 2 ^ 52) (nonzero : i ≠ 0)
    (asked : 0 < size) (fits : size + (pmPageSize - 1) < arch.wordSize) (k : Nat) :
    pageIsFree (physFreeContiguous s (i * pmPageSize) size) k = true ↔
      pageIsFree s k = true ∨ (i ≤ k ∧ k < i + pagesOf size ∧ k < s.physTotalPages) := by
  have small : pagesOf size < 2 ^ 52 := requestPages_eq fits ▸ requestPages_lt arch size
  have proceeds : ¬ (i * pmPageSize = 0 ∨ size = 0) := by
    simp only [pmPageSize]
    omega
  rw [physFreeContiguous, if_neg proceeds, Nat.mul_div_cancel _ (by decide), requestPages_eq fits,
    freeLoop_free s (by omega), Bool.or_eq_true, decide_eq_true_eq, Nat.add_zero]

theorem physAllocContiguous_setup (s : PhysMem arch) (alignment : Nat)
    (word : size < arch.wordSize) :
    SameSetup s (physAllocContiguous s size alignment).2 := by
  rcases physAllocContiguous_spec s alignment word with ⟨i, _, _, eq⟩ | ⟨_, eq⟩
  · rw [eq]
    exact markLoop_setup s i _ 0
  · rw [eq]
    exact .refl s

theorem physFreeContiguous_setup (s : PhysMem arch) (addr size : Nat) :
    SameSetup s (physFreeContiguous s addr size) := by
  rw [physFreeContiguous]
  split
  · exact .refl s
  · exact freeLoop_setup s _ _ 0

end AurorOS.Phys
