import AurorOS.Lib.PageWalk
import AurorOS.Phys.Sessions

/-! # The page tables of the x86_64 build

`setup_page_tables` fills three tables before long mode is entered.  They map the first
gigabyte to itself and nothing else, and so memory above is out of reach.
-/

namespace AurorOS.Boot

open ByteMemory PageWalk Phys Runs

/-- The place of the three tables in `.bss`, one behind the other; symbols have 32 bits. -/
structure PageTables where
  base : Nat
  aligned : 4096 ∣ base
  below : base + 3 * 4096 ≤ 2 ^ 32

namespace PageTables

variable (t : PageTables)

/-- `page_table_l4` -/
def l4 : Nat := t.base

/-- `page_table_l3` -/
def l3 : Nat := t.base + 4096

/-- `page_table_l2` -/
def l2 : Nat := t.base + 2 * 4096

/-- The address is in one of the tables. -/
def Inside (x : Nat) : Prop := t.base ≤ x ∧ x < t.base + 3 * 4096

end PageTables

/-- `mul ecx` with `0x200000` in `eax`, and the flags; the upper half of the product is lost with
    `edx`. -/
def largePage (ecx : Nat) : Nat := 0x200000 * ecx % 2 ^ 32 ||| 0b10000011

/-- The `count` rounds of the loop from `ecx` on. -/
def tableLoop (l2 : Nat) : (count ecx : Nat) → Mem → Mem
  | 0, _, m => m
  | count + 1, ecx, m => tableLoop l2 count (ecx + 1) (store m (l2 + ecx * 8) 4 (largePage ecx))

/-- The stores are of 32 bits; the loop is left when `ecx` has come to 512. -/
def setupPageTables (t : PageTables) (m : Mem) : Mem :=
  let m := store m t.l4 4 (t.l3 ||| 0b11)
  let m := store m t.l3 4 (t.l2 ||| 0b11)
  tableLoop t.l2 512 0 m

/-- The loader has filled `.bss` with zeros. -/
def Zeroed (t : PageTables) (m : Mem) : Prop := ∀ x, t.Inside x → m x = 0

/-- The tables in `m` are as they were set up in `start`, whatever has become of the rest of
    memory. -/
structure TablesKept (t : PageTables) (start m : Mem) : Prop where
  zeroed : Zeroed t start
  kept : ∀ x, t.Inside x → m x = setupPageTables t start x

/-- The kernel reaches `a` under its own address and may write there. -/
def Mapped (t : PageTables) (m : Mem) (a : Nat) : Prop := walk m 4 t.l4 a = some ⟨a, true, false⟩

variable {t : PageTables} {start m : Mem} {l2 count ecx a v i : Nat}

theorem tableLoop_outside (l2 count ecx : Nat) (m : Mem) :
    ChangesIn m (tableLoop l2 count ecx m) (l2 + ecx * 8) (count * 8) := by
  induction count generalizing ecx m with
  | zero => exact fun _ _ => rfl
  | succ count ih =>
      rw [tableLoop]
      have here : ChangesIn m (store m (l2 + ecx * 8) 4 (largePage ecx)) (l2 + ecx * 8)
          ((count + 1) * 8) :=
        (store_changesIn m (l2 + ecx * 8) 4 (largePage ecx)).mono le_rfl (by omega)
      exact here.trans ((ih (ecx + 1) _).mono (by omega) (by omega))

/-- The lower half of an entry. -/
theorem load_tableLoop (above : ecx ≤ i) (inside : i < ecx + count) :
    load (tableLoop l2 count ecx m) (l2 + i * 8) 4 = largePage i % 256 ^ 4 := by
  induction count generalizing ecx m with
  | zero => omega
  | succ count ih =>
      rw [tableLoop]
      rcases Nat.eq_or_lt_of_le above with rfl | later
      · have rest := tableLoop_outside l2 count (ecx + 1) (store m (l2 + ecx * 8) 4 (largePage ecx))
        rw [load_congr (rest.agreeOn (Or.inl (by omega))), load_store_same]
      · exact ih later (by omega)

/-- The upper half of an entry is not touched. -/
theorem load_tableLoop_upper (l2 count ecx : Nat) (m : Mem) (i : Nat) :
    load (tableLoop l2 count ecx m) (l2 + i * 8 + 4) 4 = load m (l2 + i * 8 + 4) 4 := by
  induction count generalizing ecx m with
  | zero => rfl
  | succ count ih =>
      rw [tableLoop, ih, load_store_disjoint]
      omega

theorem largePage_eq (inside : i < 512) : largePage i = 0x200000 * i + 0b10000011 := by
  have fits : 0x200000 * i < 2 ^ 32 := by omega
  rw [largePage, Nat.mod_eq_of_lt fits]
  exact or_eq_add (k := 21) (Nat.dvd_mul_right _ _) (by decide)

/-- What the setup changes, and what it leaves zero. -/
theorem setup_changesIn (t : PageTables) (m : Mem) :
    ChangesIn m (setupPageTables t m) t.base (3 * 4096) := by
  have first := store_changesIn m t.l4 4 (t.l3 ||| 0b11)
  have second := store_changesIn (store m t.l4 4 (t.l3 ||| 0b11)) t.l3 4 (t.l2 ||| 0b11)
  have rest :=
    tableLoop_outside t.l2 512 0 (store (store m t.l4 4 (t.l3 ||| 0b11)) t.l3 4 (t.l2 ||| 0b11))
  simp only [PageTables.l4, PageTables.l3, PageTables.l2] at *
  exact ((first.mono le_rfl (by omega)).trans (second.mono (by omega) (by omega))).trans
    (rest.mono (by omega) (by omega))

theorem setup_elsewhere {x : Nat} (first : x < t.l4 ∨ t.l4 + 4 ≤ x)
    (second : x < t.l3 ∨ t.l3 + 4 ≤ x) (third : x < t.l2 ∨ t.l2 + 4096 ≤ x) :
    setupPageTables t m x = m x := by
  rw [setupPageTables, tableLoop_outside t.l2 512 0 _ x (by omega), store_outside _ _ _ _ second,
    store_outside _ _ _ _ first]

theorem entry_of_halves {value : Nat} (lower : load m a 4 = value) (upper : load m (a + 4) 4 = 0) :
    load m a 8 = value := by
  rw [load_add m a 4 4, lower, upper, Nat.mul_zero, Nat.add_zero]

/-- A table of which only the lower half of the first entry is filled. -/
theorem entry_of_first {table value : Nat} (lower : load m table 4 = value)
    (rest : ∀ x, table + 4 ≤ x → x < table + 4096 → m x = 0) (inside : i < 512) :
    load m (table + 8 * i) 8 = if i = 0 then value else 0 := by
  split
  · rename_i first
    subst first
    refine entry_of_halves lower (load_zeros fun k below => rest _ ?_ ?_) <;> omega
  · refine load_zeros fun k below => rest _ ?_ ?_ <;> omega

theorem entry_l4 (zero : Zeroed t m) (inside : i < 512) :
    load (setupPageTables t m) (t.l4 + 8 * i) 8 = if i = 0 then t.l3 + 3 else 0 := by
  have below := t.below
  have value : t.l3 ||| 3 = t.l3 + 3 :=
    or_eq_add (k := 12) (Nat.dvd_add t.aligned (Nat.dvd_refl _)) (by decide)
  refine entry_of_first ?_ (fun x above under => ?_) inside
  · have rest :=
      tableLoop_outside t.l2 512 0 (store (store m t.l4 4 (t.l3 ||| 0b11)) t.l3 4 (t.l2 ||| 0b11))
    simp only [PageTables.l4, PageTables.l3, PageTables.l2, setupPageTables] at rest value ⊢
    rw [load_congr (rest.agreeOn (Or.inl (by omega))),
      load_store_disjoint _ _ _ _ (Or.inl (by omega)), load_store_same, value,
      Nat.mod_eq_of_lt (by omega)]
  · simp only [PageTables.l4] at above under
    rw [setup_elsewhere, zero] <;> simp only [PageTables.Inside, PageTables.l4, PageTables.l3,
      PageTables.l2] <;> omega

theorem entry_l3 (zero : Zeroed t m) (inside : i < 512) :
    load (setupPageTables t m) (t.l3 + 8 * i) 8 = if i = 0 then t.l2 + 3 else 0 := by
  have below := t.below
  have value : t.l2 ||| 3 = t.l2 + 3 :=
    or_eq_add (k := 12) (Nat.dvd_add t.aligned (Nat.dvd_mul_left _ _)) (by decide)
  refine entry_of_first ?_ (fun x above under => ?_) inside
  · have rest :=
      tableLoop_outside t.l2 512 0 (store (store m t.l4 4 (t.l3 ||| 0b11)) t.l3 4 (t.l2 ||| 0b11))
    simp only [PageTables.l4, PageTables.l3, PageTables.l2, setupPageTables] at rest value ⊢
    rw [load_congr (rest.agreeOn (Or.inl (by omega))), load_store_same, value,
      Nat.mod_eq_of_lt (by omega)]
  · simp only [PageTables.l3] at above under
    rw [setup_elsewhere, zero] <;> simp only [PageTables.Inside, PageTables.l4, PageTables.l3,
      PageTables.l2] <;> omega

theorem entry_l2 (zero : Zeroed t m) (inside : i < 512) :
    load (setupPageTables t m) (t.l2 + 8 * i) 8 = 0x200000 * i + 0b10000011 := by
  have below := t.below
  rw [Nat.mul_comm 8 i]
  refine entry_of_halves ?_ ?_
  · rw [setupPageTables, load_tableLoop (Nat.zero_le i) (by omega), largePage_eq inside,
      Nat.mod_eq_of_lt (by omega)]
  · rw [setupPageTables, load_tableLoop_upper]
    refine load_zeros fun k low => ?_
    have apart : t.l4 + 4 ≤ t.l2 ∧ t.l3 + 4 ≤ t.l2 := by
      simp only [PageTables.l4, PageTables.l3, PageTables.l2]
      omega
    rw [store_outside _ _ _ _ (Or.inr (by omega)), store_outside _ _ _ _ (Or.inr (by omega)), zero]
    simp only [PageTables.Inside, PageTables.l2]
    omega

/-- An entry of a table with flags that say present and writable. -/
theorem flags_of_table {base : Nat} (aligned : 4096 ∣ base) :
    (base + 3).testBit 0 = true ∧ (base + 3).testBit 1 = true ∧ (base + 3).testBit 2 = false ∧
      (base + 3).testBit 7 = false := by
  have flag : ∀ i < 12, (base + 3).testBit i = Nat.testBit 3 i :=
    fun i below => testBit_add (k := 12) aligned (by decide) below
  refine ⟨flag 0 (by decide), flag 1 (by decide), flag 2 (by decide), flag 7 (by decide)⟩

theorem flags_of_page (i : Nat) :
    (0x200000 * i + 0b10000011).testBit 0 = true ∧ (0x200000 * i + 0b10000011).testBit 1 = true ∧
      (0x200000 * i + 0b10000011).testBit 2 = false ∧
      (0x200000 * i + 0b10000011).testBit 7 = true := by
  have flag : ∀ k < 21, (0x200000 * i + 0b10000011).testBit k = Nat.testBit 0b10000011 k :=
    fun k below => testBit_add (k := 21) (Nat.dvd_mul_right _ _) (by decide) below
  refine ⟨flag 0 (by decide), flag 1 (by decide), flag 2 (by decide), flag 7 (by decide)⟩

namespace TablesKept

variable (kept : TablesKept t start m)
include kept

theorem load_eq (above : t.base ≤ a) (below : a + 8 ≤ t.base + 3 * 4096) :
    load m a 8 = load (setupPageTables t start) a 8 := by
  refine load_congr fun x low high => kept.kept x ⟨?_, ?_⟩ <;> omega

theorem load_l4 (inside : i < 512) : load m (t.l4 + 8 * i) 8 = if i = 0 then t.l3 + 3 else 0 := by
  rw [← entry_l4 kept.zeroed inside, kept.load_eq] <;> simp only [PageTables.l4] <;> omega

theorem load_l3 (inside : i < 512) : load m (t.l3 + 8 * i) 8 = if i = 0 then t.l2 + 3 else 0 := by
  rw [← entry_l3 kept.zeroed inside, kept.load_eq] <;> simp only [PageTables.l3] <;> omega

theorem load_l2 (inside : i < 512) : load m (t.l2 + 8 * i) 8 = 0x200000 * i + 0b10000011 := by
  rw [← entry_l2 kept.zeroed inside, kept.load_eq] <;> simp only [PageTables.l2] <;> omega

/-- The translation from the table of large pages on. -/
theorem walk_l2 (v : Nat) :
    walk m 2 t.l2 v = some ⟨v % 2 ^ 30, true, false⟩ := by
  have inside : v / span 1 % 512 < 512 := Nat.mod_lt _ (by decide)
  obtain ⟨present, writable, user, large⟩ := flags_of_page (v / span 1 % 512)
  have place : frame (0x200000 * (v / span 1 % 512) + 0b10000011) (span 1) =
      0x200000 * (v / span 1 % 512) :=
    frame_add (Nat.dvd_mul_right _ _) (by decide) (by omega)
  have address : 0x200000 * (v / span 1 % 512) + v % span 1 = v % 2 ^ 30 := by
    simp only [span, Nat.reduceMul, Nat.reduceAdd]
    omega
  rw [walk_large (kept.load_l2 inside) present large (Or.inl rfl), place, address, restrict]
  simp only [writable, user, Bool.true_and, Bool.false_and]

theorem walk_l3 (v : Nat) :
    walk m 3 t.l3 v = if v / span 2 % 512 = 0 then some ⟨v % 2 ^ 30, true, false⟩ else none := by
  have below := t.below
  have here := kept.load_l3 (Nat.mod_lt (v / span 2) (by decide : 0 < 512))
  split
  · rename_i first
    rw [if_pos first] at here
    obtain ⟨present, writable, user, small⟩ :=
      flags_of_table (Nat.dvd_add t.aligned (Nat.dvd_mul_left 4096 2))
    have place : frame (t.l2 + 3) (span 0) = t.l2 :=
      frame_add (Nat.dvd_add t.aligned (Nat.dvd_mul_left 4096 2)) (by decide)
        (by simp only [PageTables.l2]; omega)
    rw [walk_table here present small, place, kept.walk_l2, Option.map_some, restrict]
    simp only [PageTables.l2, writable, user, Bool.true_and, Bool.false_and]
  · rename_i later
    rw [if_neg later] at here
    exact walk_absent here (Nat.zero_testBit 0)

theorem walk_l4 (v : Nat) :
    walk m 4 t.l4 v = if v % 2 ^ 48 < 2 ^ 30 then some ⟨v % 2 ^ 48, true, false⟩ else none := by
  have below := t.below
  have here := kept.load_l4 (Nat.mod_lt (v / span 3) (by decide : 0 < 512))
  have low : v % 2 ^ 48 < 2 ^ 30 ↔ v / span 3 % 512 = 0 ∧ v / span 2 % 512 = 0 := by
    simp only [span, Nat.reduceMul, Nat.reduceAdd]
    omega
  by_cases first : v / span 3 % 512 = 0
  · rw [if_pos first] at here
    obtain ⟨present, writable, user, small⟩ :=
      flags_of_table (Nat.dvd_add t.aligned (Nat.dvd_refl 4096))
    have place : frame (t.l3 + 3) (span 0) = t.l3 :=
      frame_add (Nat.dvd_add t.aligned (Nat.dvd_refl 4096)) (by decide)
        (by simp only [PageTables.l3]; omega)
    rw [walk_table here present small, place, kept.walk_l3]
    by_cases second : v / span 2 % 512 = 0
    · have address : v % 2 ^ 30 = v % 2 ^ 48 := by
        have fits := low.mpr ⟨first, second⟩
        omega
      rw [if_pos second, if_pos (low.mpr ⟨first, second⟩), Option.map_some, restrict, address]
      simp only [PageTables.l3, writable, user, Bool.true_and, Bool.false_and]
    · rw [if_neg second, if_neg fun fits => second (low.mp fits).2, Option.map_none]
  · rw [if_neg first] at here
    rw [walk_absent here (Nat.zero_testBit 0), if_neg fun fits => first (low.mp fits).1]

theorem mapped_iff (a : Nat) : Mapped t m a ↔ a < 2 ^ 30 := by
  rw [Mapped, kept.walk_l4]
  split
  · rename_i low
    rw [Option.some.injEq, Mapping.mk.injEq]
    constructor
    · rintro ⟨same, -⟩
      omega
    · exact fun below => ⟨by omega, rfl, rfl⟩
  · rename_i high
    refine ⟨fun same => (by cases same), fun below => absurd ?_ high⟩
    omega

end TablesKept

/-- Nothing but the first gigabyte is mapped, to itself and writable for the kernel only; the
    setup changes nothing outside of its tables. -/
theorem setup_maps_first_gigabyte (t : PageTables) (start : Mem) (zero : Zeroed t start) :
    (∀ x, ¬ t.Inside x → setupPageTables t start x = start x) ∧
    ∀ m, (∀ x, t.Inside x → m x = setupPageTables t start x) → ∀ v, walk m 4 t.l4 v =
      if v % 2 ^ 48 < 2 ^ 30 then some ⟨v % 2 ^ 48, true, false⟩ else none := by
  refine ⟨fun x outside => setup_changesIn t start x ?_,
    fun m kept v => TablesKept.walk_l4 ⟨zero, kept⟩ v⟩
  simp only [PageTables.Inside] at outside
  omega

/-- The tables at 1 MiB. -/
def exampleTables : PageTables := ⟨0x100000, by decide, by decide⟩

theorem setup_maps_first_gigabyte_example :
    walk (setupPageTables exampleTables fun _ => 0) 4 exampleTables.l4 0xB8000 =
    some ⟨0xB8000, true, false⟩ ∧
      walk (setupPageTables exampleTables fun _ => 0) 4 exampleTables.l4 0x40000000 = none := by
  have walks := (setup_maps_first_gigabyte exampleTables (fun _ => 0) fun _ _ => rfl).2 _
    fun _ _ => rfl
  exact ⟨walks 0xB8000, walks 0x40000000⟩

/-- The page allocator only hands out memory that the kernel reaches exactly if no page behind the
    first gigabyte is free at first. -/
theorem grants_mapped_iff (t : PageTables) (start m : Mem) (kept : TablesKept t start m)
    (phys : PhysMem .x86_64) (bitmap : phys.physBitmap ≠ 0) :
    (∀ s, Reachable Step (begin phys) s → ∀ g ∈ s.live, ∀ a, g.addr ≤ a → a < g.addr + g.size →
    Mapped t m a) ↔ ∀ k, pageIsFree phys k = true → k < 2 ^ 18 := by
  constructor
  · intro mapped k free
    by_contra above
    obtain ⟨trace, s, run, held, -⟩ := obtain_page (s := begin phys) bitmap (by omega : 0 < k) free
    have one : 0 < pmPageSize := by decide
    have page := mapped s ⟨trace, run⟩ _ held (k * pmPageSize) le_rfl (Nat.lt_add_of_pos_right one)
    rw [kept.mapped_iff, pmPageSize] at page
    omega
  · intro low s reach g member a above below
    have held := (reachable_inv reach).held g member
    obtain ⟨n, addr⟩ := held.pageAddr
    have inside : a / pmPageSize ∈ g.pages := by
      rw [mem_pages]
      simp only [pagesOf, pmPageSize] at addr ⊢
      omega
    have page := low _ (held.wasFree _ inside)
    rw [kept.mapped_iff]
    rw [pmPageSize] at page
    omega

theorem grants_mapped_iff_example :
    ((∀ s, Reachable Step (begin exampleMem) s → ∀ g ∈ s.live, ∀ a, g.addr ≤ a →
    a < g.addr + g.size → Mapped exampleTables (setupPageTables exampleTables fun _ => 0) a) ↔
        ∀ k, pageIsFree exampleMem k = true → k < 2 ^ 18) ∧
      ∀ k, pageIsFree exampleMem k = true → k < 2 ^ 18 := by
  refine ⟨grants_mapped_iff exampleTables (fun _ => 0) _ ⟨fun _ _ => rfl, fun _ _ => rfl⟩ exampleMem
    (by decide), fun k free => ?_⟩
  have total : exampleMem.physTotalPages = 4 := rfl
  have below := lt_of_pageIsFree free
  omega

end AurorOS.Boot
