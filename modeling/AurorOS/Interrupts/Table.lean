import AurorOS.Lib.ByteMemory
import AurorOS.Machine

/-! # The interrupt table

`idt_init` notes where the table is, clears all its entries and sets those of the
exceptions and of the sixteen lines.  The processor takes an entry apart again when it
looks up a vector.
-/

namespace AurorOS.Interrupts

open ByteMemory

def sizeofIdtEntry : Arch → Nat
  | .x86 => 8
  | .x86_64 => 16

def idtSetGate (arch : Arch) (idtEntries num base sel flags : Nat) (m : Mem) : Mem :=
  let entry := idtEntries + sizeofIdtEntry arch * num
  match arch with
  | .x86 =>
      let m := store m entry 2 (base &&& 0xFFFF)
      let m := store m (entry + 2) 2 sel
      let m := store m (entry + 4) 1 0
      let m := store m (entry + 5) 1 flags
      store m (entry + 6) 2 ((base >>> 16) &&& 0xFFFF)
  | .x86_64 =>
      let m := store m entry 2 (base &&& 0xFFFF)
      let m := store m (entry + 2) 2 sel
      let m := store m (entry + 4) 1 0
      let m := store m (entry + 5) 1 flags
      let m := store m (entry + 6) 2 ((base >>> 16) &&& 0xFFFF)
      let m := store m (entry + 8) 4 ((base >>> 32) &&& 0xFFFFFFFF)
      store m (entry + 12) 4 0

/-- What `lidt` loads. -/
structure IdtPtr where
  limit : Nat
  base : Nat

/-- `sizeof(idt_ptr_t)`. -/
def sizeofIdtPtr (arch : Arch) : Nat := 2 + arch.wordBytes

def idtLoad (arch : Arch) (idtPtr : Nat) (m : Mem) : IdtPtr :=
  ⟨load m idtPtr 2, load m (idtPtr + 2) arch.wordBytes⟩

/-- The memory and the register of the table behind `idt_init`. -/
def idtInit (arch : Arch) (idtEntries idtPtr : Nat) (isrStubTable irqStubTable : Nat → Nat)
    (m : Mem) :
    IdtPtr × Mem :=
  let m := store m idtPtr 2 (sizeofIdtEntry arch * 256 - 1)
  let m := store m (idtPtr + 2) arch.wordBytes idtEntries
  let m := (List.range 256).foldl (fun m i => idtSetGate arch idtEntries i 0 0 0 m) m
  let m := (List.range 32).foldl
    (fun m i => idtSetGate arch idtEntries i (isrStubTable i) 0x08 0x8E m) m
  let m := (List.range 16).foldl
    (fun m i => idtSetGate arch idtEntries (32 + i) (irqStubTable i) 0x08 0x8E m) m
  (idtLoad arch idtPtr m, m)

/-- The table has an address, and `idt_ptr` lies elsewhere. -/
structure TablePlace (arch : Arch) (idt ptr : Nat) : Prop where
  word : idt < arch.wordSize
  apart : ptr + sizeofIdtPtr arch ≤ idt ∨ idt + sizeofIdtEntry arch * 256 ≤ ptr

/-- An entry as the processor reads it. -/
structure IdtEntry where
  offset : Nat
  selector : Nat
  typeAttr : Nat
  ist : Nat
  deriving DecidableEq, Repr

def readIdtEntry (arch : Arch) (m : Mem) (entry : Nat) : IdtEntry where
  offset := load m entry 2 + 2 ^ 16 * load m (entry + 6) 2 +
    match arch with
    | .x86 => 0
    | .x86_64 => 2 ^ 32 * load m (entry + 8) 4
  selector := load m (entry + 2) 2
  typeAttr := load m (entry + 5) 1
  ist := load m (entry + 4) 1

/-- No vector is looked up behind the limit. -/
def lookUp (arch : Arch) (table : IdtPtr × Mem) (n : Nat) : Option IdtEntry :=
  if sizeofIdtEntry arch * n + (sizeofIdtEntry arch - 1) ≤ table.1.limit then
    some (readIdtEntry arch table.2 (table.1.base + sizeofIdtEntry arch * n))
  else none

variable {arch : Arch} {idt ptr num base sel flags n : Nat} {m : Mem}

/-- The parts of the offset are put together again. -/
theorem readIdtEntry_same (word : base < arch.wordSize) (small : sel < 2 ^ 16)
    (byte : flags < 2 ^ 8) (m : Mem) :
    readIdtEntry arch (idtSetGate arch idt num base sel flags m) (idt + sizeofIdtEntry arch * num) =
      ⟨base, sel, flags, 0⟩ := by
  have low : base &&& 0xFFFF = base % 2 ^ 16 := Nat.and_two_pow_sub_one_eq_mod base 16
  have mid : base >>> 16 &&& 0xFFFF = base / 2 ^ 16 % 2 ^ 16 := by
    rw [Nat.shiftRight_eq_div_pow]
    exact Nat.and_two_pow_sub_one_eq_mod _ 16
  have high : base >>> 32 &&& 0xFFFFFFFF = base / 2 ^ 32 % 2 ^ 32 := by
    rw [Nat.shiftRight_eq_div_pow]
    exact Nat.and_two_pow_sub_one_eq_mod _ 32
  cases arch with
  | x86 =>
      have bound : base < 2 ^ 32 := word
      simp only [readIdtEntry, idtSetGate, low, mid]
      simp (disch := omega) only [load_store_disjoint, load_store_same, IdtEntry.mk.injEq]
      refine ⟨?_, ?_, ?_, ?_⟩ <;> omega
  | x86_64 =>
      have bound : base < 2 ^ 64 := word
      simp only [readIdtEntry, idtSetGate, low, mid, high]
      simp (disch := omega) only [load_store_disjoint, load_store_same, IdtEntry.mk.injEq]
      refine ⟨?_, ?_, ?_, ?_⟩ <;> omega

theorem idtSetGate_changesIn (arch : Arch) (idt num base sel flags : Nat) (m : Mem) :
    ChangesIn m (idtSetGate arch idt num base sel flags m) (idt + sizeofIdtEntry arch * num)
      (sizeofIdtEntry arch) := by
  intro x outside
  cases arch with
  | x86 =>
      simp only [sizeofIdtEntry] at outside
      simp (disch := omega) only [idtSetGate, sizeofIdtEntry, store_outside]
  | x86_64 =>
      simp only [sizeofIdtEntry] at outside
      simp (disch := omega) only [idtSetGate, sizeofIdtEntry, store_outside]

theorem readIdtEntry_congr {m' : Mem} {entry : Nat}
    (same : AgreeOn m m' entry (entry + sizeofIdtEntry arch)) :
    readIdtEntry arch m' entry = readIdtEntry arch m entry := by
  have size : 8 ≤ sizeofIdtEntry arch := by cases arch <;> decide
  simp only [readIdtEntry,
    load_congr (same.mono (by omega) (by omega) : AgreeOn m m' entry (entry + 2)),
    load_congr (same.mono (by omega) (by omega) : AgreeOn m m' (entry + 2) (entry + 2 + 2)),
    load_congr (same.mono (by omega) (by omega) : AgreeOn m m' (entry + 4) (entry + 4 + 1)),
    load_congr (same.mono (by omega) (by omega) : AgreeOn m m' (entry + 5) (entry + 5 + 1)),
    load_congr (same.mono (by omega) (by omega) : AgreeOn m m' (entry + 6) (entry + 6 + 2))]
  cases arch with
  | x86 => rfl
  | x86_64 =>
      have upper := load_congr (same.mono (by omega) (by simp only [sizeofIdtEntry]; omega) :
        AgreeOn m m' (entry + 8) (entry + 8 + 4))
      simp only [upper]

theorem readIdtEntry_other (other : n ≠ num) (m : Mem) :
    readIdtEntry arch (idtSetGate arch idt num base sel flags m) (idt + sizeofIdtEntry arch * n) =
      readIdtEntry arch m (idt + sizeofIdtEntry arch * n) := by
  refine readIdtEntry_congr ((idtSetGate_changesIn arch idt num base sel flags m).agreeOn ?_)
  cases arch <;> simp only [sizeofIdtEntry] <;> omega

section Loop

variable {offset : Nat → Nat} {count : Nat}

/-- The loop of `idt_init` over `count` entries from `first` on. -/
def setGates (arch : Arch) (idt first sel flags : Nat) (offset : Nat → Nat) (count : Nat)
    (m : Mem) : Mem :=
  (List.range count).foldl (fun m i => idtSetGate arch idt (first + i) (offset i) sel flags m) m

theorem setGates_succ (first count : Nat) : setGates arch idt first sel flags offset (count + 1) m =
    idtSetGate arch idt (first + count) (offset count) sel flags
      (setGates arch idt first sel flags offset count m) := by
  rw [setGates, List.range_succ, List.foldl_append]
  rfl

theorem setGates_read (first : Nat) (word : ∀ i < count, offset i < arch.wordSize)
    (small : sel < 2 ^ 16) (byte : flags < 2 ^ 8) (m : Mem) (n : Nat) :
    readIdtEntry arch (setGates arch idt first sel flags offset count m)
      (idt + sizeofIdtEntry arch * n) =
      if first ≤ n ∧ n < first + count then ⟨offset (n - first), sel, flags, 0⟩
      else readIdtEntry arch m (idt + sizeofIdtEntry arch * n) := by
  induction count with
  | zero =>
      rw [if_neg (by omega)]
      rfl
  | succ count ih =>
      rw [setGates_succ]
      by_cases last : n = first + count
      · subst last
        rw [readIdtEntry_same (word count (Nat.lt_succ_self count)) small byte, if_pos (by omega),
          Nat.add_sub_cancel_left]
      · rw [readIdtEntry_other last, ih fun i below => word i (Nat.lt_succ_of_lt below)]
        by_cases inside : first ≤ n ∧ n < first + count
        · rw [if_pos inside, if_pos (by omega)]
        · rw [if_neg inside, if_neg (by omega)]

theorem setGates_changesIn {first : Nat} (fits : first + count ≤ 256) (m : Mem) :
    ChangesIn m (setGates arch idt first sel flags offset count m) idt
      (sizeofIdtEntry arch * 256) := by
  induction count with
  | zero => exact fun _ _ => rfl
  | succ count ih =>
      rw [setGates_succ]
      refine (ih (by omega)).trans
        ((idtSetGate_changesIn _ _ _ _ _ _ _).mono (Nat.le_add_right _ _) ?_)
      cases arch <;> simp only [sizeofIdtEntry] <;> omega

end Loop

/-- The first two stores of `idt_init`. -/
def notePlace (arch : Arch) (idt ptr : Nat) (m : Mem) : Mem :=
  store (store m ptr 2 (sizeofIdtEntry arch * 256 - 1)) (ptr + 2) arch.wordBytes idt

theorem notePlace_changesIn (arch : Arch) (idt ptr : Nat) (m : Mem) :
    ChangesIn m (notePlace arch idt ptr m) ptr (sizeofIdtPtr arch) := by
  have size : sizeofIdtPtr arch = 2 + arch.wordBytes := rfl
  refine @ChangesIn.trans m (store m ptr 2 (sizeofIdtEntry arch * 256 - 1)) _ _ _ ?_ ?_
  · exact ChangesIn.mono (store_changesIn _ _ _ _) le_rfl (by omega)
  · exact ChangesIn.mono (store_changesIn _ _ _ _) (Nat.le_add_right ptr 2) (by omega)

theorem idtLoad_notePlace (word : idt < arch.wordSize) (m : Mem) :
    idtLoad arch ptr (notePlace arch idt ptr m) = ⟨sizeofIdtEntry arch * 256 - 1, idt⟩ := by
  have limit : (sizeofIdtEntry arch * 256 - 1) % 256 ^ 2 = sizeofIdtEntry arch * 256 - 1 := by
    cases arch <;> rfl
  have base : idt % 256 ^ arch.wordBytes = idt := by rw [arch.pow_wordBytes, Nat.mod_eq_of_lt word]
  rw [idtLoad, notePlace, load_store_same, load_store_disjoint _ _ _ _ (.inl le_rfl),
    load_store_same, limit, base]

theorem idtLoad_congr {m' : Mem} (same : AgreeOn m m' ptr (ptr + sizeofIdtPtr arch)) :
    idtLoad arch ptr m' = idtLoad arch ptr m := by
  rw [sizeofIdtPtr] at same
  rw [idtLoad, idtLoad, load_congr (same.mono le_rfl (by omega) : AgreeOn m m' ptr (ptr + 2)),
    load_congr (same.mono (by omega) (by omega) : AgreeOn m m' (ptr + 2)
      (ptr + 2 + arch.wordBytes))]

/-- The three loops. -/
def fillTable (arch : Arch) (idt : Nat) (isr irq : Nat → Nat) (m : Mem) : Mem :=
  setGates arch idt 32 0x08 0x8E irq 16 (setGates arch idt 0 0x08 0x8E isr 32
    (setGates arch idt 0 0 0 (fun _ => 0) 256 m))

theorem fillTable_changesIn (arch : Arch) (idt : Nat) (isr irq : Nat → Nat) (m : Mem) :
    ChangesIn m (fillTable arch idt isr irq m) idt (sizeofIdtEntry arch * 256) :=
  ((setGates_changesIn (by omega) m).trans (setGates_changesIn (by omega) _)).trans
    (setGates_changesIn (by omega) _)

theorem idtInit_snd (arch : Arch) (idt ptr : Nat) (isr irq : Nat → Nat) (m : Mem) :
    (idtInit arch idt ptr isr irq m).2 = fillTable arch idt isr irq (notePlace arch idt ptr m) := by
  simp only [idtInit, fillTable, notePlace, setGates, Nat.zero_add]

/-- The processor learns where the table is. -/
theorem idtInit_fst (place : TablePlace arch idt ptr) (isr irq : Nat → Nat) (m : Mem) :
    (idtInit arch idt ptr isr irq m).1 = ⟨sizeofIdtEntry arch * 256 - 1, idt⟩ := by
  have loaded : (idtInit arch idt ptr isr irq m).1 =
      idtLoad arch ptr (idtInit arch idt ptr isr irq m).2 := rfl
  rw [loaded, idtInit_snd, idtLoad_congr
    (ChangesIn.agreeOn (fillTable_changesIn _ _ _ _ _) place.apart), idtLoad_notePlace place.word]

/-- What the processor finds for a vector. -/
def vectorEntry (isr irq : Nat → Nat) (n : Nat) : Option IdtEntry :=
  if n < 32 then some ⟨isr n, 0x08, 0x8E, 0⟩
  else if n < 48 then some ⟨irq (n - 32), 0x08, 0x8E, 0⟩
  else if n < 256 then some ⟨0, 0, 0, 0⟩
  else none

theorem idtInit_lookUp (place : TablePlace arch idt ptr) (m : Mem) {isr irq : Nat → Nat}
    (exceptions : ∀ i < 32, isr i < arch.wordSize) (lines : ∀ i < 16, irq i < arch.wordSize)
    (n : Nat) :
    lookUp arch (idtInit arch idt ptr isr irq m) n = vectorEntry isr irq n := by
  have zero : 0 < arch.wordSize := arch.wordSize_pos
  have size : sizeofIdtEntry arch * n + (sizeofIdtEntry arch - 1) ≤ sizeofIdtEntry arch * 256 - 1 ↔
      n < 256 := by
    cases arch <;> simp only [sizeofIdtEntry] <;> omega
  rw [lookUp, vectorEntry, idtInit_fst place, idtInit_snd, fillTable,
    setGates_read 32 lines (by decide) (by decide), setGates_read 0 exceptions (by decide)
      (by decide), setGates_read 0 (fun _ _ => zero) (by decide) (by decide)]
  simp only [size]
  by_cases exception : n < 32
  · rw [if_pos (by omega), if_neg (by omega), if_pos (by omega), if_pos exception, Nat.sub_zero]
  · rw [if_neg exception]
    by_cases line : n < 48
    · rw [if_pos (by omega), if_pos (by omega), if_pos line]
    · rw [if_neg line]
      by_cases inside : n < 256
      · rw [if_pos inside, if_neg (by omega), if_neg (by omega), if_pos (by omega), if_pos inside]
      · rw [if_neg inside, if_neg inside]

/-- Whatever was in memory, each vector leads to its own stub, the others to no gate that is
    present, and nothing but the table and `idt_ptr` is written. -/
theorem idtInit_vectors (arch : Arch) (idt ptr : Nat) (isr irq : Nat → Nat) (m : Mem)
    (place : TablePlace arch idt ptr) (exceptions : ∀ i < 32, isr i < arch.wordSize)
    (lines : ∀ i < 16, irq i < arch.wordSize) :
    (∀ n, lookUp arch (idtInit arch idt ptr isr irq m) n = vectorEntry isr irq n) ∧
      ∀ x, (x < idt ∨ idt + sizeofIdtEntry arch * 256 ≤ x) →
      (x < ptr ∨ ptr + sizeofIdtPtr arch ≤ x) → (idtInit arch idt ptr isr irq m).2 x = m x := by
  refine ⟨idtInit_lookUp place m exceptions lines, fun x besideTable besidePtr => ?_⟩
  rw [idtInit_snd, fillTable_changesIn arch idt isr irq _ x besideTable,
    notePlace_changesIn arch idt ptr m x besidePtr]

theorem tablePlace_example (arch : Arch) : TablePlace arch 0x200000 0x201000 := by
  cases arch <;> exact ⟨by decide, .inr (by decide)⟩

/-- The entry of the timer, and a byte behind the table. -/
theorem idtInit_vectors_timer :
    lookUp .x86 (idtInit .x86 0x200000 0x201000 (fun i => 0x100000 + 16 * i)
      (fun i => 0x110000 + 16 * i) fun _ => 0xFF) 32 = some ⟨0x110000, 0x08, 0x8E, 0⟩ ∧
      (idtInit .x86 0x200000 0x201000 (fun i => 0x100000 + 16 * i) (fun i => 0x110000 + 16 * i)
        fun _ => 0xFF).2 0x200800 = 0xFF := by
  have word : Arch.x86.wordSize = 2 ^ 32 := rfl
  have all := idtInit_vectors .x86 0x200000 0x201000 (fun i => 0x100000 + 16 * i)
    (fun i => 0x110000 + 16 * i)
    (fun _ => 0xFF) (tablePlace_example .x86) (fun i _ => by omega) (fun i _ => by omega)
  exact ⟨all.1 32, all.2 0x200800 (.inr (by decide)) (.inl (by decide))⟩

end AurorOS.Interrupts
