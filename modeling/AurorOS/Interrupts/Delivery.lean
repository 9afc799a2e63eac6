import AurorOS.Interrupts.LongFrames
import AurorOS.Interrupts.Controllers
import AurorOS.Interrupts.Table

/-! # An interrupt from the line to the return

The controllers give a vector, the processor finds the gate in the table and saves what it
interrupts, and the number that `isr_handler` reads is the vector again.
-/

namespace AurorOS.Interrupts

open ByteMemory StackFrame Runs

/-- What the processor takes from an entry. -/
def IdtEntry.gate (k : Nat) (e : IdtEntry) : Gate k := ⟨wrap k e.offset, wrap 2 e.selector⟩

/-- The table is loaded, and memory has it as `idt_init` left it. -/
structure TableKept (arch : Arch) (idt ptr : Nat) (isr irq : Nat → Nat) (start m : Mem) : Prop where
  place : TablePlace arch idt ptr
  exceptions : ∀ i < 32, isr i < arch.wordSize
  lines : ∀ i < 16, irq i < arch.wordSize
  bytes : AgreeOn (idtInit arch idt ptr isr irq start).2 m idt (idt + sizeofIdtEntry arch * 256)

variable {arch : Arch} {idt ptr n depth : Nat} {isr irq : Nat → Nat} {start m : Mem} {p s q : Pics}
  {line : Line}

theorem TableKept.lookUp (kept : TableKept arch idt ptr isr irq start m) (n : Nat) :
    lookUp arch ((idtInit arch idt ptr isr irq start).1, m) n = vectorEntry isr irq n := by
  rw [← idtInit_lookUp kept.place start kept.exceptions kept.lines n, Interrupts.lookUp,
    Interrupts.lookUp, idtInit_fst kept.place]
  dsimp only
  split
  case isTrue inside =>
    have size : sizeofIdtEntry arch * n + sizeofIdtEntry arch ≤ sizeofIdtEntry arch * 256 := by
      cases arch <;> simp only [sizeofIdtEntry] at inside ⊢ <;> omega
    rw [readIdtEntry_congr (kept.bytes.mono (by omega) (by omega))]
  case isFalse _ => rfl

theorem isrErr_line (line : 32 ≤ n) : isrErr n = false := by
  simp only [isrErr, List.mem_cons, List.not_mem_nil, or_false, decide_eq_false_iff_not]
  omega

theorem number_lt (line : Line) : line.number < 16 := by
  cases line <;> simp only [Line.number] <;> omega

/-- `regs->int_no`, where `rdi` is `regs`. -/
def Cpu64.intNo (t : Cpu64) : Nat := load t.mem ((t.regs .rdi).val + 8 * 15) 8

theorem Cpu64.intNo_entered {c : Cpu64} {gate : Gate 8} (room : 184 + depth ≤ c.sp.val / 16 * 16)
    (pushes : (none : Option (Fin (256 ^ 8))).isSome = isrErr n) (small : n < 48) :
    (Cpu64.entered gate none n c).intNo = n := by
  have field : Cpu64.registersFields[Cpu64.mirrored 15]? = some .intNo := rfl
  have value : Cpu64.Field.value c n ((none : Option (Fin (256 ^ 8))).getD (wrap 8 0)) .intNo =
      n := by
    rw [Cpu64.Field.value]
  rw [Cpu64.intNo]
  exact (Cpu64.reads room pushes small field).trans value

/-- On x86_64 an interrupt of a line in any state that the controllers can come to runs the stub of
    that line; `isr_handler` is called with its vector, acknowledges it at the controllers that have
    it in service, and the interrupted code goes on. -/
theorem x86_64_interrupt_served {c : Cpu64} (reach : Reachable PicStep (remapped .x86_64 p) s)
    (ack : Acknowledged s line q) (kept : TableKept .x86_64 idt ptr isr irq start c.mem)
    (room : 184 + depth ≤ c.sp.val / 16 * 16) :
    ∃ e, lookUp .x86_64 ((idtInit .x86_64 idt ptr isr irq start).1, c.mem) (s.vector line) =
    some e ∧ e.offset = irq line.number ∧
      (∃ t, Handles (Cpu64.entered (e.gate 8) none (s.vector line) c).intNo q t ∧
      Idle 0x20 0x28 t) ∧
      ∀ u, Returned depth 0 (Cpu64.entered (e.gate 8) none (s.vector line) c) u →
        Resumed (c.sp.val / 16 * 16) (184 + depth) c (Cpu64.leave u) := by
  have small := number_lt line
  have pushes : (none : Option (Fin (256 ^ 8))).isSome = isrErr (32 + line.number) :=
    (isrErr_line (by omega)).symm
  obtain ⟨vector, handled⟩ := acknowledged_handled (reachable_idle reach) ack
  have entry := kept.lookUp (s.vector line)
  rw [vectorEntry, if_neg (by omega), if_pos (by omega), vector, Nat.add_sub_cancel_left] at entry
  rw [vector] at handled ⊢
  refine ⟨_, entry, rfl, ?_, fun u returned => ?_⟩
  · rw [Cpu64.intNo_entered room pushes (by omega)]
    exact handled
  · exact Cpu64.resumed room pushes returned

/-- The table of stubs of sixteen bytes each, and a state that has it in memory. -/
def exampleIdt : IdtPtr × Mem :=
  idtInit .x86_64 0x200000 0x201000 (fun i => 0x100000 + 16 * i) (fun i => 0x110000 + 16 * i)
    fun _ => 0

def Cpu64.withIdt : Cpu64 := { Cpu64.started with mem := exampleIdt.2 }

theorem tableKept_withIdt : TableKept .x86_64 0x200000 0x201000 (fun i => 0x100000 + 16 * i)
    (fun i => 0x110000 + 16 * i) (fun _ => 0) Cpu64.withIdt.mem := by
  have word : Arch.x86_64.wordSize = 2 ^ 64 := rfl
  refine ⟨tablePlace_example .x86_64, fun i _ => by omega, fun i _ => by omega, ?_⟩
  rw [Cpu64.withIdt, exampleIdt]
  exact AgreeOn.refl _ _ _

theorem x86_64_interrupt_served_timer : ∃ e,
    lookUp .x86_64 (exampleIdt.1, Cpu64.withIdt.mem) ((ticked .x86_64).vector (.master 0)) =
    some e ∧ e.offset = 0x110000 := by
  obtain ⟨q, ack⟩ := served (reachable_idle (reachable_ticked .x86_64)) (asks_ticked .x86_64)
    fun _ _ => Nat.zero_le _
  have top : Cpu64.withIdt.sp.val / 16 * 16 = 4096 := by
    change Cpu64.started.sp.val / 16 * 16 = 4096
    rw [Cpu64.started, wrap_of_lt (by decide)]
  obtain ⟨e, found, offset, -⟩ := x86_64_interrupt_served (reachable_ticked .x86_64) ack
    tableKept_withIdt
    (by rw [top]; decide : 184 + 0 ≤ Cpu64.withIdt.sp.val / 16 * 16)
  exact ⟨e, found, offset⟩

end AurorOS.Interrupts
