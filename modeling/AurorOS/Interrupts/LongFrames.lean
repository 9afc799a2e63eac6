import AurorOS.Interrupts.Frames

/-! # Entering and leaving an interrupt in long mode

The processor aligns the stack first and saves the old stack pointer on it.  `isr_common` pushes
the registers in the order in which `struct registers` declares them, so that the structure
has them the other way around.
-/

namespace AurorOS.Interrupts

open ByteMemory StackFrame

inductive Reg64 where
  | rax | rbx | rcx | rdx | rsi | rdi | rbp
  | r8 | r9 | r10 | r11 | r12 | r13 | r14 | r15
  | ss | cs
  | rip | rflags
  deriving DecidableEq, Repr

abbrev Reg64.size : Reg64 → Nat
  | .ss | .cs => 2
  | _ => 8

abbrev Cpu64 := State Reg64.size 8

namespace Cpu64

/-- The stack on which the processor starts. -/
def align (s : Cpu64) : Cpu64 := { s with sp := wrap 8 (s.sp.val / 16 * 16) }

def deliver (gate : Gate 8) (err : Option (Fin (256 ^ 8))) (s : Cpu64) : Cpu64 :=
  let t := pushAll [.reg .ss, .word s.sp, .reg .rflags, .reg .cs, .reg .rip] (align s)
  let t := match err with
    | some err => push (.word err) t
    | none => t
  ((t.set .rip gate.offset).set .cs gate.selector).set .rflags (interruptFlags (s.regs .rflags))

def stub (n : Nat) (s : Cpu64) : Cpu64 :=
  push (.word (wrap 8 n)) (if isrErr n then s else push (.word (wrap 8 0)) s)

/-- The fifteen registers that `isr_common` pushes. -/
def saving : List (Slot Reg64 8) :=
  [.reg .r15, .reg .r14, .reg .r13, .reg .r12, .reg .r11, .reg .r10, .reg .r9, .reg .r8,
    .reg .rbp, .reg .rdi, .reg .rsi, .reg .rdx, .reg .rcx, .reg .rbx, .reg .rax]

/-- `sub rsp, 8` -/
def subRsp (s : Cpu64) : Cpu64 := { s with sp := wrap 8 (s.sp.val + 256 ^ 8 - 8) }

/-- `mov rdi, rsp` -/
def movRdiRsp (s : Cpu64) : Cpu64 := s.set .rdi s.sp

/-- `isr_common` up to the call. -/
def enter (s : Cpu64) : Cpu64 := subRsp (movRdiRsp (pushAll saving s))

/-- The stack pointer is taken from the stack as well. -/
def iretq (s : Cpu64) : Cpu64 :=
  let t := unwind [.reg .ss, .word (wrap 8 0), .reg .rflags, .reg .cs, .reg .rip] s
  { t with sp := ⟨load s.mem (wrap 8 (s.sp.val + 24)).val 8, load_lt _ _ _⟩ }

/-- `isr_common` behind the call. -/
def leave (s : Cpu64) : Cpu64 := iretq (addSp 16 (unwind saving (addSp 8 s)))

/-- `struct registers`, as declared. -/
inductive Field where
  | reg (r : Reg64)
  | intNo | errCode | rsp
  deriving DecidableEq

def registersFields : List Field :=
  [.reg .r15, .reg .r14, .reg .r13, .reg .r12, .reg .r11, .reg .r10, .reg .r9, .reg .r8,
    .reg .rbp, .reg .rdi, .reg .rsi, .reg .rdx, .reg .rcx, .reg .rbx, .reg .rax,
    .intNo, .errCode, .reg .rip, .reg .cs, .reg .rflags, .rsp, .reg .ss]

def entered (gate : Gate 8) (err : Option (Fin (256 ^ 8))) (n : Nat) (s : Cpu64) : Cpu64 :=
  enter (stub n (deliver gate err s))

/-- What is on the stack when `isr_handler` is called, above the eight bytes of `sub`. -/
def opening (sp : Fin (256 ^ 8)) (n : Nat) (err : Fin (256 ^ 8)) : List (Slot Reg64 8) :=
  [.reg .ss, .word sp, .reg .rflags, .reg .cs, .reg .rip, .word err, .word (wrap 8 n)]

def frame (s : Cpu64) (n : Nat) (err : Fin (256 ^ 8)) : List (Slot Reg64 8) :=
  opening s.sp n err ++ saving

variable {s t : Cpu64} {gate : Gate 8} {err : Option (Fin (256 ^ 8))} {n : Nat}

theorem size_le (r : Reg64) : r.size ≤ 8 := by cases r <;> decide

/-- The processor has loaded these three. -/
def Reloaded (r : Reg64) : Prop := r = .rip ∨ r = .cs ∨ r = .rflags

theorem loaded_regs {r : Reg64} (other : ¬ Reloaded r) (v : Fin (256 ^ 8)) (c : Fin (256 ^ 2))
    (f : Fin (256 ^ 8)) :
    (((s.set .rip v).set .cs c).set .rflags f).regs r = s.regs r := by
  rw [set_regs_of_ne (fun same => other (Or.inr (Or.inr same))),
    set_regs_of_ne (fun same => other (Or.inr (Or.inl same))),
    set_regs_of_ne (fun same => other (Or.inl same))]

/-- The words of the processor. -/
def delivery (sp : Fin (256 ^ 8)) (err : Option (Fin (256 ^ 8))) : List (Slot Reg64 8) :=
  [.reg .ss, .word sp, .reg .rflags, .reg .cs, .reg .rip] ++ (err.map Slot.word).toList

theorem align_sp (s : Cpu64) : (align s).sp.val = s.sp.val / 16 * 16 := by
  have bound := s.sp.isLt
  rw [align, wrap_of_lt (by omega)]

theorem align_regs (s : Cpu64) : (align s).regs = s.regs := rfl

theorem deliver_eq (gate : Gate 8) (err : Option (Fin (256 ^ 8))) (s : Cpu64) : deliver gate err s =
    (((pushAll (delivery s.sp err) (align s)).set .rip gate.offset).set .cs gate.selector).set
      .rflags (interruptFlags (s.regs .rflags)) := by
  cases err with
  | none => simp only [deliver, delivery, Option.map_none, Option.toList_none, List.append_nil]
  | some e =>
      simp only [deliver, delivery, Option.map_some, Option.toList_some, pushAll_append,
        pushAll_cons, pushAll_nil]

/-- What the processor and the stub leave to `isr_common`. -/
structure Opened (n : Nat) (err : Fin (256 ^ 8)) (s t : Cpu64) : Prop where
  sp : t.sp = (pushAll (opening s.sp n err) (align s)).sp
  mem : t.mem = (pushAll (opening s.sp n err) (align s)).mem
  regs : ∀ r, ¬ Reloaded r → t.regs r = s.regs r

theorem opened_of (words : List (Slot Reg64 8)) (gate : Gate 8) (err : Option (Fin (256 ^ 8)))
    (s : Cpu64) (noRegs : ∀ r, .reg r ∉ words)
    (all : delivery s.sp err ++ words = opening s.sp n (err.getD (wrap 8 0))) :
    Opened n (err.getD (wrap 8 0)) s (pushAll words (deliver gate err s)) := by
  have pushed := pushAll_congr (l := words) (s := pushAll (delivery s.sp err) (align s))
    (t := deliver gate err s)
    (by rw [deliver_eq, set_sp, set_sp, set_sp]) (by rw [deliver_eq, set_mem, set_mem, set_mem])
    (fun r among => absurd among (noRegs r))
  rw [← pushAll_append, all] at pushed
  refine ⟨pushed.1, pushed.2, fun r other => ?_⟩
  rw [pushAll_regs, deliver_eq, loaded_regs other, pushAll_regs, align_regs]

theorem stub_opened (gate : Gate 8) (s : Cpu64) (pushes : err.isSome = isrErr n) :
    Opened n (err.getD (wrap 8 0)) s (stub n (deliver gate err s)) := by
  cases err with
  | none =>
      have words (t : Cpu64) : stub n t = pushAll [.word (wrap 8 0), .word (wrap 8 n)] t := by
        simp only [stub, ← pushes, Option.isSome_none, Bool.false_eq_true, if_false, pushAll_cons,
          pushAll_nil]
      rw [words]
      exact opened_of _ gate none s (fun r among => by simp at among)
        (by simp only [delivery, opening, Option.map_none, Option.toList_none, List.append_nil,
          Option.getD_none, List.cons_append, List.nil_append])
  | some e =>
      have words (t : Cpu64) : stub n t = pushAll [.word (wrap 8 n)] t := by
        simp only [stub, ← pushes, Option.isSome_some, if_true, pushAll_cons, pushAll_nil]
      rw [words]
      exact opened_of _ gate (some e) s (fun r among => by simp at among)
        (by simp only [delivery, opening, Option.map_some, Option.toList_some, Option.getD_some,
          List.cons_append, List.nil_append])

/-- `isr_common` has the frame on the stack, its address in `rdi` and eight bytes below it. -/
structure Entered (n : Nat) (err : Fin (256 ^ 8)) (s t : Cpu64) : Prop where
  sp : t.sp = wrap 8 ((pushAll (frame s n err) (align s)).sp.val + 256 ^ 8 - 8)
  mem : t.mem = (pushAll (frame s n err) (align s)).mem
  argument : t.regs .rdi = (pushAll (frame s n err) (align s)).sp

theorem entered_entered (gate : Gate 8) (s : Cpu64) (pushes : err.isSome = isrErr n) :
    Entered n (err.getD (wrap 8 0)) s (entered gate err n s) := by
  have opened := stub_opened gate s pushes
  rw [entered, enter]
  generalize stub n (deliver gate err s) = t, err.getD (wrap 8 0) = e at opened
  have saved := pushAll_congr (l := saving) opened.sp opened.mem (fun r among => by
    rw [pushAll_regs, align_regs]
    refine opened.regs r fun loaded => ?_
    rcases loaded with rfl | rfl | rfl <;> simp [saving] at among)
  rw [← pushAll_append, ← frame] at saved
  refine ⟨?_, ?_, ?_⟩
  · rw [subRsp, movRdiRsp, set_sp, saved.1]
  · rw [subRsp, movRdiRsp, set_mem, saved.2]
  · rw [subRsp, movRdiRsp, set_regs_self, saved.1]

theorem frame_length (s : Cpu64) (n : Nat) (err : Fin (256 ^ 8)) : (frame s n err).length = 22 := by
  simp only [frame, opening, saving, List.length_append, List.length_cons, List.length_nil]

theorem framed (s : Cpu64) (n : Nat) (err : Fin (256 ^ 8)) (r : Reg64) :
    .reg r ∈ frame s n err := by
  cases r <;> simp [frame, opening, saving]

theorem frame_room {total : Nat} (room : 184 + total ≤ s.sp.val / 16 * 16) (err : Fin (256 ^ 8)) :
    Room (align s) (frame s n err).length := by
  rw [Room, frame_length, align_sp]
  omega

theorem frame_sp {total : Nat} (room : 184 + total ≤ s.sp.val / 16 * 16) (err : Fin (256 ^ 8)) :
    (pushAll (frame s n err) (align s)).sp.val = s.sp.val / 16 * 16 - 176 := by
  rw [pushAll_sp (frame_room room err), frame_length, align_sp]

theorem entered_sp {total : Nat} (gate : Gate 8) (room : 184 + total ≤ s.sp.val / 16 * 16)
    (pushes : err.isSome = isrErr n) :
    (entered gate err n s).sp.val = s.sp.val / 16 * 16 - 184 := by
  have bound := s.sp.isLt
  have sum : s.sp.val / 16 * 16 - 176 + 256 ^ 8 - 8 = s.sp.val / 16 * 16 - 184 + 256 ^ 8 := by omega
  rw [(entered_entered gate s pushes).sp, frame_sp room, sum, wrap_val, Nat.add_mod_right,
    Nat.mod_eq_of_lt (by omega)]

/-- Where a word is skipped it does not matter what is in it. -/
theorem unwind_opening (sp : Fin (256 ^ 8)) (n : Nat) (err : Fin (256 ^ 8)) (t : Cpu64) :
    unwind (opening sp n err) t =
      unwind [.reg .ss, .word (wrap 8 0), .reg .rflags, .reg .cs, .reg .rip] (addSp 16 t) := by
  have both : addSp 16 t = pop (.word err) (pop (.word (wrap 8 n)) t) := by
    rw [pop_word, pop_word, addSp_addSp]
  rw [both]
  simp only [opening, unwind_cons, unwind_nil, pop_word]

theorem unwind_mem (l : List (Slot Reg64 8)) (t : Cpu64) : (unwind l t).mem = t.mem := by
  induction l with
  | nil => rw [unwind_nil]
  | cons x l ih => rw [unwind_cons, pop_mem, ih]

/-- Apart from the stack pointer, which comes from the stack. -/
theorem leave_eq (s : Cpu64) (n : Nat) (err : Fin (256 ^ 8)) (t : Cpu64) :
    (leave t).regs = (unwind (frame s n err) (addSp 8 t)).regs ∧ (leave t).mem = t.mem ∧
      (leave t).sp.val = load t.mem
        (wrap 8 ((addSp 16 (unwind saving (addSp 8 t))).sp.val + 24)).val 8 := by
  have kept : (addSp 16 (unwind saving (addSp 8 t))).mem = t.mem := unwind_mem saving (addSp 8 t)
  rw [frame, unwind_append, unwind_opening, leave, iretq]
  refine ⟨by dsimp only, ?_, ?_⟩
  · rw [unwind_mem, kept]
  · dsimp only
    rw [kept]

/-- The interrupted stack pointer is the second word of the frame. -/
theorem saved_sp {depth : Nat} (room : 184 + depth ≤ s.sp.val / 16 * 16) {e : Fin (256 ^ 8)}
    (kept : Kept (frame s n e) (align s) (addSp 8 t)) : (leave t).sp = s.sp := by
  have bound := s.sp.isLt
  have bottom := frame_sp (n := n) room e
  have place : (addSp 8 t).sp.val = s.sp.val / 16 * 16 - 176 := by rw [kept.sp, bottom]
  have fifteen : saving.length = 15 := by simp only [saving, List.length_cons, List.length_nil]
  have low : (unwind saving (addSp 8 t)).sp.val = s.sp.val / 16 * 16 - 56 := by
    rw [unwind_sp, place, fifteen, Nat.mod_eq_of_lt (by omega)]
    omega
  have slot : (addSp 16 (unwind saving (addSp 8 t))).sp.val = s.sp.val / 16 * 16 - 40 := by
    rw [addSp, low, wrap_of_lt (by omega)]
    omega
  have second : (frame s n e).reverse[20]? = some (.word s.sp) := by
    simp [frame, opening, saving]
  have word := load_slot second (frame_room room _) size_le
  rw [align_sp, frame_length, width_word, value_word,
    (by omega : s.sp.val / 16 * 16 - 8 * 22 + 8 * 20 = s.sp.val / 16 * 16 - 40 + 24)] at word
  have stack := kept.stack
  rw [align_sp, frame_length] at stack
  have same := stack.mono (by omega : s.sp.val / 16 * 16 - 8 * 22 ≤ s.sp.val / 16 * 16 - 40 + 24)
    (by omega : s.sp.val / 16 * 16 - 40 + 24 + 8 ≤ s.sp.val / 16 * 16)
  rw [Fin.ext_iff, (leave_eq s n e t).2.2, slot, wrap_of_lt (by omega)]
  exact (load_congr same).trans word

theorem resumed {depth : Nat} (room : 184 + depth ≤ s.sp.val / 16 * 16)
    (pushes : err.isSome = isrErr n) (returned : Returned depth 0 (entered gate err n s) t) :
    Resumed (s.sp.val / 16 * 16) (184 + depth) s (leave t) := by
  have started := entered_entered gate s pushes
  have low := entered_sp gate room pushes
  have bottom := frame_sp (n := n) room (err.getD (wrap 8 0))
  have place : (entered gate err n s).sp.val + 8 =
      (pushAll (frame s n (err.getD (wrap 8 0))) (align s)).sp.val := by
    omega
  have taken : ChangesIn (pushAll (frame s n (err.getD (wrap 8 0))) (align s)).mem
      (entered gate err n s).mem
      (entered gate err n s).sp.val 8 := fun a _ => congrFun started.mem a
  have all := frame_room (n := n) room (err.getD (wrap 8 0))
  have kept := kept_of_returned all place taken (by omega) (Nat.zero_le 8) returned
  have changes := changesIn_of_returned all size_le place taken (by omega) (Nat.zero_le 8)
    (by rw [frame_length])
    returned
  have undone := unwind_pushAll all size_le kept
  obtain ⟨regs, mem, -⟩ := leave_eq s n (err.getD (wrap 8 0)) t
  rw [align_sp] at changes
  refine ⟨?_, saved_sp room kept, ?_⟩
  · rw [regs]
    exact funext fun r => undone.saved r (framed s n _ r)
  · rw [mem]
    exact changes

def Field.value (s : Cpu64) (n : Nat) (err : Fin (256 ^ 8)) : Field → Nat
  | .reg r => (s.regs r).val
  | .intNo => n
  | .errCode => err.val
  | .rsp => s.sp.val

/-- A segment register leaves the upper part of its field as it was. -/
def Field.width : Field → Nat
  | .reg r => r.size
  | _ => 8

def Field.slot (s : Cpu64) (n : Nat) (err : Fin (256 ^ 8)) : Field → Slot Reg64 8
  | .reg r => .reg r
  | .intNo => .word (wrap 8 n)
  | .errCode => .word err
  | .rsp => .word s.sp

/-- The field whose value is in the place of the `i`-th. -/
def mirrored (i : Nat) : Nat := if i < 15 then 14 - i else i

theorem frame_fields (s : Cpu64) (n : Nat) (err : Fin (256 ^ 8)) : (frame s n err).reverse =
    ((registersFields.take 15).reverse ++ registersFields.drop 15).map (Field.slot s n err) := by
  simp [frame, opening, saving, registersFields, Field.slot]

theorem mirrored_getElem (i : Nat) :
    ((registersFields.take 15).reverse ++ registersFields.drop 15)[i]? =
    registersFields[mirrored i]? := by
  have count : (registersFields.take 15).length = 15 := by simp [registersFields]
  rw [mirrored]
  split
  case isTrue early =>
    rw [List.getElem?_append_left (by rw [List.length_reverse, count]; exact early),
      List.getElem?_reverse (by rw [count]; exact early), count,
      List.getElem?_take_of_lt (by omega)]
  case isFalse late =>
    rw [List.getElem?_append_right (by rw [List.length_reverse, count]; omega),
      List.length_reverse, count, List.getElem?_drop, (by omega : 15 + (i - 15) = i)]

theorem reads {f : Field} {i depth : Nat} (room : 184 + depth ≤ s.sp.val / 16 * 16)
    (pushes : err.isSome = isrErr n) (small : n < 48)
    (field : registersFields[mirrored i]? = some f) :
    load (entered gate err n s).mem (((entered gate err n s).regs .rdi).val + 8 * i) f.width =
      f.value s n (err.getD (wrap 8 0)) := by
  have started := entered_entered gate s pushes
  have bottom := frame_sp (n := n) room (err.getD (wrap 8 0))
  have position : (frame s n (err.getD (wrap 8 0))).reverse[i]? =
      some (f.slot s n (err.getD (wrap 8 0))) := by
    rw [frame_fields, List.getElem?_map, mirrored_getElem, field, Option.map_some]
  have loaded := load_slot position (frame_room room _) size_le
  rw [align_sp, frame_length] at loaded
  rw [started.mem, started.argument, bottom]
  cases f with
  | reg r =>
      rw [Field.slot, width_reg, value_reg] at loaded
      exact loaded
  | intNo =>
      rw [Field.slot, width_word, value_word, wrap_of_lt (by omega)] at loaded
      exact loaded
  | errCode =>
      rw [Field.slot, width_word, value_word] at loaded
      exact loaded
  | rsp =>
      rw [Field.slot, width_word, value_word] at loaded
      exact loaded

end Cpu64

/-- Whatever `isr_handler` does to the registers, `isr_common` gives all of them back.  What it
    reads in the first fifteen fields belongs to those from the fifteenth back, though, and it is
    called eight bytes off the alignment that `sub rsp, 8` is there for. -/
theorem x86_64_interrupt_mirrored {s t : Cpu64} {err : Option (Fin (256 ^ 8))} {n depth : Nat}
    (gate : Gate 8) (room : 184 + depth ≤ s.sp.val / 16 * 16) (pushes : err.isSome = isrErr n)
    (small : n < 48) (returned : Returned depth 0 (Cpu64.entered gate err n s) t) :
    (∀ i f, Cpu64.registersFields[Cpu64.mirrored i]? = some f →
      load (Cpu64.entered gate err n s).mem (((Cpu64.entered gate err n s).regs .rdi).val + 8 * i)
        f.width = f.value s n (err.getD (wrap 8 0))) ∧
      (Cpu64.entered gate err n s).sp.val % 16 = 8 ∧
      Resumed (s.sp.val / 16 * 16) (184 + depth) s (Cpu64.leave t) := by
  have low := Cpu64.entered_sp gate room pushes
  exact ⟨fun _ _ field => Cpu64.reads room pushes small field, by omega,
    Cpu64.resumed room pushes returned⟩

def Cpu64.started : Cpu64 := ⟨fun _ => ⟨0, Nat.pow_pos (by decide)⟩, wrap 8 4100, fun _ => 0⟩

/-- The same with 1 in `rax` and 2 in `r15`. -/
def Cpu64.counting : Cpu64 := (Cpu64.started.set .r15 (wrap 8 2)).set .rax (wrap 8 1)

/-- The field `r15` reads what is in `rax`. -/
theorem x86_64_interrupt_mirrored_timer :
    Cpu64.registersFields[0]? = some (.reg .r15) ∧ (Cpu64.counting.regs .r15).val = 2 ∧
      load (Cpu64.entered ⟨wrap 8 0, wrap 2 8⟩ none 32 Cpu64.counting).mem
        ((Cpu64.entered ⟨wrap 8 0, wrap 2 8⟩ none 32 Cpu64.counting).regs .rdi).val 8 = 1 ∧
      (Cpu64.entered ⟨wrap 8 0, wrap 2 8⟩ none 32 Cpu64.counting).sp.val % 16 = 8 ∧
      Resumed 4096 184 Cpu64.counting
        (Cpu64.leave (Cpu64.entered ⟨wrap 8 0, wrap 2 8⟩ none 32 Cpu64.counting)) := by
  have top : Cpu64.counting.sp.val / 16 * 16 = 4096 := by
    rw [Cpu64.counting, set_sp, set_sp, Cpu64.started, wrap_of_lt (by decide)]
  have all := x86_64_interrupt_mirrored (s := Cpu64.counting) (n := 32) ⟨wrap 8 0, wrap 2 8⟩
    (by rw [top]; decide : 184 + 0 ≤ Cpu64.counting.sp.val / 16 * 16)
    (by decide : (none : Option (Fin (256 ^ 8))).isSome = isrErr 32) (by decide)
      ⟨rfl, fun _ _ => rfl⟩
  rw [top] at all
  have rax : (Cpu64.counting.regs .rax).val = 1 := by
    rw [Cpu64.counting, set_regs_self, wrap_of_lt (by decide)]
  have r15 : (Cpu64.counting.regs .r15).val = 2 := by
    rw [Cpu64.counting, set_regs_of_ne (by decide), set_regs_self, wrap_of_lt (by decide)]
  have first := all.1 0 (.reg .rax) rfl
  exact ⟨rfl, r15, first.trans rax, all.2⟩

end AurorOS.Interrupts
