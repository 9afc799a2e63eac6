import AurorOS.Lib.StackFrame

/-! # Entering and leaving an interrupt

The processor saves a little of the interrupted state, the stub of the vector adds what is
missing of the error code and the number, and `isr_common` saves the registers, calls
`isr_handler` and takes everything off the stack again.
-/

namespace AurorOS.Interrupts

open ByteMemory StackFrame

inductive Reg32 where
  | eax | ecx | edx | ebx | ebp | esi | edi
  | ds | es | fs | gs | cs
  | eip | eflags
  deriving DecidableEq, Repr

/-- A segment register has 16 bits. -/
abbrev Reg32.size : Reg32 → Nat
  | .ds | .es | .fs | .gs | .cs => 2
  | _ => 4

abbrev Cpu32 := State Reg32.size 4

/-- What a descriptor of the IDT tells the processor. -/
structure Gate (k : Nat) where
  offset : Fin (256 ^ k)
  selector : Fin (256 ^ 2)

/-- An interrupt gate clears TF, IF, NT, RF and VM. -/
def interruptFlags {k : Nat} (flags : Fin (256 ^ k)) : Fin (256 ^ k) :=
  wrap k (flags.val - (flags.val &&& 0x34300))

/-- The vectors of `ISR_ERR`; all the others have `ISR_NOERR`, or `IRQ` from 32 on. -/
def isrErr (n : Nat) : Bool := n ∈ [8, 10, 11, 12, 13, 14, 17, 30]

namespace Cpu32

/-- The processor takes an interrupt of the ring that it is in; some vectors come with an error
    code. -/
def deliver (gate : Gate 4) (err : Option (Fin (256 ^ 4))) (s : Cpu32) : Cpu32 :=
  let s := pushAll [.reg .eflags, .reg .cs, .reg .eip] s
  let s := match err with
    | some err => push (.word err) s
    | none => s
  ((s.set .eip gate.offset).set .cs gate.selector).set .eflags (interruptFlags (s.regs .eflags))

/-- `ISR_ERR n`, and `ISR_NOERR n` as well as `IRQ (n - 32)`, which push a zero first. -/
def stub (n : Nat) (s : Cpu32) : Cpu32 :=
  push (.word (wrap 4 n)) (if isrErr n then s else push (.word (wrap 4 0)) s)

/-- The slots of `pusha`; that of `esp` is skipped by `popa`. -/
def pushaSlots (esp : Fin (256 ^ 4)) : List (Slot Reg32 4) :=
  [.reg .eax, .reg .ecx, .reg .edx, .reg .ebx, .word esp, .reg .ebp, .reg .esi, .reg .edi]

def pusha (s : Cpu32) : Cpu32 := pushAll (pushaSlots s.sp) s

def popa (s : Cpu32) : Cpu32 := unwind (pushaSlots s.sp) s

/-- `mov ax, v` -/
def movAx (v : Nat) (s : Cpu32) : Cpu32 :=
  s.set .eax (wrap 4 ((s.regs .eax).val / 2 ^ 16 * 2 ^ 16 + v))

/-- `mov ds, ax` and `mov es, ax` -/
def movDsAx (s : Cpu32) : Cpu32 := s.set .ds (wrap 2 (s.regs .eax).val)

def movEsAx (s : Cpu32) : Cpu32 := s.set .es (wrap 2 (s.regs .eax).val)

/-- `mov eax, esp` -/
def movEaxEsp (s : Cpu32) : Cpu32 := s.set .eax s.sp

def iretd (s : Cpu32) : Cpu32 := unwind [.reg .eflags, .reg .cs, .reg .eip] s

/-- `isr_common` up to the call. -/
def enter (s : Cpu32) : Cpu32 :=
  let s := pusha s
  let s := push (.reg .ds) s
  let s := push (.reg .es) s
  let s := push (.reg .fs) s
  let s := push (.reg .gs) s
  let s := movAx 0x10 s
  let s := movDsAx s
  let s := movEsAx s
  let s := movEaxEsp s
  push (.reg .eax) s

/-- `isr_common` behind the call. -/
def leave (s : Cpu32) : Cpu32 :=
  let s := addSp 4 s
  let s := pop (.reg .gs) s
  let s := pop (.reg .fs) s
  let s := pop (.reg .es) s
  let s := pop (.reg .ds) s
  let s := popa s
  let s := addSp 8 s
  iretd s

/-- `struct registers`, from its first field on; in the ring of the kernel the processor pushes
    neither of the last two. -/
inductive Field where
  | reg (r : Reg32)
  | esp | intNo | errCode | useresp | ss

def registersFields : List Field :=
  [.reg .gs, .reg .fs, .reg .es, .reg .ds, .reg .edi, .reg .esi, .reg .ebp, .esp, .reg .ebx,
    .reg .edx, .reg .ecx, .reg .eax, .intNo, .errCode, .reg .eip, .reg .cs, .reg .eflags,
    .useresp, .ss]

/-- The words that the processor and the stub push. -/
def opening (n : Nat) (err : Fin (256 ^ 4)) : List (Slot Reg32 4) :=
  [.reg .eflags, .reg .cs, .reg .eip, .word err, .word (wrap 4 n)]

/-- The words that `isr_common` pushes onto a stack with this `esp`. -/
def saving (esp : Fin (256 ^ 4)) : List (Slot Reg32 4) :=
  pushaSlots esp ++ [.reg .ds, .reg .es, .reg .fs, .reg .gs]

/-- What is on the stack when `isr_handler` is called, its argument and the return address apart. -/
def frame (s : Cpu32) (n : Nat) (err : Fin (256 ^ 4)) : List (Slot Reg32 4) :=
  opening n err ++ saving (pushAll (opening n err) s).sp

/-- The interrupt up to the call. -/
def entered (gate : Gate 4) (err : Option (Fin (256 ^ 4))) (n : Nat) (s : Cpu32) : Cpu32 :=
  enter (stub n (deliver gate err s))

variable {s t : Cpu32} {gate : Gate 4} {err : Option (Fin (256 ^ 4))} {n : Nat}

theorem size_le (r : Reg32) : r.size ≤ 4 := by cases r <;> decide

/-- The processor has loaded these three. -/
def Reloaded (r : Reg32) : Prop := r = .eip ∨ r = .cs ∨ r = .eflags

theorem loaded_regs {r : Reg32} (other : ¬ Reloaded r) (v : Fin (256 ^ 4)) (c : Fin (256 ^ 2))
    (f : Fin (256 ^ 4)) :
    (((s.set .eip v).set .cs c).set .eflags f).regs r = s.regs r := by
  rw [set_regs_of_ne (fun same => other (Or.inr (Or.inr same))),
    set_regs_of_ne (fun same => other (Or.inr (Or.inl same))),
    set_regs_of_ne (fun same => other (Or.inl same))]

/-- The words of the processor. -/
def delivery (err : Option (Fin (256 ^ 4))) : List (Slot Reg32 4) :=
  [.reg .eflags, .reg .cs, .reg .eip] ++ (err.map Slot.word).toList

theorem deliver_eq (gate : Gate 4) (err : Option (Fin (256 ^ 4))) (s : Cpu32) : deliver gate err s =
    (((pushAll (delivery err) s).set .eip gate.offset).set .cs gate.selector).set .eflags
      (interruptFlags (s.regs .eflags)) := by
  cases err with
  | none =>
      simp only [deliver, delivery, Option.map_none, Option.toList_none, List.append_nil,
        pushAll_regs]
  | some e =>
      simp only [deliver, delivery, Option.map_some, Option.toList_some, pushAll_append,
        pushAll_cons, pushAll_nil, push_regs]

/-- What the processor and the stub leave to `isr_common`. -/
structure Opened (n : Nat) (err : Fin (256 ^ 4)) (s t : Cpu32) : Prop where
  sp : t.sp = (pushAll (opening n err) s).sp
  mem : t.mem = (pushAll (opening n err) s).mem
  regs : ∀ r, ¬ Reloaded r → t.regs r = s.regs r

theorem opened_of (words : List (Slot Reg32 4)) (gate : Gate 4) (err : Option (Fin (256 ^ 4)))
    (s : Cpu32) (noRegs : ∀ r, .reg r ∉ words)
    (all : delivery err ++ words = opening n (err.getD (wrap 4 0))) :
    Opened n (err.getD (wrap 4 0)) s (pushAll words (deliver gate err s)) := by
  have pushed := pushAll_congr (l := words) (s := pushAll (delivery err) s)
    (t := deliver gate err s)
    (by rw [deliver_eq, set_sp, set_sp, set_sp]) (by rw [deliver_eq, set_mem, set_mem, set_mem])
    (fun r among => absurd among (noRegs r))
  rw [← pushAll_append, all] at pushed
  refine ⟨pushed.1, pushed.2, fun r other => ?_⟩
  rw [pushAll_regs, deliver_eq, loaded_regs other, pushAll_regs]

/-- Whichever of the two pushes the error code, the same five words are there. -/
theorem stub_opened (gate : Gate 4) (s : Cpu32) (pushes : err.isSome = isrErr n) :
    Opened n (err.getD (wrap 4 0)) s (stub n (deliver gate err s)) := by
  cases err with
  | none =>
      have words (t : Cpu32) : stub n t = pushAll [.word (wrap 4 0), .word (wrap 4 n)] t := by
        simp only [stub, ← pushes, Option.isSome_none, Bool.false_eq_true, if_false, pushAll_cons,
          pushAll_nil]
      rw [words]
      exact opened_of _ gate none s (fun r among => by simp at among)
        (by simp only [delivery, opening, Option.map_none, Option.toList_none, List.append_nil,
          Option.getD_none, List.cons_append, List.nil_append])
  | some e =>
      have words (t : Cpu32) : stub n t = pushAll [.word (wrap 4 n)] t := by
        simp only [stub, ← pushes, Option.isSome_some, if_true, pushAll_cons, pushAll_nil]
      rw [words]
      exact opened_of _ gate (some e) s (fun r among => by simp at among)
        (by simp only [delivery, opening, Option.map_some, Option.toList_some, Option.getD_some,
          List.cons_append, List.nil_append])

/-- The segment registers are loaded, and `eax` with the address of the frame. -/
theorem loading (s : Cpu32) : (movEaxEsp (movEsAx (movDsAx (movAx 0x10 s)))).sp = s.sp ∧
    (movEaxEsp (movEsAx (movDsAx (movAx 0x10 s)))).mem = s.mem ∧
      (movEaxEsp (movEsAx (movDsAx (movAx 0x10 s)))).regs .eax = s.sp := by
  refine ⟨?_, ?_, ?_⟩
  · rw [movEaxEsp, set_sp, movEsAx, set_sp, movDsAx, set_sp, movAx, set_sp]
  · rw [movEaxEsp, set_mem, movEsAx, set_mem, movDsAx, set_mem, movAx, set_mem]
  · rw [movEaxEsp, set_regs_self, movEsAx, set_sp, movDsAx, set_sp, movAx, set_sp]

/-- `isr_common` takes the address of the frame as the argument of `isr_handler`. -/
theorem enter_eq (s : Cpu32) :
    (enter s).sp = (push (.word (pushAll (saving s.sp) s).sp) (pushAll (saving s.sp) s)).sp ∧
      (enter s).mem =
      (push (.word (pushAll (saving s.sp) s).sp) (pushAll (saving s.sp) s)).mem := by
  have saved : pushAll (saving s.sp) s =
      push (.reg .gs) (push (.reg .fs) (push (.reg .es) (push (.reg .ds) (pusha s)))) := by
    simp only [saving, pusha, pushAll_append, pushAll_cons, pushAll_nil]
  have entering : enter s =
      push (.reg .eax) (movEaxEsp (movEsAx (movDsAx (movAx 0x10 (pushAll (saving s.sp) s))))) := by
    rw [saved, enter]
  obtain ⟨sp, mem, eax⟩ := loading (pushAll (saving s.sp) s)
  rw [entering]
  refine push_congr sp mem ?_ ?_
  · rw [width_reg, width_word]
  · rw [value_reg, value_word, eax]

/-- The argument of `isr_handler`. -/
def argument (s : Cpu32) (n : Nat) (err : Fin (256 ^ 4)) : Slot Reg32 4 :=
  .word (pushAll (frame s n err) s).sp

theorem entered_eq (gate : Gate 4) (s : Cpu32) (pushes : err.isSome = isrErr n) :
    (entered gate err n s).sp =
        (push (argument s n (err.getD (wrap 4 0)))
          (pushAll (frame s n (err.getD (wrap 4 0))) s)).sp ∧ (entered gate err n s).mem =
        (push (argument s n (err.getD (wrap 4 0)))
          (pushAll (frame s n (err.getD (wrap 4 0))) s)).mem := by
  have opened := stub_opened gate s pushes
  rw [entered]
  generalize stub n (deliver gate err s) = t, err.getD (wrap 4 0) = e at opened
  have saved := pushAll_congr (l := saving t.sp) opened.sp opened.mem (fun r among => by
    rw [pushAll_regs]
    refine opened.regs r fun loaded => ?_
    rcases loaded with rfl | rfl | rfl <;> simp [saving, pushaSlots] at among)
  have all : frame s n e = opening n e ++ saving t.sp := by rw [frame, opened.sp]
  rw [← pushAll_append, ← all] at saved
  obtain ⟨enterSp, enterMem⟩ := enter_eq t
  rw [enterSp, enterMem]
  refine push_congr saved.1 saved.2 ?_ ?_
  · rw [argument, width_word, width_word]
  · rw [argument, value_word, value_word, saved.1]

/-- Where `popa` skips a word it does not matter what is in it. -/
theorem popa_eq (esp : Fin (256 ^ 4)) (t : Cpu32) : popa t = unwind (pushaSlots esp) t := by
  simp only [popa, pushaSlots, unwind_cons, unwind_nil, pop_word]

theorem iretd_eq (n : Nat) (err : Fin (256 ^ 4)) (t : Cpu32) :
    iretd (addSp 8 t) = unwind (opening n err) t := by
  have both : addSp 8 t = pop (.word err) (pop (.word (wrap 4 n)) t) := by
    rw [pop_word, pop_word, addSp_addSp]
  rw [both]
  simp only [iretd, opening, unwind_cons, unwind_nil]

theorem leave_eq (s : Cpu32) (n : Nat) (err : Fin (256 ^ 4)) (t : Cpu32) :
    leave t = unwind (frame s n err) (addSp 4 t) := by
  have segments : pop (.reg .ds) (pop (.reg .es) (pop (.reg .fs) (pop (.reg .gs) (addSp 4 t)))) =
      unwind [.reg .ds, .reg .es, .reg .fs, .reg .gs] (addSp 4 t) := by
    simp only [unwind_cons, unwind_nil]
  rw [frame, saving, unwind_append, unwind_append, ← iretd_eq, ← popa_eq, ← segments, leave]

theorem frame_length (s : Cpu32) (n : Nat) (err : Fin (256 ^ 4)) : (frame s n err).length = 17 := by
  simp only [frame, opening, saving, pushaSlots, List.length_append, List.length_cons,
    List.length_nil]

theorem framed (s : Cpu32) (n : Nat) (err : Fin (256 ^ 4)) (r : Reg32) :
    .reg r ∈ frame s n err := by
  cases r <;> simp [frame, opening, saving, pushaSlots]

/-- The argument takes four bytes below the frame. -/
theorem entered_place (gate : Gate 4) (room : 72 ≤ s.sp.val) (pushes : err.isSome = isrErr n) :
    (entered gate err n s).sp.val + 4 = (pushAll (frame s n (err.getD (wrap 4 0))) s).sp.val ∧
      (entered gate err n s).sp.val = s.sp.val - 72 := by
  have length := frame_length s n (err.getD (wrap 4 0))
  have bottom :=
    pushAll_sp (by rw [Room, length]; omega : Room s (frame s n (err.getD (wrap 4 0))).length)
  rw [length] at bottom
  rw [(entered_eq gate s pushes).1, push_sp (by omega), bottom]
  omega

theorem entered_taken (gate : Gate 4) (room : 72 ≤ s.sp.val) (pushes : err.isSome = isrErr n) :
    ChangesIn (pushAll (frame s n (err.getD (wrap 4 0))) s).mem (entered gate err n s).mem
      (entered gate err n s).sp.val 4 := by
  obtain ⟨place, low⟩ := entered_place gate room pushes
  have pushed := push_changesIn (x := argument s n (err.getD (wrap 4 0)))
    (by omega : 4 ≤ (pushAll (frame s n (err.getD (wrap 4 0))) s).sp.val) (width_le size_le _)
  rw [(entered_eq gate s pushes).2]
  rw [← place, Nat.add_sub_cancel] at pushed
  exact pushed

theorem resumed {depth : Nat} (room : 72 + depth ≤ s.sp.val) (pushes : err.isSome = isrErr n)
    (returned : Returned depth 4 (entered gate err n s) t) :
    Resumed s.sp.val (72 + depth) s (leave t) := by
  have length := frame_length s n (err.getD (wrap 4 0))
  have all : Room s (frame s n (err.getD (wrap 4 0))).length := by
    rw [Room, length]
    omega
  obtain ⟨place, low⟩ := entered_place gate (by omega : 72 ≤ s.sp.val) pushes
  have taken := entered_taken gate (by omega : 72 ≤ s.sp.val) pushes
  have kept := kept_of_returned all place taken (by omega) le_rfl returned
  have changes :=
    changesIn_of_returned all size_le place taken (by omega) le_rfl (by rw [length]) returned
  have undone := unwind_pushAll all size_le kept
  rw [leave_eq s n (err.getD (wrap 4 0))]
  refine ⟨funext fun r => undone.saved r (framed s n _ r), undone.sp, ?_⟩
  rw [undone.mem]
  exact changes

/-- The field of what was interrupted, with the two that stay on the stack of the kernel. -/
def Field.value (s : Cpu32) (n : Nat) (err : Fin (256 ^ 4)) : Field → Nat
  | .reg r => (s.regs r).val
  | .esp => s.sp.val - 20
  | .intNo => n
  | .errCode => err.val
  | .useresp => load s.mem s.sp.val 4
  | .ss => load s.mem (s.sp.val + 4) 4

/-- A segment register leaves the upper half of its field as it was. -/
def Field.width : Field → Nat
  | .reg r => r.size
  | _ => 4

def Field.slot (esp : Fin (256 ^ 4)) (n : Nat) (err : Fin (256 ^ 4)) : Field → Slot Reg32 4
  | .reg r => .reg r
  | .esp => .word esp
  | .intNo => .word (wrap 4 n)
  | .errCode => .word err
  | .useresp | .ss => .word (wrap 4 0)

theorem frame_fields (s : Cpu32) (n : Nat) (err : Fin (256 ^ 4)) :
    frame s n err =
    (((registersFields.take 17).map
      (Field.slot (pushAll (opening n err) s).sp n err))).reverse := by
  simp only [frame, opening, saving, pushaSlots, registersFields, List.take_succ_cons,
    List.take_zero, List.map_cons, List.map_nil, Field.slot, List.reverse_cons, List.reverse_nil,
    List.nil_append, List.cons_append]

theorem opening_sp {e : Fin (256 ^ 4)} (room : 20 ≤ s.sp.val) :
    (pushAll (opening n e) s).sp.val = s.sp.val - 20 := by
  have length : (opening n e).length = 5 := by
    simp only [opening, List.length_cons, List.length_nil]
  rw [pushAll_sp (by rw [Room, length]; omega), length]

theorem registersFields_user {i : Nat} (pushed : i < 17) :
    registersFields[i]? ≠ some .useresp ∧ registersFields[i]? ≠ some .ss := by
  have none_of : ∀ f ∈ registersFields.take 17, f ≠ .useresp ∧ f ≠ .ss := by
    simp [registersFields]
  rw [← List.getElem?_take_of_lt pushed]
  exact ⟨fun found => (none_of _ (List.mem_of_getElem? found)).1 rfl,
    fun found => (none_of _ (List.mem_of_getElem? found)).2 rfl⟩

/-- The first seventeen fields are the frame, from its last word on. -/
theorem field_pushed {f : Field} {i : Nat} (room : 72 ≤ s.sp.val) (small : n < 48)
    (field : registersFields[i]? = some f) (pushed : i < 17) (e : Fin (256 ^ 4)) :
    load (pushAll (frame s n e) s).mem (s.sp.val - 68 + 4 * i) f.width = f.value s n e := by
  have length := frame_length s n e
  have position : (frame s n e).reverse[i]? = some (f.slot (pushAll (opening n e) s).sp n e) := by
    rw [frame_fields, List.reverse_reverse, List.getElem?_map, List.getElem?_take_of_lt pushed,
      field, Option.map_some]
  have all : Room s (frame s n e).length := by
    rw [Room, length]
    omega
  have loaded := load_slot position all size_le
  rw [length] at loaded
  cases f with
  | reg r =>
      rw [Field.slot, width_reg, value_reg] at loaded
      exact loaded
  | esp =>
      rw [Field.slot, width_word, value_word, opening_sp (by omega)] at loaded
      exact loaded
  | intNo =>
      rw [Field.slot, width_word, value_word, wrap_of_lt (by omega)] at loaded
      exact loaded
  | errCode =>
      rw [Field.slot, width_word, value_word] at loaded
      exact loaded
  | useresp => exact absurd field (registersFields_user pushed).1
  | ss => exact absurd field (registersFields_user pushed).2

theorem frame_sp {e : Fin (256 ^ 4)} (room : 72 ≤ s.sp.val) :
    (pushAll (frame s n e) s).sp.val = s.sp.val - 68 := by
  have length := frame_length s n e
  rw [pushAll_sp (by rw [Room, length]; omega), length]

/-- `isr_handler` is given the address of the frame. -/
theorem argument_eq (room : 72 ≤ s.sp.val) (pushes : err.isSome = isrErr n) :
    load (entered gate err n s).mem (entered gate err n s).sp.val 4 = s.sp.val - 68 := by
  have bottom := frame_sp (n := n) (e := err.getD (wrap 4 0)) room
  have enough : 4 ≤ (pushAll (frame s n (err.getD (wrap 4 0))) s).sp.val := by omega
  obtain ⟨sp, mem⟩ := entered_eq gate s pushes
  have loaded := load_push (x := argument s n (err.getD (wrap 4 0))) enough
  rw [argument, width_word, value_word, bottom, ← argument] at loaded
  rw [sp, mem, push_sp enough, bottom]
  exact loaded

/-- What is above the frame is as it was. -/
theorem above_frame {f : Nat} (room : 72 ≤ s.sp.val) (pushes : err.isSome = isrErr n)
    (above : s.sp.val ≤ f) :
    load (entered gate err n s).mem f 4 = load s.mem f 4 := by
  have length := frame_length s n (err.getD (wrap 4 0))
  obtain ⟨place, low⟩ := entered_place gate room pushes
  have taken := entered_taken gate room pushes
  have all : Room s (frame s n (err.getD (wrap 4 0))).length := by
    rw [Room, length]
    omega
  have saved := pushAll_changesIn all size_le
  rw [length] at saved
  exact (load_congr (taken.agreeOn (Or.inr (by omega)))).trans
    (load_congr (saved.agreeOn (Or.inr (by omega))))

/-- Every field of `struct registers` has what was interrupted. -/
theorem reads {f : Field} {i : Nat} (room : 72 ≤ s.sp.val) (pushes : err.isSome = isrErr n)
    (small : n < 48) (field : registersFields[i]? = some f) :
    load (entered gate err n s).mem
      (load (entered gate err n s).mem (entered gate err n s).sp.val 4 + 4 * i) f.width =
      f.value s n (err.getD (wrap 4 0)) := by
  obtain ⟨place, low⟩ := entered_place gate room pushes
  have taken := entered_taken gate room pushes
  rw [argument_eq room pushes]
  by_cases pushed : i < 17
  · have kept : AgreeOn (pushAll (frame s n (err.getD (wrap 4 0))) s).mem (entered gate err n s).mem
        (s.sp.val - 68 + 4 * i) (s.sp.val - 68 + 4 * i + f.width) :=
          taken.agreeOn (Or.inr (by omega))
    exact (load_congr kept).trans (field_pushed room small field pushed _)
  · obtain ⟨inside, same⟩ := List.getElem?_eq_some_iff.mp field
    have two : i = 17 ∨ i = 18 := by
      have count : registersFields.length = 19 := rfl
      omega
    rcases two with rfl | rfl
    · cases (Option.some.inj field : Field.useresp = f)
      rw [(by omega : s.sp.val - 68 + 4 * 17 = s.sp.val)]
      exact above_frame room pushes le_rfl
    · cases (Option.some.inj field : Field.ss = f)
      rw [(by omega : s.sp.val - 68 + 4 * 18 = s.sp.val + 4)]
      exact above_frame room pushes (by omega)

end Cpu32

/-- Whatever `isr_handler` does to the registers, as long as it comes back and keeps to its stack:
    it reads the interrupted registers, the number and the error code in the fields of that name,
    and `isr_common` gives all of them back. -/
theorem x86_interrupt_transparent {s t : Cpu32} {err : Option (Fin (256 ^ 4))} {n depth : Nat}
    (gate : Gate 4) (room : 72 + depth ≤ s.sp.val) (pushes : err.isSome = isrErr n) (small : n < 48)
    (returned : Returned depth 4 (Cpu32.entered gate err n s) t) :
    (∀ i f, Cpu32.registersFields[i]? = some f →
      load (Cpu32.entered gate err n s).mem
        (load (Cpu32.entered gate err n s).mem (Cpu32.entered gate err n s).sp.val 4 + 4 * i)
          f.width = f.value s n (err.getD (wrap 4 0))) ∧
      Resumed s.sp.val (72 + depth) s (Cpu32.leave t) :=
  ⟨fun _ _ field => Cpu32.reads (by omega) pushes small field, Cpu32.resumed room pushes returned⟩

def Cpu32.started : Cpu32 := ⟨fun _ => ⟨0, Nat.pow_pos (by decide)⟩, wrap 4 4096, fun _ => 0⟩

theorem x86_interrupt_transparent_timer :
    Resumed 4096 72 Cpu32.started
      (Cpu32.leave (Cpu32.entered ⟨wrap 4 0, wrap 2 8⟩ none 32 Cpu32.started)) := by
  have top : Cpu32.started.sp.val = 4096 := by
    rw [Cpu32.started, wrap_of_lt (by decide)]
  have both := x86_interrupt_transparent (s := Cpu32.started) (n := 32) ⟨wrap 4 0, wrap 2 8⟩
    (by rw [top]; decide : 72 + 0 ≤ Cpu32.started.sp.val)
    (by decide : (none : Option (Fin (256 ^ 4))).isSome = isrErr 32) (by decide)
      ⟨rfl, fun _ _ => rfl⟩
  rw [top] at both
  exact both.2

end AurorOS.Interrupts
