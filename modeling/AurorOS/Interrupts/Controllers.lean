import AurorOS.Lib.Runs
import AurorOS.Shell.Replace

/-! # The interrupt controllers

Two controllers of eight lines each, the second at line 2 of the first, are programmed by
`pic_remap` and acknowledged by `isr_handler`.  Devices raise lines in any order, and a line
may be gone again when the processor asks for its vector.
-/

namespace AurorOS.Interrupts

open Runs

abbrev Lines := Fin 8 → Bool

def noLines : Lines := fun _ => false

/-- The bits of a byte. -/
def linesOf (v : UInt8) : Lines := fun i => v.toNat.testBit i

/-- The line of the highest priority. -/
def first (lines : Lines) : Option (Fin 8) := Fin.find? lines

/-- The word that a controller expects at its data port. -/
inductive Awaits where
  | mask | icw2 | icw3 | icw4
  deriving DecidableEq, Repr

/-- One controller: what is requested, in service and masked. -/
structure Pic where
  irr : Lines
  isr : Lines
  imr : Lines
  base : UInt8
  awaits : Awaits

namespace Pic

/-- An end of interrupt that names no line. -/
def eoi (p : Pic) : Pic :=
  match first p.isr with
  | some i => { p with isr := Function.update p.isr i false }
  | none => p

/-- The command port: the first of the four words of an initialisation, or an end of interrupt. -/
def command (v : UInt8) (p : Pic) : Pic :=
  if v &&& 0x10 ≠ 0 then { p with irr := noLines, isr := noLines, imr := noLines, awaits := .icw2 }
  else if v = 0x20 then p.eoi
  else p

/-- The data port.  The low bits of the base are not stored. -/
def data (v : UInt8) (p : Pic) : Pic :=
  match p.awaits with
  | .mask => { p with imr := linesOf v }
  | .icw2 => { p with base := v &&& 0xF8, awaits := .icw3 }
  | .icw3 => { p with awaits := .icw4 }
  | .icw4 => { p with awaits := .mask }

/-- The byte that the data port reads as. -/
def mask (p : Pic) : UInt8 :=
  UInt8.ofNat ((List.finRange 8).map fun i => if p.imr i then 2 ^ i.val else 0).sum

/-- A line that may interrupt: not masked, and before all that are in service. -/
def mayInterrupt (p : Pic) (i : Fin 8) : Bool :=
  !p.imr i && !(List.finRange 8).any fun j => j ≤ i && p.isr j

def pending (p : Pic) (requests : Lines) : Option (Fin 8) :=
  first fun i => requests i && p.mayInterrupt i

/-- The request of a line is taken into service. -/
def take (p : Pic) (i : Fin 8) : Pic :=
  { p with irr := Function.update p.irr i false, isr := Function.update p.isr i true }

end Pic

structure Pics where
  master : Pic
  slave : Pic

namespace Pics

def outb (port : UInt16) (v : UInt8) (p : Pics) : Pics :=
  if port = 0x20 then { p with master := p.master.command v }
  else if port = 0x21 then { p with master := p.master.data v }
  else if port = 0xA0 then { p with slave := p.slave.command v }
  else if port = 0xA1 then { p with slave := p.slave.data v }
  else p

def ioWait : Pics → Pics := outb 0x80 0

/-- The slave asks at line 2. -/
def requests (p : Pics) : Lines :=
  Function.update p.master.irr 2 (p.slave.pending p.slave.irr).isSome

end Pics

def picRemap (offset1 offset2 : UInt8) (p : Pics) : Pics :=
  let a1 := p.master.mask
  let a2 := p.slave.mask
  let p := (p.outb 0x20 0x11).ioWait
  let p := (p.outb 0xA0 0x11).ioWait
  let p := (p.outb 0x21 offset1).ioWait
  let p := (p.outb 0xA1 offset2).ioWait
  let p := (p.outb 0x21 4).ioWait
  let p := (p.outb 0xA1 2).ioWait
  let p := (p.outb 0x21 0x01).ioWait
  let p := (p.outb 0xA1 0x01).ioWait
  let p := p.outb 0x21 a1
  let p := p.outb 0xA1 a2
  let p := p.outb 0x21 0xFF
  p.outb 0xA1 0xFF

/-- `pic_remap` as `idt_init` calls it. -/
def remapped : Arch → Pics → Pics
  | .x86 => picRemap 0x1f 0x28
  | .x86_64 => picRemap 0x20 0x28

def exceptions : List String := [
  "Divide Error", "Debug", "Non Maskable Interrupt", "Breakpoint", "Overflow",
  "BOUND Range Exceeded", "Invalid Opcode", "Device Not Available", "Double Fault",
  "Coprocessor Segment Overrun (reserved)", "Invalid TSS", "Segment Not Present",
  "Stack-Segment Fault", "General Protection Fault", "Page Fault", "Reserved",
  "x87 Floating-Point Exception", "Alignment Check", "Machine Check",
  "SIMD Floating-Point Exception", "Virtualization Exception", "Control Protection Exception",
  "Reserved", "Reserved", "Reserved", "Reserved", "Reserved", "Reserved",
  "Hypervisor Injection Exception", "VMM Communication Exception", "Security Exception", "Reserved"]

def cpuExceptionName (intNo : Nat) : String :=
  if intNo < 32 then exceptions.getD intNo "" else "Unknown"

/-- The text with the name of the exception put in its place. -/
def exceptionNote (name : String) : String :=
  "Your CPU has thrown an error\n with the following name: " ++ name ++ ".\n\n " ++
    "This is a bug in AurorOS. Please report it on\n https://github.com/Interpuce/AurorOS/issues/new/choose"

/-- What `kernelpanic` shows if there is no note. -/
def noNote : String :=
  " No developer note is available for this kernel panic code." ++
    "\n We recommend you to get help in the Internet or AurorOS documentation" ++
    "\n\n You can create a feature request to add a developer note here:" ++
    "\n https://github.com/Interpuce/AurorOS/issues/new?template=feature.yaml"

/-- The characters of a string, each a byte. -/
def textOf (bytes : List UInt8) : String := String.ofList (bytes.map fun c => Char.ofNat c.toNat)

/-- What `kernelpanic` shows of a note, which may be `NULL`. -/
def shownNote : Option (List UInt8) → String
  | some text => textOf (Devices.cString text)
  | none => noNote

def isrHandler (arch : Arch) (malloc : Shell.Malloc) (intNo : Nat) (p : Pics) : Except Fault Pics :=
  if intNo < 32 then do
    let note ← Shell.strReplace arch malloc (some Shell.exceptionText.array)
      (some Shell.namePlace.array)
      (some (Devices.cstr (cpuExceptionName intNo) ++ [0]))
    .error (.kernelpanic "CPU_EXCEPTION" (shownNote note))
  else if intNo ≤ 47 then
    let p := if intNo ≥ 40 then p.outb 0xA0 0x20 else p
    .ok (p.outb 0x20 0x20)
  else .ok p

/-- A line of one of the two. -/
inductive Line where
  | master (i : Fin 8)
  | slave (i : Fin 8)
  deriving DecidableEq

def Pics.vector (p : Pics) : Line → Nat
  | .master i => (p.master.base + UInt8.ofNat i).toNat
  | .slave i => (p.slave.base + UInt8.ofNat i).toNat

/-- The controllers give the processor the vector of a line.  Of a request that is gone again they
    give line 7, which is not in service then. -/
inductive Acknowledged (p : Pics) : Line → Pics → Prop where
  | master {i : Fin 8} : p.master.pending p.requests = some i → i ≠ 2 →
      Acknowledged p (.master i) { p with master := p.master.take i }
  | slave {i : Fin 8} : p.master.pending p.requests = some 2 →
      p.slave.pending p.slave.irr = some i →
      Acknowledged p (.slave i)
        { master := { p.master with isr := Function.update p.master.isr 2 true },
          slave := p.slave.take i }
  | noMaster {i : Fin 8} : p.master.mayInterrupt i = true → Acknowledged p (.master 7) p
  | noSlave {i : Fin 8} : p.master.mayInterrupt 2 = true → p.slave.mayInterrupt i = true →
      Acknowledged p (.slave 7) { p with
        master := { p.master with isr := Function.update p.master.isr 2 true } }

/-- What happens with interrupts enabled: devices, writes of the masks, and interrupts that are
    handled. -/
inductive Event where
  | raise (line : Line)
  | lower (line : Line)
  | setMasks (a1 a2 : UInt8)
  | interrupt (line : Line)
  deriving DecidableEq

def Pics.request (p : Pics) (raised : Bool) : Line → Pics
  | .master i => { p with master := { p.master with irr := Function.update p.master.irr i raised } }
  | .slave i => { p with slave := { p.slave with irr := Function.update p.slave.irr i raised } }

inductive PicStep : Pics → Event → Pics → Prop where
  | raise {p line} : PicStep p (.raise line) (p.request true line)
  | lower {p line} : PicStep p (.lower line) (p.request false line)
  | setMasks {p a1 a2} : PicStep p (.setMasks a1 a2) ((p.outb 0x21 a1).outb 0xA1 a2)
  | interrupt {p line q t arch malloc} : Acknowledged p line q →
      isrHandler arch malloc (p.vector line) q = .ok t →
      PicStep p (.interrupt line) t

section Note

open Devices Shell Replacement Lines

theorem cstr_append (a b : String) : cstr (a ++ b) = cstr a ++ cstr b := by
  rw [cstr, String.toList_append, List.map_append, cstr, cstr]

theorem cstr_append4 (a b c d : String) :
    cstr (a ++ b ++ c ++ d) = cstr a ++ (cstr b ++ (cstr c ++ cstr d)) := by
  rw [cstr_append, cstr_append, cstr_append, List.append_assoc, List.append_assoc]

theorem length_cstr (s : String) : (cstr s).length = s.length := List.length_map _

/-- Each character is one byte. -/
def OneByte (s : String) : Prop := ∀ c ∈ s.toList, c.toNat < 256

instance OneByte.decidable (s : String) : Decidable (OneByte s) := List.decidableBAll _ _

/-- Characters of one byte come out of `cstr` as they were. -/
theorem OneByte.textOf_cstr {s : String} (bytes : OneByte s) : textOf (cstr s) = s := by
  have each : ∀ c ∈ s.toList, Char.ofNat c.toNat.toUInt8.toNat = c := by
    intro c member
    rw [UInt8.toNat_ofNat_of_lt' (bytes c member), Char.ofNat_toNat]
  have same : (cstr s).map (fun c => Char.ofNat c.toNat) = s.toList := by
    rw [cstr, List.map_map]
    exact (List.map_congr_left each).trans (List.map_id' _)
  rw [textOf, same, String.ofList_toList]

theorem OneByte.append {a b : String} (first : OneByte a) (second : OneByte b) :
    OneByte (a ++ b) := by
  rw [OneByte, String.toList_append]
  exact List.forall_mem_append.mpr ⟨first, second⟩

theorem flatMap_some (repl text : List UInt8) :
    (text.map some).flatMap (fun piece => piece.elim repl fun c => [c]) = text := by
  rw [List.flatMap_map]
  exact List.flatMap_singleton' text

def noteBefore : List UInt8 := cstr "Your CPU has thrown an error\n with the following name: "

def noteBehind : List UInt8 :=
  cstr ".\n\n " ++
    cstr "This is a bug in AurorOS. Please report it on\n https://github.com/Interpuce/AurorOS/issues/new/choose"

theorem scan_exceptionText :
    scan namePlace.chars exceptionText.chars =
    noteBefore.map some ++ none :: noteBehind.map some := by
  decide +kernel

theorem namePlace_nonempty : namePlace.chars ≠ [] := by decide +kernel

theorem cstr_exceptionNote (name : String) :
    cstr (exceptionNote name) = noteBefore ++ (cstr name ++ noteBehind) :=
  cstr_append4 _ name _ _

/-- The text is the one that `str_replace` returns for any name. -/
theorem exceptionNote_replaced (name : String) :
    replace namePlace.chars (cstr name) exceptionText.chars = cstr (exceptionNote name) := by
  rw [replace, scan_exceptionText, List.flatMap_append, List.flatMap_cons, flatMap_some,
    flatMap_some, cstr_exceptionNote]
  rfl

/-- What is true of the names of the exceptions. -/
structure ShortName (name : String) : Prop where
  plain : 0 ∉ cstr name
  short : name.length < 64
  bytes : OneByte name

variable {n : Nat} {name : String} {malloc : Malloc} {arch : Arch} {block : List UInt8}

theorem shortName (exception : n < 32) : ShortName (cpuExceptionName n) := by
  have all : ∀ name ∈ exceptions, 0 ∉ cstr name ∧ name.length < 64 ∧ OneByte name := by
    decide +kernel
  have inside : n < exceptions.length := exception
  have named : cpuExceptionName n ∈ exceptions := by
    rw [cpuExceptionName, if_pos exception, List.getD_eq_getElem?_getD,
      List.getElem?_eq_getElem inside, Option.getD_some]
    exact List.getElem_mem inside
  obtain ⟨plain, short, bytes⟩ := all _ named
  exact ⟨plain, short, bytes⟩

/-- The name in the array that is given to `str_replace`. -/
theorem ShortName.string (named : ShortName name) :
    ∃ r : IntString, r.chars = cstr name ∧ r.array = cstr name ++ [0] := by
  have short : (cstr name).length < 2 ^ 31 := by
    have short := named.short
    rw [length_cstr]
    omega
  exact ⟨⟨cstr name, named.plain, short⟩, rfl, rfl⟩

theorem ShortName.note_short (named : ShortName name) :
    (cstr (exceptionNote name)).length + 1 < 2 ^ 31 := by
  have before : noteBefore.length < 100 := by decide +kernel
  have behind : noteBehind.length < 200 := by decide +kernel
  have short := named.short
  rw [cstr_exceptionNote, List.length_append, List.length_append, length_cstr]
  omega

theorem ShortName.note_bytes (named : ShortName name) : OneByte (exceptionNote name) := by
  have before : OneByte "Your CPU has thrown an error\n with the following name: " := by
    decide +kernel
  have first : OneByte ".\n\n " := by decide +kernel
  have second : OneByte
      "This is a bug in AurorOS. Please report it on\n https://github.com/Interpuce/AurorOS/issues/new/choose" := by
    decide +kernel
  exact ((before.append named.bytes).append first).append second

theorem ShortName.note_plain (named : ShortName name) : 0 ∉ cstr (exceptionNote name) := by
  have before : 0 ∉ noteBefore := by decide +kernel
  have behind : 0 ∉ noteBehind := by decide +kernel
  rw [cstr_exceptionNote, List.mem_append, List.mem_append]
  exact not_or.mpr ⟨before, not_or.mpr ⟨named.plain, behind⟩⟩

/-- The bytes that the text of an exception takes. -/
def noteSize (intNo : Nat) : Nat := (exceptionNote (cpuExceptionName intNo)).length + 1

/-- What `str_replace` asks `malloc` for. -/
theorem toSize_note (arch : Arch) (exception : n < 32) :
    toSize arch (Int32.ofNat
      (replace namePlace.chars (cstr (cpuExceptionName n)) exceptionText.chars).length + 1) =
      noteSize n := by
  rw [exceptionNote_replaced, toSize_add_one arch (shortName exception).note_short, length_cstr,
    noteSize]

theorem strReplace_note (exception : n < 32) (served : malloc (noteSize n) = .ok (some block))
    (size : block.length = noteSize n) :
    strReplace arch malloc (some exceptionText.array) (some namePlace.array)
        (some (cstr (cpuExceptionName n) ++ [0])) =
      .ok (some (overlay (cstr (exceptionNote (cpuExceptionName n)) ++ [0]) block)) := by
  have short : (cstr (exceptionNote (cpuExceptionName n))).length < 2 ^ 31 :=
    (Nat.lt_succ_self _).trans (shortName exception).note_short
  have room : (cstr (exceptionNote (cpuExceptionName n))).length < block.length := by
    rw [size, length_cstr]
    exact Nat.lt_succ_self _
  obtain ⟨r, chars, array⟩ := (shortName exception).string
  rw [← toSize_note arch exception, ← chars] at served
  rw [← exceptionNote_replaced, ← chars] at short room
  rw [← array, ← exceptionNote_replaced, ← chars]
  exact (strReplace_pattern arch exceptionText namePlace r namePlace_nonempty short served room).2

/-- The text that is shown. -/
theorem ShortName.shown (named : ShortName name) (block : List UInt8) :
    shownNote (some (overlay (cstr (exceptionNote name) ++ [0]) block)) = exceptionNote name :=
  (congrArg textOf (cString_overlay named.note_plain block)).trans named.note_bytes.textOf_cstr

/-- `isr_handler` ends in a kernel panic: the one with the name of the exception, or the one of
    `malloc`. -/
structure Panics (arch : Arch) (intNo : Nat) (q : Pics) : Prop where
  named : ∀ (malloc : Malloc) (block : List UInt8), malloc (noteSize intNo) = .ok (some block) →
    block.length = noteSize intNo → isrHandler arch malloc intNo q =
      .error (.kernelpanic "CPU_EXCEPTION" (exceptionNote (cpuExceptionName intNo)))
  unnamed : ∀ malloc : Malloc, malloc (noteSize intNo) = .ok none →
    isrHandler arch malloc intNo q = .error (.kernelpanic "CPU_EXCEPTION" (shownNote none))
  stopped : ∀ (malloc : Malloc) (e : Fault), malloc (noteSize intNo) = .error e →
    isrHandler arch malloc intNo q = .error e

theorem isrHandler_panics (arch : Arch) (exception : n < 32) (q : Pics) : Panics arch n q where
  named := by
    intro malloc block served size
    rw [isrHandler, if_pos exception]
    refine (Outcome.bind_of_ok (strReplace_note exception served size)).trans ?_
    rw [(shortName exception).shown block]
  unnamed := by
    intro malloc null
    obtain ⟨r, chars, array⟩ := (shortName exception).string
    rw [← toSize_note arch exception, ← chars] at null
    rw [isrHandler, if_pos exception, ← array]
    exact Outcome.bind_of_ok
      (strReplace_null arch exceptionText namePlace r namePlace_nonempty null)
  stopped := by
    intro malloc e stops
    obtain ⟨r, chars, array⟩ := (shortName exception).string
    rw [← toSize_note arch exception, ← chars] at stops
    rw [isrHandler, if_pos exception, ← array]
    exact Outcome.bind_of_error
      (strReplace_stopped arch exceptionText namePlace r namePlace_nonempty stops)

theorem isrHandler_exception (exception : n < 32) {q t : Pics} :
    isrHandler arch malloc n q ≠ .ok t := by
  intro returned
  rw [isrHandler, if_pos exception] at returned
  obtain ⟨_, _, stopped⟩ := Outcome.bind_eq_ok.mp returned
  cases stopped

end Note


/-- Nothing is in service, and no initialisation is under way. -/
structure Idle (base1 base2 : UInt8) (p : Pics) : Prop where
  base1 : p.master.base = base1
  base2 : p.slave.base = base2
  ready1 : p.master.awaits = .mask
  ready2 : p.slave.awaits = .mask
  isr1 : p.master.isr = noLines
  isr2 : p.slave.isr = noLines

/-- Where `idt_init` wants the lines of the first controller, as far as the controller stores it. -/
def firstVector : Arch → UInt8
  | .x86 => 0x18
  | .x86_64 => 0x20

variable {p q s t : Pics} {base1 base2 : UInt8} {line : Line} {arch : Arch}

theorem remapped_idle (arch : Arch) (p : Pics) :
    Idle (firstVector arch) 0x28 (remapped arch p) := by
  cases arch <;> exact ⟨rfl, rfl, rfl, rfl, rfl, rfl⟩

theorem remapped_masked (arch : Arch) (p : Pics) :
    (∀ i, (remapped arch p).master.imr i = true) ∧ ∀ i, (remapped arch p).slave.imr i = true := by
  have all : ∀ i, linesOf 0xFF i = true := by decide
  cases arch <;> exact ⟨all, all⟩

theorem first_eq_some {lines : Lines} {i : Fin 8} :
    first lines = some i ↔ lines i = true ∧ ∀ k < i, lines k = false := by
  rw [first, Fin.find?_eq_some_iff]

theorem eoi_single {p : Pic} {i : Fin 8} (one : p.isr = Function.update noLines i true) :
    p.eoi.isr = noLines := by
  have top : first p.isr = some i := by
    rw [first_eq_some, one, Function.update_self]
    exact ⟨rfl, fun k below => by rw [Function.update_of_ne (Fin.ne_of_lt below), noLines]⟩
  rw [Pic.eoi, top]
  dsimp only
  rw [one, Function.update_idem]
  exact Function.update_eq_self_iff.mpr rfl

theorem eoi_none {p : Pic} (none : p.isr = noLines) : p.eoi = p := by
  have top : first p.isr = Option.none := by
    rw [none]
    decide
  rw [Pic.eoi, top]

theorem outb_eoi1 (p : Pics) : p.outb 0x20 0x20 = { p with master := p.master.eoi } := rfl

theorem outb_eoi2 (p : Pics) : p.outb 0xA0 0x20 = { p with slave := p.slave.eoi } := rfl

theorem eoi_kept (p : Pic) : p.eoi.base = p.base ∧ p.eoi.awaits = p.awaits := by
  rw [Pic.eoi]
  split <;> exact ⟨rfl, rfl⟩

/-- The registers of a controller that are not changed by an acknowledgement. -/
structure SamePics (p q : Pics) : Prop where
  base1 : q.master.base = p.master.base
  base2 : q.slave.base = p.slave.base
  ready1 : q.master.awaits = p.master.awaits
  ready2 : q.slave.awaits = p.slave.awaits

theorem Acknowledged.same (ack : Acknowledged p line q) : SamePics p q := by
  cases ack <;> exact ⟨rfl, rfl, rfl, rfl⟩

theorem take_isr {c : Pic} (idle : c.isr = noLines) (i : Fin 8) :
    (c.take i).isr = Function.update noLines i true := by
  simp only [Pic.take, idle]

/-- A line of the first controller is the only one in service, if any. -/
theorem Acknowledged.of_master {i : Fin 8} (ack : Acknowledged p (.master i) q)
    (idle : Idle base1 base2 p) :
    q.master.eoi.isr = noLines ∧ q.slave.isr = noLines := by
  cases ack with
  | master _ _ => exact ⟨eoi_single (take_isr idle.isr1 _), idle.isr2⟩
  | noMaster _ =>
      rw [eoi_none idle.isr1]
      exact ⟨idle.isr1, idle.isr2⟩

/-- Of the second one, line 2 of the first as well. -/
theorem Acknowledged.of_slave {i : Fin 8} (ack : Acknowledged p (.slave i) q)
    (idle : Idle base1 base2 p) :
    q.master.eoi.isr = noLines ∧ q.slave.eoi.isr = noLines := by
  cases ack with
  | slave _ _ => exact ⟨eoi_single (by rw [idle.isr1]), eoi_single (take_isr idle.isr2 _)⟩
  | noSlave _ _ =>
      rw [eoi_none idle.isr2]
      exact ⟨eoi_single (by rw [idle.isr1]), idle.isr2⟩

/-- `isr_handler` returns, and whatever `malloc` would do these are the controllers then. -/
def Handles (intNo : Nat) (q t : Pics) : Prop :=
  ∀ arch malloc, isrHandler arch malloc intNo q = .ok t

theorem isrHandler_master {n : Nat} (low : 32 ≤ n) (high : n < 40) :
    Handles n q { q with master := q.master.eoi } := by
  intro arch malloc
  rw [isrHandler, if_neg (by omega), if_pos (by omega), if_neg (by omega)]
  exact congrArg Except.ok (outb_eoi1 q)

theorem isrHandler_slave {n : Nat} (low : 40 ≤ n) (high : n < 48) :
    Handles n q { master := q.master.eoi, slave := q.slave.eoi } := by
  intro arch malloc
  rw [isrHandler, if_neg (by omega), if_pos (by omega), if_pos (by omega), outb_eoi2]
  exact congrArg Except.ok (outb_eoi1 _)

theorem idle_after (idle : Idle base1 base2 p) (same : SamePics p q) (master slave : Pic)
    (first : master.base = q.master.base ∧ master.awaits = q.master.awaits)
    (second : slave.base = q.slave.base ∧ slave.awaits = q.slave.awaits)
    (none : master.isr = noLines ∧ slave.isr = noLines) : Idle base1 base2 ⟨master, slave⟩ := by
  refine ⟨?_, ?_, ?_, ?_, none.1, none.2⟩
  · exact first.1.trans (same.base1.trans idle.base1)
  · exact second.1.trans (same.base2.trans idle.base2)
  · exact first.2.trans (same.ready1.trans idle.ready1)
  · exact second.2.trans (same.ready2.trans idle.ready2)

/-- Line `i` of the second controller has vector `40 + i`, and is acknowledged at both. -/
theorem slave_handled {i : Fin 8} (idle : Idle base1 0x28 p) (ack : Acknowledged p (.slave i) q) :
    p.vector (.slave i) = 40 + i ∧ ∃ t, Handles (p.vector (.slave i)) q t ∧ Idle base1 0x28 t := by
  have number : p.vector (.slave i) = 40 + i := by
    have all : ∀ i : Fin 8, ((0x28 : UInt8) + UInt8.ofNat i).toNat = 40 + i := by decide
    rw [Pics.vector, idle.base2, all]
  have done := isrHandler_slave (q := q) (by omega : 40 ≤ p.vector (.slave i)) (by omega)
  exact ⟨number, _, done,
    idle_after idle ack.same _ _ (eoi_kept _) (eoi_kept _) (ack.of_slave idle)⟩

/-- With the base that it has on x86_64, the same for the first controller. -/
theorem master_handled {i : Fin 8} (idle : Idle 0x20 base2 p) (ack : Acknowledged p (.master i) q) :
    p.vector (.master i) = 32 + i ∧ ∃ t, Handles (p.vector (.master i)) q t ∧
    Idle 0x20 base2 t := by
  have number : p.vector (.master i) = 32 + i := by
    have all : ∀ i : Fin 8, ((0x20 : UInt8) + UInt8.ofNat i).toNat = 32 + i := by decide
    rw [Pics.vector, idle.base1, all]
  have done := isrHandler_master (q := q) (by omega : 32 ≤ p.vector (.master i)) (by omega)
  exact ⟨number, _, done, idle_after idle ack.same _ _ (eoi_kept _) ⟨rfl, rfl⟩ (ack.of_master idle)⟩

/-- On x86 its lines come as exceptions. -/
theorem master_panics {i : Fin 8} (idle : Idle 0x18 base2 p) (q : Pics) :
    p.vector (.master i) = 24 + i ∧ Panics .x86 (24 + i) q := by
  have number : p.vector (.master i) = 24 + i := by
    have all : ∀ i : Fin 8, ((0x18 : UInt8) + UInt8.ofNat i).toNat = 24 + i := by decide
    rw [Pics.vector, idle.base1, all]
  exact ⟨number, isrHandler_panics .x86 (by omega) q⟩

theorem request_idle (idle : Idle base1 base2 p) (raised : Bool) (line : Line) :
    Idle base1 base2 (p.request raised line) := by
  cases line <;> exact ⟨idle.base1, idle.base2, idle.ready1, idle.ready2, idle.isr1, idle.isr2⟩

theorem data_mask {c : Pic} (ready : c.awaits = .mask) (v : UInt8) :
    c.data v = { c with imr := linesOf v } := by
  simp only [Pic.data, ready]

theorem setMasks_eq (idle : Idle base1 base2 p) (a1 a2 : UInt8) : (p.outb 0x21 a1).outb 0xA1 a2 =
    { master := { p.master with imr := linesOf a1 },
      slave := { p.slave with imr := linesOf a2 } } := by
  have masks : (p.outb 0x21 a1).outb 0xA1 a2 =
      { master := p.master.data a1, slave := p.slave.data a2 } := rfl
  rw [masks, data_mask idle.ready1, data_mask idle.ready2]

theorem setMasks_idle (idle : Idle base1 base2 p) (a1 a2 : UInt8) :
    Idle base1 base2 ((p.outb 0x21 a1).outb 0xA1 a2) := by
  rw [setMasks_eq idle]
  exact ⟨idle.base1, idle.base2, idle.ready1, idle.ready2, idle.isr1, idle.isr2⟩

theorem step_idle {e : Event} (idle : Idle (firstVector arch) 0x28 s) (step : PicStep s e t) :
    Idle (firstVector arch) 0x28 t := by
  cases step with
  | raise => exact request_idle idle true _
  | lower => exact request_idle idle false _
  | setMasks => exact setMasks_idle idle _ _
  | interrupt ack handled =>
      rename_i line q _ _
      cases line with
      | slave i =>
          obtain ⟨-, u, same, after⟩ := slave_handled idle ack
          cases (Except.ok.inj (handled.symm.trans (same _ _)) : t = u)
          exact after
      | master i =>
          cases arch with
          | x86 =>
              have number := (master_panics (i := i) idle q).1
              exact absurd handled (isrHandler_exception (by omega))
          | x86_64 =>
              obtain ⟨-, u, same, after⟩ := master_handled idle ack
              cases (Except.ok.inj (handled.symm.trans (same _ _)) : t = u)
              exact after

theorem reachable_idle (reach : Reachable PicStep (remapped arch p) s) :
    Idle (firstVector arch) 0x28 s :=
  reach.invariant (fun _ _ _ idle step => step_idle idle step) (remapped_idle arch p)

def Masked (p : Pics) : Prop := (∀ i, p.master.imr i = true) ∧ ∀ i, p.slave.imr i = true

theorem mayInterrupt_masked {c : Pic} {i : Fin 8} (masked : c.imr i = true) :
    c.mayInterrupt i = false := by
  rw [Pic.mayInterrupt, masked]
  rfl

theorem pending_masked {c : Pic} {lines : Lines} {i : Fin 8} (masked : ∀ i, c.imr i = true) :
    c.pending lines ≠ some i := by
  intro found
  have asks := (first_eq_some.mp found).1
  rw [mayInterrupt_masked (masked i), Bool.and_false] at asks
  cases asks

theorem not_acknowledged (masked : Masked p) : ¬ Acknowledged p line q := by
  intro ack
  cases ack with
  | master found _ => exact pending_masked masked.1 found
  | slave found _ => exact pending_masked masked.1 found
  | noMaster asks => exact absurd (mayInterrupt_masked (masked.1 _)) (ne_false_of_eq_true asks)
  | noSlave asks _ => exact absurd (mayInterrupt_masked (masked.1 _)) (ne_false_of_eq_true asks)

/-- Neither controller is given another mask. -/
def KeepsMasks (_ : Pics) (e : Event) : Prop := ∀ a1 a2, e ≠ .setMasks a1 a2

theorem step_masked {e : Event} (masked : Masked s) (keeps : KeepsMasks s e)
    (step : PicStep s e t) : Masked t := by
  cases step with
  | @raise line => cases line <;> exact masked
  | @lower line => cases line <;> exact masked
  | setMasks => exact absurd rfl (keeps _ _)
  | interrupt ack _ => exact absurd ack (not_acknowledged masked)

/-- A line that is raised and reaches the processor. -/
def Asks (p : Pics) : Line → Prop
  | .master i => i ≠ 2 ∧ p.master.irr i = true ∧ p.master.imr i = false
  | .slave i => p.master.imr 2 = false ∧ p.slave.irr i = true ∧ p.slave.imr i = false

/-- The lines of the second controller come in the place of line 2. -/
def Line.rank : Line → Nat
  | .master i => if i.val < 2 then i.val else i.val + 8
  | .slave i => i.val + 2

theorem mayInterrupt_idle {c : Pic} (idle : c.isr = noLines) (i : Fin 8) :
    c.mayInterrupt i = !c.imr i := by
  rw [Pic.mayInterrupt, idle]
  simp [noLines]

theorem pending_eq_some {c : Pic} {lines : Lines} {i : Fin 8} (idle : c.isr = noLines) :
    c.pending lines = some i ↔
    (lines i = true ∧ c.imr i = false) ∧ ∀ k < i, ¬ (lines k = true ∧ c.imr k = false) := by
  have each (k : Fin 8) : (lines k && c.mayInterrupt k) = true ↔
      lines k = true ∧ c.imr k = false := by
    rw [mayInterrupt_idle idle, Bool.and_eq_true, Bool.not_eq_true']
  have none (k : Fin 8) : (lines k && c.mayInterrupt k) = false ↔
      ¬ (lines k = true ∧ c.imr k = false) := by
    rw [← Bool.not_eq_true, each]
  rw [Pic.pending, first_eq_some]
  simp only [each, none]

theorem requests_of_ne {i : Fin 8} (other : i ≠ 2) (p : Pics) : p.requests i = p.master.irr i := by
  rw [Pics.requests, Function.update_of_ne other]

theorem requests_two (p : Pics) : p.requests 2 = (p.slave.pending p.slave.irr).isSome := by
  rw [Pics.requests, Function.update_self]

/-- Line 2 asks for the line of the second controller that comes first. -/
theorem asks_of_two {j : Fin 8} (idle : Idle base1 base2 s)
    (found : s.slave.pending s.slave.irr = some j) (through : s.master.imr 2 = false) :
    Asks s (.slave j) := by
  obtain ⟨⟨raised, unmasked⟩, -⟩ := (pending_eq_some idle.isr2).mp found
  exact ⟨through, raised, unmasked⟩

/-- No line waits for anything but lines of higher priority. -/
theorem served (idle : Idle base1 base2 s) (asks : Asks s line)
    (least : ∀ other, Asks s other → line.rank ≤ other.rank) : ∃ q, Acknowledged s line q := by
  cases line with
  | slave j =>
      obtain ⟨through, raised, unmasked⟩ := asks
      have found : s.slave.pending s.slave.irr = some j := by
        refine (pending_eq_some idle.isr2).mpr ⟨⟨raised, unmasked⟩, fun k below also => ?_⟩
        have rank := least (.slave k) ⟨through, also⟩
        simp only [Line.rank] at rank
        omega
      have two : s.master.pending s.requests = some 2 := by
        refine (pending_eq_some idle.isr1).mpr ⟨⟨by rw [requests_two, found]; rfl, through⟩,
          fun k below also => ?_⟩
        have apart : k ≠ 2 := Fin.ne_of_lt below
        rw [requests_of_ne apart] at also
        have rank := least (.master k) ⟨apart, also⟩
        have small : k.val < 2 := below
        simp only [Line.rank, if_pos small] at rank
        omega
      exact ⟨_, .slave two found⟩
  | master i =>
      obtain ⟨apart, raised, unmasked⟩ := asks
      have found : s.master.pending s.requests = some i := by
        have asked : s.requests i = true := by
          rw [requests_of_ne apart]
          exact raised
        refine (pending_eq_some idle.isr1).mpr ⟨⟨asked, unmasked⟩, fun k below also => ?_⟩
        have before : k.val < i.val := below
        by_cases two : k = 2
        · subst two
          obtain ⟨asked, through⟩ := also
          rw [requests_two] at asked
          obtain ⟨j, first⟩ := Option.isSome_iff_exists.mp asked
          have rank := least (.slave j) (asks_of_two idle first through)
          have late : ¬ i.val < 2 := by
            change 2 < i.val at before
            omega
          simp only [Line.rank, if_neg late] at rank
          omega
        · rw [requests_of_ne two] at also
          have rank := least (.master k) ⟨two, also⟩
          simp only [Line.rank] at rank
          split at rank <;> split at rank <;> omega
      exact ⟨_, .master found apart⟩

/-- The number that the source gives to a line. -/
def Line.number : Line → Nat
  | .master i => i.val
  | .slave i => 8 + i.val

theorem acknowledged_handled (idle : Idle 0x20 0x28 s) (ack : Acknowledged s line q) :
    s.vector line = 32 + line.number ∧ ∃ t, Handles (s.vector line) q t ∧ Idle 0x20 0x28 t := by
  cases line with
  | master i => exact master_handled idle ack
  | slave i =>
      obtain ⟨number, after⟩ := slave_handled idle ack
      refine ⟨?_, after⟩
      rw [number, Line.number]
      omega

/-- On x86_64 every interrupt comes with its own vector, `isr_handler` leaves nothing in service,
    and of the lines that ask the first one is next. -/
theorem x86_64_lines_served (reach : Reachable PicStep (remapped .x86_64 p) s) :
    (∀ line q, Acknowledged s line q → s.vector line = 32 + line.number ∧
      ∃ t, Handles (s.vector line) q t ∧ Idle 0x20 0x28 t) ∧
      ∀ line, Asks s line → (∀ other, Asks s other → line.rank ≤ other.rank) →
      ∃ q, Acknowledged s line q := by
  have idle := reachable_idle reach
  exact ⟨fun _ _ ack => acknowledged_handled idle ack, fun _ asks least => served idle asks least⟩

def emptyPics : Pics :=
  ⟨⟨noLines, noLines, noLines, 0, .mask⟩, ⟨noLines, noLines, noLines, 0, .mask⟩⟩

/-- The timer is unmasked and ticks. -/
def ticked (arch : Arch) : Pics :=
  (((remapped arch emptyPics).outb 0x21 0xFE).outb 0xA1 0xFF).request true (.master 0)

theorem reachable_ticked (arch : Arch) :
    Reachable PicStep (remapped arch emptyPics) (ticked arch) :=
  ((Reachable.refl _).tail (PicStep.setMasks : PicStep _ (.setMasks 0xFE 0xFF) _)).tail
    PicStep.raise

theorem asks_ticked (arch : Arch) : Asks (ticked arch) (.master 0) := by
  cases arch <;> exact ⟨by decide, rfl, by decide⟩

theorem x86_64_lines_served_timer : ∃ q, Acknowledged (ticked .x86_64) (.master 0) q :=
  (x86_64_lines_served (reachable_ticked .x86_64)).2 _ (asks_ticked .x86_64) fun _ _ =>
    Nat.zero_le _

/-- On x86 the lines of the first controller come as exceptions, and `isr_handler` panics. -/
theorem x86_lines_panic (reach : Reachable PicStep (remapped .x86 p) s) :
    (∀ i q, Acknowledged s (.master i) q → s.vector (.master i) = 24 + i ∧ Panics .x86 (24 + i) q) ∧
      ∀ i q, Acknowledged s (.slave i) q → s.vector (.slave i) = 40 + i ∧
        ∃ t, Handles (s.vector (.slave i)) q t ∧ Idle 0x18 0x28 t := by
  have idle := reachable_idle reach
  exact ⟨fun _ q _ => master_panics idle q, fun _ _ ack => slave_handled idle ack⟩

theorem x86_lines_panic_timer : ∃ q, Acknowledged (ticked .x86) (.master 0) q ∧
    isrHandler .x86 Shell.mallocBlock 24 q =
    .error (.kernelpanic "CPU_EXCEPTION" (exceptionNote "Reserved")) := by
  have idle := reachable_idle (reachable_ticked .x86)
  obtain ⟨q, ack⟩ := served idle (asks_ticked .x86) fun _ _ => Nat.zero_le _
  exact ⟨q, ack, ((x86_lines_panic (reachable_ticked .x86)).1 0 q ack).2.named _ _ rfl
    List.length_replicate⟩

/-- As long as nobody unmasks a line there is no interrupt at all, whatever the devices do. -/
theorem masked_lines_silent {trace : List (Pics × Event)}
    (run : Run PicStep (remapped arch p) trace s) (keeps : EveryStep KeepsMasks trace) :
    ∀ line q, ¬ Acknowledged s line q :=
  fun _ _ => not_acknowledged
    (run.always_of_steps (fun _ _ _ masked keeps step => step_masked masked keeps step)
    (remapped_masked arch p) keeps).last

theorem masked_lines_silent_keyboard :
    ¬ ∃ line q, Acknowledged ((remapped .x86 emptyPics).request true (.master 1)) line q := by
  rintro ⟨line, q, ack⟩
  refine masked_lines_silent (Run.single PicStep.raise) (fun entry member a1 a2 same => ?_)
    line q ack
  rw [List.mem_singleton.mp member] at same
  cases same

end AurorOS.Interrupts
