import AurorOS.Exec.Descriptors
import AurorOS.Fs.Read
import AurorOS.Fs.Resolve

/-! # System calls

`handle_syscall` serves READ, WRITE and OPEN.  What it takes from the caller's memory
is the string at `rdi` and the bytes at `rsi`; what it puts there is listed as the
stores of a read.  Callers' memory and the kernel's objects are apart.
-/

namespace AurorOS.Exec

open Fs Outcome

inductive SyscallErrorCode where
  | fdNotFound
  | fileNotFound
  | permissionDenied
  | reserved
  | illegalOperation
  | illegalMode
  | ok
  deriving DecidableEq, Repr

structure SyscallResult where
  rax : Nat
  errs : SyscallErrorCode
  setRaxToDirectReturnValue : Bool
  deriving DecidableEq, Repr

/-- `RETE(code)`. -/
def rete (code : SyscallErrorCode) : SyscallResult := ⟨0, code, false⟩

/-- `RETD(data)`. -/
def retd (data : Nat) : SyscallResult := ⟨data, .ok, true⟩

/-- An integer converted to `uintptr_t`. -/
def toUintptr (arch : Arch) (x : Int) : Nat := (x % arch.wordSize).toNat

structure KernelState where
  fs : FsState
  fds : FdTable

/-- The memory of the caller: the C string and the byte at an address. -/
structure CallerMemory where
  string : Ptr → CStr
  byte : Ptr → UInt8

/-- The `size` bytes at an address. -/
def CallerMemory.bytes (memory : CallerMemory) (p : Ptr) (size : Nat) : List UInt8 :=
  (List.range size).map fun i => memory.byte (p + i)

/-- What a call leaves: its result, its stores to the buffer at `rsi`, and the
    kernel's state. -/
structure Reply where
  result : SyscallResult
  stores : List OutStore
  state : KernelState

/-- What the function at an address does for a buffer and a size. -/
abbrev Device := Ptr → Ptr → Nat → KernelState → Except Fault (Bool × KernelState)

/-- A call and what it finds: the caller's memory, and the result of the one `malloc`
    it may make. -/
structure Call where
  number : UInt64
  rdi : UInt64
  rsi : UInt64
  rdx : UInt64
  userId : UInt64
  processId : UInt64
  memory : CallerMemory
  block : Ptr

def KernelState.fails (s : KernelState) (code : SyscallErrorCode) : Reply := ⟨rete code, [], s⟩

/-- READ and WRITE go the same way to the file or to the functions; `bit` is the bit of
    the permissions that is tested. -/
def onDescriptor (s : KernelState) (call : Call) (bit : UInt16)
    (onFile : Ptr → FsNode → Except Fault Reply) (onFunctions : Ptr → Ptr → Except Fault Reply) :
    Except Fault Reply := do
  let p ← getFdFromId s.fds call.rdi
  if p = 0 then return s.fails .fdNotFound
  let fd ← s.fds.deref p
  if fd.openedByUser ≠ call.userId ∨
    fd.openedByProcess ≠ call.processId then return s.fails .permissionDenied
  match fd.target with
  | .path node =>
      if node = 0 then return s.fails .fileNotFound
      let n ← s.fs.deref node
      if permsOf call.userId n &&& bit = 0 then return s.fails .permissionDenied
      if n.type ≠ .file then return s.fails .illegalMode
      onFile node n
  | .iofunc read write => onFunctions read write

/-- The case of READ, which tests the bit that WRITE tests. -/
def syscallRead (arch : Arch) (device : Device) (call : Call) (s : KernelState) :
    Except Fault Reply :=
  onDescriptor s call 2
    (fun _ n => do
      let (count, stores) := emulatedFsRead n call.rdx.toUInt32
      return ⟨retd (toUintptr arch count), stores, s⟩)
    (fun read _ => do
      let (done, s) ← device read call.rsi.toNat call.rdx.toNat s
      return ⟨retd done.toNat, [], s⟩)

/-- The case of WRITE. -/
def syscallWrite (device : Device) (call : Call) (s : KernelState) : Except Fault Reply :=
  onDescriptor s call 2
    (fun node _ => do
      let data := call.memory.bytes call.rsi.toNat call.rdx.toUInt32.toNat
      let fs ← fsWrite s.fs node data call.block
      return ⟨rete .ok, [], { s with fs := fs }⟩)
    (fun _ write => do
      let (_, s) ← device write call.rsi.toNat call.rdx.toNat s
      return ⟨rete .ok, [], s⟩)

/-- The case of OPEN. -/
def syscallOpen (arch : Arch) (call : Call) (s : KernelState) : Except Fault Reply := do
  let node ← fsResolve s.fs (call.memory.string call.rdi.toNat) s.fs.fsRoot
  if node = 0 then return s.fails .fileNotFound
  let (p, fds) ← createNewFsnodeFd node s.fds call.block call.userId call.processId
  let s := { s with fds := fds }
  if p = 0 then return s.fails .fdNotFound
  let fd ← s.fds.deref p
  return ⟨retd (toUintptr arch fd.id.toNat), [], s⟩

def handleSyscall (arch : Arch) (device : Device) (call : Call) (s : KernelState) :
    Except Fault Reply :=
  match call.number.toNat with
  | 0 => syscallRead arch device call s
  | 1 => syscallWrite device call s
  | 2 => syscallOpen arch call s
  | _ => .ok (s.fails .illegalOperation)

end AurorOS.Exec
