import AurorOS.Devices.Keyboard
import AurorOS.Fs.Invariant
import AurorOS.Fs.Paths

/-! # Programs of the kernel

Commands run over the file system, the console, and the results of the calls of
`malloc` to come.  A supply that offers a block in use is not one of `malloc`.
-/

namespace AurorOS.Shell

open Fs Devices

/-- What the commands work on; `blocks` is what `malloc` is going to return for
    positive sizes, `NULL` at the latest when the list ends. -/
structure Machine where
  fs : FsState
  console : Console
  blocks : List Ptr

abbrev Kernel := Program Machine Stop

variable {α : Type}

/-- A program that only uses the console. -/
def onConsole (x : Program Console Stop α) : Kernel α :=
  Program.zoom Machine.console (fun m console => { m with console := console }) x

/-- A change of the screen. -/
def onScreen (f : Screen → Screen) : Kernel Unit :=
  onConsole (Program.modify fun c => { c with screen := f c.screen })

/-- A look at the file system. -/
def ofFs (f : FsState → Except Fault α) : Kernel α := fun m =>
  match f m.fs with
  | .ok a => (.ok a, m)
  | .error fault => (.error (.fault fault), m)

/-- A change of the file system. -/
def onFs (f : FsState → Except Fault (α × FsState)) : Kernel α := fun m =>
  match f m.fs with
  | .ok (a, fs) => (.ok a, { m with fs := fs })
  | .error fault => (.error (.fault fault), m)

def onFs' (f : FsState → Except Fault FsState) : Kernel Unit := onFs fun s => do return ((), ← f s)

def printError (str : String) : Kernel Unit := onScreen (·.printError (cstr str))

def printInfo (str : String) : Kernel Unit := onScreen (·.printInfo (cstr str))

def printWarn (str : String) : Kernel Unit := onScreen (·.printWarn (cstr str))

def print (str : String) (color : UInt8) : Kernel Unit := onScreen (·.print (cstr str) color)

def println (str : String) (color : UInt8) : Kernel Unit := onScreen (·.println (cstr str) color)

def readStr (buffer : List UInt8) (maxLength : UInt16) (secret : Bool) (color : UInt8)
    (baseValue : List UInt8) :
    Kernel (List UInt8) :=
    onConsole (Devices.readStr buffer maxLength secret color (some baseValue))

def readYn (text : String) (color : UInt8) : Kernel Bool :=
  onConsole (Devices.readYn (cstr text) color)

def resolve (path : CStr) (currentDir : Ptr) : Kernel Ptr := ofFs (fsResolve · path currentDir)

def deref (p : Ptr) : Kernel FsNode := ofFs (FsState.deref · p)

instance (s : FsState) (block : Ptr) : Decidable (Fresh s block) :=
  decidable_of_iff (block ≠ 0 ∧ s.nodes block = none ∧ s.bufs block = none)
    ⟨fun ⟨a, b, c⟩ => ⟨a, b, c⟩, fun ⟨a, b, c⟩ => ⟨a, b, c⟩⟩

/-- A call of `malloc` made when the file system has become `after` of what it is. -/
def mallocAfter (after : FsState → FsState) (size : Nat) : Kernel Ptr := fun m =>
  if size = 0 then (.ok 0, m)
  else
    let block := m.blocks.headD 0
    let m' := { m with blocks := m.blocks.tail }
    if block = 0 ∨ Fresh (after m.fs) block then (.ok block, m') else (.error .unserved, m)

def malloc (size : Nat) : Kernel Ptr := mallocAfter id size

/-- `fs_create_dir_node` and `fs_create_file_node`; a node is written where `malloc` says,
    at `NULL` as well. -/
def fsCreateNode (type : NodeType) (name : CStr) (parent : Ptr) (owner : UInt64) : Kernel Ptr := do
  -- `sizeof(emulated_fs_node)` is positive
  let block ← malloc 1
  if block = 0 then Program.stop (.fault .invalidAccess)
  else onFs (createNode type · block name parent owner)

def fsAddChild (dir child : Ptr) : Kernel Unit := onFs' (Fs.fsAddChild · dir child)

/-- `fs_write`, which copies to where `malloc` says, to `NULL` as well. -/
def fsWrite (file : Ptr) (data : List UInt8) : Kernel Unit := do
  let n ← deref file
  if n.type ≠ .file then return ()
  let block ← mallocAfter (releaseData · n) data.length
  if block = 0 ∧ data ≠ [] then Program.stop (.fault .invalidAccess)
  else onFs' (Fs.fsWrite · file data block)

/-- The `size` bytes at `file->data`. -/
def fileData (s : FsState) (n : FsNode) : Except Fault (List UInt8) :=
  if n.size = 0 then .ok []
  else
    match s.bufs n.data with
    | some bytes => if n.size ≤ bytes.length then .ok (bytes.take n.size) else .error .invalidAccess
    | none => .error .invalidAccess

/-- A file that has all of its data where the node says. -/
theorem fileData_of_stored {s : FsState} {n : FsNode} {data : List UInt8}
    (size : n.size = data.length) (stored : data ≠ [] → s.bufs n.data = some data) :
    fileData s n = .ok data := by
  rw [fileData, size]
  by_cases empty : data = []
  · rw [empty]
    rfl
  · have some_ : data.length ≠ 0 := fun none => empty (List.length_eq_zero_iff.mp none)
    rw [if_neg some_, stored empty]
    dsimp only
    rw [if_pos le_rfl, List.take_length]

theorem length_of_fileData {s : FsState} {n : FsNode} {data : List UInt8}
    (content : fileData s n = .ok data) :
    data.length = n.size := by
  rw [fileData] at content
  split at content
  · rename_i empty
    obtain rfl := Except.ok.inj content
    exact empty.symm
  · split at content
    · split at content
      · rename_i enough
        obtain rfl := Except.ok.inj content
        exact List.length_take_of_le enough
      · cases content
    · cases content

end AurorOS.Shell
