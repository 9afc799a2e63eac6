import AurorOS.Exec.Isolation
import AurorOS.Shell.Effects

/-! # The bits that give access

`cat` asks for the read bit, `hexedit` and WRITE for the write bit.  READ asks for the
write bit as well, so the four agree on the files of which a user may do both or
neither.
-/

namespace AurorOS.Exec

open Fs Outcome Shell Apps

/-- The descriptor named by the call is the caller's own and leads to a regular file. -/
structure OwnFile (s : KernelState) (call : Call) (node : Ptr) (n : FsNode) : Prop where
  found : ∃ p fd, p ≠ 0 ∧ getFdFromId s.fds call.rdi = .ok p ∧ s.fds.descriptors p = some fd ∧
    fd.openedByUser = call.userId ∧ fd.openedByProcess = call.processId ∧ fd.target = .path node
  nonnull : node ≠ 0
  present : s.fs.nodes node = some n
  isFile : n.type = .file

/-- The call with another number. -/
def Call.numbered (call : Call) (number : UInt64) : Call := { call with number := number }

/-- The call returns with `SYSCALL_OK`. -/
def Succeeds (arch : Arch) (device : Device) (s : KernelState) (call : Call) : Prop :=
  ∃ reply, handleSyscall arch device call s = .ok reply ∧ reply.result.errs = .ok

/-- The four ways to a file, each with the bit that it should ask for. -/
structure AccessByBits (arch : Arch) (device : Device) (s : KernelState) (call : Call) (node : Ptr)
    (n : FsNode) :
    Prop where
  read : Succeeds arch device s (call.numbered 0) ↔ Readable call.userId n
  write : Succeeds arch device s (call.numbered 1) ↔ Writable call.userId n
  cat : ∀ (m : Machine) (currentDir : Ptr) (path : CStr), m.fs = s.fs → path ≠ [] →
    fsResolve m.fs path currentDir = .ok node → shcCat currentDir (some path) call.userId m =
      if Readable call.userId n then catFile n m else Shell.printError "Permission denied" m
  hexedit : ∀ (m : Machine) (currentDir : Ptr) (path : CStr), m.fs = s.fs →
    fsResolve m.fs path currentDir = .ok node → hexeditMain call.userId (some path) currentDir m =
      if Writable call.userId n then hexeditFile node n m
        else Shell.printError "No write permissions." m

variable {arch : Arch} {device : Device} {s : KernelState} {call : Call} {node : Ptr} {n : FsNode}
  {bit : UInt16} {onFile : Ptr → FsNode → Except Fault Reply}
  {onFunctions : Ptr → Ptr → Except Fault Reply} {m : Machine} {currentDir : Ptr} {path : CStr}
  {userId : UInt64}

/-- On the caller's own file all that is left to check is the bit. -/
theorem OwnFile.onDescriptor_eq (own : OwnFile s call node n) :
    onDescriptor s call bit onFile onFunctions =
      if permsOf call.userId n &&& bit = 0 then .ok (s.fails .permissionDenied)
        else onFile node n := by
  obtain ⟨p, fd, nonnull, found, here, user, process, target⟩ := own.found
  have mine : ¬ (fd.openedByUser ≠ call.userId ∨ fd.openedByProcess ≠ call.processId) := by
    rw [user, process]
    exact fun foreign => foreign.elim (absurd rfl) (absurd rfl)
  have isFile : ¬ n.type ≠ .file := not_not.mpr own.isFile
  simp only [onDescriptor, found, fd_deref_eq_ok.mpr here, deref_eq_ok.mpr own.present, target,
    if_neg nonnull, if_neg mine,
    if_neg own.nonnull, if_neg isFile, bind, Except.bind, pure, Except.pure]

theorem OwnFile.numbered (own : OwnFile s call node n) (number : UInt64) :
    OwnFile s (call.numbered number) node n :=
  ⟨own.found, own.nonnull, own.present, own.isFile⟩

/-- If the file's part cannot fail, the call succeeds on the bit. -/
theorem OwnFile.succeeds_iff (own : OwnFile s call node n)
    (serves : ∃ reply, onFile node n = .ok reply ∧ reply.result.errs = .ok) :
    (∃ reply, onDescriptor s call bit onFile onFunctions = .ok reply ∧ reply.result.errs = .ok) ↔
      permsOf call.userId n &&& bit ≠ 0 := by
  rw [own.onDescriptor_eq]
  by_cases denied : permsOf call.userId n &&& bit = 0
  · rw [if_pos denied]
    refine iff_of_false ?_ (not_not.mpr denied)
    rintro ⟨reply, returned, ok⟩
    obtain rfl := Except.ok.inj returned
    cases ok
  · rw [if_neg denied]
    exact iff_of_true serves denied

/-- READ of the caller's own file succeeds on the write bit. -/
theorem OwnFile.read_succeeds_iff (own : OwnFile s call node n) :
    Succeeds arch device s (call.numbered 0) ↔ Writable call.userId n :=
  (own.numbered 0).succeeds_iff ⟨_, rfl, rfl⟩

/-- WRITE of the caller's own file succeeds on the write bit. -/
theorem OwnFile.write_succeeds_iff (own : OwnFile s call node n) :
    Succeeds arch device s (call.numbered 1) ↔ Writable call.userId n := by
  refine (own.numbered 1).succeeds_iff ?_
  have wrote : ∃ fs,
    Fs.fsWrite s.fs node (call.memory.bytes call.rsi.toNat call.rdx.toUInt32.toNat) call.block =
    .ok fs := by
    rw [Fs.fsWrite, emulatedFsWrite, Fs.deref_eq_ok.mpr own.present]
    exact ⟨_, if_neg (not_not.mpr own.isFile)⟩
  obtain ⟨fs, wrote⟩ := wrote
  exact ⟨_, bind_eq_ok.mpr ⟨fs, wrote, rfl⟩, rfl⟩

/-- Once the path has led to a file, `cat` asks for the read bit. -/
theorem shcCat_file (nonempty : path ≠ []) (found : fsResolve m.fs path currentDir = .ok node)
    (nonnull : node ≠ 0) (present : m.fs.nodes node = some n) (isFile : n.type = .file) :
    shcCat currentDir (some path) userId m =
      if Readable userId n then catFile n m else Shell.printError "Permission denied" m := by
  have given : ¬ missing (some path) = true := by
    rw [missing_eq_false.mpr nonempty]
    exact Bool.false_ne_true
  rw [shcCat, if_neg given]
  refine (Program.bind_of_ok (resolve_eq_ok.mpr ⟨found, rfl⟩)).trans ?_
  rw [if_neg nonnull]
  refine (Program.bind_of_ok (Shell.deref_eq_ok.mpr ⟨present, rfl⟩)).trans ?_
  rw [if_neg (not_not.mpr isFile)]
  by_cases readable : Readable userId n
  · rw [if_pos readable, if_neg (not_not.mpr readable)]
  · rw [if_neg readable, if_pos readable]

/-- Once the path has led to a file, `hexedit` asks for the write bit. -/
theorem hexeditMain_file (found : fsResolve m.fs path currentDir = .ok node) (nonnull : node ≠ 0)
    (present : m.fs.nodes node = some n) (isFile : n.type = .file) :
    hexeditMain userId (some path) currentDir m =
      if Writable userId n then hexeditFile node n m
        else Shell.printError "No write permissions." m := by
  have notDir : n.type ≠ .dir := by
    rw [isFile]
    exact nofun
  refine (Program.bind_of_ok (resolve_eq_ok.mpr ⟨found, rfl⟩)).trans ?_
  rw [if_neg nonnull]
  refine (Program.bind_of_ok (Shell.deref_eq_ok.mpr ⟨present, rfl⟩)).trans ?_
  rw [if_neg notDir]
  by_cases writable : Writable userId n
  · rw [if_pos writable, if_neg (not_not.mpr writable)]
  · rw [if_neg writable, if_pos writable]

/-- All four ways to a file ask for their bits if and only if the user may read it
    exactly when the user may write it. -/
theorem access_by_bits_iff (own : OwnFile s call node n) :
    AccessByBits arch device s call node n ↔ (Readable call.userId n ↔ Writable call.userId n) := by
  constructor
  · intro access
    exact access.read.symm.trans own.read_succeeds_iff
  · intro alike
    refine ⟨own.read_succeeds_iff.trans alike.symm, own.write_succeeds_iff, ?_, ?_⟩
    · intro m currentDir path same nonempty found
      exact shcCat_file nonempty found own.nonnull (same ▸ own.present) own.isFile
    · intro m currentDir path same found
      exact hexeditMain_file found own.nonnull (same ▸ own.present) own.isFile

/-- The empty file `notes` of the root user. -/
def notesNode (permissions : UInt16) : FsNode :=
  { leafNode .file [110, 111, 116, 101, 115] 0 2 with permissions := permissions }

/-- After process 7 of user 1001 has opened `notes`. -/
def notesKernel (permissions : UInt16) : KernelState where
  fs := homeState.setNode 3 (notesNode permissions)
  fds :=
    { descriptors := fun p => if p = 10 then some ⟨1, 7, 1001, .path 3, 0⟩ else none
      firstFd := 10
      idCounter := 2 }

/-- A call for the descriptor with number 1. -/
def useNotes : Call := { openNotes with rdi := 1 }

theorem useNotes_own (permissions : UInt16) :
    OwnFile (notesKernel permissions) useNotes 3 (notesNode permissions) :=
  ⟨⟨10, _, by decide, rfl, rfl, rfl, rfl, rfl⟩, by decide, rfl, rfl⟩

/-- Everybody may read and write `notes`. -/
theorem access_by_bits_notes :
    AccessByBits .x86 noDevice (notesKernel 0o666) useNotes 3 (notesNode 0o666) :=
  (access_by_bits_iff (useNotes_own 0o666)).mpr (by decide)

/-- READ refuses `notes` to user 1001, who may read it but not write it. -/
theorem access_not_by_bits :
    ¬ ∀ (arch : Arch) (device : Device) (s : KernelState) (call : Call) (node : Ptr) (n : FsNode),
      OwnFile s call node n → AccessByBits arch device s call node n := by
  intro access
  have readable : Succeeds .x86 noDevice (notesKernel 0o644) (useNotes.numbered 0) :=
    (access .x86 noDevice _ _ _ _ (useNotes_own 0o644)).read.mpr (by decide)
  obtain ⟨reply, returned, ok⟩ := readable
  have refused : handleSyscall .x86 noDevice (useNotes.numbered 0) (notesKernel 0o644) =
      .ok ((notesKernel 0o644).fails .permissionDenied) := rfl
  obtain rfl := Except.ok.inj (refused.symm.trans returned)
  cases ok

end AurorOS.Exec
