import AurorOS.Exec.Syscall
import AurorOS.Fs.Invariant
import AurorOS.Lib.Runs

/-! # Isolation of file descriptors

Calls of any number of users and processes come in any order.  Every OPEN gets a
number of its own, which means that OPEN's descriptor from then on and serves nobody
else; a call that fails leaves everything as it was.
-/

namespace AurorOS.Exec

open Fs Outcome Runs

variable {arch : Arch} {device : Device} {s t : KernelState} {call : Call} {reply : Reply}
  {bit : UInt16} {onFile : Ptr → FsNode → Except Fault Reply}
  {onFunctions : Ptr → Ptr → Except Fault Reply}

/-- READ and WRITE refuse, go to the file, or go to the functions. -/
theorem onDescriptor_cases (returned : onDescriptor s call bit onFile onFunctions = .ok reply) :
    (∃ code, code ≠ .ok ∧ reply = s.fails code) ∨
      (∃ p fd node n, getFdFromId s.fds call.rdi = .ok p ∧ s.fds.descriptors p = some fd ∧
      fd.target = .path node ∧
        fd.openedByUser = call.userId ∧ fd.openedByProcess = call.processId ∧
        s.fs.nodes node = some n ∧
        permsOf call.userId n &&& bit ≠ 0 ∧ n.type = .file ∧ onFile node n = .ok reply) ∨
      ∃ p fd read write, getFdFromId s.fds call.rdi = .ok p ∧ p ≠ 0 ∧
      s.fds.descriptors p = some fd ∧
        fd.target = .iofunc read write ∧ onFunctions read write = .ok reply := by
  obtain ⟨p, found, returned⟩ := bind_eq_ok.mp returned
  by_cases missing : p = 0
  · rw [if_pos missing] at returned
    exact .inl ⟨.fdNotFound, nofun, (pure_eq_ok.mp returned).symm⟩
  rw [if_neg missing] at returned
  obtain ⟨fd, here, returned⟩ := bind_eq_ok.mp returned
  rw [fd_deref_eq_ok] at here
  by_cases foreign : fd.openedByUser ≠ call.userId ∨ fd.openedByProcess ≠ call.processId
  · rw [if_pos foreign] at returned
    exact .inl ⟨.permissionDenied, nofun, (pure_eq_ok.mp returned).symm⟩
  rw [if_neg foreign] at returned
  rw [not_or, not_not, not_not] at foreign
  cases target : fd.target with
  | iofunc read write =>
      rw [target] at returned
      exact .inr (.inr ⟨p, fd, read, write, found, missing, here, target, returned⟩)
  | path node =>
      rw [target] at returned
      simp only at returned
      by_cases null : node = 0
      · rw [if_pos null] at returned
        exact .inl ⟨.fileNotFound, nofun, (pure_eq_ok.mp returned).symm⟩
      rw [if_neg null] at returned
      obtain ⟨n, atNode, returned⟩ := bind_eq_ok.mp returned
      rw [deref_eq_ok] at atNode
      by_cases refused : permsOf call.userId n &&& bit = 0
      · rw [if_pos refused] at returned
        exact .inl ⟨.permissionDenied, nofun, (pure_eq_ok.mp returned).symm⟩
      rw [if_neg refused] at returned
      by_cases notFile : n.type ≠ .file
      · rw [if_pos notFile] at returned
        exact .inl ⟨.illegalMode, nofun, (pure_eq_ok.mp returned).symm⟩
      rw [if_neg notFile] at returned
      exact .inr (.inl ⟨p, fd, node, n, found, here, target, foreign.1, foreign.2, atNode, refused,
        not_not.mp notFile, returned⟩)

/-- What OPEN does once the path is resolved. -/
theorem syscallOpen_cases (returned : syscallOpen arch call s = .ok reply) :
    (∃ code, code ≠ .ok ∧ reply = s.fails code) ∨
      ∃ node fds fd, fsResolve s.fs (call.memory.string call.rdi.toNat) s.fs.fsRoot = .ok node ∧
      node ≠ 0 ∧
        createNewFsnodeFd node s.fds call.block call.userId call.processId = .ok (call.block, fds) ∧
        fds.descriptors call.block = some fd ∧
        reply = ⟨retd (toUintptr arch fd.id.toNat), [], { s with fds := fds }⟩ := by
  obtain ⟨node, resolved, returned⟩ := bind_eq_ok.mp returned
  by_cases missing : node = 0
  · rw [if_pos missing] at returned
    exact .inl ⟨.fileNotFound, by decide, (pure_eq_ok.mp returned).symm⟩
  rw [if_neg missing] at returned
  obtain ⟨⟨p, fds⟩, created, returned⟩ := bind_eq_ok.mp returned
  by_cases exhausted : call.block = 0
  · rw [createNewFsnodeFd, createFd, if_pos exhausted] at created
    obtain ⟨rfl, rfl⟩ := Prod.mk.inj (Except.ok.inj created)
    exact .inl ⟨.fdNotFound, by decide, (pure_eq_ok.mp returned).symm⟩
  obtain rfl : p = call.block := createFd_returns created exhausted
  simp only [if_neg exhausted] at returned
  obtain ⟨fd, here, returned⟩ := bind_eq_ok.mp returned
  rw [fd_deref_eq_ok] at here
  exact .inr ⟨node, fds, fd, resolved, missing, created, here, (pure_eq_ok.mp returned).symm⟩

/-- A call that returns an error code other than `SYSCALL_OK` has changed nothing. -/
theorem failure_changes_nothing (returned : handleSyscall arch device call s = .ok reply)
    (failed : reply.result.errs ≠ .ok) : reply.state = s := by
  rw [handleSyscall] at returned
  split at returned
  · rcases onDescriptor_cases returned with
      ⟨_, _, rfl⟩ | ⟨_, _, _, _, _, _, _, _, _, _, _, _, read⟩ | ⟨_, _, _, _, _, _, _, _, read⟩
    · rfl
    · obtain rfl := pure_eq_ok.mp read
      exact absurd rfl failed
    · obtain ⟨_, _, read⟩ := bind_eq_ok.mp read
      obtain rfl := pure_eq_ok.mp read
      exact absurd rfl failed
  · rcases onDescriptor_cases returned with
      ⟨_, _, rfl⟩ | ⟨_, _, _, _, _, _, _, _, _, _, _, _, wrote⟩ | ⟨_, _, _, _, _, _, _, _, wrote⟩
    · rfl
    · obtain ⟨_, _, wrote⟩ := bind_eq_ok.mp wrote
      obtain rfl := pure_eq_ok.mp wrote
      exact absurd rfl failed
    · obtain ⟨_, _, wrote⟩ := bind_eq_ok.mp wrote
      obtain rfl := pure_eq_ok.mp wrote
      exact absurd rfl failed
  · rcases syscallOpen_cases returned with ⟨_, _, rfl⟩ | ⟨_, _, _, _, _, _, _, rfl⟩
    · rfl
    · exact absurd rfl failed
  · obtain rfl := Except.ok.inj returned
    rfl

/-- A call that returns, with its reply. -/
def Step (arch : Arch) (device : Device) (s : KernelState) (e : Call × Reply)
    (s' : KernelState) : Prop :=
  handleSyscall arch device e.1 s = .ok e.2 ∧ e.2.state = s'

/-- A state, the call made there and its reply. -/
abbrev Entry := KernelState × Call × Reply

/-- The entry is an OPEN. -/
abbrev Entry.IsOpen (e : Entry) : Prop := e.2.1.number.toNat = 2

/-- The entry is an OPEN that succeeded. -/
abbrev Entry.Granted (e : Entry) : Prop := e.IsOpen ∧ e.2.2.result.errs = .ok

/-- `malloc` finds memory for a descriptor. -/
def Served (s : KernelState) (e : Call × Reply) : Prop :=
  e.1.number.toNat = 2 → e.1.block ≠ 0 ∧ s.fds.descriptors e.1.block = none

/-- The descriptor is the one of this OPEN: it has the node that the path named then,
    the user and the process. -/
structure Entry.Owns (e : Entry) (fd : FileDescriptor) : Prop where
  node : ∃ node, fsResolve e.1.fs (e.2.1.memory.string e.2.1.rdi.toNat) e.1.fs.fsRoot = .ok node ∧
    node ≠ 0 ∧
    fd.target = .path node
  user : fd.openedByUser = e.2.1.userId
  process : fd.openedByProcess = e.2.1.processId

/-- The list of descriptors holds those of the OPENs `es`, in their order. -/
structure Recorded (es : List Entry) (t : KernelState) (ps : List Ptr) : Prop where
  numbered : Numbered t.fds ps
  length : es.length = ps.length
  held : ∀ (i : Nat) (e : Entry) (p : Ptr), es[i]? = some e → ps[i]? = some p →
    ∃ fd, t.fds.descriptors p = some fd ∧ e.Owns fd ∧ e.2.2.result.rax = i + 1

variable {es : List Entry} {ps : List Ptr} {t' : KernelState} {trace : List Entry}
  {event : Call × Reply}

theorem recorded_boot (start : s.fds = FdTable.boot) : Recorded [] s [] where
  numbered := start ▸ boot_numbered
  length := rfl
  held := nofun

namespace Recorded

/-- Only the table of descriptors matters. -/
theorem of_same_fds (recorded : Recorded es t ps) (same : t'.fds = t.fds) : Recorded es t' ps where
  numbered := same ▸ recorded.numbered
  length := recorded.length
  held := same ▸ recorded.held

variable (recorded : Recorded es t ps)

include recorded

theorem targets_node {p : Ptr} {fd : FileDescriptor} (member : p ∈ ps)
    (here : t.fds.descriptors p = some fd) :
    ∃ node, node ≠ 0 ∧ fd.target = .path node := by
  obtain ⟨i, atP⟩ := List.mem_iff_getElem?.mp member
  obtain ⟨inside, _⟩ := List.getElem?_eq_some_iff.mp atP
  have insideEs : i < es.length := recorded.length ▸ inside
  obtain ⟨fd', here', owns, _⟩ := recorded.held i es[i] p (List.getElem?_eq_getElem insideEs) atP
  obtain rfl := Option.some.inj (here.symm.trans here')
  obtain ⟨node, _, nonnull, target⟩ := owns.node
  exact ⟨node, nonnull, target⟩

/-- Numbers lead to descriptors of the list, and these to nodes. -/
theorem found_node {id : UInt64} {p : Ptr} {fd : FileDescriptor}
    (found : getFdFromId t.fds id = .ok p) (present : p ≠ 0)
    (here : t.fds.descriptors p = some fd) :
    ∃ node, node ≠ 0 ∧ fd.target = .path node := by
  obtain ⟨r, returned, result⟩ := recorded.numbered.getFdFromId_cases id
  obtain rfl := Except.ok.inj (found.symm.trans returned)
  cases result with
  | inl missing => exact absurd missing.1 present
  | inr member => exact recorded.targets_node member.1 here

/-- The number of an OPEN finds its descriptor. -/
theorem finds {e : Entry} (member : e ∈ es) (few : es.length < 2 ^ 32) :
    ∃ p fd, getFdFromId t.fds (UInt64.ofNat e.2.2.result.rax) = .ok p ∧ p ∈ ps ∧
    t.fds.descriptors p = some fd ∧ e.Owns fd := by
  obtain ⟨i, atE⟩ := List.mem_iff_getElem?.mp member
  obtain ⟨inside, _⟩ := List.getElem?_eq_some_iff.mp atE
  have insidePs : i < ps.length := recorded.length ▸ inside
  obtain ⟨fd, here, owns, number⟩ := recorded.held i e ps[i] atE (List.getElem?_eq_getElem insidePs)
  have numberIs : (UInt64.ofNat e.2.2.result.rax).toNat = i + 1 := by
    rw [number, UInt64.toNat_ofNat']
    exact Nat.mod_eq_of_lt (by omega)
  exact ⟨ps[i], fd, recorded.numbered.getFdFromId_eq insidePs numberIs, List.getElem_mem insidePs,
    here, owns⟩

/-- The numbers given out are 1, 2, 3 and so on. -/
theorem numbers : es.map (fun e => e.2.2.result.rax) = List.range' 1 es.length := by
  refine List.ext_getElem (by simp) ?_
  intro i inside _
  rw [List.length_map] at inside
  have insidePs : i < ps.length := recorded.length ▸ inside
  obtain ⟨_, _, _, number⟩ :=
    recorded.held i es[i] ps[i] (List.getElem?_eq_getElem inside)
      (List.getElem?_eq_getElem insidePs)
  rw [List.getElem_map, number, List.getElem_range', Nat.one_mul, Nat.add_comm]

/-- An OPEN that has found its node and memory. -/
theorem append {node : Ptr} {call : Call} {reply : Reply} {fds : FdTable} {fd : FileDescriptor}
    (few : es.length + 1 < 2 ^ 32)
    (resolved : fsResolve t.fs (call.memory.string call.rdi.toNat) t.fs.fsRoot = .ok node)
    (nonnull : node ≠ 0) (memory : call.block ≠ 0) (fresh : t.fds.descriptors call.block = none)
    (created : createNewFsnodeFd node t.fds call.block call.userId call.processId =
    .ok (call.block, fds)) (here : fds.descriptors call.block = some fd)
    (result : reply.result = retd (toUintptr arch fd.id.toNat)) :
    Recorded (es ++ [(t, call, reply)]) { t with fds := fds } (ps ++ [call.block]) := by
  have bound : ps.length + 2 < 2 ^ 64 := by
    have length := recorded.length
    omega
  obtain ⟨fds', created', appended⟩ :=
    createFd_appends recorded.numbered (.path node) call.userId call.processId memory fresh bound
  obtain ⟨_, rfl⟩ := Prod.mk.inj (Except.ok.inj (created.symm.trans created'))
  obtain rfl := Option.some.inj (here.symm.trans appended.new)
  refine ⟨appended.numbered, ?_, ?_⟩
  · rw [List.length_append, List.length_append, recorded.length]
    rfl
  · intro i e p atE atP
    by_cases old : i < es.length
    · rw [List.getElem?_append_left old] at atE
      rw [List.getElem?_append_left (recorded.length ▸ old)] at atP
      obtain ⟨before, present, owns, number⟩ := recorded.held i e p atE atP
      obtain ⟨next, now⟩ := appended.old p (List.mem_of_getElem? atP) before present
      exact ⟨_, now, ⟨owns.node, owns.user, owns.process⟩, number⟩
    · obtain ⟨inside, _⟩ := List.getElem?_eq_some_iff.mp atE
      rw [List.length_append, List.length_singleton] at inside
      obtain rfl : i = es.length := by omega
      rw [List.getElem?_concat_length] at atE
      rw [recorded.length, List.getElem?_concat_length] at atP
      obtain rfl := Option.some.inj atE
      obtain rfl := Option.some.inj atP
      refine ⟨_, appended.new, ⟨⟨node, resolved, nonnull, rfl⟩, rfl, rfl⟩, ?_⟩
      have counter : t.fds.idCounter.toNat = es.length + 1 :=
        recorded.length ▸ recorded.numbered.counter
      have words := arch.le_wordSize
      have small : ((es.length + 1 : Nat) : Int) % (arch.wordSize : Int) =
          (es.length + 1 : Nat) := by
        rw [← Int.natCast_mod, Nat.mod_eq_of_lt (by omega)]
      rw [result, retd, toUintptr, counter, small, Int.toNat_natCast]

/-- READ and WRITE leave the table as it is. -/
theorem onDescriptor_fds (returned : onDescriptor t call bit onFile onFunctions = .ok reply)
    (keeps : ∀ node n reply, onFile node n = .ok reply → reply.state.fds = t.fds) :
    reply.state.fds = t.fds := by
  rcases onDescriptor_cases returned with
    ⟨_, _, rfl⟩ | ⟨_, _, node, n, _, _, _, _, _, _, _, _, went⟩ | ⟨_, fd, _, _, found, present,
      here, target, _⟩
  · rfl
  · exact keeps node n reply went
  · obtain ⟨_, _, isNode⟩ := recorded.found_node found present here
    cases target.symm.trans isNode

/-- Every call keeps the record, to which a successful OPEN is added. -/
theorem step (few : Entry.Granted (t, event) → es.length + 1 < 2 ^ 32) (served : Served t event)
    (taken : Step arch device t event t') :
    if Entry.Granted (t, event) then ∃ p, Recorded (es ++ [(t, event)]) t' (ps ++ [p])
      else Recorded es t' ps := by
  obtain ⟨call, reply⟩ := event
  obtain ⟨returned, rfl⟩ := taken
  simp only [handleSyscall] at returned
  split at returned
  · rename_i number
    have notOpen : ¬ Entry.Granted (t, call, reply) :=
      fun granted => nomatch number.symm.trans granted.1
    rw [if_neg notOpen]
    refine recorded.of_same_fds (recorded.onDescriptor_fds returned ?_)
    intro node n reply read
    obtain rfl := pure_eq_ok.mp read
    rfl
  · rename_i number
    have notOpen : ¬ Entry.Granted (t, call, reply) :=
      fun granted => nomatch number.symm.trans granted.1
    rw [if_neg notOpen]
    refine recorded.of_same_fds (recorded.onDescriptor_fds returned ?_)
    intro node n reply wrote
    obtain ⟨_, _, wrote⟩ := bind_eq_ok.mp wrote
    obtain rfl := pure_eq_ok.mp wrote
    rfl
  · rename_i number
    rcases syscallOpen_cases returned with
      ⟨code, failed, rfl⟩ | ⟨node, fds, fd, resolved, nonnull, created, here, rfl⟩
    · have notGranted : ¬ Entry.Granted (t, call, t.fails code) := fun granted => failed granted.2
      rw [if_neg notGranted]
      exact recorded.of_same_fds rfl
    · obtain ⟨memory, fresh⟩ := served number
      rw [if_pos ⟨number, rfl⟩]
      exact ⟨call.block, recorded.append (few ⟨number, rfl⟩) resolved nonnull memory fresh created
        here rfl⟩
  · rename_i notRead notWrite notOpen
    rw [if_neg fun granted => notOpen granted.1]
    obtain rfl := Except.ok.inj returned
    exact recorded.of_same_fds rfl

end Recorded

/-- The OPENs of a trace. -/
def opens (trace : List Entry) : List Entry := trace.filter Entry.IsOpen

/-- The OPENs of a trace that succeeded. -/
def grantedOpens (trace : List Entry) : List Entry := trace.filter Entry.Granted

theorem length_grantedOpens_le (trace : List Entry) :
    (grantedOpens trace).length ≤ (opens trace).length := by
  refine (List.monotone_filter_right trace ?_).length_le
  intro e granted
  have both : e.Granted := of_decide_eq_true granted
  exact decide_eq_true both.1

theorem filter_snoc (p : Entry → Prop) [DecidablePred p] (trace : List Entry) (e : Entry) :
    (trace ++ [e]).filter (p ·) = trace.filter (p ·) ++ if p e then [e] else [] := by
  rw [List.filter_append]
  by_cases holds : p e
  · simp [holds]
  · simp [holds]

/-- The record of a run from boot. -/
theorem run_recorded (run : Run (Step arch device) s trace t) (start : s.fds = FdTable.boot)
    (served : EveryStep Served trace) (few : (opens trace).length < 2 ^ 32) :
    ∃ ps, Recorded (grantedOpens trace) t ps := by
  induction run with
  | nil => exact ⟨[], recorded_boot start⟩
  | @snoc trace t event u _ taken ih =>
      have longer : (opens (trace ++ [(t, event)])).length =
          (opens trace).length + (if Entry.IsOpen (t, event) then [(t, event)] else []).length := by
        rw [opens, filter_snoc, List.length_append, opens]
      rw [longer] at few
      obtain ⟨ps, recorded⟩ := ih served.init (by omega)
      have room : Entry.Granted (t, event) → (grantedOpens trace).length + 1 < 2 ^ 32 := by
        intro granted
        have fewer := length_grantedOpens_le trace
        rw [if_pos granted.1, List.length_singleton] at few
        omega
      have next := recorded.step room served.final taken
      rw [grantedOpens, filter_snoc]
      by_cases granted : Entry.Granted (t, event)
      · rw [if_pos granted] at next ⊢
        obtain ⟨p, longer⟩ := next
        exact ⟨ps ++ [p], longer⟩
      · rw [if_neg granted] at next ⊢
        rw [List.append_nil]
        exact ⟨ps, next⟩

/-- Writing a file does not loop. -/
theorem fsWrite_returns (fs : FsState) (file : Ptr) (data : List UInt8) (block : Ptr) :
    fsWrite fs file data block ≠ .error .outOfFuel := by
  refine bind_ne_error (deref_returns fs file) fun n _ => ?_
  by_cases notFile : n.type ≠ .file
  · rw [if_pos notFile]
    exact nofun
  · rw [if_neg notFile]
    exact nofun

namespace Recorded

variable (recorded : Recorded es t ps)

include recorded

theorem onDescriptor_returns (call : Call) (bit : UInt16)
    (goes : ∀ node n, onFile node n ≠ .error .outOfFuel) :
    onDescriptor t call bit onFile onFunctions ≠ .error .outOfFuel := by
  obtain ⟨p, found, _⟩ := recorded.numbered.getFdFromId_cases call.rdi
  rw [onDescriptor, found]
  refine bind_ne_error nofun fun q same => ?_
  obtain rfl := Except.ok.inj same
  split
  · exact nofun
  rename_i present
  refine bind_ne_error (fd_deref_returns t.fds p) fun fd here => ?_
  rw [fd_deref_eq_ok] at here
  split
  · exact nofun
  obtain ⟨node, nonnull, target⟩ := recorded.found_node found present here
  simp only [target, if_neg nonnull]
  refine bind_ne_error (deref_returns t.fs node) fun n _ => ?_
  split
  · exact nofun
  split
  · exact nofun
  exact goes node n

/-- No call runs along the list forever. -/
theorem handleSyscall_returns (few : es.length < 2 ^ 32) (memory : call.block ≠ 0)
    (fresh : t.fds.descriptors call.block = none) :
    handleSyscall arch device call t ≠ .error .outOfFuel := by
  rw [handleSyscall]
  split
  · exact recorded.onDescriptor_returns call 2 fun node n => nofun
  · refine recorded.onDescriptor_returns call 2 fun node n => ?_
    exact bind_ne_error (fsWrite_returns _ _ _ _) fun fs _ => nofun
  · refine bind_ne_error (fsResolve_returns _ _ _) fun node _ => ?_
    split
    · exact nofun
    have bound : ps.length + 2 < 2 ^ 64 := by
      have length := recorded.length
      omega
    obtain ⟨fds, created, appended⟩ :=
      createFd_appends recorded.numbered (.path node) call.userId call.processId memory fresh bound
    rw [createNewFsnodeFd, created]
    refine bind_ne_error nofun fun result same => ?_
    obtain rfl := Except.ok.inj same
    simp only [if_neg memory]
    exact bind_ne_error (fd_deref_returns fds call.block) fun fd _ => nofun
  · exact nofun

/-- A call on somebody else's descriptor is refused. -/
theorem foreign_denied {e : Entry} (member : e ∈ es) (few : es.length < 2 ^ 32)
    (access : call.number.toNat = 0 ∨ call.number.toNat = 1)
    (same : call.rdi = UInt64.ofNat e.2.2.result.rax)
    (foreign : call.userId ≠ e.2.1.userId ∨ call.processId ≠ e.2.1.processId) :
    handleSyscall arch device call t = .ok (t.fails .permissionDenied) := by
  obtain ⟨p, fd, found, listed, here, owns⟩ := recorded.finds member few
  obtain ⟨present, _⟩ := LinkedList.Chain.live recorded.numbered.lists listed
  have notOwner : fd.openedByUser ≠ call.userId ∨ fd.openedByProcess ≠ call.processId := by
    rw [owns.user, owns.process]
    exact foreign.imp Ne.symm Ne.symm
  have denied : ∀ bit onFile onFunctions,
      onDescriptor t call bit onFile onFunctions = .ok (t.fails .permissionDenied) := by
    intro bit onFile onFunctions
    rw [onDescriptor, same, found]
    simp only [bind, Except.bind, if_neg present, fd_deref_eq_ok.mpr here, if_pos notOwner]
    rfl
  rw [handleSyscall]
  cases access with
  | inl isRead =>
      rw [isRead]
      exact denied _ _ _
  | inr isWrite =>
      rw [isWrite]
      exact denied _ _ _

end Recorded

/-- Whatever calls have been made since boot, with fewer than 2³² OPENs among them and
    memory for their descriptors: the OPENs that succeeded have different numbers; each
    number finds the descriptor of its OPEN, with the node that the path named then, its
    user and its process; READ and WRITE by another user or process on that number are
    denied; a call that does not return `SYSCALL_OK` changes nothing; and no call, given
    memory, goes on forever. -/
theorem descriptors_isolated (run : Run (Step arch device) s trace t) (start : s.fds = FdTable.boot)
    (served : EveryStep Served trace) (few : (opens trace).length < 2 ^ 32) :
    ((grantedOpens trace).map fun e => e.2.2.result.rax).Nodup ∧
    (∀ e ∈ grantedOpens trace, ∃ p fd, getFdFromId t.fds (UInt64.ofNat e.2.2.result.rax) = .ok p ∧
      t.fds.descriptors p = some fd ∧ e.Owns fd) ∧
    (∀ e ∈ grantedOpens trace, ∀ call : Call, call.number.toNat = 0 ∨ call.number.toNat = 1 →
      call.rdi = UInt64.ofNat e.2.2.result.rax → call.userId ≠ e.2.1.userId ∨
      call.processId ≠ e.2.1.processId →
      handleSyscall arch device call t = .ok (t.fails .permissionDenied)) ∧
    (∀ call reply, handleSyscall arch device call t = .ok reply → reply.result.errs ≠ .ok →
    reply.state = t) ∧ ∀ call : Call, call.block ≠ 0 → t.fds.descriptors call.block = none →
      handleSyscall arch device call t ≠ .error .outOfFuel := by
  obtain ⟨ps, recorded⟩ := run_recorded run start served few
  have fewer := (length_grantedOpens_le trace).trans_lt few
  refine ⟨?_, ?_, ?_, ?_, ?_⟩
  · rw [recorded.numbers]
    exact List.nodup_range'
  · intro e member
    obtain ⟨p, fd, found, _, here, owns⟩ := recorded.finds member fewer
    exact ⟨p, fd, found, here, owns⟩
  · intro e member call access same foreign
    exact recorded.foreign_denied member fewer access same foreign
  · intro call reply returned failed
    exact failure_changes_nothing returned failed
  · intro call memory fresh
    exact recorded.handleSyscall_returns fewer memory fresh

/-- No functions to call. -/
def noDevice : Device := fun _ _ _ _ => .error .invalidAccess

/-- The kernel before the first OPEN. -/
def homeKernel : KernelState := ⟨homeState, FdTable.boot⟩

/-- OPEN of `/home/notes` by process 7 of user 1001. -/
def openNotes : Call where
  number := 2
  rdi := 0
  rsi := 0
  rdx := 0
  userId := 1001
  processId := 7
  memory := ⟨fun _ => [47, 104, 111, 109, 101, 47, 110, 111, 116, 101, 115], fun _ => 65⟩
  block := 10

/-- It succeeds with number 1, and process 7 of another user cannot use that number. -/
theorem descriptors_isolated_home :
    ∃ reply, handleSyscall .x86 noDevice openNotes homeKernel = .ok reply ∧ reply.result = retd 1 ∧
      (∃ p fd, getFdFromId reply.state.fds 1 = .ok p ∧ reply.state.fds.descriptors p = some fd ∧
        fd.target = .path 3 ∧ fd.openedByUser = 1001) ∧
      ∀ call : Call, call.number.toNat = 0 → call.rdi = 1 → call.userId = 1002 →
      call.processId = 7 →
        handleSyscall .x86 noDevice call reply.state =
        .ok (reply.state.fails .permissionDenied) := by
  have returned : ∃ fds, handleSyscall .x86 noDevice openNotes homeKernel =
      .ok ⟨retd 1, [], ⟨homeState, fds⟩⟩ :=
    ⟨_, rfl⟩
  obtain ⟨fds, returned⟩ := returned
  refine ⟨_, returned, rfl, ?_⟩
  have served : EveryStep Served
      [(homeKernel, openNotes, (⟨retd 1, [], ⟨homeState, fds⟩⟩ : Reply))] := by
    intro entry member
    obtain rfl := List.mem_singleton.mp member
    exact fun _ => ⟨Nat.succ_ne_zero 9, rfl⟩
  have few : (opens [(homeKernel, openNotes, (⟨retd 1, [], ⟨homeState, fds⟩⟩ : Reply))]).length <
      2 ^ 32 :=
    (List.length_filter_le _ _).trans_lt (by rw [List.length_singleton]; decide)
  obtain ⟨_, found, denied, _, _⟩ :=
    descriptors_isolated (Run.single ⟨returned, rfl⟩) rfl served few
  have granted : (homeKernel, openNotes, (⟨retd 1, [], ⟨homeState, fds⟩⟩ : Reply)) ∈
      grantedOpens [(homeKernel, openNotes, ⟨retd 1, [], ⟨homeState, fds⟩⟩)] :=
    List.mem_filter.mpr ⟨List.mem_singleton.mpr rfl, rfl⟩
  obtain ⟨p, fd, number, here, owns⟩ := found _ granted
  obtain ⟨node, resolved, _, target⟩ := owns.node
  obtain rfl : 3 = node := Except.ok.inj resolved
  refine ⟨⟨p, fd, number, here, target, owns.user⟩, ?_⟩
  intro call isRead same user process
  refine denied _ granted call (.inl isRead) same (.inl ?_)
  have other : (1002 : UInt64) ≠ 1001 := by decide
  rw [user]
  exact other

end AurorOS.Exec
