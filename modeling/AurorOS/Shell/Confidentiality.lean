import AurorOS.Fs.Hidden
import AurorOS.Shell.Sessions

/-! # Read permissions

Two sessions with the same commands and keys, on file systems that differ in the data
of a file only, look the same to a user who neither owns the file nor may read it.
Root is an exception, who may give itself the permission, and so is `hexedit` of that
very file, which it shows to whoever may write it.
-/

namespace AurorOS.Shell

open Fs Devices Apps Program Outcome

/-- The machines differ in the data of the file, hidden from the user. -/
structure LookAlike (user : UInt64) (file : Ptr) (m m' : Machine) : Prop where
  console : m'.console = m.console
  blocks : m'.blocks = m.blocks
  fs : DifferHidden user file m.fs m'.fs

/-- They look alike, and the file systems, which paths do not tell apart, have the
    property. -/
def Known (user : UInt64) (file : Ptr) (known : FsState → Prop) (m m' : Machine) : Prop :=
  LookAlike user file m m' ∧ known m.fs

/-- What is left of looking alike when a program stops. -/
def SameScreen (m m' : Machine) : Prop := m'.console.screen = m.console.screen

variable {α β : Type} {user userId : UInt64} {known : FsState → Prop} {m m' : Machine}
  {file p cur : Ptr} {n : FsNode}

/-- Run side by side from what is known, the program returns the same, and the machines
    still look alike. -/
def Hides (user : UInt64) (file : Ptr) (known : FsState → Prop) (x : Kernel α) : Prop :=
  Lockstep (Known user file known) x x (fun _ => LookAlike user file) SameScreen

/-- The file system stays as well, and more is known about it behind the program. -/
def Reads (user : UInt64) (file : Ptr) (known : FsState → Prop) (x : Kernel α)
    (learnt : α → FsState → Prop) :
    Prop :=
  Lockstep (Known user file known) x x (fun a => Known user file (learnt a)) SameScreen

theorem LookAlike.sameScreen (alike : LookAlike user file m m') : SameScreen m m' :=
  congrArg Console.screen alike.console

theorem Reads.then {x : Kernel α} {f : α → Kernel β} {learnt : α → FsState → Prop}
    (first : Reads user file known x learnt) (rest : ∀ a, Hides user file (learnt a) (f a)) :
    Hides user file known (x >>= f) :=
  Lockstep.bind first rest

theorem Reads.hides {x : Kernel α} {learnt : α → FsState → Prop}
    (reads : Reads user file known x learnt) :
    Hides user file known x :=
  reads.weaken (fun _ _ related => related) fun _ _ _ related => related.1

theorem Hides.then {x : Kernel α} {f : α → Kernel β} (first : Hides user file known x)
    (rest : ∀ a, Hides user file (fun _ => True) (f a)) : Hides user file known (x >>= f) :=
  Lockstep.bind first fun a => (rest a).weaken (fun _ _ alike => ⟨alike, trivial⟩)
    fun _ _ _ related => related

theorem Hides.ite {c : Prop} [Decidable c] {x y : Kernel α} (yes : c → Hides user file known x)
    (no : ¬ c → Hides user file known y) :
    Hides user file known (if c then x else y) :=
  Lockstep.ite yes no

theorem hides_pure (a : α) : Hides user file known (pure a : Kernel α) :=
  lockstep_pure fun _ _ related => related.1

theorem hides_stop (e : Stop) : Hides user file known (stop e : Kernel α) :=
  lockstep_stop fun _ _ related => related.1.sameScreen

theorem reads_onConsole (x : Program Console Stop α) :
    Reads user file known (onConsole x) fun _ => known := by
  refine .zoom (fun s t related => related.1.console.symm) ?_ fun s t u _ => rfl
  intro a s t u related
  exact ⟨⟨rfl, related.1.blocks, related.1.fs⟩, related.2⟩

theorem reads_onScreen (f : Screen → Screen) : Reads user file known (onScreen f) fun _ => known :=
  reads_onConsole _

/-- Looking at the file system, at what is the same in both. -/
theorem reads_ofFs {f : FsState → Except Fault α}
    (same : ∀ s t, DifferHidden user file s t → known s → f t = f s) :
    Reads user file known (ofFs f) fun a s => known s ∧ f s = .ok a := by
  intro m m' related
  have equal := same m.fs m'.fs related.1.fs related.2
  cases value : f m.fs with
  | error e =>
      refine .inr ⟨.fault e, m, m', ?_, ?_, related.1.sameScreen⟩
      · rw [ofFs, value]
      · rw [ofFs, equal, value]
  | ok a =>
      refine .inl ⟨a, m, m', ?_, ?_, related.1, related.2, value⟩
      · rw [ofFs, value]
      · rw [ofFs, equal, value]

theorem reads_resolve (path : CStr) (cur : Ptr) :
    Reads user file known (resolve path cur) fun p s => known s ∧ fsResolve s path cur = .ok p :=
  reads_ofFs fun _ _ differ _ => differ.fsResolve_eq path cur

theorem reads_deref (p : Ptr) :
    Reads user file known (deref p) fun n s => known s ∧ s.nodes p = some n := by
  have reads : Reads user file known (deref p) fun n s => known s ∧ s.deref p = .ok n :=
    reads_ofFs fun _ _ differ _ => differ.deref_eq p
  exact reads.weaken (fun _ _ related => related) fun n _ _ related =>
    ⟨related.1, related.2.1, Fs.deref_eq_ok.mp related.2.2⟩

/-- The data of another file, or of one that is not hidden. -/
theorem reads_fileData (present : ∀ s, known s → s.nodes p = some n) (isFile : n.type = .file)
    (seen : ¬ (p = file ∧ Hidden user n)) :
    Reads user file known (ofFs (fileData · n)) fun _ => known := by
  have reads : Reads user file known (ofFs (fileData · n)) fun bytes s => known s ∧
      fileData s n = .ok bytes := by
    refine reads_ofFs fun s t differ holds => ?_
    rw [fileData, fileData]
    split
    · rfl
    · rename_i hasSize
      rw [differ.bufs_eq (present s holds) isFile hasSize seen]
  exact reads.weaken (fun _ _ related => related) fun _ _ _ related => ⟨related.1, related.2.1⟩

theorem hides_onFs {f : FsState → Except Fault (α × FsState)}
    (alike : ∀ s t, DifferHidden user file s t → known s →
      Alike (fun a b => a.1 = b.1 ∧ DifferHidden user file a.2 b.2) (f s) (f t)) :
    Hides user file known (onFs f) := by
  intro m m' related
  have both := alike m.fs m'.fs related.1.fs related.2
  generalize left : f m.fs = x at both
  generalize right : f m'.fs = y at both
  cases both with
  | error e =>
      refine .inr ⟨.fault e, m, m', ?_, ?_, related.1.sameScreen⟩
      · rw [onFs, left]
      · rw [onFs, right]
  | @ok result result' changed =>
      obtain ⟨a, s⟩ := result
      obtain ⟨a', t⟩ := result'
      obtain ⟨rfl, differ⟩ := changed
      refine .inl ⟨a, { m with fs := s }, { m' with fs := t }, ?_, ?_, related.1.console,
        related.1.blocks, differ⟩
      · rw [onFs, left]
      · rw [onFs, right]

theorem hides_onFs' {f : FsState → Except Fault FsState}
    (alike : ∀ s t, DifferHidden user file s t → known s →
    Alike (DifferHidden user file) (f s) (f t)) :
    Hides user file known (onFs' f) :=
  hides_onFs fun s t differ holds => (alike s t differ holds).bind fun _ _ changed =>
    alike_pure ⟨rfl, changed⟩

/-- `malloc` finds the same blocks free in both. -/
theorem reads_mallocAfter {after : FsState → FsState} (size : Nat)
    (alike : ∀ s t, DifferHidden user file s t → DifferHidden user file (after s) (after t)) :
    Reads user file known (mallocAfter after size) fun _ => known := by
  intro m m' related
  obtain ⟨⟨console, blocks, fs⟩, holds⟩ := related
  have fresh (block : Ptr) : Fresh (after m'.fs) block ↔ Fresh (after m.fs) block := by
    have differ := alike m.fs m'.fs fs
    constructor
    · rintro ⟨nonnull, noNode, noBuf⟩
      exact ⟨nonnull, differ.nodes ▸ noNode, (differ.bufs_none block).mp noBuf⟩
    · rintro ⟨nonnull, noNode, noBuf⟩
      exact ⟨nonnull, differ.nodes.symm ▸ noNode, (differ.bufs_none block).mpr noBuf⟩
  rw [mallocAfter, mallocAfter]
  by_cases empty : size = 0
  · rw [if_pos empty, if_pos empty]
    exact .inl ⟨0, m, m', rfl, rfl, ⟨console, blocks, fs⟩, holds⟩
  rw [if_neg empty, if_neg empty]
  dsimp only
  rw [blocks]
  by_cases serves : m.blocks.headD 0 = 0 ∨ Fresh (after m.fs) (m.blocks.headD 0)
  · rw [if_pos serves, if_pos (serves.imp_right (fresh _).mpr)]
    exact .inl ⟨_, _, _, rfl, rfl, ⟨console, rfl, fs⟩, holds⟩
  · rw [if_neg serves, if_neg fun other => serves (other.imp_right (fresh _).mp)]
    exact .inr ⟨_, m, m', rfl, rfl, congrArg Console.screen console⟩

theorem reads_malloc (size : Nat) : Reads user file known (malloc size) fun _ => known :=
  reads_mallocAfter size fun _ _ differ => differ

theorem hides_fsCreateNode (type : NodeType) (name : CStr) (parent : Ptr) (owner : UInt64) :
    Hides user file known (fsCreateNode type name parent owner) := by
  refine (reads_malloc 1).then fun block => .ite (fun _ => hides_stop _) fun _ => ?_
  exact hides_onFs fun s t differ _ => differ.createNode type block name parent owner

theorem hides_fsWrite (p : Ptr) (data : List UInt8) : Hides user file known (fsWrite p data) := by
  refine (reads_deref p).then fun n => .ite (fun _ => hides_pure _) fun _ => ?_
  refine (reads_mallocAfter _ fun _ _ differ => differ.releaseData n).then fun block => ?_
  exact .ite (fun _ => hides_stop _) fun _ => hides_onFs' fun s t differ _ =>
    differ.emulatedFsWrite p data block

theorem hides_onScreen (f : Screen → Screen) : Hides user file known (onScreen f) :=
  (reads_onScreen f).hides

theorem reads_prompt (name : CStr) (cur : Ptr) :
    Reads user file known (prompt name cur) fun _ => known := by
  have directory : Reads user file known (ofFs (shcPwd · cur)) fun path s => known s ∧
      shcPwd s cur = .ok path :=
    reads_ofFs fun _ _ differ _ => differ.shcPwd_eq cur
  exact Lockstep.bind directory fun path =>
    (reads_onScreen _).weaken (fun _ _ related => ⟨related.1, related.2.1⟩) fun _ _ _ related =>
      related

theorem reads_readLine (name : CStr) (cur : Ptr) :
    Reads user file known (readLine name cur) fun _ => known :=
  Lockstep.bind (reads_prompt name cur) fun _ => Lockstep.bind (reads_onConsole _) fun _ =>
    lockstep_pure fun _ _ related => related

theorem hides_lsLoop (d : FsNode) (left i : Nat) : Hides user file known (lsLoop d left i) := by
  induction left generalizing i known with
  | zero => exact hides_pure _
  | succ left ih =>
      refine (reads_ofFs fun _ _ _ _ => rfl).then fun child => .ite (fun _ => ?_) fun _ =>
        ih (i + 1)
      refine (reads_deref child).then fun c => ?_
      exact (reads_onScreen _).then fun _ => (reads_onScreen _).then fun _ => ih (i + 1)

theorem hides_shcLs (dir : Ptr) : Hides user file known (shcLs dir) := by
  refine .ite (fun _ => hides_pure _) fun _ => (reads_deref dir).then fun d => ?_
  exact (hides_lsLoop d _ _).then fun _ => hides_onScreen _

theorem hides_shcCd (cur : Ptr) (operand : Option CStr) :
    Hides user file known (shcCd cur operand user) := by
  refine .ite (fun _ => (reads_onScreen _).then fun _ => hides_pure _) fun _ =>
    (reads_resolve _ _).then fun target => ?_
  refine .ite (fun _ => (reads_onScreen _).then fun _ => hides_pure _) fun _ => (reads_deref _).then
    fun n => ?_
  refine .ite (fun _ => (reads_onScreen _).then fun _ => hides_pure _) fun _ => ?_
  exact .ite (fun _ => (reads_onScreen _).then fun _ => hides_pure _) fun _ => hides_pure _

theorem hides_shcCat (cur : Ptr) (operand : Option CStr) :
    Hides user file known (shcCat cur operand user) := by
  refine .ite (fun _ => hides_onScreen _) fun _ => (reads_resolve _ _).then fun target => ?_
  refine .ite (fun _ => hides_onScreen _) fun _ => (reads_deref _).then fun n => ?_
  refine .ite (fun _ => hides_onScreen _) fun isFile => .ite (fun _ => hides_onScreen _)
    fun readable => ?_
  refine (reads_fileData (fun s holds => holds.2) (not_not.mp isFile) fun both =>
    readable both.2.2).then fun data => ?_
  exact hides_onScreen _

theorem mkdirParent_eq {s t : FsState} (differ : DifferHidden user file s t) (cur : Ptr)
    (path : CStr) :
    mkdirParent t cur path = mkdirParent s cur path := by
  simp only [mkdirParent, differ.fsResolve_eq, differ.deref_eq]

theorem hides_shcMkdir (cur : Ptr) (operand : Option CStr) :
    Hides user file known (shcMkdir cur operand user) := by
  refine .ite (fun _ => hides_onScreen _) fun _ => .ite (fun _ => hides_onScreen _) fun _ => ?_
  refine (reads_resolve _ _).then fun existing => .ite (fun _ => hides_onScreen _) fun _ => ?_
  refine (reads_ofFs fun _ _ differ _ => mkdirParent_eq differ cur _).then fun parent => ?_
  refine .ite (fun _ => hides_onScreen _) fun _ => (hides_fsCreateNode _ _ _ _).then
    fun newDir => ?_
  exact hides_onFs' fun s t differ _ => differ.emulatedFsAddChild parent newDir

theorem hides_shcRm (fuel : Nat) (cur : Ptr) (operand : Option CStr) :
    Hides user file known (shcRm fuel cur operand) := by
  rw [shcRm]
  refine .ite (fun _ => hides_onScreen _) fun _ => (reads_resolve _ _).then fun node => ?_
  refine .ite (fun _ => hides_onScreen _) fun _ => (reads_deref _).then fun n => ?_
  have removal (answer : Bool) (known : FsState → Prop) : Hides user file known
      (if answer = false then printInfo "Omitting directory"
        else if n.parent = 0 then printError "Cannot remove root directory '/'"
        else do
          onFs' (fsRemoveChild · n.parent node)
          onFs' (fsDelete fuel · node)) := by
    refine .ite (fun _ => hides_onScreen _) fun _ => .ite (fun _ => hides_onScreen _) fun _ => ?_
    refine (hides_onFs' fun s t differ _ => differ.fsRemoveChild n.parent node).then fun _ => ?_
    exact hides_onFs' fun s t differ _ => (fsDelete_differ fuel).1 s t node differ
  refine .ite (fun _ => ?_) fun _ => removal true _
  exact (reads_onConsole _).then fun answer => removal answer _

/-- `chmod` changes files that are the user's own only, which are not hidden. -/
theorem hides_shcChmod (notRoot : user ≠ 0) (cur : Ptr) (permArg operand : Option CStr) :
    Hides user file known (shcChmod cur user permArg operand) := by
  cases permArg with
  | none => exact hides_onScreen _
  | some mode =>
      cases operand with
      | none => exact hides_onScreen _
      | some path =>
          refine (reads_resolve _ _).then fun target => .ite (fun _ => hides_onScreen _) fun _ => ?_
          refine (reads_deref _).then fun n => .ite (fun _ => hides_onScreen _) fun allowed => ?_
          refine Hides.then (hides_onFs' fun s t differ holds => ?_) fun _ => hides_onScreen _
          have owns : n.owner = user := by
            by_contra other
            exact allowed ⟨other, notRoot⟩
          exact .ok (differ.setNode_of holds.2 rfl rfl rfl fun hidden => absurd owns hidden.1)

theorem hides_hexeditSave (p : Ptr) (n : FsNode) (text : CStr) :
    Hides user file known (hexeditSave p n text) :=
  (reads_malloc _).then fun _ => .ite (fun _ => hides_pure _) fun _ => hides_fsWrite _ _

theorem hides_hexeditFile (p : Ptr) (present : ∀ s, known s → s.nodes p = some n)
    (isFile : n.type = .file) (seen : ¬ (p = file ∧ Hidden user n)) :
    Hides user file known (hexeditFile p n) := by
  refine (reads_malloc _).then fun hexdump => (reads_malloc _).then fun modified => ?_
  refine .ite (fun _ => hides_onScreen _) fun _ => (reads_fileData present isFile seen).then
    fun data => ?_
  refine (reads_onConsole _).then fun line => (hides_hexeditSave p n _).then fun _ =>
    hides_onScreen _

/-- `hexedit` would show the file, which is hidden, but the user may write it. -/
def ShowsHidden (user : UInt64) (file cur : Ptr) (s : FsState) : Command → Prop
  | .hexedit (some path) => ∃ n, fsResolve s path cur = .ok file ∧ s.nodes file = some n ∧
      Writable user n ∧
      Hidden user n
  | _ => False

theorem hides_hexeditMain (cur : Ptr) (operand : Option CStr)
    (shows : ∀ s, known s → ¬ ShowsHidden user file cur s (.hexedit operand)) :
    Hides user file known (hexeditMain user operand cur) := by
  cases operand with
  | none => exact hides_stop _
  | some path =>
      refine (reads_resolve path cur).then fun p => .ite (fun _ => hides_onScreen _) fun _ => ?_
      refine (reads_deref p).then fun n => .ite (fun _ => hides_onScreen _) fun notDir => ?_
      refine .ite (fun _ => hides_onScreen _) fun writable => ?_
      have isFile : n.type = .file := by
        cases kind : n.type with
        | file => rfl
        | dir => exact absurd kind notDir
      by_cases shown : p = file ∧ Hidden user n
      · obtain ⟨rfl, hidden⟩ := shown
        intro m m' related
        obtain ⟨_, ⟨holds, found⟩, present⟩ := related
        exact absurd ⟨n, found, present, not_not.mp writable, hidden⟩ (shows m.fs holds)
      · exact hides_hexeditFile p (fun _ holds => holds.2) isFile shown

theorem hides_runCommand (notRoot : user ≠ 0) (fuel : Nat) (cur : Ptr) (c : Command)
    (other : c ≠ .tinypad) (shows : ∀ s, known s → ¬ ShowsHidden user file cur s c) :
    Hides user file known (runCommand fuel user cur c) := by
  cases c with
  | cat path => exact (hides_shcCat cur path).then fun _ => hides_pure _
  | cd path => exact hides_shcCd cur path
  | ls => exact (hides_shcLs cur).then fun _ => hides_pure _
  | mkdir path => exact (hides_shcMkdir cur path).then fun _ => hides_pure _
  | rm path => exact (hides_shcRm fuel cur path).then fun _ => hides_pure _
  | chmod permArg path =>
      rw [runCommand]
      refine .ite (fun _ => (reads_onScreen _).then fun _ => hides_pure _) fun _ => ?_
      exact (hides_shcChmod notRoot cur permArg path).then fun _ => hides_pure _
  | hexedit filename => exact (hides_hexeditMain cur filename shows).then fun _ => hides_pure _
  | tinypad => exact absurd rfl other

theorem hides_round (notRoot : user ≠ 0) (fuel : Nat) (name : CStr) (cur : Ptr) (c : Command)
    (other : c ≠ .tinypad) (shows : ∀ s, known s → ¬ ShowsHidden user file cur s c) :
    Hides user file known (round fuel name user cur c) :=
  (reads_readLine name cur).then fun _ => hides_runCommand notRoot fuel cur c other shows

/-- The rounds of `shell_main` for a list of commands. -/
def runSession (fuel : Nat) (name : CStr) (user : UInt64) : List Command → Ptr → Kernel Ptr
  | [], cur => pure cur
  | c :: rest, cur => do
      let cur ← round fuel name user cur c
      runSession fuel name user rest cur

/-- Every command meets the condition in the session in which it is typed. -/
def EveryRound (fuel : Nat) (name : CStr) (user : UInt64) (C : Session → Command → Prop) :
    List Command → Session → Prop
  | [], _ => True
  | c :: rest, s => C s c ∧
      ∀ t : Session, round fuel name user s.currentDir c s.machine = (.ok t.currentDir, t.machine) →
        EveryRound fuel name user C rest t

/-- The command neither shows the hidden file in `hexedit` nor removes what `free` stumbles
    over. -/
structure Discreet (arch : Arch) (name : CStr) (user : UInt64) (file : Ptr) (s : Session)
    (c : Command) : Prop where
  shows : ¬ ShowsHidden user file s.currentDir s.machine.fs c
  safely : RemovesSafely arch name user s c

theorem EveryRound.mono {fuel : Nat} {name : CStr} {C D : Session → Command → Prop}
    {commands : List Command} {s : Session} (every : EveryRound fuel name user C commands s)
    (weaker : ∀ s c, C s c → D s c) :
    EveryRound fuel name user D commands s := by
  induction commands generalizing s with
  | nil => trivial
  | cons c rest ih => exact ⟨weaker s c every.1, fun t ran => ih (every.2 t ran)⟩

theorem LookAlike.runSession (notRoot : user ≠ 0) (fuel : Nat) (name : CStr)
    {commands : List Command} (others : Command.tinypad ∉ commands)
    (alike : LookAlike user file m m')
    (never : EveryRound fuel name user
      (fun s c => ¬ ShowsHidden user file s.currentDir s.machine.fs c) commands ⟨m, cur⟩) :
    SameScreen (runSession fuel name user commands cur m).2
      (runSession fuel name user commands cur m').2 := by
  induction commands generalizing m m' cur with
  | nil => exact alike.sameScreen
  | cons c rest ih =>
      obtain ⟨shows, later⟩ := never
      have other : c ≠ .tinypad := fun same => others (same ▸ List.mem_cons_self)
      have hides : Hides user file (fun s => ¬ ShowsHidden user file cur s c)
          (round fuel name user cur c) :=
        hides_round notRoot fuel name cur c other fun _ holds => holds
      rw [Shell.runSession]
      rcases hides m m' ⟨alike, shows⟩ with
        ⟨next, s, t, left, right, post⟩ | ⟨e, s, t, left, right, stopped⟩
      · rw [bind_of_ok left, bind_of_ok right]
        exact ih (fun member => others (List.mem_cons_of_mem c member)) post (later ⟨s, next⟩ left)
      · rw [bind_of_error left, bind_of_error right]
        exact stopped

/-- The machine with other bytes at an address. -/
def Machine.withData (m : Machine) (q : Ptr) (bytes : List UInt8) : Machine :=
  { m with fs := { m.fs with bufs := Function.update m.fs.bufs q (some bytes) } }

theorem bufs_withData_self (q : Ptr) (bytes : List UInt8) :
    (m.withData q bytes).fs.bufs q = some bytes :=
  Function.update_self ..

theorem bufs_withData_of_ne {a q : Ptr} (bytes : List UInt8) (other : a ≠ q) :
    (m.withData q bytes).fs.bufs a = m.fs.bufs a :=
  Function.update_of_ne other _ _

/-- Other bytes in a hidden file, as many as before. -/
theorem lookAlike_withData {bytes bytes' : List UInt8} (files : FilesOk m.fs)
    (present : m.fs.nodes file = some n) (isFile : n.type = .file) (hidden : Hidden user n)
    (stored : m.fs.bufs n.data = some bytes) (sameLength : bytes'.length = bytes.length) :
    LookAlike user file m (m.withData n.data bytes') := by
  refine ⟨rfl, rfl, rfl, rfl, rfl, ?_, ?_⟩
  · intro q
    by_cases same : q = n.data
    · subst same
      rw [stored, bufs_withData_self, Option.map_some, Option.map_some, sameLength]
    · rw [bufs_withData_of_ne _ same]
  · intro x n' present' isFile' hasSize other
    by_cases same : n'.data = n.data
    · obtain rfl := files.apart x file n' n present' present isFile' isFile hasSize same
      obtain rfl := Option.some.inj (present.symm.trans present')
      exact ⟨rfl, hidden⟩
    · exact absurd (bufs_withData_of_ne _ same) other

/-- Whatever a user other than root does, with any keys, without the editor and without
    showing the file in `hexedit`: the bytes of a hidden file make no difference to the
    screen. -/
theorem contents_hidden {bytes bytes' : List UInt8} {commands : List Command} (arch : Arch)
    (notRoot : user ≠ 0) (fuel : Nat) (name : CStr) (files : FilesOk m.fs)
    (present : m.fs.nodes file = some n) (isFile : n.type = .file) (hidden : Hidden user n)
    (stored : m.fs.bufs n.data = some bytes) (sameLength : bytes'.length = bytes.length)
    (others : Command.tinypad ∉ commands)
    (discreet : EveryRound fuel name user (Discreet arch name user file) commands ⟨m, cur⟩) :
    SameScreen (runSession fuel name user commands cur m).2
      (runSession fuel name user commands cur (m.withData n.data bytes')).2 :=
  (lookAlike_withData files present isFile hidden stored sameLength).runSession notRoot fuel
    name others
    (discreet.mono fun _ _ meets => meets.shows)

/-- A file of user 7 with one byte, which everybody else may write only. -/
def secretFile (name : String) (data : Ptr) : FsNode :=
  { leafNode .file (cstr name) 7 1 with permissions := 0o702, data := data, size := 1 }

/-- In the root are two of them. -/
def secretState : FsState where
  nodes
    | 1 => some { leafNode .dir [] 0 0 with children := fun i => i + 2, childCount := 2 }
    | 2 => some (secretFile "f" 8)
    | 3 => some (secretFile "g" 9)
    | _ => none
  bufs
    | 8 => some [65]
    | 9 => some [67]
    | _ => none
  fsRoot := 1
  freed := []

/-- A shell in front of it on which these lines are typed. -/
def secretMachine (lines : List String) : Machine where
  fs := secretState
  console := ⟨⟨fun _ => 0, 0⟩, ⟨false, false, fun _ => false⟩, lines.flatMap typed⟩
  blocks := [20, 30, 40, 50]

theorem secretState_filesOk : FilesOk secretState := by
  have only : ∀ x n, secretState.nodes x = some n → n.type = .file →
      x = 2 ∧ n = secretFile "f" 8 ∨ x = 3 ∧ n = secretFile "g" 9 := by
    intro x n present isFile
    match x, present with
    | 1, present => cases (Option.some.inj present) ▸ isFile
    | 2, present => exact .inl ⟨rfl, (Option.some.inj present).symm⟩
    | 3, present => exact .inr ⟨rfl, (Option.some.inj present).symm⟩
  refine ⟨?_, ?_, ?_⟩
  · intro x n present isFile
    rcases only x n present isFile with ⟨_, rfl⟩ | ⟨_, rfl⟩ <;> decide
  · intro x n present isFile _
    rcases only x n present isFile with ⟨_, rfl⟩ | ⟨_, rfl⟩
    · exact ⟨[65], rfl, rfl⟩
    · exact ⟨[67], rfl, rfl⟩
  · intro x y m n presentX presentY fileX fileY _ shared
    rcases only x m presentX fileX with ⟨rfl, rfl⟩ | ⟨rfl, rfl⟩ <;>
      rcases only y n presentY fileY with ⟨rfl, rfl⟩ | ⟨rfl, rfl⟩
    · rfl
    · exact absurd shared (by decide)
    · exact absurd shared (by decide)
    · rfl

/-- User 1001 sees `g` in `hexedit`, but gets no more than a message for `f`, the same for
    every byte in it. -/
theorem contents_hidden_message :
    SameScreen
      (runSession 0 (cstr "liveuser") 1001 [.hexedit (some (cstr "g")), .cat (some (cstr "f"))] 1
        (secretMachine ["hexedit g", "", "cat f"])).2
      (runSession 0 (cstr "liveuser") 1001 [.hexedit (some (cstr "g")), .cat (some (cstr "f"))] 1
        ((secretMachine ["hexedit g", "", "cat f"]).withData 8 [66])).2 := by
  have present : (secretMachine ["hexedit g", "", "cat f"]).fs.nodes 2 = some (secretFile "f" 8) :=
    rfl
  have elsewhere : fsResolve secretState (cstr "g") 1 = .ok 3 := by decide +kernel
  refine contents_hidden .x86_64 (by decide) 0 _ secretState_filesOk present rfl (by decide) rfl rfl
    (by decide)
    ⟨⟨?_, ?_⟩, fun t _ => ⟨⟨not_false, ?_⟩, fun _ _ => trivial⟩⟩
  · rintro ⟨n, found, _⟩
    exact absurd (Except.ok.inj (found.symm.trans elsewhere)) (by decide)
  · exact removesSafely_other fun _ => Command.noConfusion
  · exact removesSafely_other fun _ => Command.noConfusion

/-- The bytes of a hidden file make no difference to what the user sees. -/
def ContentsHidden (user : UInt64) : Prop :=
  ∀ (fuel : Nat) (name : CStr) (m : Machine) (cur file : Ptr) (n : FsNode)
    (bytes bytes' : List UInt8)
    (commands : List Command), FilesOk m.fs → m.fs.nodes file = some n → n.type = .file →
      Hidden user n →
    m.fs.bufs n.data = some bytes → bytes'.length = bytes.length → Command.tinypad ∉ commands →
    SameScreen (runSession fuel name user commands cur m).2
      (runSession fuel name user commands cur (m.withData n.data bytes')).2

/-- They do to root, who can change the permissions before `cat`, and to a user who may
    write the file, to whom `hexedit` shows it. -/
theorem contents_not_hidden : ¬ ContentsHidden 0 ∧ ¬ ContentsHidden 1001 := by
  refine ⟨?_, ?_⟩
  · intro hidden
    have same := hidden 0 (cstr "root") (secretMachine ["chmod 777 f", "cat f"]) 1 2
      (secretFile "f" 8) [65] [66]
      [.chmod (some (cstr "777")) (some (cstr "f")), .cat (some (cstr "f"))] secretState_filesOk
        rfl rfl
        (by decide) rfl rfl
      (by decide)
    have cell := congrArg (fun screen => screen.videoMemory 240) same
    revert cell
    decide +kernel
  · intro hidden
    have same := hidden 0 (cstr "liveuser") (secretMachine ["hexedit f"]) 1 2
      (secretFile "f" 8) [65] [66]
      [.hexedit (some (cstr "f"))] secretState_filesOk rfl rfl (by decide) rfl rfl (by decide)
    have cell := congrArg (fun screen => screen.videoMemory 81) same
    revert cell
    decide +kernel

end AurorOS.Shell
