import AurorOS.Lib.Runs
import AurorOS.Shell.Effects

/-! # Sessions

A session of one user is a run of rounds of the shell: the prompt, the line that is
typed, and then a command.  The file system stays in order, and the current directory is in its
tree, `NULL`, or has just been removed; in that case the next prompt reads freed memory.
-/

namespace AurorOS.Shell

open Fs Devices Apps Program Runs

/-- A shell before the prompt. -/
structure Session where
  machine : Machine
  currentDir : Ptr

/-- The prompt of a round of `shell_main` and the line behind it. -/
def readLine (user : CStr) (currentDir : Ptr) : Kernel CStr := do
  prompt user currentDir
  return cString (← readStr (freshArray 128) 128 false 0x07 [])

/-- A round of `shell_main` in which the line is taken for the command. -/
def round (fuel : Nat) (user : CStr) (userId : UInt64) (currentDir : Ptr) (c : Command) :
    Kernel Ptr := do
  let _ ← readLine user currentDir
  runCommand fuel userId currentDir c

/-- A round that returns. -/
def Step (user : CStr) (userId : UInt64) (s : Session) (c : Command) (t : Session) : Prop :=
  ∃ fuel, round fuel user userId s.currentDir c s.machine = (.ok t.currentDir, t.machine)

/-- The machine as a command finds it, behind the line. -/
def Session.prompted (user : CStr) (s : Session) : Machine :=
  (readLine user s.currentDir s.machine).2

/-- If the command is an `rm` that is carried through, no directory that it removes has an
    owner that `free` takes for a link. -/
def RemovesSafely (arch : Arch) (user : CStr) (userId : UInt64) (s : Session)
    (c : Command) : Prop :=
  ∀ p, Causes (s.prompted user) userId s.currentDir c (.remove p) → NoStrayLink arch s.machine.fs p

/-- The file system is in order, and the current directory is a place in it, `NULL` or
    gone. -/
structure SessionOk (s : Session) : Prop where
  tree : WellFormed s.machine.fs
  nothing : s.machine.fs.nodes 0 = none
  files : FilesOk s.machine.fs
  place : s.currentDir = 0 ∨ s.machine.fs.InTree s.currentDir ∨
    s.machine.fs.nodes s.currentDir = none

variable {user : CStr} {userId : UInt64} {s t : Session} {c : Command} {m : Machine} {cur x : Ptr}
  {a : Action} {s' : FsState} {n : FsNode}

theorem leaves_readLine (user : CStr) (currentDir : Ptr) :
    Leaves Machine.fs (readLine user currentDir) :=
  .bind (leaves_prompt _ _) fun _ => .bind (leaves_onConsole _) fun _ => leaves_pure _ _

/-- A round is a prompt that reads the current directory, a line and a command. -/
theorem Step.parts (step : Step user userId s c t) :
    (s.prompted user).fs = s.machine.fs ∧
    (∃ written, shcPwd s.machine.fs s.currentDir = .ok written) ∧
      ∃ fuel, runCommand fuel userId s.currentDir c (s.prompted user) =
      (.ok t.currentDir, t.machine) := by
  obtain ⟨fuel, returned⟩ := step
  obtain ⟨_, m₁, line, ran⟩ := bind_eq_ok.mp returned
  have here : s.prompted user = m₁ := by rw [Session.prompted, line]
  have quiet := leaves_readLine _ _ _ _ _ line
  obtain ⟨_, u, prompted, _⟩ := bind_eq_ok.mp line
  obtain ⟨directory, u, read, _⟩ := bind_eq_ok.mp prompted
  exact ⟨here ▸ quiet, ⟨directory, (ofFs_eq_ok.mp read).1⟩, fuel, here ▸ ran⟩

theorem removesSafely_rm {arch : Arch} {path : CStr} {p : Ptr}
    (quiet : (s.prompted user).fs = s.machine.fs)
    (found : fsResolve s.machine.fs path s.currentDir = .ok p)
    (links : NoStrayLink arch s.machine.fs p) :
    RemovesSafely arch user userId s (.rm (some path)) := by
  intro q causes
  cases causes with
  | rm _ resolved _ _ _ =>
      rw [quiet] at resolved
      obtain rfl := Except.ok.inj (found.symm.trans resolved)
      exact links

/-- Commands other than `rm` remove nothing. -/
theorem removesSafely_other {arch : Arch} (other : ∀ path, c ≠ .rm path) :
    RemovesSafely arch user userId s c := by
  intro p causes
  cases causes with
  | rm => exact absurd rfl (other _)

theorem Step.cases (step : Step user userId s c t) (ok : SessionOk s) :
    (s.prompted user).fs = s.machine.fs ∧ (s.currentDir = 0 ∨ s.machine.fs.InTree s.currentDir) ∧
      ∃ fuel, runCommand fuel userId s.currentDir c (s.prompted user) =
      (.ok t.currentDir, t.machine) := by
  obtain ⟨quiet, ⟨directory, written⟩, ran⟩ := step.parts
  refine ⟨quiet, ?_, ran⟩
  by_cases null : s.currentDir = 0
  · exact .inl null
  · obtain ⟨n, present⟩ := shcPwd_live written null
    refine .inr ((ok.place.resolve_left null).resolve_right ?_)
    rw [present]
    exact nofun

/-- A place in the tree is in it after an action, or gone. -/
theorem acts_place (acts : Acts m.fs a s') (wf : WellFormed m.fs) (inPlace : a.InPlace m.fs)
    (inTree : m.fs.InTree x) :
    s'.InTree x ∨ s'.nodes x = none := by
  by_cases removed : ∃ p, a = .remove p ∧ m.fs.Below p x
  · obtain ⟨p, rfl, below⟩ := removed
    obtain ⟨_, _, deleted, _⟩ := removed_of_acts wf inPlace acts
    exact .inr (deleted.gone x below)
  · exact .inl (acts.inTree wf inPlace inTree fun p same below => removed ⟨p, same, below⟩)

/-- Saving a new file: the file system stays in order, and nothing leaves the tree. -/
theorem SavesNew.keeps (saves : SavesNew m c s') (wf : WellFormed m.fs)
    (nothing : m.fs.nodes 0 = none) :
    WellFormed s' ∧ s'.nodes 0 = none ∧ ∀ x, m.fs.InTree x → s'.InTree x := by
  cases saves with
  | tinypad _ _ folder create write =>
      have wf₁ := create.wellFormed wf folder
      have nothing₁ := create.null wf folder nothing
      refine ⟨write.wellFormed wf₁ trivial, write.null wf₁ trivial nothing₁, ?_⟩
      intro x inTree
      exact write.inTree wf₁ trivial (create.inTree wf folder inTree nofun) nofun

/-- The effect of a command keeps the tree in order and the places of the tree in it,
    unless they are gone. -/
theorem Effect.keeps (effect : Effect m userId cur c s') (wf : WellFormed m.fs)
    (nothing : m.fs.nodes 0 = none) :
    WellFormed s' ∧ s'.nodes 0 = none ∧ ∀ x, m.fs.InTree x → s'.InTree x ∨ s'.nodes x = none := by
  rcases effect with rfl | ⟨a, _, inPlace, acts⟩ | saves
  · exact ⟨wf, nothing, fun x inTree => .inl inTree⟩
  · exact ⟨acts.wellFormed wf inPlace, acts.null wf inPlace nothing,
      fun x inTree => acts_place acts wf inPlace inTree⟩
  · obtain ⟨wf', nothing', stays⟩ := saves.keeps wf nothing
    exact ⟨wf', nothing', fun x inTree => .inl (stays x inTree)⟩

/-- It keeps the data of the files in order as well. -/
theorem Effect.filesOk (effect : Effect m userId cur c s') (wf : WellFormed m.fs)
    (files : FilesOk m.fs) :
    FilesOk s' := by
  rcases effect with rfl | ⟨a, _, inPlace, acts⟩ | saves
  · exact files
  · exact acts.filesOk wf inPlace files
  · cases saves with
    | tinypad _ _ folder create write =>
        exact write.filesOk (create.wellFormed wf folder) trivial (create.filesOk wf folder files)

theorem Step.effect (step : Step user userId s c t) (ok : SessionOk s) :
    Effect (s.prompted user) userId s.currentDir c t.machine.fs := by
  obtain ⟨quiet, place, fuel, ran⟩ := step.cases ok
  exact runCommand_effect (quiet ▸ ok.tree) (quiet ▸ ok.nothing) (quiet ▸ place) ran

theorem Step.sessionOk (step : Step user userId s c t) (ok : SessionOk s) : SessionOk t := by
  obtain ⟨quiet, place, fuel, ran⟩ := step.cases ok
  obtain ⟨tree, nothing, stays⟩ := (step.effect ok).keeps (quiet ▸ ok.tree) (quiet ▸ ok.nothing)
  refine ⟨tree, nothing, (step.effect ok).filesOk (quiet ▸ ok.tree) (quiet ▸ ok.files), ?_⟩
  rw [quiet] at stays
  rcases runCommand_dir (quiet ▸ ok.tree) (quiet ▸ ok.nothing) (quiet ▸ place) ran with
    same | ⟨fs, inTree, _⟩
  · rw [same]
    exact place.imp_right fun inTree => stays _ inTree
  · rw [quiet] at fs inTree
    exact .inr (.inl (fs ▸ inTree))

/-- The scancodes of a line typed in lower case and Enter, each key pressed and released. -/
def typed (line : String) : List UInt8 :=
  ((cstr line).map fun c => UInt8.ofNat (keymap.idxOf c)).flatMap
    (fun key => [key, key ||| 0x80]) ++ [0x1C, 0x9C]

/-- An empty screen in front of a keyboard on which the line is typed. -/
def typedConsole (line : String) : Console :=
  ⟨⟨fun _ => 0, 0⟩, ⟨false, false, fun _ => false⟩, typed line⟩

/-- A shell in the directory, where `malloc` is going to return 4. -/
def homeSession (dir : Ptr) (line : String) : Session := ⟨⟨homeState, typedConsole line, [4]⟩, dir⟩

theorem homeSession_ok {dir : Ptr} {line : String} (place : homeState.InTree dir) :
    SessionOk (homeSession dir line) :=
  ⟨homeState_wellFormed, rfl, homeState_filesOk, .inr (.inl place)⟩

/-- A round that is run within this fuel, in the form that evaluation can settle. -/
theorem step_of_run (user : CStr) (userId : UInt64) (s : Session) (c : Command) (x : Ptr)
    (fuel : Nat) (returned : (round fuel user userId s.currentDir c s.machine).1 = .ok x) :
    Step user userId s c ⟨(round fuel user userId s.currentDir c s.machine).2, x⟩ :=
  ⟨fuel, Prod.ext returned rfl⟩

end AurorOS.Shell
