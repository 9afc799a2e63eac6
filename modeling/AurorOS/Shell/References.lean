import AurorOS.Apps.Users
import AurorOS.Exec.Isolation
import AurorOS.Shell.Sessions

/-! # References to directories and files

Every shell level keeps a pointer to its current directory and every file descriptor
one to its node, and nothing is told of a node that is removed.  The pointers stay
good as long as shells start in directories that exist and `rm` takes away nothing
that is referred to.
-/

namespace AurorOS.Shell

open Fs Devices Apps Exec Program Runs

/-- The terminal with the current directories of its shells, the innermost first, and the
    user who is logged in. -/
structure System where
  machine : Machine
  fds : FdTable
  levels : List Ptr
  user : CStr
  userId : UInt64

/-- The directory that `shell_main` starts in; the path is put together in 256
    characters, for root as well. -/
def startDir (s : FsState) (user : CStr) : Except Fault Ptr :=
  if 6 + user.length < 256 then fsResolve s (if user = cstr "root" then cstr "root"
    else cstr "/home/" ++ user) s.fsRoot
  else .error .invalidAccess

/-- What comes next: the line typed in the innermost shell, a login, or a system call. -/
inductive Event where
  /-- The entry at an index of a users file, parsed into an array that was in use before. -/
  | login (file : List UInt8) (past : List UserEntry) (index : Nat)
  | command (c : Command)
  /-- A command that uses neither files nor directories. -/
  | aside
  | sh
  | exit
  | logout
  | openFile (arch : Arch) (call : Call)

/-- The step that an event takes if nothing stops it. -/
inductive SystemStep : System → Event → System → Prop where
  | login {s : System} {file : List UInt8} {past out : List UserEntry} {index count : Nat}
      {entry : UserEntry}
      {dir : Ptr} {machine : Machine} (nobody : s.levels = [])
        (parsed : parseUsers file past = .ok (out, count))
      (counted : index < count) (accepted : out[index]? = some entry)
        (quiet : machine.fs = s.machine.fs)
      (start : startDir machine.fs entry.name = .ok dir) :
      SystemStep s (.login file past index)
        { s with machine := machine, levels := [dir], user := entry.name, userId := entry.userId }
  | command {s : System} {c : Command} {cur cur' : Ptr} {outer : List Ptr} {machine : Machine}
      (levels : s.levels = cur :: outer)
        (step : Step s.user s.userId ⟨s.machine, cur⟩ c ⟨machine, cur'⟩) :
      SystemStep s (.command c) { s with machine := machine, levels := cur' :: outer }
  | aside {s : System} {machine : Machine} (quiet : machine.fs = s.machine.fs) :
      SystemStep s .aside { s with machine := machine }
  | sh {s : System} {cur dir : Ptr} {outer : List Ptr} {line : CStr} {machine : Machine}
      (levels : s.levels = cur :: outer)
        (read : readLine s.user cur s.machine = (.ok line, machine))
      (start : startDir machine.fs s.user = .ok dir) :
      SystemStep s .sh { s with machine := machine, levels := dir :: cur :: outer }
  | exit {s : System} {cur : Ptr} {outer : List Ptr} {line : CStr} {machine : Machine}
      (levels : s.levels = cur :: outer)
        (read : readLine s.user cur s.machine = (.ok line, machine)) :
      SystemStep s .exit { s with machine := machine, levels := outer }
  | logout {s : System} {cur : Ptr} {outer : List Ptr} {line : CStr} {machine : Machine}
      (levels : s.levels = cur :: outer)
        (read : readLine s.user cur s.machine = (.ok line, machine)) :
      SystemStep s .logout { s with machine := machine, levels := [] }
  | openFile {s : System} {arch : Arch} {call : Call} {reply : Reply}
      (returned : syscallOpen arch call ⟨s.machine.fs, s.fds⟩ = .ok reply) :
      SystemStep s (.openFile arch call) { s with fds := reply.state.fds }

/-- `p` is a directory of the tree. -/
def InTreeDir (s : FsState) (p : Ptr) : Prop := s.InTree p ∧ ∃ n, s.nodes p = some n ∧ n.type = .dir

/-- Every shell is in a directory of the tree, and every descriptor has a node of it. -/
structure NoDangling (s : System) : Prop where
  dirs : ∀ dir ∈ s.levels, dir ≠ 0 ∧ InTreeDir s.machine.fs dir
  opened : ∀ p fd node, s.fds.descriptors p = some fd → fd.target = .path node →
    s.machine.fs.InTree node

/-- A shell of the user starts in a directory. -/
def HasHome (s : FsState) (user : CStr) : Prop :=
  ∀ dir, startDir s user = .ok dir → ∃ n, s.nodes dir = some n ∧ n.type = .dir

/-- No shell is in what is below `p`, and no descriptor has a node of it. -/
def Unreferred (s : System) (p : Ptr) : Prop :=
  (∀ dir ∈ s.levels, ¬ s.machine.fs.Below p dir) ∧
    ∀ q fd node, s.fds.descriptors q = some fd → fd.target = .path node →
    ¬ s.machine.fs.Below p node

/-- A shell that starts has a directory to start in, and an `rm` that is carried through
    takes away nothing that is referred to. -/
def Considerate (s : System) : Event → Prop
  | .login file past index => ∀ out count entry, parseUsers file past = .ok (out, count) →
      out[index]? = some entry →
      HasHome s.machine.fs entry.name
  | .sh => HasHome s.machine.fs s.user
  | .command (.rm (some path)) => ∀ cur outer p n, s.levels = cur :: outer → path ≠ [] →
      fsResolve s.machine.fs path cur = .ok p → s.machine.fs.nodes p = some n → n.parent ≠ 0 →
      (n.type = .dir → confirmed (Session.prompted s.user ⟨s.machine, cur⟩).console) →
      Unreferred s p
  | _ => True

/-- What an `rm` in the innermost shell removes can be freed. -/
def Frees (arch : Arch) (s : System) : Event → Prop
  | .command c => ∀ cur outer, s.levels = cur :: outer →
      RemovesSafely arch s.user s.userId ⟨s.machine, cur⟩ c
  | _ => True

/-- The invariant of a system that refers to nothing that is gone. -/
structure SystemOk (s : System) : Prop where
  tree : WellFormed s.machine.fs
  nothing : s.machine.fs.nodes 0 = none
  valid : NoDangling s

variable {s t : System} {e : Event} {m : Machine} {cur x dir : Ptr} {c : Command} {user : CStr}
  {userId : UInt64} {a : Action} {fs : FsState} {trace : List (System × Event)}

/-- A command that does not remove a place of the tree keeps it. -/
theorem Effect.place_stays (effect : Effect m userId cur c fs) (wf : WellFormed m.fs)
    (spared : ∀ p, Causes m userId cur c (.remove p) → ¬ m.fs.Below p x) (inTree : m.fs.InTree x) :
    fs.InTree x := by
  rcases effect with rfl | ⟨a, causes, inPlace, acts⟩ | saves
  · exact inTree
  · refine acts.inTree wf inPlace inTree fun p same => spared p (same ▸ causes)
  · cases saves with
    | tinypad _ _ folder create write =>
        exact write.inTree (create.wellFormed wf folder) trivial
          (create.inTree wf folder inTree nofun) nofun

/-- A place that stays keeps being a directory. -/
theorem Effect.dir_stays (effect : Effect m userId cur c fs) (wf : WellFormed m.fs)
    (spared : ∀ p, Causes m userId cur c (.remove p) → ¬ m.fs.Below p x)
    (isDir : InTreeDir m.fs x) :
    InTreeDir fs x := by
  rcases effect with rfl | ⟨a, causes, inPlace, acts⟩ | saves
  · exact isDir
  · exact acts.dir_stays wf inPlace isDir fun p same => spared p (same ▸ causes)
  · cases saves with
    | tinypad _ _ folder create write =>
        have first := create.dir_stays wf folder isDir nofun
        exact write.dir_stays (create.wellFormed wf folder) trivial first nofun

/-- A start directory is a directory of the tree if it is one at all. -/
theorem startDir_inTree (wf : WellFormed fs) (nothing : fs.nodes 0 = none) (home : HasHome fs user)
    (start : startDir fs user = .ok dir) : dir ≠ 0 ∧ InTreeDir fs dir := by
  obtain ⟨n, present, type⟩ := home dir start
  have nonnull : dir ≠ 0 := by
    rintro rfl
    cases nothing.symm.trans present
  rw [startDir] at start
  split at start
  · have place := fsResolve_inTree wf nothing (.inr .refl) start
    exact ⟨nonnull, place.resolve_left nonnull, n, present, type⟩
  · cases start

/-- What a considerate command removes is not referred to. -/
theorem Considerate.unreferred {outer : List Ptr} {p : Ptr}
    (considerate : Considerate s (.command c)) (levels : s.levels = cur :: outer)
    (quiet : (Session.prompted s.user ⟨s.machine, cur⟩).fs = s.machine.fs)
    (causes : Causes (Session.prompted s.user ⟨s.machine, cur⟩) s.userId cur c (.remove p)) :
    Unreferred s p := by
  cases causes with
  | rm nonempty found here answer hasParent =>
      rw [quiet] at found here
      exact considerate cur outer p _ levels nonempty found here hasParent answer

/-- What no removal of the command is above. -/
theorem Considerate.spared {outer : List Ptr} (considerate : Considerate s (.command c))
    (levels : s.levels = cur :: outer)
    (quiet : (Session.prompted s.user ⟨s.machine, cur⟩).fs = s.machine.fs)
    (safe : ∀ p, Unreferred s p → ¬ s.machine.fs.Below p x) (p : Ptr)
    (causes : Causes (Session.prompted s.user ⟨s.machine, cur⟩) s.userId cur c (.remove p)) :
    ¬ (Session.prompted s.user ⟨s.machine, cur⟩).fs.Below p x := by
  rw [quiet]
  exact safe p (considerate.unreferred levels quiet causes)

/-- A command of the shell. -/
theorem SystemOk.command {cur' : Ptr} {outer : List Ptr} {machine : Machine} (ok : SystemOk s)
    (considerate : Considerate s (.command c)) (levels : s.levels = cur :: outer)
    (step : Step s.user s.userId ⟨s.machine, cur⟩ c ⟨machine, cur'⟩) :
    SystemOk { s with machine := machine, levels := cur' :: outer } := by
  obtain ⟨wf, nothing, valid⟩ := ok
  obtain ⟨quiet, _, fuel, ran⟩ := step.parts
  have here := valid.dirs cur (levels ▸ List.mem_cons_self)
  have effect := runCommand_effect (quiet ▸ wf) (quiet ▸ nothing) (.inr (quiet ▸ here.2.1)) ran
  have place := runCommand_dir (quiet ▸ wf) (quiet ▸ nothing) (.inr (quiet ▸ here.2.1)) ran
  obtain ⟨wf', nothing', _⟩ := effect.keeps (quiet ▸ wf) (quiet ▸ nothing)
  rw [quiet] at place
  -- the directories of before stay
  have dirs : ∀ dir ∈ s.levels, dir ≠ 0 ∧ InTreeDir machine.fs dir := by
    intro dir member
    obtain ⟨nonnull, isDir⟩ := valid.dirs dir member
    have spared := considerate.spared levels quiet fun p unreferred => unreferred.1 dir member
    exact ⟨nonnull, effect.dir_stays (quiet ▸ wf) spared (quiet ▸ isDir)⟩
  refine ⟨wf', nothing', ?_, ?_⟩
  · intro dir member
    cases List.mem_cons.mp member with
    | inl new =>
        obtain rfl := new
        rcases place with rfl | ⟨same, inTree, isDir⟩
        · exact dirs dir (levels ▸ List.mem_cons_self)
        · exact ⟨(wf.live inTree).1, same ▸ ⟨inTree, isDir⟩⟩
    | inr old => exact dirs dir (levels ▸ List.mem_cons_of_mem _ old)
  · intro q fd node present target
    have spared :=
      considerate.spared levels quiet fun p unreferred => unreferred.2 q fd node present target
    exact effect.place_stays (quiet ▸ wf) spared (quiet ▸ valid.opened q fd node present target)

theorem SystemOk.step (ok : SystemOk s) (considerate : Considerate s e) (step : SystemStep s e t) :
    SystemOk t := by
  obtain ⟨wf, nothing, valid⟩ := ok
  cases step with
  | login nobody parsed counted accepted quiet start =>
      rw [quiet] at start
      have first := startDir_inTree wf nothing (considerate _ _ _ parsed accepted) start
      refine ⟨quiet ▸ wf, quiet ▸ nothing, ?_, ?_⟩
      · intro dir member
        obtain rfl := List.mem_singleton.mp member
        exact quiet ▸ first
      · exact quiet ▸ valid.opened
  | command levels step => exact SystemOk.command ⟨wf, nothing, valid⟩ considerate levels step
  | aside quiet => exact ⟨quiet ▸ wf, quiet ▸ nothing, quiet ▸ valid.dirs, quiet ▸ valid.opened⟩
  | sh levels read start =>
      have quiet := leaves_readLine _ _ _ _ _ read
      rw [quiet] at start
      have first := startDir_inTree wf nothing considerate start
      refine ⟨quiet ▸ wf, quiet ▸ nothing, ?_, quiet ▸ valid.opened⟩
      intro dir member
      rw [← levels] at member
      cases List.mem_cons.mp member with
      | inl new =>
          obtain rfl := new
          exact quiet ▸ first
      | inr old => exact quiet ▸ valid.dirs dir old
  | exit levels read =>
      have quiet := leaves_readLine _ _ _ _ _ read
      refine ⟨quiet ▸ wf, quiet ▸ nothing, ?_, quiet ▸ valid.opened⟩
      intro dir member
      exact quiet ▸ valid.dirs dir (levels ▸ List.mem_cons_of_mem _ member)
  | logout levels read =>
      have quiet := leaves_readLine _ _ _ _ _ read
      exact ⟨quiet ▸ wf, quiet ▸ nothing, nofun, quiet ▸ valid.opened⟩
  | openFile returned =>
      refine ⟨wf, nothing, valid.dirs, ?_⟩
      rcases syscallOpen_cases returned with
        ⟨_, _, rfl⟩ | ⟨node, fds, fd, resolved, present, created, _, rfl⟩
      · exact valid.opened
      · intro p fd' node' here target
        rcases createFd_targets created here with new | ⟨old, before, same⟩
        · obtain rfl := FdTarget.path.inj (target.symm.trans new)
          exact (fsResolve_inTree wf nothing (.inr .refl) resolved).resolve_left present
        · exact valid.opened p old node' before (same.trans target)

/-- In a run in which shells start in directories and `rm` takes away nothing that is
    referred to and nothing that `free` stumbles over, every current directory is a
    directory of the tree and every open descriptor has a node of it, at all times. -/
theorem references_valid (arch : Arch) (run : Run SystemStep s trace t)
    (wf : WellFormed s.machine.fs) (nothing : s.machine.fs.nodes 0 = none) (valid : NoDangling s)
    (considerate : EveryStep (fun s e => Considerate s e ∧ Frees arch s e) trace) :
    Always NoDangling trace t :=
  (run.always_of_steps (fun _ _ _ ok considerate step => SystemOk.step ok considerate.1 step)
    ⟨wf, nothing, valid⟩ considerate).mono fun _ ok => ok.valid

/-- The home directory of `liveuser` at 3. -/
def liveState : FsState where
  nodes
    | 1 => some { leafNode .dir [] 0 0 with children := fun _ => 2, childCount := 1 }
    | 2 => some { leafNode .dir (cstr "home") 0 1 with children := fun _ => 3, childCount := 1 }
    | 3 => some (leafNode .dir (cstr "liveuser") 1001 2)
    | _ => none
  bufs := fun _ => none
  fsRoot := 1
  freed := []

theorem liveState_wellFormed : WellFormed liveState := by
  refine ⟨.cons 2 (.cons 3 .nil .nil) .nil, ⟨?_, ?_⟩, by decide⟩
  · exact ⟨rfl, rfl, ⟨rfl, rfl, ⟨rfl, rfl, trivial, trivial⟩, trivial⟩, trivial⟩
  · intro x inside
    have cases : x = 1 ∨ x = 2 ∨ x = 3 := by simpa [Forest.labels, liveState] using inside
    rcases cases with rfl | rfl | rfl
    · exact ⟨by decide, _, rfl, by decide, NodeType.noConfusion, NodeType.noConfusion⟩
    · exact ⟨by decide, _, rfl, by decide, NodeType.noConfusion, NodeType.noConfusion⟩
    · exact ⟨by decide, _, rfl, by decide, NodeType.noConfusion, NodeType.noConfusion⟩

/-- An array element that nothing has been written to. -/
def blankEntry : UserEntry :=
  ⟨0, .replicate 32 0, .replicate 32 0, .replicate 8 (.replicate 32 0), 0⟩

/-- The line of the user and what is made of it. -/
def liveLine : List UInt8 := cstr "1001:liveuser:x:"

def liveEntry : UserEntry :=
  { blankEntry with
    userId := 1001
    username := cstr "liveuser" ++ .replicate 24 0
    password := cstr "x" ++ .replicate 31 0 }

/-- Nobody is logged in, and these lines are going to be typed. -/
def liveSystem (lines : List String) : System where
  machine :=
    ⟨liveState, ⟨⟨fun _ => 0, 0⟩, ⟨false, false, fun _ => false⟩, lines.flatMap typed⟩, [4]⟩
  fds := .boot
  levels := []
  user := []
  userId := 0

/-- The user is logged in. -/
def loggedIn (s : System) : System :=
  { s with levels := [3], user := liveEntry.name, userId := liveEntry.userId }

theorem parse_liveLine :
    parseUsers liveLine (.replicate 16 blankEntry) =
    .ok (liveEntry :: .replicate 15 blankEntry, 1) := by
  decide +kernel

theorem startDir_live : startDir liveState liveEntry.name = .ok 3 := by
  decide +kernel

theorem login_live (lines : List String) :
    SystemStep (liveSystem lines) (.login liveLine (.replicate 16 blankEntry) 0)
      (loggedIn (liveSystem lines)) :=
  .login rfl parse_liveLine (by decide) rfl rfl startDir_live

theorem noDangling_liveSystem (lines : List String) : NoDangling (liveSystem lines) :=
  ⟨nofun, nofun⟩

/-- After the login of `liveuser` and `mkdir x`. -/
def liveMade (lines : List String) : Session :=
  ⟨(round 0 liveEntry.name 1001 3 (.mkdir (some (cstr "x"))) (liveSystem lines).machine).2, 3⟩

/-- `liveuser` logs in, makes a directory and removes it. -/
theorem references_valid_live :
    ∃ t trace, Run SystemStep (liveSystem ["mkdir x", "rm x", "y"]) trace t ∧
    t.levels = [3] ∧ t.machine.fs.nodes 4 = none ∧ trace.length = 3 ∧
    Always NoDangling trace t := by
  have first := login_live ["mkdir x", "rm x", "y"]
  have makes := step_of_run liveEntry.name 1001 ⟨(liveSystem ["mkdir x", "rm x", "y"]).machine, 3⟩
    (.mkdir (some (cstr "x"))) 3 0 (by decide +kernel)
  have removes := step_of_run liveEntry.name 1001 (liveMade ["mkdir x", "rm x", "y"])
    (.rm (some (cstr "x"))) 3 10
    (by decide +kernel)
  have made := (Run.single first).snoc
    (.command (s := loggedIn (liveSystem ["mkdir x", "rm x", "y"])) rfl makes)
  have run := made.snoc (.command rfl removes)
  refine ⟨_, _, run, rfl, Option.isNone_iff_eq_none.mp (by decide +kernel), rfl, ?_⟩
  -- the new directory at 4 has no children, and nothing refers to it
  have found : fsResolve (liveMade ["mkdir x", "rm x", "y"]).machine.fs (cstr "x") 3 = .ok 4 := by
    decide +kernel
  have empty : (liveMade ["mkdir x", "rm x", "y"]).machine.fs.kids 4 = [] := by decide +kernel
  have owner : ((liveMade ["mkdir x", "rm x", "y"]).machine.fs.nodes 4).all
      (strayNext .x86 ·.owner = 0) = true := by
    decide +kernel
  refine references_valid .x86 run liveState_wellFormed rfl (noDangling_liveSystem _)
    (everyStep_snoc.mpr ⟨everyStep_snoc.mpr ⟨?_, trivial, ?_⟩, ?_, ?_⟩)
  · intro entry member
    obtain rfl := List.mem_singleton.mp member
    refine ⟨fun out count entry parsed here dir start => ?_, trivial⟩
    rw [parse_liveLine] at parsed
    obtain ⟨rfl, rfl⟩ := Prod.mk.inj (Except.ok.inj parsed)
    obtain rfl := Option.some.inj here
    obtain rfl := Except.ok.inj (startDir_live.symm.trans start)
    exact ⟨_, rfl, rfl⟩
  · exact fun _ _ _ => removesSafely_other fun _ => Command.noConfusion
  · intro cur outer p n levels _ resolved here _ _
    obtain rfl : 3 = cur := (List.cons.inj levels).1
    obtain rfl := Except.ok.inj (found.symm.trans resolved)
    refine ⟨fun dir member below => ?_, nofun⟩
    rw [List.mem_singleton.mp member] at below
    exact absurd (below_of_childless empty below) (by decide)
  · intro cur outer levels p causes
    obtain rfl : 3 = cur := (List.cons.inj levels).1
    refine removesSafely_rm removes.parts.1 found (noStrayLink_of_childless empty fun n here => ?_)
      p causes
    rw [here] at owner
    exact of_decide_eq_true owner

/-- After `rm .` and a `y` the shell is in a directory that is gone. -/
theorem references_dangle :
    ¬ ∀ (s t : System) (trace : List (System × Event)), Run SystemStep s trace t →
    WellFormed s.machine.fs →
      s.machine.fs.nodes 0 = none → NoDangling s → Always NoDangling trace t := by
  intro valid
  have first := login_live ["rm .", "y"]
  have step := step_of_run liveEntry.name 1001 ⟨(liveSystem ["rm .", "y"]).machine, 3⟩
    (.rm (some (cstr "."))) 3 10
    (by decide +kernel)
  have run := (Run.single first).snoc (.command (s := loggedIn (liveSystem ["rm .", "y"])) rfl step)
  have always := valid _ _ _ run liveState_wellFormed rfl (noDangling_liveSystem _)
  obtain ⟨_, _, n, present, _⟩ := always.last.dirs 3 List.mem_cons_self
  have gone : (round 10 liveEntry.name 1001 3 (.rm (some (cstr ".")))
      (liveSystem ["rm .", "y"]).machine).2.fs.nodes 3 =
      none :=
    Option.isNone_iff_eq_none.mp (by decide +kernel)
  cases gone.symm.trans present

end AurorOS.Shell
