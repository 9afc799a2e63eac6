import AurorOS.Shell.Capacity

/-! # The path in front of the prompt

Every prompt calls `shc_pwd`, which has room for 255 characters of a path.  Nothing limits the depth
of the directories, so it is up to the `cd` commands whether the path stays in the buffer.
-/

namespace AurorOS.Shell

open Fs Devices Apps Program Runs

/-- `shc_pwd(current_dir)` stays in its buffer. -/
def PwdInBounds (s : Session) : Prop := ∃ written, shcPwd s.machine.fs s.currentDir = .ok written

/-- If the command is a `cd` that leads to a directory which the user may enter, the directory
    has an absolute path of at most 255 characters. -/
def CdFits (userId : UInt64) (s : Session) (c : Command) : Prop :=
  ∀ path target n written, c = .cd (some path) → path ≠ [] →
    fsResolve s.machine.fs path s.currentDir = .ok target →
    s.machine.fs.nodes target = some n → n.type = .dir → permsOf userId n &&& 1 ≠ 0 →
    AbsolutePath s.machine.fs target written → written.length ≤ 255

/-- The command makes a directory or changes to one. -/
def MakesOrChanges (_ : Session) (c : Command) : Prop := ∃ path, c = .mkdir path ∨ c = .cd path

variable {user : CStr} {userId : UInt64} {s t : Session} {c : Command} {m : Machine}
  {cur target : Ptr} {path written : CStr} {n : FsNode} {trace : List (Session × Command)}

/-- Where the current directory has an absolute path, it says whether there is room. -/
theorem SessionOk.inBounds_iff (ok : SessionOk s)
    (absolute : AbsolutePath s.machine.fs s.currentDir written) :
    PwdInBounds s ↔ written.length ≤ 255 := shcPwd_iff ok.tree.consistentTree absolute

theorem inBounds_null (null : s.currentDir = 0) : PwdInBounds s := by
  rw [PwdInBounds, null]
  exact ⟨[slash], rfl⟩

/-- A place from which the prompt has returned is `NULL` or has an absolute path. -/
theorem SessionOk.place_path (ok : SessionOk s) (bounded : PwdInBounds s) :
    s.currentDir = 0 ∨ ∃ written, AbsolutePath s.machine.fs s.currentDir written ∧
    written.length ≤ 255 := by
  obtain ⟨directory, returned⟩ := bounded
  by_cases null : s.currentDir = 0
  · exact .inl null
  · obtain ⟨n, present⟩ := shcPwd_live returned null
    have inTree : s.machine.fs.InTree s.currentDir := by
      refine (ok.place.resolve_left null).resolve_right ?_
      rw [present]
      exact nofun
    obtain ⟨written, absolute⟩ := exists_absolutePath ok.tree.consistentTree inTree
    exact .inr ⟨written, absolute, (ok.inBounds_iff absolute).mp ⟨directory, returned⟩⟩

/-- `cd` to a directory that the user may enter. -/
theorem shcCd_enters (nonempty : path ≠ []) (found : fsResolve m.fs path cur = .ok target)
    (present : m.fs.nodes target = some n)
    (nonnull : target ≠ 0) (isDir : n.type = .dir) (enter : permsOf userId n &&& 1 ≠ 0) :
    shcCd cur (some path) userId m = (.ok target, m) := by
  have given : ¬ missing (some path) = true := by
    rw [missing_eq_false.mpr nonempty]
    exact Bool.false_ne_true
  rw [shcCd, if_neg given]
  refine (bind_of_ok (resolve_eq_ok.mpr ⟨found, rfl⟩)).trans ?_
  rw [if_neg nonnull]
  refine (bind_of_ok (deref_eq_ok.mpr ⟨present, rfl⟩)).trans ?_
  rw [if_neg (not_not.mpr isDir), if_neg enter]
  rfl

/-- `mkdir` stays where it is and keeps the absolute paths. -/
theorem mkdir_keeps {operand : Option CStr} (step : Step user userId s (.mkdir operand) t)
    (ok : SessionOk s) (bounded : PwdInBounds s) : PwdInBounds t := by
  obtain ⟨quiet, place, fuel, ran⟩ := step.cases ok
  obtain ⟨_, m₁, _, last⟩ := bind_eq_ok.mp ran
  have stays : s.currentDir = t.currentDir := (pure_eq_ok.mp last).1
  rcases ok.place_path bounded with null | ⟨written, absolute, short⟩
  · exact inBounds_null (stays ▸ null)
  have still : AbsolutePath t.machine.fs t.currentDir written := by
    rw [← quiet] at absolute
    have effect := runCommand_effect (quiet ▸ ok.tree) (quiet ▸ ok.nothing) (quiet ▸ place) ran
    rcases effect with same | ⟨a, causes, _, acts⟩ | saves
    · rwa [same, ← stays]
    · cases causes with
      | mkdir _ _ _ _ =>
          obtain ⟨d, present, made⟩ := created_of_acts acts
          rw [← stays]
          exact absolute.grows (made.grows present) made.root
    · cases saves
  exact ((step.sessionOk ok).inBounds_iff still).mpr short

/-- `cd` keeps the file system, and where it leads there is room. -/
theorem cd_keeps {operand : Option CStr} (step : Step user userId s (.cd operand) t)
    (ok : SessionOk s) (bounded : PwdInBounds s) (fits : CdFits userId s (.cd operand)) :
    PwdInBounds t := by
  obtain ⟨quiet, place, fuel, ran⟩ := step.cases ok
  have same : t.machine.fs = s.machine.fs := (leaves_shcCd _ _ _ _ _ _ ran).trans quiet
  rcases shcCd_dir ran with
    stays | ⟨path, n, named, nonempty, found, nonnull, present, isDir, enter⟩
  · rw [PwdInBounds, same, stays]
    exact bounded
  · rw [quiet] at found present
    have inTree : s.machine.fs.InTree t.currentDir :=
      (fsResolve_inTree ok.tree ok.nothing place found).resolve_left nonnull
    obtain ⟨written, absolute⟩ := exists_absolutePath ok.tree.consistentTree inTree
    have short : written.length ≤ 255 :=
      fits path t.currentDir n written (congrArg Command.cd named) nonempty found present isDir
        enter absolute
    exact ((step.sessionOk ok).inBounds_iff (same ▸ absolute)).mpr short

/-- A `cd` behind which the prompt returns led to a directory for which there is room. -/
theorem fits_of_inBounds {next : Session} (step : Step user userId s c next) (ok : SessionOk s)
    (bounded : PwdInBounds next) : CdFits userId s c := by
  rintro path target n written rfl nonempty found present isDir enter absolute
  obtain ⟨quiet, place, fuel, ran⟩ := step.cases ok
  have nonnull : target ≠ 0 := ok.tree.consistentTree.nonnull target absolute.inTree
  have entered : runCommand fuel userId s.currentDir (.cd (some path)) (s.prompted user) =
      (.ok target, s.prompted user) :=
    shcCd_enters nonempty (quiet ▸ found) (quiet ▸ present) nonnull isDir enter
  obtain ⟨atTarget, same⟩ := Prod.mk.inj (ran.symm.trans entered)
  have here : AbsolutePath next.machine.fs next.currentDir written := by
    rwa [same, Except.ok.inj atTarget, quiet]
  exact ((step.sessionOk ok).inBounds_iff here).mp bounded

/-- A shell that starts in a directory of `init_fs` has room for its path. -/
theorem Booted.inBounds (booted : Booted s) : PwdInBounds s := by
  have order := booted.inOrder
  obtain ⟨⟨beyond, m, m', _, bare, returned, same⟩, place⟩ := booted
  rcases place with null | inTree
  · exact inBounds_null null
  · obtain ⟨written, absolute⟩ := exists_absolutePath order.ok.tree.consistentTree inTree
    refine (order.ok.inBounds_iff absolute).mpr ?_
    exact (initFs_within bare returned).within _ _ (same ▸ absolute)

/-- Along a session of `mkdir` and `cd` from boot on, the path of every prompt stays in its
    buffer exactly if every `cd` leads to a directory with an absolute path of at most 255
    characters. -/
theorem pwd_inBounds_iff (user : CStr) (userId : UInt64) (s t : Session)
    (trace : List (Session × Command)) (booted : Booted s) (run : Run (Step user userId) s trace t)
    (only : EveryStep MakesOrChanges trace) :
    Always PwdInBounds trace t ↔ EveryStep (CdFits userId) trace := by
  have ordered : Always SessionOk trace t :=
    run.always (fun _ _ _ ok taken => Step.sessionOk taken ok) booted.inOrder.ok
  constructor
  · intro bounded entry member
    obtain ⟨next, taken, inBounds⟩ := run.taken_always bounded member
    exact fits_of_inBounds taken (ordered.1 entry member) inBounds
  · intro fits
    have both : Always (fun u => SessionOk u ∧ PwdInBounds u) trace t := by
      refine run.always_of_steps (C := fun u c => MakesOrChanges u c ∧ CdFits userId u c) ?_
        ⟨booted.inOrder.ok, booted.inBounds⟩ fun entry member =>
          ⟨only entry member, fits entry member⟩
      rintro u c v ⟨ok, bounded⟩ ⟨⟨operand, rfl | rfl⟩, fit⟩ taken
      · exact ⟨taken.sessionOk ok, mkdir_keeps taken ok bounded⟩
      · exact ⟨taken.sessionOk ok, cd_keeps taken ok bounded fit⟩
    exact both.mono fun _ kept => kept.2

/-- A directory is made within another, and the prompt follows. -/
def visit : List Command :=
  [.cd (some (cstr "home")), .mkdir (some (cstr "a")), .cd (some (cstr "a")),
    .mkdir (some (cstr "b")), .cd (some (cstr "b"))]

theorem pwd_inBounds_iff_visit :
    ∃ trace t, Run (Step [] 0) bootSession trace t ∧ trace.map Prod.snd = visit ∧
      (Always PwdInBounds trace t ↔ EveryStep (CdFits 0) trace) := by
  have rounds : (runRounds 2 [] 0 bootSession visit).isSome = true := by decide +kernel
  obtain ⟨t, returned⟩ := Option.isSome_iff_exists.mp rounds
  obtain ⟨trace, run, commands⟩ := run_of_rounds returned
  refine ⟨trace, t, run, commands,
    pwd_inBounds_iff [] 0 bootSession t trace bootSession_booted run ?_⟩
  intro entry member
  have among : entry.2 ∈ visit := commands ▸ List.mem_map_of_mem member
  simp only [visit, List.mem_cons, List.not_mem_nil, or_false] at among
  rcases among with cd | mkdir | cd | mkdir | cd
  · exact ⟨_, .inr cd⟩
  · exact ⟨_, .inl mkdir⟩
  · exact ⟨_, .inr cd⟩
  · exact ⟨_, .inl mkdir⟩
  · exact ⟨_, .inr cd⟩

/-- `mkdir` of a name of 31 characters and `cd` to it, eight times. -/
def nesting : List Command :=
  (List.replicate 8 [Command.mkdir (some (List.replicate 31 97)),
    .cd (some (List.replicate 31 97))]).flatten

/-- `shc_pwd` writes in front of the buffer. -/
def underflows (s : Session) : Bool :=
  match shcPwd s.machine.fs s.currentDir with
  | .ok _ => false
  | .error _ => true

theorem not_inBounds_of_underflows (under : underflows s = true) : ¬ PwdInBounds s := by
  rintro ⟨written, returned⟩
  rw [underflows, returned] at under
  cases under

theorem makesOrChanges_nesting {c : Command} (member : c ∈ nesting) : MakesOrChanges s c := by
  obtain ⟨pair, among, inside⟩ := List.mem_flatten.mp member
  obtain rfl := List.eq_of_mem_replicate among
  rcases List.mem_pair.mp inside with rfl | rfl
  · exact ⟨_, .inl rfl⟩
  · exact ⟨_, .inr rfl⟩

/-- With eight directories inside each other the path has 256 characters. -/
theorem not_pwd_inBounds :
    ¬ ∀ (user : CStr) (userId : UInt64) (s t : Session) (trace : List (Session × Command)),
    Booted s →
      Run (Step user userId) s trace t → EveryStep MakesOrChanges trace →
      Always PwdInBounds trace t := by
  intro bounded
  have deep : (runRounds 2 [] 0 bootSession nesting).any underflows = true := by decide +kernel
  obtain ⟨t, returned, under⟩ := (Option.any_eq_true _ _).mp deep
  obtain ⟨trace, run, commands⟩ := run_of_rounds returned
  refine not_inBounds_of_underflows under
    (bounded [] 0 bootSession t trace bootSession_booted run ?_).last
  intro entry member
  exact makesOrChanges_nesting (commands ▸ List.mem_map_of_mem member)

end AurorOS.Shell
