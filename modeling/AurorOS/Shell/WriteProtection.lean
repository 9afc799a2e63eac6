import AurorOS.Shell.Sessions

/-! # Write permissions

`hexedit` asks for the write permission and `chmod` for the ownership, but `mkdir`,
`rm` and the editor ask for neither.  While these three change what their user may
write, nothing else is ever changed.
-/

namespace AurorOS.Shell

open Fs Devices Apps Program Runs

/-- The user owns the node or has the write bit. -/
def MayWrite (userId : UInt64) (n : FsNode) : Prop := n.owner = userId ∨ Writable userId n

instance (userId : UInt64) (n : FsNode) : Decidable (MayWrite userId n) :=
  inferInstanceAs (Decidable (_ ∨ _))

/-- The file at `x` has the content, the directory at `x` the children, of before. -/
structure Unchanged (s t : FsState) (x : Ptr) : Prop where
  content : ∀ n, s.nodes x = some n → n.type = .file → ∃ n', t.nodes x = some n' ∧
    t.contentOf n' = s.contentOf n
  children : ∀ n, s.nodes x = some n → n.type = .dir → t.kids x = s.kids x

/-- What the three commands would change is the user's to write: the directory that gets
    or loses an entry, or the file that is saved. -/
def Respects (user : CStr) (userId : UInt64) (s : Session) : Command → Prop
  | .mkdir (some path) => ∀ dir d, path ≠ [] → fsBasename path ≠ [] →
      fsResolve s.machine.fs path s.currentDir = .ok 0 →
      mkdirParent s.machine.fs s.currentDir path = .ok dir →
      s.machine.fs.nodes dir = some d → MayWrite userId d
  | .rm (some path) => ∀ p n d, path ≠ [] → fsResolve s.machine.fs path s.currentDir = .ok p →
      s.machine.fs.nodes p = some n → (n.type = .dir → confirmed (s.prompted user).console) →
      s.machine.fs.nodes n.parent = some d → MayWrite userId d
  | .tinypad => ∀ request text m n, tinypadEdit 0x07 0x9F (s.prompted user) =
      (.ok (some (request, text)), m) →
      s.machine.fs.nodes (if request.file = 0 then request.folder else request.file) = some n →
      (request.file = 0 → n.type = .dir) → MayWrite userId n
  | _ => True

variable {user : CStr} {userId : UInt64} {s t : Session} {c : Command} {x : Ptr} {n : FsNode}
  {a : Action} {trace : List (Session × Command)}

/-- An action of a command that respects the permissions does not touch what the user may
    not write. -/
theorem untouched (causes : Causes (s.prompted user) userId s.currentDir c a)
    (quiet : (s.prompted user).fs = s.machine.fs) (notRoot : userId ≠ 0)
    (respects : Respects user userId s c) (present : s.machine.fs.nodes x = some n)
    (denied : ¬ MayWrite userId n) : ¬ a.Touches s.machine.fs x := by
  intro touches
  cases causes with
  | mkdir nonempty named new parent =>
      obtain ⟨rfl, _⟩ := touches
      rw [quiet] at new parent
      exact denied (respects _ n nonempty named new parent present)
  | rm nonempty found here answer _ =>
      rw [quiet] at found here
      obtain rfl : x = _ := touches.trans (parent_of here)
      exact denied (respects _ _ n nonempty found here answer present)
  | chmod here owns =>
      obtain rfl : x = _ := touches
      rw [quiet] at here
      obtain rfl := Option.some.inj (here.symm.trans present)
      exact denied (.inl (owns.resolve_right notRoot))
  | hexedit here writable =>
      obtain rfl : x = _ := touches
      rw [quiet] at here
      obtain rfl := Option.some.inj (here.symm.trans present)
      exact denied (.inr writable)
  | tinypad edited file =>
      obtain rfl : x = _ := touches
      refine denied (respects _ _ _ n edited ?_ fun missing => absurd missing file)
      rwa [if_neg file]

/-- A step that respects the permissions leaves what the user may not write as it was, if
    it is still there. -/
theorem Step.unchanged (step : Step user userId s c t) (ok : SessionOk s) (notRoot : userId ≠ 0)
    (respects : Respects user userId s c) (present : s.machine.fs.nodes x = some n)
    (denied : ¬ MayWrite userId n) (still : t.machine.fs.nodes x ≠ none) :
    t.machine.fs.nodes x = some n ∧
    (n.type = .file → t.machine.fs.contentOf n = s.machine.fs.contentOf n) := by
  obtain ⟨quiet, _, _⟩ := step.cases ok
  rcases step.effect ok with same | ⟨a, causes, inPlace, acts⟩ | saves
  · rw [same, quiet]
    exact ⟨present, fun _ => rfl⟩
  · have away := untouched causes quiet notRoot respects present denied
    rw [quiet] at inPlace acts
    exact acts.frame ok.tree inPlace ok.files present still away
  · cases saves with
    | @tinypad request text data m₁ block block' s₁ s' edited missing folder create write =>
        rw [quiet] at folder create
        obtain ⟨d, _, created⟩ := created_of_acts create
        have notBlock : x ≠ block := by
          rintro rfl
          rw [created.fresh.noNode] at present
          cases present
        have awayFirst : ¬ Action.Touches s.machine.fs x
            (.create .file request.filename request.folder 1001 request.folder block) := by
          rintro ⟨rfl, d, here, isDir⟩
          obtain rfl := Option.some.inj (here.symm.trans present)
          refine denied (respects _ _ _ _ edited ?_ fun _ => isDir)
          rwa [if_pos missing]
        -- the new file is not the node, so the node is there in between
        have between : s₁.nodes x ≠ none := by
          obtain ⟨m, _, written⟩ := written_of_acts write
          rwa [written.nodes, Function.update_of_ne notBlock] at still
        have wf₁ := create.wellFormed ok.tree folder
        have files₁ := create.filesOk ok.tree folder ok.files
        obtain ⟨present₁, content₁⟩ :=
          create.frame ok.tree folder ok.files present between awayFirst
        obtain ⟨present₂, content₂⟩ := write.frame wf₁ trivial files₁ present₁ still notBlock
        exact ⟨present₂, fun isFile => (content₂ isFile).trans (content₁ isFile)⟩

/-- In a session of a user other than root in which every `mkdir`, `rm` and `tinypad`
    changes only what the user may write, and `rm` removes nothing that `free` stumbles
    over, whatever the user may not write keeps its content and its children for as long
    as it exists. -/
theorem writes_enforced_when_respected (arch : Arch) (notRoot : userId ≠ 0)
    (run : Run (Step user userId) s trace t) (ok : SessionOk s)
    (respects : EveryStep (fun s c => Respects user userId s c ∧
    RemovesSafely arch user userId s c) trace)
    (present : s.machine.fs.nodes x = some n) (denied : ¬ MayWrite userId n)
    (stays : Always (fun s => s.machine.fs.nodes x ≠ none) trace t) :
    Unchanged s.machine.fs t.machine.fs x := by
  have kept : SessionOk t ∧ t.machine.fs.nodes x = some n ∧
      (n.type = .file → t.machine.fs.contentOf n = s.machine.fs.contentOf n) := by
    induction run with
    | nil => exact ⟨ok, present, fun _ => rfl⟩
    | @snoc trace t c u _ taken ih =>
        have before : Always (fun s => s.machine.fs.nodes x ≠ none) trace t :=
          ⟨fun entry member => stays.1 entry (List.mem_append_left _ member),
            stays.1 (t, c) (by simp)⟩
        obtain ⟨okT, presentT, contentT⟩ := ih respects.init before
        obtain ⟨presentU, contentU⟩ :=
          taken.unchanged okT notRoot respects.final.1 presentT denied stays.last
        exact ⟨taken.sessionOk okT, presentU,
          fun isFile => (contentU isFile).trans (contentT isFile)⟩
  obtain ⟨_, presentT, contentT⟩ := kept
  refine ⟨?_, ?_⟩
  · intro n' present' isFile
    obtain rfl := Option.some.inj (present.symm.trans present')
    exact ⟨n, presentT, contentT isFile⟩
  · intro n' present' _
    obtain rfl := Option.some.inj (present.symm.trans present')
    rw [kids_of presentT, kids_of present]

/-- The shell in `home` after everybody has been allowed to write it. -/
def openHome : Session :=
  let home :=
    { leafNode .dir [104, 111, 109, 101] 0 1 with children := fun _ => 3, childCount := 1 }
  ⟨⟨homeState.setNode 2 { home with permissions := 0o777 }, typedConsole "mkdir x", [4]⟩, 2⟩

theorem openHome_ok : SessionOk openHome := by
  have acts : Acts homeState (.chmod 2 0o777) openHome.machine.fs := .chmod rfl
  have inTree : homeState.InTree 2 := .tail .refl (List.mem_singleton.mpr rfl)
  refine ⟨acts.wellFormed homeState_wellFormed trivial, rfl,
    acts.filesOk homeState_wellFormed trivial homeState_filesOk, ?_⟩
  exact .inr (.inl (acts.inTree homeState_wellFormed trivial inTree nofun))

/-- User 1001 makes a directory in that `home`, and the root keeps its children. -/
theorem writes_enforced_home :
    ∃ t, Step (cstr "liveuser") 1001 openHome (.mkdir (some (cstr "x"))) t ∧
    t.machine.fs.kids 2 = [3, 4] ∧ Unchanged openHome.machine.fs t.machine.fs 1 := by
  have step := step_of_run (cstr "liveuser") 1001 openHome (.mkdir (some (cstr "x"))) 2 0
    (by decide +kernel)
  refine ⟨_, step, by decide +kernel, ?_⟩
  refine writes_enforced_when_respected .x86_64 (by decide) (.single step) openHome_ok ?_ rfl
    (by decide)
    ⟨by decide, by decide +kernel⟩
  intro entry member
  obtain rfl := List.mem_singleton.mp member
  refine ⟨?_, removesSafely_other fun _ => Command.noConfusion⟩
  -- the new directory comes to the open one
  intro dir d _ _ _ parent present
  obtain rfl : 2 = dir := Except.ok.inj parent
  obtain rfl := Option.some.inj present
  exact .inr (by decide)

/-- The root is the root user's alone to write, but user 1001 can make a directory there. -/
theorem writes_not_enforced :
    ¬ ∀ (user : CStr) (userId : UInt64) (s t : Session) (trace : List (Session × Command)) (x : Ptr)
      (n : FsNode),
      userId ≠ 0 → Run (Step user userId) s trace t → SessionOk s → s.machine.fs.nodes x = some n →
        ¬ MayWrite userId n →
      Always (fun s => s.machine.fs.nodes x ≠ none) trace t →
      Unchanged s.machine.fs t.machine.fs x := by
  intro enforced
  have step := step_of_run (cstr "liveuser") 1001 (homeSession 1 "mkdir x")
    (.mkdir (some (cstr "x"))) 1 0
    (by decide +kernel)
  have unchanged := enforced _ _ _ _ _ 1 _ (by decide) (.single step) (homeSession_ok .refl) rfl
    (by decide)
    ⟨by decide, by decide +kernel⟩
  have kids := unchanged.children _ rfl rfl
  revert kids
  decide +kernel

end AurorOS.Shell
