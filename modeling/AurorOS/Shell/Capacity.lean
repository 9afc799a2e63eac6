import AurorOS.Shell.Init
import AurorOS.Shell.Mkdir

/-! # Full directories

Nothing looks at the count of a directory before a child is added to it.  Along a session,
every access to an array of children is in bounds as long as nodes are created in
directories with room only.
-/

namespace AurorOS.Shell

open Fs Devices Apps Program Runs

/-- The session starts on what `init_fs` has left behind, in a directory of the tree or in
    none. -/
structure Booted (s : Session) : Prop where
  init : ∃ beyond m m', beyond.length = 3 ∧ m.fs = noFs ∧ initFs beyond m = (.ok (), m') ∧
    s.machine.fs = m'.fs
  place : s.currentDir = 0 ∨ s.machine.fs.InTree s.currentDir

/-- The path that a command is given to resolve. -/
def Command.operand : Command → Option CStr
  | .cat path | .cd path | .mkdir path | .rm path | .chmod _ path | .hexedit path => path
  | .ls | .tinypad => none

/-- A command that starts on `m` comes to access an array of children at the index. -/
inductive Accesses (m : Machine) (userId : UInt64) (cur : Ptr) : Command → Nat → Prop where
  | resolve {c : Command} {path : CStr} {i : Nat} : c.operand = some path →
      i ∈ resolveAccesses m.fs path cur →
      Accesses m userId cur c i
  | parent {path front back : CStr} {i : Nat} : fsResolve m.fs path cur = .ok 0 →
      splitAtLastSlash path = some (front, back) → i ∈ resolveAccesses m.fs (front.take 255) cur →
      Accesses m userId cur (.mkdir (some path)) i
  | mkdir {path : CStr} {parent newDir : Ptr} {m₁ : Machine} {i : Nat} : path ≠ [] →
      fsBasename path ≠ [] →
      fsResolve m.fs path cur = .ok 0 → mkdirParent m.fs cur path = .ok parent →
      ¬ (parent = 0 ∧ (splitAtLastSlash path).isSome) →
      fsCreateNode .dir (fsBasename path) parent userId m = (.ok newDir, m₁) →
      i ∈ addAccesses m₁.fs parent →
      Accesses m userId cur (.mkdir (some path)) i
  | unlink {path : CStr} {p : Ptr} {n : FsNode} {i : Nat} : path ≠ [] →
      fsResolve m.fs path cur = .ok p →
      m.fs.nodes p = some n → (n.type = .dir → confirmed m.console) →
      i ∈ removeAccesses m.fs n.parent p →
      Accesses m userId cur (.rm (some path)) i
  | delete {path : CStr} {p : Ptr} {n : FsNode} {s₁ : FsState} {fuel i : Nat} : path ≠ [] →
      fsResolve m.fs path cur = .ok p → m.fs.nodes p = some n →
      (n.type = .dir → confirmed m.console) →
      fsRemoveChild m.fs n.parent p = .ok s₁ → i ∈ deleteAccesses fuel s₁ p →
      Accesses m userId cur (.rm (some path)) i
  | list {d : FsNode} {i : Nat} : m.fs.nodes cur = some d → i < d.childCount →
      Accesses m userId cur .ls i
  /-- Whatever the dialogue of the editor resolves. -/
  | dialogue {path : CStr} {dir : Ptr} {i : Nat} : i ∈ resolveAccesses m.fs path dir →
      Accesses m userId cur .tinypad i
  | save {request : SaveRequest} {text : List UInt8} {created : Ptr} {m₁ m₂ : Machine} {i : Nat} :
      tinypadEdit 0x07 0x9F m = (.ok (some (request, text)), m₁) → request.file = 0 →
      fsCreateNode .file request.filename request.folder 1001 m₁ = (.ok created, m₂) →
      i ∈ addAccesses m₂.fs request.folder → Accesses m userId cur .tinypad i

/-- The command creates a node in `dir`: `mkdir` one that it has not found, and the editor
    one that it is told to save to and that is missing. -/
inductive CreatesIn (m : Machine) (cur : Ptr) : Command → Ptr → Prop where
  | mkdir {path : CStr} {parent : Ptr} : path ≠ [] → fsResolve m.fs path cur = .ok 0 →
      mkdirParent m.fs cur path = .ok parent → CreatesIn m cur (.mkdir (some path)) parent
  | tinypad {request : SaveRequest} {text : List UInt8} {m₁ : Machine} :
      tinypadEdit 0x07 0x9F m = (.ok (some (request, text)), m₁) → request.file = 0 →
      CreatesIn m cur .tinypad request.folder

/-- A directory in which the next command creates a node has fewer than 64 children. -/
def HasRoom (user : CStr) (s : Session) (c : Command) : Prop :=
  ∀ line m dir d, readLine user s.currentDir s.machine = (.ok line, m) →
    CreatesIn m s.currentDir c dir →
    s.machine.fs.nodes dir = some d → d.type = .dir → d.childCount < 64

/-- The next command, whether or not it returns, stays in bounds. -/
def InBounds (user : CStr) (userId : UInt64) (s : Session) (c : Command) : Prop :=
  ∀ line m, readLine user s.currentDir s.machine = (.ok line, m) →
    ∀ i, Accesses m userId s.currentDir c i → i < 64

variable {user : CStr} {userId owner : UInt64} {s t : Session} {c : Command} {m m₁ : Machine}
  {cur dir new : Ptr} {s' : FsState} {type : NodeType} {name : CStr} {i fuel : Nat}
  {trace : List (Session × Command)}

theorem Effect.capacity (effect : Effect m userId cur c s') (capacity : Capacity m.fs) :
    Capacity s' := by
  rcases effect with rfl | ⟨a, _, _, acts⟩ | saves
  · exact capacity
  · exact acts.capacity capacity
  · cases saves with
    | tinypad _ _ _ create write => exact write.capacity (create.capacity capacity)

/-- The store of a new child is in bounds if there was room for it. -/
theorem addAccesses_lt (created : fsCreateNode type name dir owner m = (.ok new, m₁))
    (room : ∀ d, m.fs.nodes dir = some d → d.type = .dir → d.childCount < 64) :
    ∀ i ∈ addAccesses m₁.fs dir, i < 64 := by
  refine forall_after.mpr fun d here => ?_
  rw [Fs.deref_eq_ok] at here
  split
  · exact List.forall_mem_nil _
  rename_i isDir
  rw [not_not] at isDir
  intro i member
  rw [List.mem_singleton.mp member]
  obtain ⟨_, made⟩ := fsCreateNode_eq_ok created
  rw [createNode] at made
  split at made
  case isFalse => cases made
  rw [← (Prod.mk.inj (Except.ok.inj made)).2] at here
  by_cases same : dir = new
  · subst same
    rw [FsState.nodes_setNode_self] at here
    obtain rfl := Option.some.inj here
    exact Nat.zero_lt_succ 63
  · rw [FsState.nodes_setNode_of_ne _ _ same] at here
    exact room d here isDir

/-- In a session in order, a command with room for what it creates stays in bounds. -/
theorem HasRoom.inBounds (room : HasRoom user s c) (ok : SessionOk s)
    (capacity : Capacity s.machine.fs) :
    InBounds user userId s c := by
  intro line m read i accesses
  have quiet : m.fs = s.machine.fs := leaves_readLine _ _ _ _ _ read
  rw [← quiet] at capacity
  cases accesses with
  | resolve _ member => exact resolveAccesses_lt capacity i member
  | parent _ _ member => exact resolveAccesses_lt capacity i member
  | mkdir nonempty _ missing placed _ created member =>
      refine addAccesses_lt created (fun d here isDir => ?_) i member
      exact room line m _ d read (.mkdir nonempty missing placed) (quiet ▸ here) isDir
  | unlink _ _ _ _ member => exact removeAccesses_lt capacity i member
  | delete _ _ _ _ unlinked member =>
      exact (deleteAccesses_lt _).1 _ _ (elementary_capacity.unlink unlinked capacity) i member
  | list here inside => exact Nat.lt_of_lt_of_le inside (capacity _ _ here)
  | dialogue member => exact resolveAccesses_lt capacity i member
  | save edited missing created member =>
      have same := (tinypadEdit_requested (quiet ▸ ok.tree) (quiet ▸ ok.nothing) edited).1
      refine addAccesses_lt created (fun d here isDir => ?_) i member
      rw [same, quiet] at here
      exact room line m _ d read (.tinypad edited missing) here isDir

/-- A session in order in which every count is within the array. -/
structure InOrder (s : Session) : Prop where
  ok : SessionOk s
  capacity : Capacity s.machine.fs

theorem Booted.inOrder (booted : Booted s) : InOrder s := by
  obtain ⟨⟨beyond, m, m', _, bare, returned, same⟩, place⟩ := booted
  have ready := initFs_ready bare returned
  rw [← same] at ready
  exact ⟨⟨ready.tree, ready.nothing, ready.files, place.imp_right .inl⟩, ready.capacity⟩

theorem InOrder.step (order : InOrder s) (step : Step user userId s c t) : InOrder t := by
  obtain ⟨quiet, _⟩ := step.cases order.ok
  exact ⟨step.sessionOk order.ok, (step.effect order.ok).capacity (quiet ▸ order.capacity)⟩

/-- From boot on, every count stays within the array, and every command stays in bounds that
    has room for what it creates and removes nothing that `free` stumbles over. -/
theorem capacity_kept (arch : Arch) (user : CStr) (userId : UInt64) (s t : Session)
    (trace : List (Session × Command)) (booted : Booted s) (run : Run (Step user userId) s trace t)
    (room : EveryStep (fun u c => HasRoom user u c ∧ RemovesSafely arch user userId u c) trace) :
    Always (fun u => Capacity u.machine.fs) trace t ∧ EveryStep (InBounds user userId) trace ∧
      ∀ c, HasRoom user t c → RemovesSafely arch user userId t c → InBounds user userId t c := by
  have always : Always InOrder trace t :=
    run.always (fun _ _ _ order taken => InOrder.step order taken) booted.inOrder
  refine ⟨always.mono fun _ order => order.capacity, ?_, ?_⟩
  · intro entry member
    have order := always.1 entry member
    exact (room entry member).1.inBounds order.ok order.capacity
  · intro c roomy _
    exact roomy.inBounds always.last.ok always.last.capacity

/-- The rounds of these commands, one after another. -/
def runRounds (fuel : Nat) (user : CStr) (userId : UInt64) : Session → List Command → Option Session
  | s, [] => some s
  | s, c :: rest =>
      match round fuel user userId s.currentDir c s.machine with
      | (.ok dir, m) => runRounds fuel user userId ⟨m, dir⟩ rest
      | (.error _, _) => none

theorem run_of_rounds {commands : List Command}
    (returned : runRounds fuel user userId s commands = some t) :
    ∃ trace, Run (Step user userId) s trace t ∧ trace.map Prod.snd = commands := by
  induction commands generalizing s with
  | nil =>
      obtain rfl := Option.some.inj returned
      exact ⟨[], .nil, rfl⟩
  | cons c rest ih =>
      rw [runRounds] at returned
      split at returned
      case h_1 dir m ran =>
        obtain ⟨trace, later, rfl⟩ := ih returned
        exact ⟨_, (Run.single ⟨fuel, ran⟩).append later, rfl⟩
      case h_2 => cases returned

/-- Behind the next prompt, `mkdir` of a name without a slash stores to `children[64]`. -/
def overfills (user : CStr) (userId : UInt64) (name : CStr) (s : Session) : Bool :=
  match readLine user s.currentDir s.machine with
  | (.ok _, m) =>
      match fsCreateNode .dir name s.currentDir userId m with
      | (.ok _, m₁) => fsResolve m.fs name s.currentDir = .ok 0 &&
          (addAccesses m₁.fs s.currentDir).contains 64
      | (.error _, _) => false
  | (.error _, _) => false

theorem not_inBounds_of_overfills (nonempty : name ≠ []) (noSlash : slash ∉ name)
    (full : overfills user userId name s = true) :
    ¬ InBounds user userId s (.mkdir (some name)) := by
  intro bounded
  rw [overfills] at full
  split at full
  case h_2 => cases full
  rename_i line m read
  split at full
  case h_2 => cases full
  rename_i newDir m₁ created
  rw [Bool.and_eq_true, decide_eq_true_eq, List.contains_iff_mem] at full
  have base : fsBasename name = name := fsBasename_noSlash noSlash nonempty
  have parent : mkdirParent m.fs s.currentDir name = .ok s.currentDir := mkdirParent_noSlash noSlash
  have accesses : Accesses m userId s.currentDir (.mkdir (some name)) 64 := by
    refine .mkdir nonempty (base.symm ▸ nonempty) full.1 parent ?_ (base.symm ▸ created) full.2
    rw [splitAtLastSlash_none noSlash]
    exact fun none => Bool.false_ne_true none.2
  exact absurd (bounded line m read 64 accesses) (Nat.lt_irrefl 64)

/-- A shell that starts in the root, in the form that evaluation can settle. -/
theorem booted_of_run {beyond : List UInt8} (three : beyond.length = 3) (bare : m.fs = noFs)
    (returned : (initFs beyond m).1 = .ok ()) (atRoot : (initFs beyond m).2.fs.fsRoot = cur) :
    Booted ⟨(initFs beyond m).2, cur⟩ where
  init := ⟨beyond, m, _, three, bare, Prod.ext returned rfl, rfl⟩
  place := .inr (atRoot ▸ .refl)

/-- A machine before `init_fs`; Enter is going to be pressed at the prompts. -/
def bareMachine : Machine :=
  ⟨noFs, ⟨⟨fun _ => 0, 0⟩, ⟨false, false, fun _ => false⟩,
    (List.replicate 61 [0x1C, 0x9C]).flatten⟩, List.range' 1 73⟩

/-- A shell in the root that `init_fs` has made there. -/
def bootSession : Session := ⟨(initFs [0, 0, 0] bareMachine).2, 1⟩

theorem bootSession_booted : Booted bootSession :=
  booted_of_run rfl rfl (by decide +kernel) (by decide +kernel)

/-- `mkdir aa`, `mkdir ab` and so on, sixty times. -/
def fillingRoot : List Command :=
  (List.range 60).map fun k => .mkdir (some [UInt8.ofNat (97 + k / 26), UInt8.ofNat (97 + k % 26)])

theorem count_of_all {d : FsNode} {fs : FsState}
    (few : (fs.nodes cur).all (fun d => d.childCount < 64) = true) (here : fs.nodes cur = some d) :
    d.childCount < 64 := by
  rw [here] at few
  exact of_decide_eq_true few

/-- `mkdir a` in the root, behind `init_fs`. -/
theorem capacity_kept_boot :
    ∃ t, Step [] 0 bootSession (.mkdir (some [97])) t ∧ Capacity t.machine.fs := by
  have step := step_of_run [] 0 bootSession (.mkdir (some [97])) 1 2 (by decide +kernel)
  have noSlash : slash ∉ ([97] : CStr) := by decide
  refine ⟨_, step,
    (capacity_kept .x86_64 [] 0 bootSession _ _ bootSession_booted (.single step) ?_).1.last⟩
  intro entry member
  obtain rfl := List.mem_singleton.mp member
  refine ⟨fun line m dir d read creates here isDir => ?_,
    removesSafely_other fun _ => Command.noConfusion⟩
  cases creates with
  | mkdir _ _ parent =>
      have inRoot : dir = bootSession.currentDir :=
        Except.ok.inj (parent.symm.trans (mkdirParent_noSlash noSlash))
      rw [inRoot] at here
      exact count_of_all (by decide +kernel) here

/-- With sixty directories the root is full, and nothing stops `mkdir` from adding one more. -/
theorem not_capacity_kept :
    ¬ ∀ (user : CStr) (userId : UInt64) (s t : Session) (trace : List (Session × Command)),
    Booted s →
      Run (Step user userId) s trace t → Capacity t.machine.fs ∧ ∀ c, InBounds user userId t c := by
  intro bounded
  have full : (runRounds 2 [] 0 bootSession fillingRoot).any (overfills [] 0 [97]) = true := by
    decide +kernel
  obtain ⟨t, returned, overfull⟩ := (Option.any_eq_true _ _).mp full
  obtain ⟨trace, run, _⟩ := run_of_rounds returned
  exact not_inBounds_of_overfills (by decide) (by decide) overfull
    ((bounded [] 0 bootSession t trace bootSession_booted run).2 _)

end AurorOS.Shell
