import AurorOS.Apps.TypedPath
import AurorOS.Devices.Typing
import AurorOS.Fs.Files
import AurorOS.Shell.Commands

/-! # What the commands do to the file system

Most of what a command does leaves the file system alone.  The rest is one action, or
two in the case of the editor, which creates a file and then writes it.
-/

namespace AurorOS.Shell

open Fs Devices Apps Program

variable {α : Type} {m m' m₁ : Machine} {a : α} {s : FsState} {n : FsNode}
  {p cur cur' parent block : Ptr} {path : CStr} {name : CStr} {type : NodeType}
  {userId owner : UInt64} {operand : Option CStr} {fuel size : Nat}

theorem ofFs_eq_ok {f : FsState → Except Fault α} :
    ofFs f m = (.ok a, m') ↔ f m.fs = .ok a ∧ m = m' := by
  rw [ofFs]
  cases f m.fs <;> simp

theorem onFs_eq_ok {f : FsState → Except Fault (α × FsState)} :
    onFs f m = (.ok a, m') ↔ ∃ fs, f m.fs = .ok (a, fs) ∧ { m with fs := fs } = m' := by
  rw [onFs]
  rcases f m.fs with fault | ⟨b, fs⟩ <;> simp

theorem onFs'_eq_ok {f : FsState → Except Fault FsState} {u : Unit} :
    onFs' f m = (.ok u, m') ↔ ∃ fs, f m.fs = .ok fs ∧ { m with fs := fs } = m' := by
  rw [onFs', onFs_eq_ok]
  constructor
  · rintro ⟨fs, returned, same⟩
    obtain ⟨fs', first, pair⟩ := Outcome.bind_eq_ok.mp returned
    obtain rfl := (Prod.mk.inj (Outcome.pure_eq_ok.mp pair)).2
    exact ⟨fs', first, same⟩
  · rintro ⟨fs, first, same⟩
    exact ⟨fs, Outcome.bind_eq_ok.mpr ⟨fs, first, rfl⟩, same⟩

theorem mallocAfter_eq_ok {after : FsState → FsState}
    (returned : mallocAfter after size m = (.ok block, m')) :
    m'.fs = m.fs ∧ (if size = 0 then block = 0 else block = 0 ∨ Fresh (after m.fs) block) := by
  rw [mallocAfter] at returned
  split at returned
  · rename_i empty
    obtain ⟨same, rfl⟩ := Prod.mk.inj returned
    rw [if_pos empty]
    exact ⟨rfl, (Except.ok.inj same).symm⟩
  · rename_i some
    dsimp only at returned
    split at returned
    · rename_i serves
      obtain ⟨same, rfl⟩ := Prod.mk.inj returned
      obtain rfl := Except.ok.inj same
      rw [if_neg some]
      exact ⟨rfl, serves⟩
    · cases (Prod.mk.inj returned).1

theorem leaves_onConsole (x : Program Console Stop α) : Leaves Machine.fs (onConsole x) :=
  .zoom x fun _ _ => rfl

theorem leaves_onScreen (f : Screen → Screen) : Leaves Machine.fs (onScreen f) := leaves_onConsole _

theorem leaves_ofFs (f : FsState → Except Fault α) : Leaves Machine.fs (ofFs f) := by
  intro m a m' returned
  rw [(ofFs_eq_ok.mp returned).2]

theorem leaves_malloc (size : Nat) : Leaves Machine.fs (malloc size) :=
  fun _ _ _ returned => (mallocAfter_eq_ok returned).1

theorem leaves_lsLoop (d : FsNode) (left i : Nat) : Leaves Machine.fs (lsLoop d left i) := by
  induction left generalizing i with
  | zero => exact leaves_pure _ ()
  | succ left ih =>
      refine .bind (leaves_ofFs _) fun child => ?_
      refine .ite (fun _ => ?_) fun _ => ih (i + 1)
      exact .bind (leaves_ofFs _) fun c => .bind (leaves_onScreen _) fun _ =>
        .bind (leaves_onScreen _) fun _ =>
        ih (i + 1)

theorem leaves_shcLs (dir : Ptr) : Leaves Machine.fs (shcLs dir) :=
  .ite (fun _ => leaves_pure _ ()) fun _ =>
    .bind (leaves_ofFs _) fun d => .bind (leaves_lsLoop d _ _) fun _ => leaves_onScreen _

theorem leaves_catFile (n : FsNode) : Leaves Machine.fs (catFile n) :=
  .bind (leaves_ofFs _) fun _ => leaves_onScreen _

theorem leaves_shcCat (currentDir : Ptr) (operand : Option CStr) (userId : UInt64) :
    Leaves Machine.fs (shcCat currentDir operand userId) := by
  refine .ite (fun _ => leaves_onScreen _) fun _ => .bind (leaves_ofFs _) fun file => ?_
  refine .ite (fun _ => leaves_onScreen _) fun _ => .bind (leaves_ofFs _) fun n => ?_
  refine .ite (fun _ => leaves_onScreen _) fun _ => ?_
  exact .ite (fun _ => leaves_onScreen _) fun _ => leaves_catFile n

theorem leaves_shcCd (currentDir : Ptr) (operand : Option CStr) (userId : UInt64) :
    Leaves Machine.fs (shcCd currentDir operand userId) := by
  refine .ite (fun _ => .bind (leaves_onScreen _) fun _ => leaves_pure _ _) fun _ =>
    .bind (leaves_ofFs _) fun target => ?_
  refine .ite (fun _ => .bind (leaves_onScreen _) fun _ => leaves_pure _ _) fun _ =>
    .bind (leaves_ofFs _) fun n => ?_
  refine .ite (fun _ => .bind (leaves_onScreen _) fun _ => leaves_pure _ _) fun _ => ?_
  exact .ite (fun _ => .bind (leaves_onScreen _) fun _ => leaves_pure _ _) fun _ => leaves_pure _ _

theorem leaves_prompt (user : CStr) (currentDir : Ptr) :
    Leaves Machine.fs (prompt user currentDir) :=
  .bind (leaves_ofFs _) fun _ => leaves_onScreen _

theorem leaves_folderLoop (fuel : Nat) (ptr : Option CStr) (current : Ptr) :
    Leaves Machine.fs (folderLoop fuel ptr current) := by
  induction fuel generalizing ptr current with
  | zero => exact leaves_stop _ _
  | succ fuel ih =>
      rw [folderLoop]
      split
      · exact leaves_pure _ _
      · refine .bind (leaves_ofFs _) fun child => ?_
        exact .ite (fun _ => leaves_pure _ _) fun _ => ih _ _

theorem leaves_resolveFolder (path : CStr) : Leaves Machine.fs (resolveFolder path) :=
  .bind (leaves_read _ _) fun root => leaves_folderLoop _ _ root

theorem resolve_eq_ok :
    resolve path cur m = (.ok p, m') ↔ fsResolve m.fs path cur = .ok p ∧ m = m' := ofFs_eq_ok

theorem deref_eq_ok : deref p m = (.ok n, m') ↔ m.fs.nodes p = some n ∧ m = m' := by
  rw [deref, ofFs_eq_ok, Fs.deref_eq_ok]

theorem folderLoop_inTree {ptr : Option CStr} {current : Ptr} (wf : WellFormed m.fs)
    (nothing : m.fs.nodes 0 = none) (start : m.fs.InTree current)
    (returned : folderLoop fuel ptr current m = (.ok p, m')) : p = 0 ∨ m.fs.InTree p := by
  induction fuel generalizing ptr current m with
  | zero => exact absurd returned stop_ne_ok
  | succ fuel ih =>
      rw [folderLoop] at returned
      cases token : strtok ptr slash with
      | none =>
          simp only [token] at returned
          obtain ⟨rfl, _⟩ := pure_eq_ok.mp returned
          exact .inr start
      | some pair =>
          simp only [token] at returned
          obtain ⟨child, u, resolved, returned⟩ := bind_eq_ok.mp returned
          obtain ⟨found, rfl⟩ := resolve_eq_ok.mp resolved
          split at returned
          · obtain ⟨rfl, _⟩ := pure_eq_ok.mp returned
            exact .inl rfl
          · rename_i present
            have onward := (fsResolve_inTree wf nothing (.inr start) found).resolve_left present
            exact ih wf nothing onward returned

theorem resolveFolder_inTree (wf : WellFormed m.fs) (nothing : m.fs.nodes 0 = none)
    (returned : resolveFolder path m = (.ok p, m')) : p = 0 ∨ m.fs.InTree p := by
  obtain ⟨root, u, first, returned⟩ := bind_eq_ok.mp returned
  obtain ⟨rfl, rfl⟩ := read_eq_ok.mp first
  exact folderLoop_inTree wf nothing .refl returned

theorem saveTarget_inTree {folder : Ptr} {filename : CStr} (wf : WellFormed m.fs)
    (nothing : m.fs.nodes 0 = none) (returned : saveTarget path m = (.ok (folder, filename), m')) :
    m'.fs = m.fs ∧ (folder = 0 ∨ m.fs.InTree folder) := by
  rw [saveTarget] at returned
  cases cut : splitAtLastSlash path with
  | some parts =>
      simp only [cut] at returned
      obtain ⟨found, u, walked, returned⟩ := bind_eq_ok.mp returned
      obtain ⟨pair, rfl⟩ := pure_eq_ok.mp returned
      obtain ⟨rfl, _⟩ := Prod.mk.inj pair
      exact ⟨leaves_resolveFolder _ _ _ _ walked, resolveFolder_inTree wf nothing walked⟩
  | none =>
      simp only [cut] at returned
      obtain ⟨root, u, first, returned⟩ := bind_eq_ok.mp returned
      obtain ⟨pair, rfl⟩ := pure_eq_ok.mp returned
      obtain ⟨rfl, _⟩ := Prod.mk.inj pair
      obtain ⟨rfl, rfl⟩ := read_eq_ok.mp first
      exact ⟨rfl, .inr .refl⟩

/-- What a finished dialogue says of the file system. -/
structure Requested (s : FsState) (request : SaveRequest) : Prop where
  folder : s.InTree request.folder
  found : fsResolve s request.filename request.folder = .ok request.file
  isFile : request.file ≠ 0 → ∃ n, s.nodes request.file = some n ∧ n.type = .file

/-- The answer that ends a dialogue. -/
structure Answered (s : FsState) (path : CStr) (request : SaveRequest) : Prop where
  short : path.length ≤ 255
  target : ∃ u v, u.fs = s ∧ saveTarget path u = (.ok (request.folder, request.filename), v)
  hasFolder : request.folder ≠ 0
  found : fsResolve s request.filename request.folder = .ok request.file
  notDir : request.file ≠ 0 → ∃ n, s.nodes request.file = some n ∧ n.type ≠ .dir

theorem leaves_saveTarget (path : CStr) : Leaves Machine.fs (saveTarget path) := by
  rw [saveTarget]
  split
  · exact .bind (leaves_resolveFolder _) fun _ => leaves_pure _ _
  · exact .bind (leaves_read _ _) fun _ => leaves_pure _ _

theorem typedDialogue_answered {request : SaveRequest}
    (returned : typedDialogue fuel m = (.ok (path, request), m')) :
    m'.fs = m.fs ∧ Answered m.fs path request := by
  induction fuel generalizing m with
  | zero => exact absurd returned stop_ne_ok
  | succ fuel ih =>
      rw [typedDialogue] at returned
      obtain ⟨_, m₁, first, returned⟩ := bind_eq_ok.mp returned
      obtain ⟨line, m₂, second, returned⟩ := bind_eq_ok.mp returned
      obtain ⟨⟨folder, filename⟩, m₃, third, returned⟩ := bind_eq_ok.mp returned
      have quiet : m₂.fs = m.fs :=
        (leaves_onConsole _ _ _ _ second).trans (leaves_onScreen _ _ _ _ first)
      have quiet₃ : m₃.fs = m.fs := (leaves_saveTarget _ _ _ _ third).trans quiet
      have short : (cString line).length ≤ 255 := by
        rw [readStr, onConsole] at second
        obtain ⟨console, typed, _⟩ := zoom_eq_ok.mp second
        have fits := length_readStr typed
        rw [freshArray, List.length_replicate] at fits
        exact Nat.le_of_lt_succ fits
      -- where the loop goes on, it does so in the same file system
      have again : ∀ {u v : Machine} {message : Kernel Unit} {b : Unit}, u.fs = m.fs →
          Leaves Machine.fs message →
          message u = (.ok b, v) → typedDialogue fuel v = (.ok (path, request), m') →
          m'.fs = m.fs ∧ Answered m.fs path request := by
        intro u v message b before leaves said more
        have same : v.fs = m.fs := (leaves _ _ _ said).trans before
        rw [← same]
        exact ih more
      dsimp only at returned
      split at returned
      · obtain ⟨_, u, said, more⟩ := bind_eq_ok.mp returned
        exact again quiet₃ (leaves_onScreen _) said more
      rename_i hasFolder
      obtain ⟨file, u, resolved, returned⟩ := bind_eq_ok.mp returned
      obtain ⟨found, rfl⟩ := resolve_eq_ok.mp resolved
      rw [quiet₃] at found
      split at returned
      · rename_i missing
        obtain ⟨value, rfl⟩ := pure_eq_ok.mp returned
        obtain ⟨rfl, rfl⟩ := Prod.mk.inj value
        exact ⟨quiet₃, short, ⟨m₂, m₃, quiet, third⟩, hasFolder, missing ▸ found,
          fun present => absurd rfl present⟩
      obtain ⟨n, u, read, returned⟩ := bind_eq_ok.mp returned
      obtain ⟨here, rfl⟩ := deref_eq_ok.mp read
      rw [quiet₃] at here
      split at returned
      · obtain ⟨_, u, said, more⟩ := bind_eq_ok.mp returned
        exact again quiet₃ (leaves_onScreen _) said more
      · rename_i notDir
        obtain ⟨value, rfl⟩ := pure_eq_ok.mp returned
        obtain ⟨rfl, rfl⟩ := Prod.mk.inj value
        exact ⟨quiet₃, short, ⟨m₂, m₃, quiet, third⟩, hasFolder, found, fun _ => ⟨n, here, notDir⟩⟩

theorem Answered.requested {request : SaveRequest} (answered : Answered s path request)
    (wf : WellFormed s) (nothing : s.nodes 0 = none) : Requested s request := by
  obtain ⟨u, v, rfl, target⟩ := answered.target
  refine ⟨(saveTarget_inTree wf nothing target).2.resolve_left answered.hasFolder, answered.found,
    fun present => ?_⟩
  obtain ⟨n, here, notDir⟩ := answered.notDir present
  refine ⟨n, here, ?_⟩
  cases type : n.type with
  | file => rfl
  | dir => exact absurd type notDir

theorem typedLoop_answered {color : UInt8} {buffer : TextBuffer}
    {result : Option (CStr × SaveRequest × List UInt8)}
    (returned : typedLoop color fuel buffer m = (.ok result, m')) :
    m'.fs = m.fs ∧ ∀ path request text, result = some (path, request, text) →
    Answered m.fs path request := by
  induction fuel generalizing m buffer with
  | zero => exact absurd returned stop_ne_ok
  | succ fuel ih =>
      rw [typedLoop] at returned
      obtain ⟨line, m₁, first, returned⟩ := bind_eq_ok.mp returned
      have quiet : m₁.fs = m.fs := leaves_onConsole _ _ _ _ first
      have again : ∀ {u v : Machine} {β : Type} {step : Kernel β} {b : β} {buffer}, u.fs = m.fs →
        Leaves Machine.fs step →
          step u = (.ok b, v) → typedLoop color fuel buffer v = (.ok result, m') →
          m'.fs = m.fs ∧ ∀ path request text, result = some (path, request, text) →
          Answered m.fs path request := by
        intro u v β step b buffer before leaves said more
        have same : v.fs = m.fs := (leaves _ _ _ said).trans before
        rw [← same]
        exact ih more
      have appends : ∀ buffer : TextBuffer, ∀ line, Leaves Machine.fs (buffer.append line) :=
        fun buffer line => .ite (fun _ => leaves_pure _ _) fun _ => leaves_stop _ _
      split at returned
      · split at returned
        · obtain ⟨rfl, rfl⟩ := pure_eq_ok.mp returned
          refine ⟨quiet, fun path request text value => ?_⟩
          cases value
        split at returned
        · obtain ⟨rounds, m₂, counted, returned⟩ := bind_eq_ok.mp returned
          obtain ⟨_, rfl⟩ := read_eq_ok.mp counted
          obtain ⟨⟨path, request⟩, m₃, dialogue, returned⟩ := bind_eq_ok.mp returned
          obtain ⟨rfl, rfl⟩ := pure_eq_ok.mp returned
          rw [← quiet]
          obtain ⟨same, answered⟩ := typedDialogue_answered dialogue
          refine ⟨same, fun path' request' text value => ?_⟩
          obtain ⟨samePath, parts⟩ := Prod.mk.inj (Option.some.inj value)
          exact samePath ▸ (Prod.mk.inj parts).1 ▸ answered
        · obtain ⟨_, u, said, more⟩ := bind_eq_ok.mp returned
          exact again quiet (leaves_onScreen _) said more
      split at returned
      · obtain ⟨newBuffer, m₂, allocated, returned⟩ := bind_eq_ok.mp returned
        have quiet₂ : m₂.fs = m.fs := (leaves_malloc _ _ _ _ allocated).trans quiet
        split at returned
        · obtain ⟨_, u, said, more⟩ := bind_eq_ok.mp returned
          obtain ⟨rfl, rfl⟩ := pure_eq_ok.mp more
          refine ⟨(leaves_onScreen _ _ _ _ said).trans quiet₂, fun path request text value => ?_⟩
          cases value
        · obtain ⟨longer, u, stored, more⟩ := bind_eq_ok.mp returned
          exact again quiet₂ (appends _ _) stored more
      · obtain ⟨longer, u, stored, more⟩ := bind_eq_ok.mp returned
        exact again quiet (appends _ _) stored more

theorem typedEdit_answered {color barcolor : UInt8}
    {result : Option (CStr × SaveRequest × List UInt8)}
    (returned : typedEdit color barcolor m = (.ok result, m')) :
    m'.fs = m.fs ∧ ∀ path request text, result = some (path, request, text) →
    Answered m.fs path request := by
  rw [typedEdit] at returned
  obtain ⟨_, m₁, first, returned⟩ := bind_eq_ok.mp returned
  obtain ⟨_, m₂, second, returned⟩ := bind_eq_ok.mp returned
  obtain ⟨_, m₃, third, returned⟩ := bind_eq_ok.mp returned
  obtain ⟨_, m₄, fourth, returned⟩ := bind_eq_ok.mp returned
  obtain ⟨buffer, m₅, fifth, returned⟩ := bind_eq_ok.mp returned
  have quiet : m₅.fs = m.fs := by
    rw [leaves_malloc _ _ _ _ fifth, leaves_onScreen _ _ _ _ fourth, leaves_onConsole _ _ _ _ third,
      leaves_onScreen _ _ _ _ second, leaves_onScreen _ _ _ _ first]
  split at returned
  · obtain ⟨_, u, said, returned⟩ := bind_eq_ok.mp returned
    obtain ⟨rfl, rfl⟩ := pure_eq_ok.mp returned
    refine ⟨(leaves_onScreen _ _ _ _ said).trans quiet, fun path request text value => ?_⟩
    cases value
  · obtain ⟨rounds, m₆, counted, returned⟩ := bind_eq_ok.mp returned
    obtain ⟨_, rfl⟩ := read_eq_ok.mp counted
    obtain ⟨saved, m₇, edited, returned⟩ := bind_eq_ok.mp returned
    rw [← quiet]
    obtain ⟨same, answered⟩ := typedLoop_answered edited
    cases saved with
    | none =>
        obtain ⟨_, u, cleared, returned⟩ := bind_eq_ok.mp returned
        obtain ⟨rfl, rfl⟩ := pure_eq_ok.mp returned
        refine ⟨(leaves_onScreen _ _ _ _ cleared).trans same, fun path request text value => ?_⟩
        cases value
    | some saved =>
        obtain ⟨rfl, rfl⟩ := pure_eq_ok.mp returned
        exact ⟨same, answered⟩

theorem tinypadEdit_requested {color barcolor : UInt8} {result : Option (SaveRequest × List UInt8)}
    (wf : WellFormed m.fs) (nothing : m.fs.nodes 0 = none)
    (returned : tinypadEdit color barcolor m = (.ok result, m')) :
    m'.fs = m.fs ∧ ∀ request text, result = some (request, text) → Requested m.fs request := by
  rw [tinypadEdit_eq] at returned
  obtain ⟨typed, ran, rfl⟩ := map_eq_ok.mp returned
  obtain ⟨same, answered⟩ := typedEdit_answered ran
  refine ⟨same, fun request text value => ?_⟩
  obtain ⟨⟨path, pair⟩, rfl, parts⟩ := Option.map_eq_some_iff.mp value
  obtain rfl : pair = (request, text) := parts
  exact (answered path request text rfl).requested wf nothing

theorem fsCreateNode_eq_ok (returned : fsCreateNode type name parent owner m = (.ok block, m')) :
    Fresh m.fs block ∧ createNode type m.fs block name parent owner = .ok (block, m'.fs) := by
  obtain ⟨given, m₁, allocated, returned⟩ := bind_eq_ok.mp returned
  obtain ⟨same, serves⟩ := mallocAfter_eq_ok allocated
  rw [if_neg one_ne_zero] at serves
  split at returned
  · exact absurd returned stop_ne_ok
  · rename_i nonnull
    obtain ⟨fs, created, rfl⟩ := onFs_eq_ok.mp returned
    rw [same] at created
    have atGiven : given = block := by
      have pair := created
      rw [createNode] at pair
      split at pair
      · exact (Prod.mk.inj (Except.ok.inj pair)).1
      · cases pair
    subst atGiven
    exact ⟨serves.resolve_left nonnull, created⟩

/-- A node is created and added to a directory that is there. -/
theorem acts_of_createAdd {dir : Ptr}
    (created : fsCreateNode type name parent owner m = (.ok block, m₁))
    (added : fsAddChild dir block m₁ = (.ok (), m')) (nothing : m.fs.nodes 0 = none)
    (live : dir = 0 ∨ ∃ d, m.fs.nodes dir = some d) :
    Acts m.fs (.create type name parent owner dir block) m'.fs := by
  obtain ⟨fresh, first⟩ := fsCreateNode_eq_ok created
  obtain ⟨fs, second, rfl⟩ := onFs'_eq_ok.mp added
  rcases live with rfl | ⟨d, present⟩
  · -- nothing is added to `NULL`
    obtain ⟨d, here, _⟩ := Outcome.bind_eq_ok.mp second
    rw [Fs.deref_eq_ok] at here
    rw [createNode] at first
    split at first
    · obtain ⟨_, same⟩ := Prod.mk.inj (Except.ok.inj first)
      rw [← same, FsState.nodes_setNode_of_ne _ _ fresh.nonnull.symm, nothing] at here
      cases here
    · cases first
  · exact .create present fresh first second

theorem fsWrite_effect {file : Ptr} {data : List UInt8}
    (returned : fsWrite file data m = (.ok (), m')) :
    ∃ n, m.fs.nodes file = some n ∧
      ((n.type ≠ .file ∧ m'.fs = m.fs) ∨ ∃ block, Acts m.fs (.write file data block) m'.fs) := by
  obtain ⟨n, u, read, returned⟩ := bind_eq_ok.mp returned
  obtain ⟨here, rfl⟩ := deref_eq_ok.mp read
  refine ⟨n, here, ?_⟩
  split at returned
  · rename_i notFile
    obtain ⟨_, rfl⟩ := pure_eq_ok.mp returned
    exact .inl ⟨notFile, rfl⟩
  rename_i isFile
  rw [not_not] at isFile
  obtain ⟨block, m₁, allocated, returned⟩ := bind_eq_ok.mp returned
  obtain ⟨same, serves⟩ := mallocAfter_eq_ok allocated
  split at returned
  · exact absurd returned stop_ne_ok
  · rename_i copies
    obtain ⟨fs, written, rfl⟩ := onFs'_eq_ok.mp returned
    rw [same] at written
    refine .inr ⟨block, .write here isFile ?_ written⟩
    rw [MallocReturns]
    split at serves
    · rename_i empty
      rwa [if_pos empty]
    · rename_i nonempty
      rw [if_neg nonempty]
      refine serves.resolve_left fun null => copies ⟨null, fun empty => nonempty ?_⟩
      rw [empty, List.length_nil]

/-- The answer to the question of `rm`. -/
def confirmed (console : Console) : Prop :=
  (Devices.readYn (cstr "Delete directory? (y/n) $ ") 0x07 console).1 = .ok true

theorem readYn_answer {text : String} {color : UInt8} {answer : Bool}
    (returned : readYn text color m = (.ok answer, m')) :
    (Devices.readYn (cstr text) color m.console).1 = .ok answer := by
  rw [readYn, onConsole] at returned
  obtain ⟨console, reply, _⟩ := zoom_eq_ok.mp returned
  rw [reply]

/-- The action that a command carries out if it does not leave the file system alone. -/
inductive Causes (m : Machine) (userId : UInt64) (cur : Ptr) : Command → Action → Prop where
  | mkdir {path : CStr} {dir block : Ptr} : path ≠ [] → fsBasename path ≠ [] →
      fsResolve m.fs path cur = .ok 0 →
      mkdirParent m.fs cur path = .ok dir →
      Causes m userId cur (.mkdir (some path)) (.create .dir (fsBasename path) dir userId dir block)
  | rm {path : CStr} {p : Ptr} {n : FsNode} : path ≠ [] → fsResolve m.fs path cur = .ok p →
      m.fs.nodes p = some n →
      (n.type = .dir → confirmed m.console) → n.parent ≠ 0 →
      Causes m userId cur (.rm (some path)) (.remove p)
  | chmod {permArg path : Option CStr} {p : Ptr} {n : FsNode} {permissions : UInt16} :
      m.fs.nodes p = some n → n.owner = userId ∨ userId = 0 →
      Causes m userId cur (.chmod permArg path) (.chmod p permissions)
  | hexedit {filename : Option CStr} {p : Ptr} {n : FsNode} {data : List UInt8} {block : Ptr} :
      m.fs.nodes p = some n → Writable userId n →
      Causes m userId cur (.hexedit filename) (.write p data block)
  | tinypad {request : SaveRequest} {text data : List UInt8} {m₁ : Machine} {block : Ptr} :
      tinypadEdit 0x07 0x9F m = (.ok (some (request, text)), m₁) → request.file ≠ 0 →
      Causes m userId cur .tinypad (.write request.file data block)

/-- The editor saves to a file that it creates. -/
inductive SavesNew (m : Machine) : Command → FsState → Prop where
  | tinypad {request : SaveRequest} {text data : List UInt8} {m₁ : Machine} {block block' : Ptr}
      {s₁ s' : FsState} :
      tinypadEdit 0x07 0x9F m = (.ok (some (request, text)), m₁) → request.file = 0 →
        m.fs.InTree request.folder →
      Acts m.fs (.create .file request.filename request.folder 1001 request.folder block) s₁ →
      Acts s₁ (.write block data block') s' → SavesNew m .tinypad s'

/-- What a command has done to the file system. -/
def Effect (m : Machine) (userId : UInt64) (cur : Ptr) (c : Command) (s' : FsState) : Prop :=
  s' = m.fs ∨ (∃ a, Causes m userId cur c a ∧ a.InPlace m.fs ∧ Acts m.fs a s') ∨ SavesNew m c s'

theorem missing_eq_false {path : CStr} : missing (some path) = false ↔ path ≠ [] := by
  simp [missing]

theorem operand_given (given : ¬ missing operand = true) :
    ∃ path, operand = some path ∧ path ≠ [] := by
  cases operand with
  | none => exact absurd rfl given
  | some path => exact ⟨path, rfl, missing_eq_false.mp (Bool.eq_false_iff.mpr given)⟩

/-- The parent for `mkdir` is the current directory or a node that is there, if it is
    not `NULL`. -/
theorem mkdirParent_place {dir : Ptr} (wf : WellFormed s) (nothing : s.nodes 0 = none)
    (start : cur = 0 ∨ s.InTree cur) (returned : mkdirParent s cur path = .ok dir) :
    dir = 0 ∨ s.InTree dir := by
  rw [mkdirParent] at returned
  split at returned
  · obtain rfl := Outcome.pure_eq_ok.mp returned
    exact start
  · obtain ⟨found, resolved, returned⟩ := Outcome.bind_eq_ok.mp returned
    have place := fsResolve_inTree wf nothing start resolved
    split at returned
    · exact .inl (Outcome.pure_eq_ok.mp returned).symm
    · obtain ⟨n, _, returned⟩ := Outcome.bind_eq_ok.mp returned
      have value := Outcome.pure_eq_ok.mp returned
      split at value
      · exact .inl value.symm
      · exact value ▸ place

section Commands

variable (wf : WellFormed m.fs) (nothing : m.fs.nodes 0 = none) (start : cur = 0 ∨ m.fs.InTree cur)

include wf nothing start

theorem shcMkdir_effect (returned : shcMkdir cur operand userId m = (.ok (), m')) :
    Effect m userId cur (.mkdir operand) m'.fs := by
  rw [shcMkdir] at returned
  split at returned
  · exact .inl (leaves_onScreen _ _ _ _ returned)
  rename_i given
  obtain ⟨path, rfl, nonempty⟩ := operand_given given
  dsimp only [Option.getD_some] at returned
  split at returned
  · exact .inl (leaves_onScreen _ _ _ _ returned)
  rename_i named
  obtain ⟨existing, u, resolved, returned⟩ := bind_eq_ok.mp returned
  obtain ⟨leads, rfl⟩ := resolve_eq_ok.mp resolved
  split at returned
  · exact .inl (leaves_onScreen _ _ _ _ returned)
  rename_i new
  rw [not_not] at new
  subst new
  obtain ⟨parent, u, asked, returned⟩ := bind_eq_ok.mp returned
  obtain ⟨found, rfl⟩ := ofFs_eq_ok.mp asked
  split at returned
  · exact .inl (leaves_onScreen _ _ _ _ returned)
  obtain ⟨newDir, m₁, created, added⟩ := bind_eq_ok.mp returned
  have place := mkdirParent_place wf nothing start found
  have live : parent = 0 ∨ ∃ d, m.fs.nodes parent = some d := by
    refine place.imp_right fun inTree => ?_
    obtain ⟨_, d, here, _⟩ := wf.live inTree
    exact ⟨d, here⟩
  have acts := acts_of_createAdd created added nothing live
  have inTree : m.fs.InTree parent := by
    refine place.resolve_left ?_
    rintro rfl
    obtain ⟨d, here, _⟩ := created_of_acts acts
    cases nothing.symm.trans here
  exact .inr (.inl ⟨_, .mkdir nonempty named leads found, inTree, acts⟩)

theorem shcRm_effect (returned : shcRm fuel cur operand m = (.ok (), m')) :
    Effect m userId cur (.rm operand) m'.fs := by
  rw [shcRm] at returned
  split at returned
  · exact .inl (leaves_onScreen _ _ _ _ returned)
  rename_i given
  obtain ⟨path, rfl, nonempty⟩ := operand_given given
  dsimp only [Option.getD_some] at returned
  obtain ⟨node, u, resolved, returned⟩ := bind_eq_ok.mp returned
  obtain ⟨found, rfl⟩ := resolve_eq_ok.mp resolved
  split at returned
  · exact .inl (leaves_onScreen _ _ _ _ returned)
  rename_i present
  obtain ⟨n, u, read, returned⟩ := bind_eq_ok.mp returned
  obtain ⟨here, rfl⟩ := deref_eq_ok.mp read
  have asked : ∃ answer m₁, m₁.fs = m.fs ∧ (answer = true → n.type = .dir → confirmed m.console) ∧
      (if answer = false then printInfo "Omitting directory"
        else if n.parent = 0 then printError "Cannot remove root directory '/'"
        else do
          onFs' (fsRemoveChild · n.parent node)
          onFs' (fsDelete fuel · node)) m₁ = (.ok (), m') := by
    split at returned
    · obtain ⟨answer, m₁, question, returned⟩ := bind_eq_ok.mp returned
      refine ⟨answer, m₁, leaves_onConsole _ _ _ _ question, fun yes _ => ?_, returned⟩
      rw [confirmed, readYn_answer question, yes]
    · rename_i notDir
      exact ⟨true, m, rfl, fun _ isDir => absurd isDir notDir, returned⟩
  obtain ⟨answer, m₁, same, reply, returned⟩ := asked
  split at returned
  · exact .inl ((leaves_onScreen _ _ _ _ returned).trans same)
  rename_i yes
  split at returned
  · exact .inl ((leaves_onScreen _ _ _ _ returned).trans same)
  rename_i hasParent
  obtain ⟨_, m₂, first, second⟩ := bind_eq_ok.mp returned
  obtain ⟨s₁, unlinked, rfl⟩ := onFs'_eq_ok.mp first
  obtain ⟨s₂, deleted, rfl⟩ := onFs'_eq_ok.mp second
  rw [same] at unlinked
  have inTree := (fsResolve_inTree wf nothing start found).resolve_left present
  refine .inr (.inl ⟨_,
    .rm nonempty found here (reply (Bool.eq_true_of_not_eq_false yes)) hasParent, inTree, ?_⟩)
  exact .remove here hasParent unlinked deleted

omit nothing start wf in
theorem shcChmod_effect {permArg : Option CStr}
    (returned : shcChmod cur userId permArg operand m = (.ok (), m')) :
    Effect m userId cur (.chmod permArg operand) m'.fs := by
  cases permArg with
  | none => exact .inl (leaves_onScreen _ _ _ _ returned)
  | some mode =>
      cases operand with
      | none => exact .inl (leaves_onScreen _ _ _ _ returned)
      | some path =>
          rw [shcChmod] at returned
          obtain ⟨target, u, resolved, returned⟩ := bind_eq_ok.mp returned
          obtain ⟨found, rfl⟩ := resolve_eq_ok.mp resolved
          split at returned
          · exact .inl (leaves_onScreen _ _ _ _ returned)
          obtain ⟨n, u, read, returned⟩ := bind_eq_ok.mp returned
          obtain ⟨here, rfl⟩ := deref_eq_ok.mp read
          split at returned
          · exact .inl (leaves_onScreen _ _ _ _ returned)
          rename_i allowed
          obtain ⟨_, m₁, changed, said⟩ := bind_eq_ok.mp returned
          obtain ⟨fs, set, rfl⟩ := onFs'_eq_ok.mp changed
          obtain rfl := Except.ok.inj set
          have owns : n.owner = userId ∨ userId = 0 := by
            by_contra neither
            rw [not_or] at neither
            exact allowed neither
          refine .inr (.inl ⟨.chmod target (changedPermissions mode n.permissions),
            .chmod here owns, trivial, ?_⟩)
          rw [leaves_onScreen _ _ _ _ said]
          exact .chmod here

omit nothing start wf in
theorem hexeditSave_effect {file : Ptr} {text : CStr}
    (returned : hexeditSave file n text m = (.ok (), m')) :
    m'.fs = m.fs ∨ ∃ data block, Acts m.fs (.write file data block) m'.fs := by
  obtain ⟨parsed, m₁, allocated, returned⟩ := bind_eq_ok.mp returned
  have quiet := leaves_malloc _ _ _ _ allocated
  split at returned
  · obtain ⟨_, rfl⟩ := pure_eq_ok.mp returned
    exact .inl quiet
  · obtain ⟨_, _, same | ⟨block, acts⟩⟩ := fsWrite_effect returned
    · exact .inl (same.2.trans quiet)
    · rw [quiet] at acts
      exact .inr ⟨_, block, acts⟩

omit nothing start wf in
theorem hexeditFile_effect {file : Ptr} (returned : hexeditFile file n m = (.ok (), m')) :
    m'.fs = m.fs ∨ ∃ data block, Acts m.fs (.write file data block) m'.fs := by
  obtain ⟨hexdump, m₁, first, returned⟩ := bind_eq_ok.mp returned
  obtain ⟨modified, m₂, second, returned⟩ := bind_eq_ok.mp returned
  have quiet : m₂.fs = m.fs := (leaves_malloc _ _ _ _ second).trans (leaves_malloc _ _ _ _ first)
  split at returned
  · exact .inl ((leaves_onScreen _ _ _ _ returned).trans quiet)
  obtain ⟨data, m₃, loaded, returned⟩ := bind_eq_ok.mp returned
  obtain ⟨line, m₄, edited, returned⟩ := bind_eq_ok.mp returned
  obtain ⟨_, m₅, saved, said⟩ := bind_eq_ok.mp returned
  have quiet₄ : m₄.fs = m.fs :=
    (leaves_onConsole _ _ _ _ edited).trans ((leaves_ofFs _ _ _ _ loaded).trans quiet)
  rw [leaves_onScreen _ _ _ _ said, ← quiet₄]
  exact hexeditSave_effect saved

omit nothing start wf in
theorem hexeditMain_effect (returned : hexeditMain userId operand cur m = (.ok (), m')) :
    Effect m userId cur (.hexedit operand) m'.fs := by
  cases operand with
  | none => exact absurd returned stop_ne_ok
  | some path =>
      rw [hexeditMain] at returned
      obtain ⟨file, u, resolved, returned⟩ := bind_eq_ok.mp returned
      obtain ⟨found, rfl⟩ := resolve_eq_ok.mp resolved
      split at returned
      · exact .inl (leaves_onScreen _ _ _ _ returned)
      obtain ⟨n, u, read, returned⟩ := bind_eq_ok.mp returned
      obtain ⟨here, rfl⟩ := deref_eq_ok.mp read
      split at returned
      · exact .inl (leaves_onScreen _ _ _ _ returned)
      split at returned
      · exact .inl (leaves_onScreen _ _ _ _ returned)
      rename_i writable
      rw [not_not] at writable
      cases hexeditFile_effect returned with
      | inl same => exact .inl same
      | inr wrote =>
          obtain ⟨data, block, acts⟩ := wrote
          exact .inr (.inl ⟨_, .hexedit here writable, trivial, acts⟩)

omit wf start in
/-- A save writes the file that was found, or one that it creates in the folder. -/
theorem saveText_effect {request : SaveRequest} {text : List UInt8} {d : FsNode}
    (folder : m.fs.nodes request.folder = some d)
    (isFile : request.file ≠ 0 → ∃ n, m.fs.nodes request.file = some n ∧ n.type = .file)
    (saved : saveText request text m = (.ok (), m')) :
    (request.file = 0 ∧ ∃ block block' s₁,
      Acts m.fs (.create .file request.filename request.folder 1001 request.folder block) s₁ ∧
        Acts s₁ (.write block (text.take (text.length % 2 ^ 32)) block') m'.fs) ∨
    (request.file ≠ 0 ∧ ∃ block,
    Acts m.fs (.write request.file (text.take (text.length % 2 ^ 32)) block) m'.fs) := by
  rw [saveText] at saved
  split at saved
  · rename_i missing
    obtain ⟨created, u, first, wrote⟩ := bind_eq_ok.mp saved
    obtain ⟨_, v, added, wrote⟩ := bind_eq_ok.mp wrote
    obtain ⟨file, w, same, wrote⟩ := bind_eq_ok.mp wrote
    obtain ⟨rfl, rfl⟩ := pure_eq_ok.mp same
    have acts := acts_of_createAdd first added nothing (.inr ⟨d, folder⟩)
    obtain ⟨_, _, made⟩ := created_of_acts acts
    obtain ⟨par, leaf⟩ := made.atBlock
    obtain ⟨n, present, notFile | ⟨block, write⟩⟩ := fsWrite_effect wrote
    · obtain rfl := Option.some.inj (leaf.symm.trans present)
      exact absurd rfl notFile.1
    · exact .inl ⟨missing, created, block, v.fs, acts, write⟩
  · rename_i present
    obtain ⟨file, w, same, wrote⟩ := bind_eq_ok.mp saved
    obtain ⟨rfl, rfl⟩ := pure_eq_ok.mp same
    obtain ⟨n, here, type⟩ := isFile present
    obtain ⟨n', here', notFile | ⟨block, write⟩⟩ := fsWrite_effect wrote
    · obtain rfl := Option.some.inj (here.symm.trans here')
      exact absurd type notFile.1
    · exact .inr ⟨present, block, write⟩

omit start in
theorem tinypadMain_effect (returned : tinypadMain 0x07 0x9F m = (.ok (), m')) :
    Effect m userId cur .tinypad m'.fs := by
  rw [tinypadMain] at returned
  obtain ⟨saved, m₁, edited, returned⟩ := bind_eq_ok.mp returned
  obtain ⟨quiet, requested⟩ := tinypadEdit_requested wf nothing edited
  cases saved with
  | none =>
      obtain ⟨_, rfl⟩ := pure_eq_ok.mp returned
      exact .inl quiet
  | some pair =>
      obtain ⟨request, text⟩ := pair
      have asked := requested request text rfl
      obtain ⟨_, m₂, wrote, returned⟩ := bind_eq_ok.mp returned
      obtain ⟨_, m₃, said, cleared⟩ := bind_eq_ok.mp returned
      rw [leaves_onScreen _ _ _ _ cleared, leaves_onScreen _ _ _ _ said]
      obtain ⟨_, d, here, _⟩ := wf.live asked.folder
      rw [← quiet] at nothing here
      have done := saveText_effect nothing here (quiet.symm ▸ asked.isFile) wrote
      rw [quiet] at done
      rcases done with ⟨missing, block, block', s₁, create, write⟩ | ⟨present, block, write⟩
      · exact .inr (.inr (.tinypad edited missing asked.folder create write))
      · exact .inr (.inl ⟨_, .tinypad edited present, trivial, write⟩)

/-- What the commands do to the file system, one command at a time. -/
theorem runCommand_effect {c : Command}
    (returned : runCommand fuel userId cur c m = (.ok cur', m')) :
    Effect m userId cur c m'.fs := by
  cases c with
  | cat path =>
      obtain ⟨_, m₁, first, last⟩ := bind_eq_ok.mp returned
      obtain ⟨_, rfl⟩ := pure_eq_ok.mp last
      exact .inl (leaves_shcCat _ _ _ _ _ _ first)
  | cd path => exact .inl (leaves_shcCd _ _ _ _ _ _ returned)
  | ls =>
      obtain ⟨_, m₁, first, last⟩ := bind_eq_ok.mp returned
      obtain ⟨_, rfl⟩ := pure_eq_ok.mp last
      exact .inl (leaves_shcLs _ _ _ _ first)
  | mkdir path =>
      obtain ⟨_, m₁, first, last⟩ := bind_eq_ok.mp returned
      obtain ⟨_, rfl⟩ := pure_eq_ok.mp last
      exact shcMkdir_effect wf nothing start first
  | rm path =>
      obtain ⟨_, m₁, first, last⟩ := bind_eq_ok.mp returned
      obtain ⟨_, rfl⟩ := pure_eq_ok.mp last
      exact shcRm_effect wf nothing start first
  | chmod permArg path =>
      rw [runCommand] at returned
      split at returned
      · obtain ⟨_, m₁, first, last⟩ := bind_eq_ok.mp returned
        obtain ⟨_, rfl⟩ := pure_eq_ok.mp last
        exact .inl (leaves_onScreen _ _ _ _ first)
      · obtain ⟨_, m₁, first, last⟩ := bind_eq_ok.mp returned
        obtain ⟨_, rfl⟩ := pure_eq_ok.mp last
        exact shcChmod_effect first
  | hexedit filename =>
      obtain ⟨_, m₁, first, last⟩ := bind_eq_ok.mp returned
      obtain ⟨_, rfl⟩ := pure_eq_ok.mp last
      exact hexeditMain_effect first
  | tinypad =>
      obtain ⟨_, m₁, first, last⟩ := bind_eq_ok.mp returned
      obtain ⟨_, rfl⟩ := pure_eq_ok.mp last
      exact tinypadMain_effect wf nothing first

omit nothing start wf in
theorem shcCd_dir (returned : shcCd cur operand userId m = (.ok cur', m')) :
    cur' = cur ∨ ∃ path n, operand = some path ∧ path ≠ [] ∧ fsResolve m.fs path cur = .ok cur' ∧
    cur' ≠ 0 ∧ m.fs.nodes cur' = some n ∧ n.type = .dir ∧ permsOf userId n &&& 1 ≠ 0 := by
  rw [shcCd] at returned
  split at returned
  · obtain ⟨_, u, _, returned⟩ := bind_eq_ok.mp returned
    exact .inl (pure_eq_ok.mp returned).1.symm
  rename_i given
  obtain ⟨path, rfl, nonempty⟩ := operand_given given
  obtain ⟨target, u, resolved, returned⟩ := bind_eq_ok.mp returned
  obtain ⟨found, rfl⟩ := resolve_eq_ok.mp resolved
  split at returned
  · obtain ⟨_, u, _, returned⟩ := bind_eq_ok.mp returned
    exact .inl (pure_eq_ok.mp returned).1.symm
  rename_i present
  obtain ⟨n, u, read, returned⟩ := bind_eq_ok.mp returned
  obtain ⟨here, rfl⟩ := deref_eq_ok.mp read
  split at returned
  · obtain ⟨_, u, _, returned⟩ := bind_eq_ok.mp returned
    exact .inl (pure_eq_ok.mp returned).1.symm
  rename_i isDir
  rw [not_not] at isDir
  split at returned
  · obtain ⟨_, u, _, returned⟩ := bind_eq_ok.mp returned
    exact .inl (pure_eq_ok.mp returned).1.symm
  rename_i enter
  obtain ⟨rfl, _⟩ := pure_eq_ok.mp returned
  exact .inr ⟨path, n, rfl, nonempty, found, present, here, isDir, enter⟩

/-- The current directory changes to a directory of the tree, and only in a command that
    leaves the file system alone. -/
theorem runCommand_dir {c : Command} (returned : runCommand fuel userId cur c m = (.ok cur', m')) :
    cur' = cur ∨ m'.fs = m.fs ∧ m.fs.InTree cur' ∧ ∃ n, m.fs.nodes cur' = some n ∧
    n.type = .dir := by
  cases c with
  | cd path =>
      have same : m'.fs = m.fs := leaves_shcCd _ _ _ _ _ _ returned
      rcases shcCd_dir returned with stays | ⟨path, n, _, _, found, present, here, isDir, _⟩
      · exact .inl stays
      · exact .inr ⟨same, (fsResolve_inTree wf nothing start found).resolve_left present, n,
          here, isDir⟩
  | chmod permArg path =>
      rw [runCommand] at returned
      split at returned
      · obtain ⟨_, m₁, _, last⟩ := bind_eq_ok.mp returned
        exact .inl (pure_eq_ok.mp last).1.symm
      · obtain ⟨_, m₁, _, last⟩ := bind_eq_ok.mp returned
        exact .inl (pure_eq_ok.mp last).1.symm
  | cat | ls | mkdir | rm | hexedit | tinypad =>
      obtain ⟨_, m₁, _, last⟩ := bind_eq_ok.mp returned
      exact .inl (pure_eq_ok.mp last).1.symm

end Commands

end AurorOS.Shell
