import AurorOS.Fs.Capacity
import AurorOS.Fs.Growth
import AurorOS.Shell.Sessions

/-! # The file system at boot

`init_fs` builds the first directories and files.  The blocks are those that `malloc`
returns, whichever they are.
-/

namespace AurorOS.Shell

open Fs Devices Apps Program

/-- `dir->permissions = permissions;` -/
def setPermissions (dir : Ptr) (permissions : UInt16) : Kernel Unit :=
  onFs' fun s => do
    let n ← s.deref dir
    return s.setNode dir { n with permissions := permissions }

/-- The directories of the system are created alike. -/
def initDir (name : String) (parent : Ptr) : Kernel Ptr := do
  let dir ← fsCreateNode .dir (cstr name) parent 0
  setPermissions dir 0o755
  fsAddChild parent dir
  return dir

/-- So are the files. -/
def initFile (name : String) (dir : Ptr) (owner : UInt64) (data : List UInt8) : Kernel Unit := do
  let file ← fsCreateNode .file (cstr name) dir owner
  fsAddChild dir file
  fsWrite file data

/-- `users_content`, a line at a time. -/
def usersContent : List String := ["0:root:x::\n", "1001:liveuser:x:sudo,sudonopasswd:"]

/-- The literal with the groups, in pieces. -/
def groupsContent : List String :=
  ["group \x7b\n", "  name = sudo\n", "  desc = All users in this group ",
    "will be able to use the sudo command.\n", "\x7d\n\n", "group \x7b\n",
    "  name = sudonopasswd\n", "  desc = All users in this group ",
    "will be able to use the sudo command ", "without the need to enter the user password.\n",
    "\x7d"]

/-- `init_fs`.  The size given for the first file is 23, so that its terminator and the three
    characters `beyond` that lie behind it are copied as well. -/
def initFs (beyond : List UInt8) : Kernel Unit := do
  let fsRoot ← fsCreateNode .dir (cstr "/") 0 0
  onFs' fun s => .ok { s with fsRoot := fsRoot }
  let _bin ← initDir "bin" fsRoot
  let home ← initDir "home" fsRoot
  let user ← fsCreateNode .dir (cstr "liveuser") home 1001
  fsAddChild home user
  let _root ← initDir "root" fsRoot
  let etc ← initDir "etc" fsRoot
  initFile "README.txt" user 1001 (cstr "Welcome to AurorOS!" ++ 0 :: beyond)
  initFile "users" etc 0 (usersContent.flatMap cstr)
  -- the size given for the last one is 243, which takes in the terminator
  initFile "groups" etc 0 (groupsContent.flatMap cstr ++ [0])

/-- Nothing is there yet. -/
def noFs : FsState where
  nodes := fun _ => none
  bufs := fun _ => none
  fsRoot := 0
  freed := []

/-- The file system is in order, and the given places are directories of the tree. -/
structure Ready (s : FsState) (dirs : List Ptr) : Prop where
  tree : WellFormed s
  nothing : s.nodes 0 = none
  files : FilesOk s
  capacity : Capacity s
  places : ∀ p ∈ dirs, s.InTree p ∧ ∃ n, s.nodes p = some n ∧ n.type = .dir

variable {s s' : FsState} {m m' m₁ : Machine} {dirs : List Ptr} {p dir parent block file : Ptr}
  {type : NodeType} {name : CStr} {owner : UInt64} {data beyond : List UInt8}

/-- An action that removes nothing keeps the order and the directories. -/
theorem Ready.acts {a : Action} (ready : Ready s dirs) (acts : Acts s a s') (inPlace : a.InPlace s)
    (keeps : ∀ p, a ≠ .remove p) : Ready s' dirs where
  tree := acts.wellFormed ready.tree inPlace
  nothing := acts.null ready.tree inPlace ready.nothing
  files := acts.filesOk ready.tree inPlace ready.files
  capacity := acts.capacity ready.capacity
  places := fun p member =>
    acts.dir_stays ready.tree inPlace (ready.places p member) fun q same => absurd same (keeps q)

/-- Setting permissions that a node has already changes nothing. -/
theorem setNode_same {n : FsNode} (present : s.nodes p = some n) : s.setNode p n = s := by
  rw [FsState.setNode, ← present, Function.update_eq_self]

/-- The new node of an action is in the tree. -/
theorem Ready.new (ready : Ready s dirs) (member : dir ∈ dirs)
    (acts : Acts s (.create type name parent owner dir block) s') : s'.InTree block := by
  obtain ⟨inTree, d, present, isDir⟩ := ready.places dir member
  obtain ⟨d', present', made⟩ := created_of_acts acts
  obtain rfl := Option.some.inj (present.symm.trans present')
  have stays := (ready.acts acts inTree nofun).places dir member
  refine stays.1.tail ?_
  rw [kids_of (made.atDir isDir).2, childList_adding]
  exact List.mem_append_right _ List.mem_cons_self

/-- Creating a node and adding it is an action. -/
theorem Ready.acts_create (ready : Ready m.fs dirs) (member : dir ∈ dirs)
    (created : fsCreateNode type name dir owner m = (.ok block, m₁))
    (added : fsAddChild dir block m₁ = (.ok (), m')) :
    Acts m.fs (.create type name dir owner dir block) m'.fs := by
  obtain ⟨_, d, present, _⟩ := ready.places dir member
  exact acts_of_createAdd created added ready.nothing (.inr ⟨d, present⟩)

theorem Ready.created (ready : Ready s dirs) (member : dir ∈ dirs)
    (acts : Acts s (.create type name parent owner dir block) s') :
    Ready s' dirs ∧ s'.InTree block ∧ ∃ n, s'.nodes block = some n ∧ n.type = type := by
  obtain ⟨_, _, made⟩ := created_of_acts acts
  obtain ⟨par, leaf⟩ := made.atBlock
  exact ⟨ready.acts acts (ready.places dir member).1 nofun, ready.new member acts, _, leaf, rfl⟩

theorem Ready.sub {places : List Ptr} (ready : Ready s dirs) (sub : places ⊆ dirs) :
    Ready s places :=
  ⟨ready.tree, ready.nothing, ready.files, ready.capacity,
    fun p member => ready.places p (sub member)⟩

theorem Ready.cons (ready : Ready s dirs) (inTree : s.InTree p)
    (isDir : ∃ n, s.nodes p = some n ∧ n.type = .dir) :
    Ready s (p :: dirs) where
  tree := ready.tree
  nothing := ready.nothing
  files := ready.files
  capacity := ready.capacity
  places := by
    intro q member
    rcases List.mem_cons.mp member with rfl | old
    · exact ⟨inTree, isDir⟩
    · exact ready.places q old

/-- The permissions that `init_fs` sets are the default ones, so that a directory is created and
    no more. -/
theorem acts_initDir {text : String} (ready : Ready m.fs dirs) (member : parent ∈ dirs)
    (returned : initDir text parent m = (.ok dir, m')) :
    Acts m.fs (.create .dir (cstr text) parent 0 parent dir) m'.fs := by
  obtain ⟨block, m₁, created, returned⟩ := bind_eq_ok.mp returned
  obtain ⟨_, m₂, permitted, returned⟩ := bind_eq_ok.mp returned
  obtain ⟨_, m₃, added, returned⟩ := bind_eq_ok.mp returned
  obtain ⟨rfl, rfl⟩ := pure_eq_ok.mp returned
  have same : m₂ = m₁ := by
    obtain ⟨_, made⟩ := fsCreateNode_eq_ok created
    obtain ⟨fs, set, rfl⟩ := onFs'_eq_ok.mp permitted
    obtain ⟨n, present, set⟩ := Outcome.bind_eq_ok.mp set
    rw [Fs.deref_eq_ok] at present
    rw [createNode] at made
    split at made
    case isFalse => cases made
    have here := congrArg (FsState.nodes · block) (Prod.mk.inj (Except.ok.inj made)).2
    rw [present] at here
    rw [FsState.nodes_setNode_self] at here
    obtain rfl := Option.some.inj here
    obtain rfl := Outcome.pure_eq_ok.mp set
    exact congrArg (fun fs => ({ m₁ with fs := fs } : Machine)) (setNode_same present)
  subst same
  exact ready.acts_create member created added

theorem ready_initDir {text : String} (ready : Ready m.fs dirs) (member : parent ∈ dirs)
    (returned : initDir text parent m = (.ok dir, m')) : Ready m'.fs (dir :: dirs) := by
  obtain ⟨ready', inTree, isDir⟩ := ready.created member (acts_initDir ready member returned)
  exact ready'.cons inTree isDir

/-- A file is created and written. -/
theorem acts_initFile {text : String} (ready : Ready m.fs dirs) (member : dir ∈ dirs)
    (returned : initFile text dir owner data m = (.ok (), m')) :
    ∃ file s₁ bytes block, Acts m.fs (.create .file (cstr text) dir owner dir file) s₁ ∧
      Acts s₁ (.write file bytes block) m'.fs := by
  obtain ⟨file, m₁, created, returned⟩ := bind_eq_ok.mp returned
  obtain ⟨_, m₂, added, returned⟩ := bind_eq_ok.mp returned
  have acts := ready.acts_create member created added
  obtain ⟨_, _, n, present, isFile⟩ := ready.created member acts
  obtain ⟨n', present', notFile | ⟨bytes, wrote⟩⟩ := fsWrite_effect returned
  · obtain rfl := Option.some.inj (present.symm.trans present')
    exact absurd isFile notFile.1
  · exact ⟨file, m₂.fs, _, bytes, acts, wrote⟩

/-- The root on its own. -/
theorem ready_root (bare : m.fs = noFs) (created : fsCreateNode .dir name 0 0 m = (.ok block, m')) :
    Ready { m'.fs with fsRoot := block } [block] := by
  obtain ⟨fresh, made⟩ := fsCreateNode_eq_ok created
  rw [createNode] at made
  split at made
  case isFalse => cases made
  obtain ⟨_, same⟩ := Prod.mk.inj (Except.ok.inj made)
  rw [← same, bare]
  have atRoot : (noFs.setNode block (leafNode .dir name 0 0)).nodes block =
      some (leafNode .dir name 0 0) :=
    FsState.nodes_setNode_self ..
  have only : ∀ x n, (noFs.setNode block (leafNode .dir name 0 0)).nodes x = some n →
      x = block ∧ n = leafNode .dir name 0 0 := by
    intro x n present
    by_cases other : x = block
    · subst other
      exact ⟨rfl, Option.some.inj (present.symm.trans atRoot)⟩
    · rw [FsState.nodes_setNode_of_ne _ _ other] at present
      cases present
  have notFile : ∀ x n, (noFs.setNode block (leafNode .dir name 0 0)).nodes x = some n →
      n.type ≠ .file := by
    intro x n present
    rw [(only x n present).2]
    exact NodeType.noConfusion
  refine ⟨⟨.nil, ⟨⟨parent_of atRoot, kids_of atRoot, trivial, trivial⟩, ?_⟩, ?_⟩, ?_, ⟨?_, ?_, ?_⟩,
    ?_, ?_⟩
  · intro x inside
    obtain rfl := List.mem_singleton.mp inside
    exact ⟨fresh.nonnull, _, atRoot, Nat.zero_le 64, NodeType.noConfusion, NodeType.noConfusion⟩
  · exact List.nodup_singleton block
  · exact FsState.nodes_setNode_of_ne _ _ fresh.nonnull.symm
  · exact fun x n present isFile => absurd isFile (notFile x n present)
  · exact fun x n present isFile => absurd isFile (notFile x n present)
  · exact fun x y n _ present _ isFile => absurd isFile (notFile x n present)
  · intro x n present
    rw [(only x n present).2]
    exact Nat.zero_le 64
  · intro p member
    obtain rfl := List.mem_singleton.mp member
    exact ⟨.refl, _, atRoot, rfl⟩

/-- No absolute path has more than `k` characters. -/
structure ReadyWithin (s : FsState) (dirs : List Ptr) (k : Nat) : Prop where
  ready : Ready s dirs
  within : ∀ x path, AbsolutePath s x path → path.length ≤ k

/-- A node more brings a path that is longer by its name and a slash. -/
theorem ReadyWithin.create {k : Nat} (small : ReadyWithin s dirs k) (member : dir ∈ dirs)
    (acts : Acts s (.create type name parent owner dir block) s') :
    ReadyWithin s' dirs (k + (name.length + 1)) where
  ready := (small.ready.created member acts).1
  within := by
    obtain ⟨_, d, present, isDir⟩ := small.ready.places dir member
    obtain ⟨d', present', made⟩ := created_of_acts acts
    obtain rfl := Option.some.inj (present.symm.trans present')
    intro x path absolute
    rcases absolutePath_of_created made present isDir small.ready.tree.consistentTree absolute with
      old | ⟨_, front, above, rfl⟩
    · exact (small.within x path old).trans (Nat.le_add_right k _)
    · rw [List.length_append, List.length_cons]
      exact Nat.add_le_add_right (small.within dir front above) _

theorem ReadyWithin.write {k : Nat} (small : ReadyWithin s dirs k)
    (acts : Acts s (.write file data block) s') :
    ReadyWithin s' dirs k where
  ready := small.ready.acts acts trivial nofun
  within := by
    obtain ⟨n, present, wrote⟩ := written_of_acts acts
    exact fun x path absolute =>
      small.within x path (absolute.grows (grows_of_written wrote present) wrote.root.symm)

theorem within_initDir {text : String} {k : Nat} (small : ReadyWithin m.fs dirs k)
    (member : parent ∈ dirs) (returned : initDir text parent m = (.ok dir, m')) :
    ReadyWithin m'.fs (dir :: dirs) (k + ((cstr text).length + 1)) where
  ready := ready_initDir small.ready member returned
  within := (small.create member (acts_initDir small.ready member returned)).within

theorem within_initFile {text : String} {k : Nat} (small : ReadyWithin m.fs dirs k)
    (member : dir ∈ dirs) (returned : initFile text dir owner data m = (.ok (), m')) :
    ReadyWithin m'.fs dirs (k + ((cstr text).length + 1)) := by
  obtain ⟨_, _, _, _, create, write⟩ := acts_initFile small.ready member returned
  exact (small.create member create).write write

/-- The root has the empty path, and there is no other node. -/
theorem within_root (bare : m.fs = noFs)
    (created : fsCreateNode .dir name 0 0 m = (.ok block, m')) :
    ReadyWithin { m'.fs with fsRoot := block } [block] 0 where
  ready := ready_root bare created
  within := by
    obtain ⟨_, made⟩ := fsCreateNode_eq_ok created
    rw [createNode] at made
    split at made
    case isFalse => cases made
    obtain ⟨_, same⟩ := Prod.mk.inj (Except.ok.inj made)
    rw [← same, bare]
    intro x path absolute
    cases absolute with
    | root => exact le_rfl
    | @child q c front n _ listed _ =>
        have none : (noFs.setNode block (leafNode .dir name 0 0)).kids q = [] := by
          by_cases other : q = block
          · rw [other, kids_of (FsState.nodes_setNode_self ..)]
            rfl
          · rw [FsState.kids, FsState.nodes_setNode_of_ne _ _ other]
            rfl
        exact absurd (none ▸ listed) List.not_mem_nil

/-- What `init_fs` leaves behind is in order, and its paths are short. -/
theorem initFs_within (bare : m.fs = noFs) (returned : initFs beyond m = (.ok (), m')) :
    ReadyWithin m'.fs [] 255 := by
  obtain ⟨fsRoot, m₁, created, returned⟩ := bind_eq_ok.mp returned
  obtain ⟨_, m₂, set, returned⟩ := bind_eq_ok.mp returned
  obtain ⟨fs, named, rfl⟩ := onFs'_eq_ok.mp set
  obtain rfl := Except.ok.inj named
  have root := within_root bare created
  obtain ⟨bin, m₃, made, returned⟩ := bind_eq_ok.mp returned
  have withBin := within_initDir root List.mem_cons_self made
  obtain ⟨home, m₄, made, returned⟩ := bind_eq_ok.mp returned
  have withHome := within_initDir withBin (by simp) made
  obtain ⟨user, m₅, made, returned⟩ := bind_eq_ok.mp returned
  obtain ⟨_, m₆, added, returned⟩ := bind_eq_ok.mp returned
  have acts := withHome.ready.acts_create List.mem_cons_self made added
  obtain ⟨_, userInTree, userIsDir⟩ := withHome.ready.created List.mem_cons_self acts
  have still := withHome.create List.mem_cons_self acts
  have withUser : ReadyWithin m₆.fs (user :: home :: bin :: [fsRoot]) _ :=
    ⟨still.ready.cons userInTree userIsDir, still.within⟩
  obtain ⟨rootHome, m₇, made, returned⟩ := bind_eq_ok.mp returned
  have withRoot := within_initDir withUser (by simp) made
  obtain ⟨etc, m₈, made, returned⟩ := bind_eq_ok.mp returned
  have withEtc := within_initDir withRoot (by simp) made
  obtain ⟨_, m₉, made, returned⟩ := bind_eq_ok.mp returned
  have withReadme := within_initFile withEtc (by simp) made
  obtain ⟨_, m₁₀, made, returned⟩ := bind_eq_ok.mp returned
  have withUsers := within_initFile withReadme List.mem_cons_self made
  have whole := within_initFile withUsers List.mem_cons_self returned
  exact ⟨whole.ready.sub (List.nil_subset _),
    fun x path absolute => (whole.within x path absolute).trans (by decide)⟩

theorem initFs_ready (bare : m.fs = noFs) (returned : initFs beyond m = (.ok (), m')) :
    Ready m'.fs [] :=
  (initFs_within bare returned).ready

end AurorOS.Shell
