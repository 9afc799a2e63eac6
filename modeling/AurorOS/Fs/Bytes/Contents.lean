import AurorOS.Fs.Bytes.Refinement

/-! # What files read as

From an empty root on a heap that has just been initialised, nodes are created and files
are written in any order.  A file reads as what was written to it last.
-/

namespace AurorOS.Fs.Bytes

open ByteMemory Heap FsState Runs

/-- The heap, and the nodes that were created on it. -/
structure Store where
  heap : State
  dirs : List Ptr
  files : List Ptr

inductive StoreEvent where
  | create (type : NodeType) (name : List UInt8) (parent dir : Ptr) (owner : UInt64)
  | write (file src size : Nat)
  /-- Memory outside the pool changes. -/
  | elsewhere

/-- Names fit and directories have room; sizes are of type `uint32_t` and sources outside the
    heap.  A call that exhausts the heap has no successor. -/
inductive StoreStep (L : Layout) : Store → StoreEvent → Store → Prop where
  | create {t type name parent dir owner node h} :
      name.length < 32 → 0 ∉ name → parent < L.arch.wordSize → dir ∈ t.dirs →
      get L.arch t.heap.mem dir .childCount < 64 →
      createNode L type t.heap name parent owner = .ok (node, h) →
      StoreStep L t (.create type name parent dir owner)
        { heap := { h with mem := emulatedFsAddChild L.arch h.mem dir node }
          dirs := if type = .dir then node :: t.dirs else t.dirs
          files := if type = .file then node :: t.files else t.files }
  | write {t file src size h} : file ∈ t.files → size < 2 ^ 32 → L.Apart src size →
      emulatedFsWrite L t.heap file src size = .ok h →
      StoreStep L t (.write file src size) { t with heap := h }
  | elsewhere {t m} : (∀ x, ¬ L.Outside x → m x = t.heap.mem x) →
      StoreStep L t .elsewhere { t with heap := { t.heap with mem := m } }

/-- A booted kernel after `init_memory_heap` and `emulated_fs_init`. -/
def freshStore (L : Layout) (mem : Mem) : Except Fault Store := do
  let (root, h) ← emulatedFsInit L (initMemoryHeap L (boot mem))
  return ⟨h, [root], []⟩

/-- What the event writes to the file. -/
def written (file : Ptr) : Store × StoreEvent → Option (List UInt8)
  | (t, .write f src size) => if f = file then some (bytesAt t.heap.mem src size) else none
  | _ => none

/-- The last write to the file; nothing for a file that was never written. -/
def lastWrite (file : Ptr) (trace : List (Store × StoreEvent)) : List UInt8 :=
  (trace.filterMap (written file)).getLast?.getD []

/-- No event of the trace writes the file. -/
def Unwritten (file : Ptr) (trace : List (Store × StoreEvent)) : Prop :=
  ∀ entry ∈ trace, ∀ src size, entry.2 ≠ .write file src size

/-- Reading the file yields this content, cut to the buffer, which is not in the file's
    own data. -/
def ReadsAs (L : Layout) (t : Store) (file : Ptr) (content : List UInt8) : Prop :=
  ∀ (out : Nat) (max : UInt32), 0 < max →
    (out + max.toNat ≤ get L.arch t.heap.mem file .data ∨
      get L.arch t.heap.mem file .data + get L.arch t.heap.mem file .size ≤ out) →
    Reads t.heap.mem out (min content.length (max.toNat - 1)) content
      (emulatedFsRead L.arch t.heap.mem file out max)

variable {L : Layout} {mem : Mem} {t t' u : Store} {e : StoreEvent}
  {trace later : List (Store × StoreEvent)} {file : Ptr} {held : List Allocation} {s s' : FsState}
  {n : FsNode}

theorem lastWrite_snoc (file : Ptr) (trace : List (Store × StoreEvent))
    (entry : Store × StoreEvent) :
    lastWrite file (trace ++ [entry]) = (written file entry).getD (lastWrite file trace) := by
  rw [lastWrite, List.filterMap_append]
  cases here : written file entry with
  | none => rw [List.filterMap_cons_none here, List.filterMap_nil, List.append_nil]; rfl
  | some data => rw [List.filterMap_cons_some here, List.filterMap_nil, List.getLast?_concat]; rfl

theorem lastWrite_write (file src size : Nat) (trace : List (Store × StoreEvent)) (t : Store) :
    lastWrite file (trace ++ [(t, .write file src size)]) = bytesAt t.heap.mem src size := by
  rw [lastWrite_snoc, written, if_pos rfl]
  rfl

theorem Unwritten.filterMap (unwritten : Unwritten file trace) :
    trace.filterMap (written file) = [] := by
  refine List.filterMap_eq_nil_iff.mpr ?_
  rintro ⟨t, e⟩ member
  cases e with
  | write f src size =>
      refine if_neg ?_
      rintro rfl
      exact unwritten _ member src size rfl
  | _ => rfl

theorem Unwritten.lastWrite_append (unwritten : Unwritten file later) :
    lastWrite file (trace ++ later) = lastWrite file trace := by
  rw [lastWrite, List.filterMap_append, unwritten.filterMap, List.append_nil]
  rfl

theorem Unwritten.lastWrite (unwritten : Unwritten file trace) : lastWrite file trace = [] :=
  @Unwritten.lastWrite_append [] trace file unwritten

/-- Memory holds a well-formed tree with the directories and the files, and the files hold
    what was written to them last. -/
structure StoreInv (L : Layout) (trace : List (Store × StoreEvent)) (t : Store)
    (held : List Allocation) (s : FsState) :
    Prop where
  rep : Represents L t.heap held s
  wf : WellFormed s
  filesOk : FilesOk s
  dirs : ∀ d ∈ t.dirs, s.InTree d ∧ ∃ n, s.nodes d = some n ∧ n.type = .dir
  files : ∀ f ∈ t.files, ∃ n, s.nodes f = some n ∧ n.type = .file ∧
    s.contentOf n = some (lastWrite f trace)
  others : ∀ f, f ∉ t.files → lastWrite f trace = []

theorem mem_ite_cons {x a : Ptr} {l : List Ptr} (c : Prop) [Decidable c] :
    x ∈ (if c then a :: l else l) ↔ (c ∧ x = a) ∨ x ∈ l := by
  by_cases holds : c <;> simp [holds]

namespace StoreInv

variable (inv : StoreInv L trace t held s)

include inv

/-- A directory that is listed, with room for another child. -/
theorem directory {dir : Ptr} (listed : dir ∈ t.dirs)
    (room : get L.arch t.heap.mem dir .childCount < 64) :
    s.InTree dir ∧ ∃ d, s.nodes dir = some d ∧ d.type = .dir ∧ d.childCount < 64 := by
  obtain ⟨inTree, d, present, isDir⟩ := inv.dirs dir listed
  have count : get L.arch t.heap.mem dir .childCount =
    d.childCount := (inv.rep.nodes dir d present).2.fields .childCount trivial
  exact ⟨inTree, d, present, isDir, count ▸ room⟩

theorem create {type : NodeType} {name : List UInt8} {parent dir : Ptr} {owner : UInt64}
    {node : Ptr} {h : State} (short : name.length < 32) (proper : 0 ∉ name)
    (fits : parent < L.arch.wordSize) (listed : dir ∈ t.dirs)
    (room : get L.arch t.heap.mem dir .childCount < 64)
    (created : Bytes.createNode L type t.heap name parent owner = .ok (node, h)) :
    ∃ held' s', StoreInv L (trace ++ [(t, .create type name parent dir owner)])
      { heap := { h with mem := emulatedFsAddChild L.arch h.mem dir node }
        dirs := if type = .dir then node :: t.dirs else t.dirs
        files := if type = .file then node :: t.files else t.files } held' s' := by
  obtain ⟨fresh, rep₁⟩ := inv.rep.createNode short proper fits created
  obtain ⟨inTree, d, atDir, isDir, room⟩ := inv.directory listed room
  have other : node ≠ dir := by
    rintro rfl
    cases fresh.noNode.symm.trans atDir
  have atDir₁ := (nodes_setNode_of_ne s (leafNode type name owner parent) other.symm).trans atDir
  have atNode₁ := nodes_setNode_self s node (leafNode type name owner parent)
  have rep₂ := rep₁.addChild atDir₁ atNode₁ isDir room other
  have acts : Acts s (.create type name parent owner dir node) _ :=
    .create atDir fresh (if_pos short) (addChild_eq atDir₁ atNode₁ isDir room other)
  obtain ⟨d', atDir', after⟩ := created_of_acts acts
  obtain rfl := Option.some.inj (atDir'.symm.trans atDir)
  have unlisted : node ∉ t.files := by
    intro member
    obtain ⟨n, present, _⟩ := inv.files node member
    cases fresh.noNode.symm.trans present
  have same : ∀ f, lastWrite f (trace ++ [(t, .create type name parent dir owner)]) =
      lastWrite f trace :=
    fun f => lastWrite_snoc f trace _
  refine ⟨_, _, rep₂, acts.wellFormed inv.wf inTree, acts.filesOk inv.wf inTree inv.filesOk, ?_,
    ?_, ?_⟩
  · intro x member
    rcases (mem_ite_cons _).mp member with ⟨newDir, rfl⟩ | old
    · obtain ⟨par, leaf⟩ := after.atBlock
      refine ⟨(acts.inTree inv.wf inTree inTree nofun).tail ?_, _, leaf, newDir⟩
      rw [kids_of (after.atDir isDir).2, childList_adding]
      exact List.mem_append_right _ (List.mem_singleton_self _)
    · exact acts.dir_stays inv.wf inTree (inv.dirs x old) nofun
  · intro f member
    rw [same]
    rcases (mem_ite_cons _).mp member with ⟨newFile, rfl⟩ | old
    · obtain ⟨par, leaf⟩ := after.atBlock
      refine ⟨_, leaf, newFile, ?_⟩
      rw [inv.others _ unlisted]
      rfl
    · obtain ⟨n, present, isFile, content⟩ := inv.files f old
      have notNode : f ≠ node := fun equal => unlisted (equal ▸ old)
      have notDir : f ≠ dir := by
        rintro rfl
        obtain rfl := Option.some.inj (present.symm.trans atDir)
        cases isDir.symm.trans isFile
      exact ⟨n, (after.kept f notNode notDir).trans present, isFile, content⟩
  · intro f absent
    rw [same]
    exact inv.others f fun old => absent ((mem_ite_cons _).mpr (.inr old))

theorem write {file src size : Nat} {h : State} (listed : file ∈ t.files) (small : size < 2 ^ 32)
    (source : L.Apart src size)
    (returned : emulatedFsWrite L t.heap file src size = .ok h) :
    ∃ held' s', StoreInv L (trace ++ [(t, .write file src size)]) { t with
      heap := h } held' s' := by
  obtain ⟨n, present, isFile, _⟩ := inv.files file listed
  obtain ⟨s', held', block, value, fresh, rep'⟩ :=
    inv.rep.emulatedFsWrite inv.filesOk present isFile source small returned
  rw [← length_bytesAt t.heap.mem src size] at fresh
  have acts : Acts s (.write file (bytesAt t.heap.mem src size) block) s' :=
    .write present isFile fresh value
  obtain ⟨n', present', after⟩ := written_of_acts acts
  obtain rfl := Option.some.inj (present'.symm.trans present)
  refine ⟨held', s', rep', acts.wellFormed inv.wf trivial, acts.filesOk inv.wf trivial inv.filesOk,
    ?_, ?_, ?_⟩
  · refine fun d member => acts.dir_stays inv.wf trivial (inv.dirs d member) fun p same => ?_
    cases same
  · intro f member
    by_cases same : file = f
    · subst same
      have atFile : s'.nodes file =
          some { n' with data := block, size := (bytesAt t.heap.mem src size).length } := by
        rw [after.nodes, Function.update_self]
      refine ⟨_, atFile, isFile, ?_⟩
      rw [lastWrite_write, contentOf, after.bufs]
      by_cases empty : bytesAt t.heap.mem src size = []
      · rw [empty]
        rfl
      · rw [if_neg (mt List.length_eq_zero_iff.mp empty), if_neg empty, Function.update_self]
    · obtain ⟨m, atFile, isFile', content⟩ := inv.files f member
      have still : s'.nodes f = some m := by
        rw [after.nodes, Function.update_of_ne (Ne.symm same), atFile]
      have stays : s'.nodes f ≠ none := by
        rw [still]
        exact Option.some_ne_none m
      have kept := (acts.frame inv.wf trivial inv.filesOk atFile stays (Ne.symm same)).2 isFile'
      refine ⟨m, still, isFile', ?_⟩
      rw [lastWrite_snoc, written, if_neg same, kept, content]
      rfl
  · intro f absent
    have other : file ≠ f := by
      rintro rfl
      exact absent listed
    rw [lastWrite_snoc, written, if_neg other]
    exact inv.others f absent

theorem elsewhere {m : Mem} (same : ∀ x, ¬ L.Outside x → m x = t.heap.mem x) :
    StoreInv L (trace ++ [(t, .elsewhere)]) { t with heap := { t.heap with mem := m } } held s where
  rep := inv.rep.elsewhere same
  wf := inv.wf
  filesOk := inv.filesOk
  dirs := inv.dirs
  files := by
    intro f member
    rw [lastWrite_snoc]
    exact inv.files f member
  others := by
    intro f absent
    rw [lastWrite_snoc]
    exact inv.others f absent

theorem step (taken : StoreStep L t e t') :
    ∃ held' s', StoreInv L (trace ++ [(t, e)]) t' held' s' := by
  cases taken with
  | create short proper fits listed room created =>
      exact inv.create short proper fits listed room created
  | write listed small source returned => exact inv.write listed small source returned
  | elsewhere same => exact ⟨held, s, inv.elsewhere same⟩

/-- The files read as what was written to them last. -/
theorem readsAs (listed : file ∈ t.files) : ReadsAs L t file (lastWrite file trace) := by
  intro out max room apart
  obtain ⟨n, present, isFile, content⟩ := inv.files file listed
  exact inv.rep.emulatedFsRead inv.filesOk present isFile content room apart

end StoreInv

/-- A new store is a root and nothing else. -/
theorem freshStore_inv (fresh : freshStore L mem = .ok t) : ∃ held s, StoreInv L [] t held s := by
  obtain ⟨⟨root, h⟩, created, returned⟩ := Outcome.bind_eq_ok.mp fresh
  obtain rfl := Outcome.pure_eq_ok.mp returned
  let nothing : FsState := ⟨fun _ => none, fun _ => none, root, []⟩
  have empty : Represents L (initMemoryHeap L (boot mem)) [] nothing :=
    ⟨⟨_, start_inv L mem⟩, nofun, nofun, nofun⟩
  obtain ⟨rootFresh, rep⟩ := empty.createNode (by decide) (by decide) L.arch.wordSize_pos created
  have only : ∀ x n, (nothing.setNode root (leafNode .dir [47] 0 0)).nodes x = some n →
    x = root ∧ n = leafNode .dir [47] 0 0 := by
    intro x n present
    by_cases same : x = root
    · subst same
      exact ⟨rfl, Option.some.inj (present.symm.trans (nodes_setNode_self ..))⟩
    · cases (nodes_setNode_of_ne _ _ same).symm.trans present
  have notFile : ∀ x n, (nothing.setNode root (leafNode .dir [47] 0 0)).nodes x = some n →
      n.type ≠ .file := by
    intro x n present isFile
    rw [(only x n present).2] at isFile
    cases isFile
  refine ⟨_, _, rep, ?_, ⟨?_, ?_, ?_⟩, ?_, nofun, fun _ _ => rfl⟩
  · have atRoot := nodes_setNode_self nothing root (leafNode .dir [47] 0 0)
    refine ⟨.nil, ⟨⟨parent_of atRoot, kids_of atRoot, trivial, trivial⟩, ?_⟩,
      List.nodup_singleton _⟩
    intro x inside
    obtain rfl := List.mem_singleton.mp inside
    exact ⟨rootFresh.nonnull, _, atRoot, by decide, NodeType.noConfusion, NodeType.noConfusion⟩
  · intro x n present isFile
    exact absurd isFile (notFile x n present)
  · intro x n present isFile
    exact absurd isFile (notFile x n present)
  · intro x y m n present _ isFile
    exact absurd isFile (notFile x m present)
  · intro d member
    obtain rfl := List.mem_singleton.mp member
    exact ⟨.refl, _, nodes_setNode_self .., rfl⟩

theorem run_inv (fresh : freshStore L mem = .ok t) (run : Run (StoreStep L) t trace u) :
    ∃ held s, StoreInv L trace u held s := by
  induction run with
  | nil => exact freshStore_inv fresh
  | snoc _ taken ih =>
      obtain ⟨held, s, inv⟩ := ih
      exact inv.step taken

/-- Files stay. -/
theorem files_mono (run : Run (StoreStep L) t trace u) (listed : file ∈ t.files) :
    file ∈ u.files := by
  refine run.invariant (I := fun t => file ∈ t.files) ?_ listed
  intro t e u before taken
  cases taken with
  | create => exact (mem_ite_cons _).mpr (.inr before)
  | write => exact before
  | elsewhere => exact before

/-- After any run a file reads as what was written to it last, as empty if nothing was, and
    whatever is written to other files it goes on to read the same. -/
theorem reads_last_write (L : Layout) (mem : Mem) (start t : Store)
    (trace : List (Store × StoreEvent)) (file : Ptr) (fresh : freshStore L mem = .ok start)
    (run : Run (StoreStep L) start trace t) (listed : file ∈ t.files) :
    ReadsAs L t file (lastWrite file trace) ∧
    (Unwritten file trace → ReadsAs L t file []) ∧
    ∀ later u, Run (StoreStep L) t later u → Unwritten file later →
    ReadsAs L u file (lastWrite file trace) := by
  obtain ⟨_, _, inv⟩ := run_inv fresh run
  refine ⟨inv.readsAs listed, fun unwritten => ?_, fun later u more unwritten => ?_⟩
  · rw [← unwritten.lastWrite]
    exact inv.readsAs listed
  · obtain ⟨_, _, inv'⟩ := run_inv fresh (run.append more)
    rw [← unwritten.lastWrite_append]
    exact inv'.readsAs (files_mono more listed)

/-- A file `a` of two bytes. -/
theorem reads_last_write_two :
    ∃ start t trace file, freshStore exampleLayout (fun _ => 65) = .ok start ∧
    Run (StoreStep exampleLayout) start trace t ∧ lastWrite file trace = [65, 65] ∧
      ReadsAs exampleLayout t file [65, 65] := by
  have value : (do
      let start ← freshStore exampleLayout fun _ => 65
      let (node, h) ← createNode exampleLayout .file start.heap [97] 0x200020 0
      let m := emulatedFsAddChild exampleLayout.arch h.mem 0x200020 node
      let _ ← emulatedFsWrite exampleLayout { h with mem := m } node 0x1000 2
      return (start.dirs, get .x86_64 start.heap.mem 0x200020 .childCount, bytesAt m 0x1000 2)) =
        .ok ([0x200020], 0, [65, 65]) := by
    decide +kernel
  obtain ⟨start, fresh, value⟩ := Outcome.bind_eq_ok.mp value
  obtain ⟨⟨node, h⟩, created, value⟩ := Outcome.bind_eq_ok.mp value
  obtain ⟨h', stored, value⟩ := Outcome.bind_eq_ok.mp value
  obtain ⟨dirs, facts⟩ := Prod.mk.inj (Outcome.pure_eq_ok.mp value)
  obtain ⟨count, data⟩ := Prod.mk.inj facts
  have first : StoreStep exampleLayout start (.create .file [97] 0x200020 0x200020 0) _ :=
    .create (by decide) (by decide) (by decide) (dirs ▸ List.mem_singleton_self _)
      (count.trans_lt (by decide)) created
  have listed : node ∈ (if NodeType.file = .file then node :: start.files else start.files) :=
    (mem_ite_cons _).mpr (.inl ⟨rfl, rfl⟩)
  have run := (Run.single first).snoc (.write listed (by decide) (.inl (by decide)) stored)
  have reads := (reads_last_write _ _ _ _ _ node fresh run listed).1
  refine ⟨_, _, _, node, fresh, run, ?_, ?_⟩
  · rw [lastWrite_write]
    exact data
  · rw [lastWrite_write] at reads
    dsimp only at reads
    rw [data] at reads
    exact reads

end AurorOS.Fs.Bytes
