import AurorOS.Fs.Bytes.Deletion
import AurorOS.Fs.Bytes.Lookup
import AurorOS.Fs.Components
import AurorOS.Fs.Garbage
import AurorOS.Lib.Runs

/-! # Whole runs of the file system in memory

From an empty root on a heap that has just been initialised, nodes are created and removed,
files are written and permissions changed, in any order.  Every such run in memory is one
of the abstract file system; the heap's blocks in use are the nodes of the tree and the
data of its files, and a removal takes out exactly the subtree.
-/

namespace AurorOS.Fs.Bytes

open ByteMemory Heap FirstFit FsState Runs Outcome

/-- The heap and the root. -/
structure Image where
  heap : State
  root : Ptr

/-- A node that is found by following children from `top`. -/
inductive Reaches (arch : Arch) (m : Mem) (top : Ptr) : Ptr → Prop where
  | top : Reaches arch m top top
  | child {dir i} : Reaches arch m top dir → i < get arch m dir .childCount →
      Reaches arch m top (get arch m dir (.child i))

def IsDir (arch : Arch) (m : Mem) (p : Ptr) : Prop := get arch m p .type = typeCode .dir

inductive ImageEvent where
  | create (type : NodeType) (name : List UInt8) (parent dir : Ptr) (owner : UInt64) (node : Ptr)
  | write (file src size : Nat)
  | chmod (p : Ptr) (permissions : UInt16)
  | remove (p : Ptr)
  /-- Memory outside the pool changes. -/
  | elsewhere

/-- Names fit and directories have room; what is removed has a parent, and owners below it do
    no harm.  A call that exhausts the heap has no successor. -/
inductive ImageStep (L : Layout) : Image → ImageEvent → Image → Prop where
  | create {t type name parent dir owner node h} : name.length < 32 → 0 ∉ name →
      parent < L.arch.wordSize →
      Reaches L.arch t.heap.mem t.root dir → IsDir L.arch t.heap.mem dir →
      get L.arch t.heap.mem dir .childCount < 64 →
      createNode L type t.heap name parent owner = .ok (node, h) →
      ImageStep L t (.create type name parent dir owner node)
        { t with heap := { h with mem := emulatedFsAddChild L.arch h.mem dir node } }
  | write {t file src size h} : Reaches L.arch t.heap.mem t.root file →
      get L.arch t.heap.mem file .type = typeCode .file → size < 2 ^ 32 → L.Apart src size →
      emulatedFsWrite L t.heap file src size = .ok h →
      ImageStep L t (.write file src size) { t with heap := h }
  | chmod {t p permissions} : Reaches L.arch t.heap.mem t.root p →
      ImageStep L t (.chmod p permissions)
        { t with heap := { t.heap with
          mem := set L.arch t.heap.mem p .permissions permissions.toNat } }
  | remove {t p fuel m h} : Reaches L.arch t.heap.mem t.root p →
      get L.arch t.heap.mem p .parent ≠ 0 →
      (∀ x, Reaches L.arch t.heap.mem p x → IsDir L.arch t.heap.mem x →
        Harmless L t.heap.mem (UInt64.ofNat (get L.arch t.heap.mem x .owner))) →
      fsRemoveChild L.arch t.heap.mem (get L.arch t.heap.mem p .parent) p = .ok m →
      fsDelete L fuel { t.heap with mem := m } p = .ok h →
      ImageStep L t (.remove p) { t with heap := h }
  | elsewhere {t m} : (∀ x, ¬ L.Outside x → m x = t.heap.mem x) →
      ImageStep L t .elsewhere { t with heap := { t.heap with mem := m } }

/-- A booted kernel after `init_memory_heap` and `emulated_fs_init`. -/
def freshImage (L : Layout) (mem : Mem) : Except Fault Image := do
  let (root, h) ← emulatedFsInit L (initMemoryHeap L (boot mem))
  return ⟨h, root⟩

/-- Nothing but a root. -/
def freshTree (root : Ptr) : FsState :=
  FsState.setNode ⟨fun _ => none, fun _ => none, root, []⟩ root (leafNode .dir [47] 0 0)

/-- Actions in their places. -/
def FsStep (s : FsState) (a : Action) (s' : FsState) : Prop := a.InPlace s ∧ Acts s a s'

/-- The action but for the block that `malloc` found. -/
def asked : Action → Action
  | .write file data _ => .write file data 0
  | a => a

/-- What an event asks of the abstract file system. -/
def asks : Image × ImageEvent → Option Action
  | (_, .create type name parent dir owner node) => some (.create type name parent owner dir node)
  | (t, .write file src size) => some (.write file (bytesAt t.heap.mem src size) 0)
  | (_, .chmod p permissions) => some (.chmod p permissions)
  | (_, .remove p) => some (.remove p)
  | (_, .elsewhere) => none

/-- Memory holds a well-formed tree and the heap has given out nothing else. -/
structure ImageInv (L : Layout) (t : Image) (held : List Allocation) (s : FsState) : Prop where
  holds : Holds L t.heap held s
  wf : WellFormed s
  files : FilesOk s
  bare : ∀ p n, s.nodes p = some n → n.type = .dir → n.data = 0 ∧ n.size = 0
  clean : NoGarbage s
  root : s.fsRoot = t.root

variable {L : Layout} {mem m : Mem} {t t' start : Image} {e : ImageEvent} {held : List Allocation}
  {s s' : FsState} {a : Action} {n d : FsNode} {p q x dir file top block : Ptr} {h h' : State}

/-- Blocks that are new or of before. -/
theorem Holds.createNode {type : NodeType} {name : List UInt8} {parent : Ptr} {owner : UInt64}
    (holds : Holds L h held s) (short : name.length < 32) (proper : 0 ∉ name)
    (parentFits : parent < L.arch.wordSize)
    (returned : Bytes.createNode L type h name parent owner = .ok (p, h')) :
    Fresh s p ∧ Holds L h' (⟨p, sizeofNode L.arch⟩ :: held)
      (s.setNode p (leafNode type name owner parent)) := by
  obtain ⟨fresh, rep'⟩ := holds.rep.createNode short proper parentFits returned
  refine ⟨fresh, rep', fun a member => ?_⟩
  by_cases same : a.ptr = p
  · rcases List.mem_cons.mp member with rfl | old
    · exact .inl ⟨_, nodes_setNode_self .., rfl⟩
    · rcases holds.exact a old with ⟨n, present, _⟩ | ⟨bytes, live, _⟩
      · cases fresh.noNode.symm.trans (same ▸ present)
      · cases fresh.noBuf.symm.trans (same ▸ live)
  · have old : a ∈ held := by
      rcases List.mem_cons.mp member with rfl | old
      · exact absurd rfl same
      · exact old
    rw [nodes_setNode_of_ne _ _ same]
    exact holds.exact a old

theorem Holds.addChild {d c : FsNode} {child : Ptr} (holds : Holds L h held s)
    (atDir : s.nodes dir = some d) (atChild : s.nodes child = some c) (isDir : d.type = .dir)
    (room : d.childCount < 64) (other : child ≠ dir) :
    Holds L { h with mem := Bytes.emulatedFsAddChild L.arch h.mem dir child } held
      ((s.setNode dir (d.adding child)).setNode child { c with parent := dir }) where
  rep := holds.rep.addChild atDir atChild isDir room other
  exact := by
    intro a member
    refine (holds.exact a member).imp_left fun ⟨n, present, size⟩ => ?_
    by_cases atC : a.ptr = child
    · rw [atC, nodes_setNode_self]
      exact ⟨_, rfl, size⟩
    · rw [nodes_setNode_of_ne _ _ atC]
      by_cases atD : a.ptr = dir
      · rw [atD, nodes_setNode_self]
        exact ⟨_, rfl, size⟩
      · rw [nodes_setNode_of_ne _ _ atD]
        exact ⟨n, present, size⟩

/-- The allocations after `malloc`. -/
def withBlock (held : List Allocation) (block size : Nat) : List Allocation :=
  if size = 0 then held else ⟨block, size⟩ :: held

theorem Represents.mallocExact {size : Nat} (rep : Represents L h held s)
    (returned : Heap.malloc L h size = .ok (block, h')) :
    Represents L h' (withBlock held block size) s ∧ MallocReturns s size block ∧
    block < 256 ^ L.arch.wordBytes ∧ ∀ x, L.Outside x → h'.mem x = h.mem x := by
  rcases Nat.eq_zero_or_pos size with rfl | asked
  · obtain ⟨_, inv⟩ := rep.heap
    obtain ⟨rfl, rfl⟩ := Prod.mk.inj (Except.ok.inj (inv.malloc_zero.symm.trans returned))
    have returns : MallocReturns s 0 0 := by rw [MallocReturns, if_pos rfl]
    exact ⟨rep, returns, by positivity, fun _ _ => rfl⟩
  · obtain ⟨rep', fresh, outside⟩ := rep.malloc asked returned
    have returns : MallocReturns s size block := by
      rw [MallocReturns, if_neg asked.ne']
      exact fresh
    rw [withBlock, if_neg asked.ne']
    exact ⟨rep', returns, rep'.address_lt List.mem_cons_self, outside⟩

/-- The old data is freed. -/
theorem Holds.release (holds : Holds L h held s) (files : FilesOk s)
    (atFile : s.nodes file = some n) (isFile : n.type = .file) :
    ∃ held' h', (if get L.arch h.mem file .size > 0 then Heap.free L h (get L.arch h.mem file .data)
      else h) = h' ∧
      Holds L h' held' (releaseData s n) ∧ ∀ x, L.Outside x → h'.mem x = h.mem x := by
  obtain ⟨_, node⟩ := holds.rep.nodes file n atFile
  rw [node.fields .size trivial, node.fields .data trivial, fieldOf, fieldOf, releaseData]
  by_cases hasSize : n.size > 0
  · rw [if_pos hasSize, if_pos hasSize]
    obtain ⟨held', freed, outside⟩ := holds.freeData files atFile isFile
    exact ⟨held', _, rfl, freed, outside⟩
  · rw [if_neg hasSize, if_neg hasSize]
    exact ⟨held, h, rfl, holds, fun _ _ => rfl⟩

/-- Every block in use is a node or data after a write, too. -/
theorem Written.exact {data : List UInt8} {held : List Allocation}
    (written : Written s s' file data block n) (holds : Holds L h held (releaseData s n))
    (a : Allocation) (member : a ∈ withBlock held block data.length) :
    (∃ m, s'.nodes a.ptr = some m ∧ a.size = sizeofNode L.arch) ∨
      ∃ bytes, s'.bufs a.ptr = some bytes ∧ a.size = bytes.length := by
  have returned := written.returned
  rw [MallocReturns] at returned
  rw [withBlock] at member
  rw [written.nodes, written.bufs]
  have node : (∃ m, (releaseData s n).nodes a.ptr = some m ∧ a.size = sizeofNode L.arch) →
      ∃ m, Function.update s.nodes file (some { n with data := block, size := data.length }) a.ptr =
      some m ∧
        a.size = sizeofNode L.arch := by
    rintro ⟨m, present, size⟩
    by_cases atFile : a.ptr = file
    · rw [atFile, Function.update_self]
      exact ⟨_, rfl, size⟩
    · rw [(releaseData_nodes s n).1] at present
      rw [Function.update_of_ne atFile]
      exact ⟨m, present, size⟩
  by_cases empty : data = []
  · rw [if_pos (List.length_eq_zero_iff.mpr empty)] at member
    rw [if_pos empty]
    exact (holds.exact a member).imp_left node
  · rw [if_neg (mt List.length_eq_zero_iff.mp empty)] at member returned
    rw [if_neg empty]
    by_cases new : a.ptr = block
    · have newest : a = ⟨block, data.length⟩ := by
        rcases List.mem_cons.mp member with equal | old
        · exact equal
        · rcases holds.exact a old with ⟨m, present, _⟩ | ⟨bytes, live, _⟩
          · cases returned.noNode.symm.trans (new ▸ present)
          · cases returned.noBuf.symm.trans (new ▸ live)
      rw [newest, Function.update_self]
      exact .inr ⟨data, rfl, rfl⟩
    · have old : a ∈ held := by
        rcases List.mem_cons.mp member with rfl | old
        · exact absurd rfl new
        · exact old
      rw [Function.update_of_ne new]
      exact (holds.exact a old).imp_left node

/-- A file is written. -/
theorem Holds.emulatedFsWrite {src size : Nat} (holds : Holds L h held s) (files : FilesOk s)
    (atFile : s.nodes file = some n) (isFile : n.type = .file) (source : L.Apart src size)
    (fits : size < 2 ^ 32) (returned : Bytes.emulatedFsWrite L h file src size = .ok h') :
    ∃ s' held' block, Acts s (.write file (bytesAt h.mem src size) block) s' ∧
    Holds L h' held' s' := by
  have code : get L.arch h.mem file .type = typeCode .file := by
    rw [(holds.rep.nodes file n atFile).2.fields .type trivial, fieldOf, isFile]
  obtain ⟨held₁, h₁, freed, holds₁, outside₁⟩ := holds.release files atFile isFile
  rw [Bytes.emulatedFsWrite, if_neg (not_not.mpr code), freed] at returned
  obtain ⟨⟨block, h₂⟩, allocated, returned⟩ := bind_eq_ok.mp returned
  obtain rfl := pure_eq_ok.mp returned
  obtain ⟨rep₂, fresh, small, outside₂⟩ := holds₁.rep.mallocExact allocated
  have atFile₁ : (releaseData s n).nodes file = some n := by rw [(releaseData_nodes s n).1, atFile]
  have member : 0 < size → ⟨block, size⟩ ∈ withBlock held₁ block size := by
    intro asked
    rw [withBlock, if_neg asked.ne']
    exact List.mem_cons_self
  have rep₃ := rep₂.setField (f := .data) atFile₁ trivial small fun same => by cases same
  have noNode : 0 < size →
      ((releaseData s n).setNode file (putField n .data block)).nodes block = none := by
    intro asked
    rw [MallocReturns, if_neg asked.ne'] at fresh
    have other : block ≠ file := by
      rintro rfl
      cases fresh.noNode.symm.trans atFile₁
    exact (nodes_setNode_of_ne _ _ other).trans fresh.noNode
  -- the source is as it was
  have same : bytesAt (Bytes.set L.arch h₂.mem file .data block) src size =
      bytesAt h.mem src size := by
    refine bytesAt_congr fun x above below => ?_
    have outside : L.Outside x := by
      rw [Layout.Apart] at source
      rw [Layout.Outside]
      omega
    rw [rep₂.set_outside (f := .data) atFile₁ trivial outside, outside₂ x outside,
      outside₁ x outside]
  have rep₄ := rep₃.copyData member noNode source
  dsimp only at rep₄
  rw [same] at rep₄
  have loaded : get L.arch (Bytes.set L.arch h₂.mem file .data block) file .data = block :=
    get_set_self small
  have length : (bytesAt h.mem src size).length = size := length_bytesAt ..
  rw [← length] at fresh
  have acts : Acts s (.write file (bytesAt h.mem src size) block) _ :=
    .write atFile isFile fresh (write_value _ block atFile isFile)
  obtain ⟨n', present, written⟩ := written_of_acts acts
  obtain rfl := Option.some.inj (present.symm.trans atFile)
  refine ⟨_, withBlock held₁ block size, block, acts, ?_, fun a inHeld => ?_⟩
  · rw [loaded, length]
    by_cases empty : bytesAt h.mem src size = []
    · rw [if_pos empty] at rep₄ ⊢
      have rep₅ := rep₄.setField (f := .size) (nodes_setNode_self _ file _) trivial fits
        fun same => by cases same
      rw [setNode_setNode] at rep₅
      exact rep₅
    · rw [if_neg empty] at rep₄ ⊢
      have rep₅ := rep₄.setField (f := .size) (nodes_setNode_self _ file _) trivial fits
        fun same => by cases same
      rw [FsState.setNode, FsState.setNode, Function.update_idem] at rep₅
      exact rep₅
  · exact Written.exact written holds₁ a (length.symm ▸ inHeld)

/-- Directories have no data. -/
theorem acts_bare (acts : Acts s a s') (wf : WellFormed s) (inPlace : a.InPlace s)
    (bare : ∀ p n, s.nodes p = some n → n.type = .dir → n.data = 0 ∧ n.size = 0) :
    ∀ p n, s'.nodes p = some n → n.type = .dir → n.data = 0 ∧ n.size = 0 := by
  intro p n' present' isDir
  rcases acts.node_cases wf inPlace present' with
    ⟨_, _, _, _, rfl⟩ | ⟨n, present, kind, data, size⟩ | ⟨data, block, n, _, written, rfl⟩
  · exact ⟨rfl, rfl⟩
  · rw [data, size]
    exact bare p n present (kind.symm.trans isDir)
  · cases written.isFile.symm.trans isDir

namespace ImageInv

variable (inv : ImageInv L t held s)

include inv

theorem field {f : NodeField} (present : s.nodes p = some n) (inStruct : f.InStruct) :
    get L.arch t.heap.mem p f = fieldOf n f :=
  (inv.holds.rep.nodes p n present).2.fields f inStruct

theorem isDir_iff (present : s.nodes p = some n) : IsDir L.arch t.heap.mem p ↔ n.type = .dir := by
  rw [IsDir, inv.field present (f := .type) trivial]
  exact typeCode_eq_iff

/-- Following children in memory is following the children of the nodes. -/
theorem reaches_iff (inTree : s.InTree top) : Reaches L.arch t.heap.mem top p ↔ s.Below top p := by
  constructor
  · intro reaches
    induction reaches with
    | top => exact .refl
    | @child dir i _ below ih =>
        obtain ⟨_, n, present, ok⟩ := inv.wf.live (inTree.trans ih)
        rw [inv.field present (f := .childCount) trivial, fieldOf] at below
        refine ih.tail ?_
        rw [inv.field present (f := .child i) (below.trans_le ok.fits), kids_of present,
          FsNode.childList]
        exact List.mem_map.mpr ⟨i, List.mem_range.mpr below, rfl⟩
  · intro below
    induction below with
    | refl => exact .top
    | @tail y z path listed ih =>
        obtain ⟨_, n, present, ok⟩ := inv.wf.live (inTree.trans path)
        rw [kids_of present, FsNode.childList] at listed
        obtain ⟨i, inside, rfl⟩ := List.mem_map.mp listed
        have below := List.mem_range.mp inside
        have child : get L.arch t.heap.mem y (.child i) = n.children i :=
          inv.field present (f := .child i) (below.trans_le ok.fits)
        have count : get L.arch t.heap.mem y .childCount = n.childCount :=
          inv.field present (f := .childCount) trivial
        rw [← child]
        exact .child ih (count.symm ▸ below)

/-- What is found in memory from the root is in the tree, and so live. -/
theorem found (reaches : Reaches L.arch t.heap.mem t.root p) :
    s.InTree p ∧ ∃ n, s.nodes p = some n ∧ NodeOk n := by
  have inTree : s.InTree p := by
    have root : s.InTree s.fsRoot := .refl
    exact (inv.reaches_iff root).mp (inv.root.symm ▸ reaches)
  exact ⟨inTree, (inv.wf.live inTree).2⟩

/-- An action that memory has followed. -/
theorem after {held' : List Allocation} (acts : Acts s a s') (inPlace : a.InPlace s)
    (place : ∀ type name parent owner dir block, a = .create type name parent owner dir block →
    ∃ d, s.nodes dir = some d ∧ d.type = .dir)
    (holds' : Holds L h' held' s') (root : s'.fsRoot = s.fsRoot) :
    ImageInv L { t with heap := h' } held' s' where
  holds := holds'
  wf := acts.wellFormed inv.wf inPlace
  files := acts.filesOk inv.wf inPlace inv.files
  bare := acts_bare acts inv.wf inPlace inv.bare
  clean := acts.noGarbage inv.wf inPlace place inv.clean
  root := root.trans inv.root

theorem create {type : NodeType} {name : List UInt8} {parent : Ptr} {owner : UInt64} {node : Ptr}
    (short : name.length < 32) (proper : 0 ∉ name) (fits : parent < L.arch.wordSize)
    (reaches : Reaches L.arch t.heap.mem t.root dir) (isDir : IsDir L.arch t.heap.mem dir)
    (room : get L.arch t.heap.mem dir .childCount < 64)
    (created : createNode L type t.heap name parent owner = .ok (node, h)) :
    ∃ held' s', ImageInv L { t with
      heap := { h with mem := emulatedFsAddChild L.arch h.mem dir node } } held' s' ∧
      FsStep s (.create type name parent owner dir node) s' := by
  obtain ⟨inTree, d, atDir, _⟩ := inv.found reaches
  rw [inv.isDir_iff atDir] at isDir
  rw [inv.field atDir (f := .childCount) trivial, fieldOf] at room
  obtain ⟨fresh, holds₁⟩ := inv.holds.createNode short proper fits created
  have other : node ≠ dir := by
    rintro rfl
    cases fresh.noNode.symm.trans atDir
  have atDir₁ := (nodes_setNode_of_ne s (leafNode type name owner parent) other.symm).trans atDir
  have atNode₁ := nodes_setNode_self s node (leafNode type name owner parent)
  have acts : Acts s (.create type name parent owner dir node) _ :=
    .create atDir fresh (if_pos short) (addChild_eq atDir₁ atNode₁ isDir room other)
  refine ⟨_, _, inv.after acts inTree ?_ (holds₁.addChild atDir₁ atNode₁ isDir room other) rfl,
    inTree, acts⟩
  intro _ _ _ _ _ _ same
  cases same
  exact ⟨d, atDir, isDir⟩

theorem write {src size : Nat} (reaches : Reaches L.arch t.heap.mem t.root file)
    (isFile : get L.arch t.heap.mem file .type = typeCode .file) (small : size < 2 ^ 32)
    (source : L.Apart src size) (returned : emulatedFsWrite L t.heap file src size = .ok h) :
    ∃ held' s' block, ImageInv L { t with heap := h } held' s' ∧
      FsStep s (.write file (bytesAt t.heap.mem src size) block) s' := by
  obtain ⟨_, n, present, _⟩ := inv.found reaches
  rw [inv.field present (f := .type) trivial] at isFile
  obtain ⟨s', held', block, acts, holds'⟩ :=
    inv.holds.emulatedFsWrite inv.files present (typeCode_eq_iff.mp isFile) source small returned
  obtain ⟨_, _, written⟩ := written_of_acts acts
  refine ⟨held', s', block, inv.after acts trivial ?_ holds' written.root, trivial, acts⟩
  intro _ _ _ _ _ _ same
  cases same

theorem chmod {permissions : UInt16} (reaches : Reaches L.arch t.heap.mem t.root p) :
    ∃ s', ImageInv L { t with
      heap := { t.heap with mem := set L.arch t.heap.mem p .permissions permissions.toNat } }
      held s' ∧ FsStep s (.chmod p permissions) s' := by
  obtain ⟨_, n, present, _⟩ := inv.found reaches
  have acts : Acts s (.chmod p permissions) _ := .chmod present
  have holds' := inv.holds.setField (f := .permissions) (v := permissions.toNat) present trivial
    permissions.toNat_lt
    fun same => by cases same
  rw [putField, UInt16.ofNat_toNat] at holds'
  refine ⟨_, inv.after acts trivial ?_ holds' rfl, trivial, acts⟩
  intro _ _ _ _ _ _ same
  cases same

/-- A removal returns, and it takes out the subtree. -/
theorem remove (reaches : Reaches L.arch t.heap.mem t.root p)
    (hasParent : get L.arch t.heap.mem p .parent ≠ 0)
    (harmless : ∀ x, Reaches L.arch t.heap.mem p x → IsDir L.arch t.heap.mem x →
    Harmless L t.heap.mem (UInt64.ofNat (get L.arch t.heap.mem x .owner))) :
    ∃ m fuel h' held' s',
    fsRemoveChild L.arch t.heap.mem (get L.arch t.heap.mem p .parent) p = .ok m ∧
      fsDelete L fuel { t.heap with mem := m } p = .ok h' ∧
      ImageInv L { t with heap := h' } held' s' ∧ FsStep s (.remove p) s' := by
  obtain ⟨inTree, n, present, _⟩ := inv.found reaches
  have parentIs : get L.arch t.heap.mem p .parent = n.parent :=
    inv.field present (f := .parent) trivial
  rw [parentIs] at hasParent ⊢
  have notRoot : p ≠ s.fsRoot := by
    rintro rfl
    obtain ⟨K, tree, _⟩ := inv.wf
    exact hasParent ((parent_of present).symm.trans tree.spans.1)
  obtain ⟨K, Kp, q, placed⟩ := placed_of_inTree inv.wf inTree notRoot
  obtain rfl : n.parent = q := (parent_of present).symm.trans placed.parent_eq
  have above : s.InTree n.parent := (placed.tree.mem_iff_below _).mp placed.above
  obtain ⟨s₁, s', unlinked, ⟨fuel, returns⟩, _, deleted⟩ :=
    remove_then_delete inv.wf above placed.listed
  have gone := returns fuel le_rfl
  have acts : Acts s (.remove p) s' := .remove present hasParent unlinked gone
  obtain ⟨m, value, holds₁, outside⟩ := inv.holds.fsRemoveChild unlinked
  have pruned := fsRemoveChild_pruned unlinked
  have deletable : Deletable L { t.heap with mem := m } held s₁ s' := by
    refine ⟨holds₁, pruned_filesOk pruned inv.files, fun x k here isDir => ?_,
      fun x k here isDir lost => ?_⟩
    · obtain ⟨k₀, before, fields⟩ := pruned.nodes x k here
      rw [fields] at isDir ⊢
      exact inv.bare x k₀ before isDir
    · obtain ⟨k₀, before, fields⟩ := pruned.nodes x k here
      rw [fields] at isDir ⊢
      have below := (inv.reaches_iff inTree).mpr (deleted.lost before lost)
      have owner := harmless x below ((inv.isDir_iff before).mpr isDir)
      rw [inv.field before (f := .owner) trivial, fieldOf, UInt64.ofNat_toNat] at owner
      exact owner.congr outside
  obtain ⟨h', held', last, holds', _⟩ := (fsDelete_follows fuel).1 _ held s₁ p s' deletable gone
  refine ⟨m, fuel, h', held', s', value, last, inv.after acts inTree ?_ holds' deleted.root,
    inTree, acts⟩
  intro _ _ _ _ _ _ same
  cases same

/-- Owners that are not taken for a link do no harm. -/
theorem harmless (reaches : Reaches L.arch t.heap.mem t.root p) (links : NoStrayLink L.arch s p)
    (x : Ptr) (below : Reaches L.arch t.heap.mem p x) (isDir : IsDir L.arch t.heap.mem x) :
    Harmless L t.heap.mem (UInt64.ofNat (get L.arch t.heap.mem x .owner)) := by
  obtain ⟨inTree, _⟩ := inv.found reaches
  have placed := (inv.reaches_iff inTree).mp below
  obtain ⟨_, n, present, _⟩ := inv.wf.live (inTree.trans placed)
  rw [inv.field present (f := .owner) trivial, fieldOf, UInt64.ofNat_toNat]
  exact .inl (links x n placed present ((inv.isDir_iff present).mp isDir))

/-- Where `free(node->children)` finds no link, the removal in memory is the one of the
    abstract file system. -/
theorem removes (reaches : Reaches L.arch t.heap.mem t.root p)
    (hasParent : get L.arch t.heap.mem p .parent ≠ 0) (links : NoStrayLink L.arch s p) :
    ∃ t' held' s', ImageStep L t (.remove p) t' ∧ ImageInv L t' held' s' ∧
    FsStep s (.remove p) s' := by
  have harmless := inv.harmless reaches links
  obtain ⟨m, fuel, h', held', s', value, last, inv', acts⟩ := inv.remove reaches hasParent harmless
  exact ⟨_, held', s', .remove reaches hasParent harmless value last, inv', acts⟩

theorem elsewhere (same : ∀ x, ¬ L.Outside x → m x = t.heap.mem x) :
    ImageInv L { t with heap := { t.heap with mem := m } } held s where
  holds := ⟨inv.holds.rep.elsewhere same, inv.holds.exact⟩
  wf := inv.wf
  files := inv.files
  bare := inv.bare
  clean := inv.clean
  root := inv.root

/-- A step in memory is a step of the abstract file system, or none. -/
theorem step (taken : ImageStep L t e t') :
    ∃ held' s', ImageInv L t' held' s' ∧
      ((asks (t, e) = none ∧ s' = s) ∨ ∃ a, FsStep s a s' ∧ asks (t, e) = some (asked a)) := by
  cases taken with
  | create short proper fits reaches isDir room created =>
      obtain ⟨held', s', inv', acts⟩ := inv.create short proper fits reaches isDir room created
      exact ⟨held', s', inv', .inr ⟨_, acts, rfl⟩⟩
  | write reaches isFile small source returned =>
      obtain ⟨held', s', block, inv', acts⟩ := inv.write reaches isFile small source returned
      exact ⟨held', s', inv', .inr ⟨_, acts, rfl⟩⟩
  | chmod reaches =>
      obtain ⟨s', inv', acts⟩ := inv.chmod reaches
      exact ⟨held, s', inv', .inr ⟨_, acts, rfl⟩⟩
  | remove reaches hasParent harmless unlinked deleted =>
      obtain ⟨m, fuel, h', held', s', value, last, inv', acts⟩ :=
        inv.remove reaches hasParent harmless
      obtain rfl := Except.ok.inj (value.symm.trans unlinked)
      obtain rfl := bytes_fsDelete_unique last deleted
      exact ⟨held', s', inv', .inr ⟨_, acts, rfl⟩⟩
  | elsewhere same => exact ⟨held, s, inv.elsewhere same, .inl ⟨rfl, rfl⟩⟩

end ImageInv

/-- A new file system is a root and nothing else. -/
theorem freshImage_inv (fresh : freshImage L mem = .ok t) :
    ∃ held, ImageInv L t held (freshTree t.root) := by
  obtain ⟨⟨root, h⟩, created, returned⟩ := bind_eq_ok.mp fresh
  obtain rfl := pure_eq_ok.mp returned
  let nothing : FsState := ⟨fun _ => none, fun _ => none, root, []⟩
  have empty : Holds L (initMemoryHeap L (boot mem)) [] nothing := by
    refine ⟨⟨⟨_, start_inv L mem⟩, fun _ _ present => ?_, fun _ _ live => ?_,
      fun _ _ present => ?_⟩, fun _ member => absurd member List.not_mem_nil⟩
    · cases present
    · cases live
    · cases present
  obtain ⟨rootFresh, holds⟩ := empty.createNode (by decide) (by decide) L.arch.wordSize_pos created
  have atRoot : (freshTree root).nodes root = some (leafNode .dir [47] 0 0) := nodes_setNode_self ..
  have only : ∀ x n, (freshTree root).nodes x = some n → x = root ∧ n = leafNode .dir [47] 0 0 := by
    intro x n present
    by_cases same : x = root
    · subst same
      exact ⟨rfl, Option.some.inj (present.symm.trans atRoot)⟩
    · cases (nodes_setNode_of_ne _ _ same).symm.trans present
  have notFile : ∀ x n, (freshTree root).nodes x = some n → n.type ≠ .file := by
    intro x n present isFile
    rw [(only x n present).2] at isFile
    cases isFile
  refine ⟨_, holds, ?_, ⟨?_, ?_, ?_⟩, ?_, ⟨?_, ?_⟩, rfl⟩
  · refine ⟨.nil, ⟨⟨parent_of atRoot, kids_of atRoot, trivial, trivial⟩, ?_⟩,
      List.nodup_singleton _⟩
    intro x inside
    obtain rfl := List.mem_singleton.mp inside
    exact ⟨rootFresh.nonnull, _, atRoot, by decide, NodeType.noConfusion, NodeType.noConfusion⟩
  · intro x n present isFile
    exact absurd isFile (notFile x n present)
  · intro x n present isFile
    exact absurd isFile (notFile x n present)
  · intro x y m n present _ isFile
    exact absurd isFile (notFile x m present)
  · intro x n present _
    rw [(only x n present).2]
    exact ⟨rfl, rfl⟩
  · intro x n present
    rw [(only x n present).1]
    exact .refl
  · intro q bytes live
    cases live

/-- Beside a run in memory there is one of the abstract file system. -/
theorem run_beside (fresh : freshImage L mem = .ok start) {trace : List (Image × ImageEvent)}
    (run : Run (ImageStep L) start trace t) :
    ∃ held s acts, ImageInv L t held s ∧ Run FsStep (freshTree start.root) acts s ∧
      acts.map (fun entry => asked entry.2) = trace.filterMap asks := by
  induction run with
  | nil =>
      obtain ⟨held, inv⟩ := freshImage_inv fresh
      exact ⟨held, _, [], inv, .nil, rfl⟩
  | snoc _ taken ih =>
      obtain ⟨held, s, acts, inv, beside, same⟩ := ih
      obtain ⟨held', s', inv', stepped⟩ := inv.step taken
      rw [List.filterMap_append]
      rcases stepped with ⟨nothing, rfl⟩ | ⟨a, acts', asks⟩
      · rw [List.filterMap_cons_none nothing, List.filterMap_nil, List.append_nil]
        exact ⟨held', s', acts, inv', beside, same⟩
      · rw [List.filterMap_cons_some asks, List.filterMap_nil, ← same]
        refine ⟨held', s', _, inv', beside.snoc acts', ?_⟩
        rw [List.map_append]
        rfl

/-- Memory has the tree of an abstract file system that was asked for the same, and finding,
    resolving and reading in memory is finding, resolving and reading there. -/
structure Follower (L : Layout) (t : Image) (s : FsState) : Prop where
  wellFormed : WellFormed s
  reaches : ∀ p, Reaches L.arch t.heap.mem t.root p ↔ s.InTree p
  nodes : ∀ p n, s.nodes p = some n → NodeAt L.arch t.heap.mem p n
  resolves : ∀ path dir, 0 ∉ path → (∀ c ∈ components path, c.length < 32) → s.InTree dir →
    ∃ p, fsResolve s path dir = .ok p ∧ emulatedFsResolve L.arch t.heap.mem t.root path dir = .ok p
  reads : ∀ file n, s.nodes file = some n → n.type = .file →
    ∃ content, s.contentOf n = some content ∧
    ∀ (out : Nat) (max : UInt32), 0 < max →
      (out + max.toNat ≤ get L.arch t.heap.mem file .data ∨
        get L.arch t.heap.mem file .data + get L.arch t.heap.mem file .size ≤ out) →
      Reads t.heap.mem out (min content.length (max.toNat - 1)) content
        (emulatedFsRead L.arch t.heap.mem file out max)

theorem ImageInv.follower (inv : ImageInv L t held s) : Follower L t s where
  wellFormed := inv.wf
  reaches := by
    intro p
    rw [← inv.root]
    exact inv.reaches_iff .refl
  nodes := fun p n present => (inv.holds.rep.nodes p n present).2
  resolves := by
    intro path dir proper short inTree
    rcases resolve_inTree inv.wf.consistentTree inTree short with nowhere | ⟨p, resolved, _⟩
    · exact ⟨0, nowhere, inv.root ▸ inv.holds.rep.emulatedFsResolve_eq proper nowhere⟩
    · exact ⟨p, resolved, inv.root ▸ inv.holds.rep.emulatedFsResolve_eq proper resolved⟩
  reads := by
    intro file n present isFile
    by_cases hasSize : n.size = 0
    · have content : s.contentOf n = some [] := by rw [contentOf, if_pos hasSize]
      exact ⟨[], content, fun out max room apart =>
        inv.holds.rep.emulatedFsRead inv.files present isFile content room apart⟩
    · obtain ⟨bytes, stored, _⟩ := inv.files.stored file n present isFile hasSize
      have content : s.contentOf n = some bytes := by rw [contentOf, if_neg hasSize, stored]
      exact ⟨bytes, content, fun out max room apart =>
        inv.holds.rep.emulatedFsRead inv.files present isFile content room apart⟩

/-- Every run in memory is a run of the abstract file system that was asked for the same,
    and memory shows its last state. -/
theorem session_refines (L : Layout) (mem : Mem) (start t : Image)
    (trace : List (Image × ImageEvent)) (fresh : freshImage L mem = .ok start)
    (run : Run (ImageStep L) start trace t) :
    ∃ s acts, Run FsStep (freshTree start.root) acts s ∧
      acts.map (fun entry => asked entry.2) = trace.filterMap asks ∧ Follower L t s := by
  obtain ⟨_, s, acts, inv, beside, same⟩ := run_beside fresh run
  exact ⟨s, acts, beside, same, inv.follower⟩

/-- The blocks of the tree: its nodes, and the data of its files. -/
def BlockOfTree (arch : Arch) (t : Image) (a : Allocation) : Prop :=
  ∃ p, Reaches arch t.heap.mem t.root p ∧ (a = ⟨p, sizeofNode arch⟩ ∨
    get arch t.heap.mem p .type = typeCode .file ∧ get arch t.heap.mem p .size ≠ 0 ∧
      a = ⟨get arch t.heap.mem p .data, get arch t.heap.mem p .size⟩)

theorem ImageInv.mem_held (inv : ImageInv L t held s) (a : Allocation) :
    a ∈ held ↔ BlockOfTree L.arch t a := by
  constructor
  · intro member
    rcases inv.holds.exact a member with ⟨n, present, size⟩ | ⟨bytes, live, size⟩
    · refine ⟨a.ptr, (inv.follower.reaches _).mpr (inv.clean.nodes _ n present), .inl ?_⟩
      rw [← size]
    · obtain ⟨p, n, present, isFile, hasSize, dataIs⟩ := inv.clean.bufs a.ptr bytes live
      obtain ⟨stored, here, length⟩ := inv.files.stored p n present isFile hasSize
      rw [dataIs, live] at here
      obtain rfl := Option.some.inj here
      refine ⟨p, (inv.follower.reaches _).mpr (inv.clean.nodes p n present), .inr ?_⟩
      rw [inv.field present (f := .type) trivial, inv.field present (f := .size) trivial,
        inv.field present (f := .data) trivial]
      refine ⟨congrArg typeCode isFile, hasSize, ?_⟩
      rw [fieldOf, fieldOf, dataIs, ← length, ← size]
  · rintro ⟨p, reaches, rfl | ⟨isFile, hasSize, rfl⟩⟩
    · obtain ⟨_, n, present, _⟩ := inv.found reaches
      exact (inv.holds.rep.nodes p n present).1
    · obtain ⟨_, n, present, _⟩ := inv.found reaches
      rw [inv.field present (f := .type) trivial] at isFile
      rw [inv.field present (f := .size) trivial] at hasSize
      obtain ⟨bytes, stored, length⟩ :=
        inv.files.stored p n present (typeCode_eq_iff.mp isFile) hasSize
      rw [inv.field present (f := .size) trivial, inv.field present (f := .data) trivial, fieldOf,
        fieldOf, ← length]
      exact (inv.holds.rep.bufs n.data bytes stored).1

/-- After every run the blocks that the heap has in use are the nodes of the tree and the
    data of its files, each once: nothing has leaked, and nothing was freed too early. -/
theorem session_leaks_nothing (L : Layout) (mem : Mem) (start t : Image)
    (trace : List (Image × ImageEvent)) (fresh : freshImage L mem = .ok start)
    (run : Run (ImageStep L) start trace t) :
    ∃ bs, Seg L.arch t.heap.mem 0 bs 0 ∧ startAddr bs 0 = L.memoryPool ∧
      Laid (sizeofMemoryBlock L.arch) L.memoryPool (L.memoryPool + memoryPoolSize) bs ∧
      ((live bs).map (allocationOf L.arch)).Nodup ∧
      ∀ a, a ∈ (live bs).map (allocationOf L.arch) ↔ BlockOfTree L.arch t a := by
  obtain ⟨held, s, _, inv, _, _⟩ := run_beside fresh run
  obtain ⟨bs, heapInv⟩ := inv.holds.rep.heap
  refine ⟨bs, heapInv.seg, heapInv.first, heapInv.laid, ?_, fun a => ?_⟩
  · refine heapInv.held.nodup_iff.mp ?_
    refine heapInv.payloadsSafe.disjoint.imp_of_mem fun {a c} memberA _ disjoint same => ?_
    subst same
    have apart := heapInv.apart_of_disjoint memberA memberA disjoint
    have sized := heapInv.sized a memberA
    omega
  · exact heapInv.held.symm.mem_iff.trans (inv.mem_held a)

/-- The node at `p` and what is below it are gone; the parent has lost this child and keeps
    the others in order; every other node and every file that is left is as it was. -/
structure TakesOut (arch : Arch) (t t' : Image) (p : Ptr) : Prop where
  root : t'.root = t.root
  reaches : ∀ x, Reaches arch t'.heap.mem t'.root x ↔
    Reaches arch t.heap.mem t.root x ∧ ¬ Reaches arch t.heap.mem p x
  parent : ((List.range (get arch t'.heap.mem (get arch t.heap.mem p .parent) .childCount)).map
      fun i => get arch t'.heap.mem (get arch t.heap.mem p .parent) (.child i)) =
    ((List.range (get arch t.heap.mem (get arch t.heap.mem p .parent) .childCount)).map
      fun i => get arch t.heap.mem (get arch t.heap.mem p .parent) (.child i)).erase p
  kept : ∀ x f, f.InStruct → Reaches arch t'.heap.mem t'.root x →
    x ≠ get arch t.heap.mem p .parent →
    get arch t'.heap.mem x f = get arch t.heap.mem x f
  data : ∀ x, Reaches arch t'.heap.mem t'.root x → get arch t.heap.mem x .type = typeCode .file →
    bytesAt t'.heap.mem (get arch t.heap.mem x .data) (get arch t.heap.mem x .size) =
      bytesAt t.heap.mem (get arch t.heap.mem x .data) (get arch t.heap.mem x .size)

/-- The children that memory lists. -/
theorem ImageInv.childList (inv : ImageInv L t held s) (inTree : s.InTree p)
    (present : s.nodes p = some n) :
    ((List.range (get L.arch t.heap.mem p .childCount)).map fun i => get L.arch t.heap.mem p
      (.child i)) = n.childList := by
  obtain ⟨_, n', present', ok⟩ := inv.wf.live inTree
  obtain rfl := Option.some.inj (present'.symm.trans present)
  rw [inv.field present (f := .childCount) trivial, FsNode.childList]
  refine List.map_congr_left fun i inside => ?_
  exact inv.field present (f := .child i) ((List.mem_range.mp inside).trans_le ok.fits)

theorem ImageInv.takesOut {held' : List Allocation} (inv : ImageInv L t held s)
    (inv' : ImageInv L t' held' s') (same : t'.root = t.root)
    (reaches : Reaches L.arch t.heap.mem t.root p) (step : FsStep s (.remove p) s') :
    TakesOut L.arch t t' p := by
  obtain ⟨inPlace, acts⟩ := step
  obtain ⟨_, _, deleted, pruned⟩ := removed_of_acts inv.wf inPlace acts
  obtain ⟨inTree, n, present, _⟩ := inv.found reaches
  have parentIs : get L.arch t.heap.mem p .parent = s.parent p := by
    rw [inv.field present (f := .parent) trivial, parent_of present]
    rfl
  have left : ∀ x, s'.InTree x ↔ s.InTree x ∧ ¬ s.Below p x := by
    intro x
    constructor
    · intro stays
      obtain ⟨_, n', present', _⟩ := inv'.wf.live stays
      obtain ⟨m, before, _⟩ := pruned.nodes x n' present'
      refine ⟨inv.clean.nodes x m before, fun below => ?_⟩
      cases (deleted.gone x below).symm.trans present'
    · exact fun both => deleted.inTree both.1 both.2
  have atLeft : ∀ x, Reaches L.arch t'.heap.mem t'.root x → ∃ m m', s.nodes x = some m ∧
      s'.nodes x = some m' ∧
      m' = { m with children := m'.children, childCount := m'.childCount } ∧ ¬ s.Below p x := by
    intro x found
    obtain ⟨stays, m', present', _⟩ := inv'.found found
    obtain ⟨m, before, fields⟩ := pruned.nodes x m' present'
    exact ⟨m, m', before, present', fields, ((left x).mp stays).2⟩
  refine ⟨same, fun x => ?_, ?_, fun x f inStruct found other => ?_, fun x found isFile => ?_⟩
  · rw [inv'.follower.reaches, inv.follower.reaches, inv.reaches_iff inTree]
    exact left x
  · rw [parentIs]
    obtain ⟨m, m', before, after, children, _⟩ := deleted.parent
    have above : s'.InTree (s.parent p) := inv'.clean.nodes _ m' after
    rw [inv'.childList above after, inv.childList ((left _).mp above).1 before, children]
  · obtain ⟨m, m', before, after, _, notBelow⟩ := atLeft x found
    have kept := (deleted.kept x notBelow (parentIs ▸ other)).trans before
    obtain rfl := Option.some.inj (after.symm.trans kept)
    rw [inv'.field after inStruct, inv.field before inStruct]
  · obtain ⟨m, m', before, after, fields, _⟩ := atLeft x found
    rw [inv.field before (f := .type) trivial] at isFile
    have isFile := typeCode_eq_iff.mp isFile
    have isFile' : m'.type = .file := by rw [fields, isFile]
    rw [inv.field before (f := .data) trivial, inv.field before (f := .size) trivial, fieldOf,
      fieldOf]
    by_cases hasSize : m.size = 0
    · rw [hasSize]
      rfl
    · obtain ⟨bytes, stored, length⟩ := inv.files.stored x m before isFile hasSize
      have hasSize' : m'.size ≠ 0 := by
        rw [fields]
        exact hasSize
      obtain ⟨bytes', stored', _⟩ := inv'.files.stored x m' after isFile' hasSize'
      have unchanged : s'.bufs m.data = s.bufs m.data := by
        rcases pruned.bufs m.data with same | ⟨y, k, there, gone, fileY, shared⟩
        · exact same
        · obtain rfl := inv.files.apart x y m k before there isFile fileY hasSize shared.symm
          cases gone.symm.trans after
      have now := (inv'.holds.rep.bufs m.data bytes (unchanged.trans stored)).2
      have then_ := (inv.holds.rep.bufs m.data bytes stored).2
      rw [length] at now then_
      rw [now, then_]

/-- In every state that a run reaches a node with a parent can be removed if the owners of
    the directories that are removed do no harm: the calls return, and they take out the
    subtree and nothing else. -/
theorem session_removes (L : Layout) (mem : Mem) (start t : Image)
    (trace : List (Image × ImageEvent)) (fresh : freshImage L mem = .ok start)
    (run : Run (ImageStep L) start trace t) (p : Ptr) (reaches : Reaches L.arch t.heap.mem t.root p)
    (hasParent : get L.arch t.heap.mem p .parent ≠ 0)
    (harmless : ∀ x, Reaches L.arch t.heap.mem p x → IsDir L.arch t.heap.mem x →
    Harmless L t.heap.mem (UInt64.ofNat (get L.arch t.heap.mem x .owner))) :
    ∃ t', ImageStep L t (.remove p) t' ∧ TakesOut L.arch t t' p := by
  obtain ⟨_, s, _, inv, _, _⟩ := run_beside fresh run
  obtain ⟨m, fuel, h', held', s', value, last, inv', step⟩ := inv.remove reaches hasParent harmless
  exact ⟨{ t with heap := h' }, .remove reaches hasParent harmless value last,
    inv.takesOut inv' rfl reaches step⟩

/-- A directory in the root with a file in it. -/
structure Subtree (t : Image) (dir file : Ptr) : Prop where
  reaches : Reaches .x86_64 t.heap.mem t.root dir
  hasParent : get .x86_64 t.heap.mem dir .parent ≠ 0
  only : ∀ x, Reaches .x86_64 t.heap.mem dir x → x = dir ∨ x = file
  isFile : get .x86_64 t.heap.mem file .type = typeCode .file
  owner : get .x86_64 t.heap.mem dir .owner = 0

theorem Subtree.noStrayLink {file : Ptr} (tree : Subtree t dir file)
    (inv : ImageInv exampleLayout t held s) :
    NoStrayLink .x86_64 s dir := by
  intro x n below present isDir
  obtain ⟨inTree, _⟩ := inv.found tree.reaches
  rcases tree.only x ((inv.reaches_iff inTree).mpr below) with rfl | rfl
  · exact (inv.field present (f := .owner) trivial).symm.trans tree.owner
  · have isFile := (inv.field present (f := .type) trivial).symm.trans tree.isFile
    rw [typeCode_eq_iff.mp isFile] at isDir
    cases isDir

/-- The directory `a` is made in the root, the file `b` in it, and a byte is written to
    that. -/
def subtreeEvents (root dir file : Ptr) : List ImageEvent :=
  [.create .dir [97] root root 0 dir, .create .file [98] dir dir 0 file, .write file 100 1]

/-- The calls of `subtreeEvents`, with the fields of the nodes between them. -/
def builtSubtree : Except Fault (List Nat × List Nat × List Nat × List Nat × List Nat) := do
  let start ← freshImage exampleLayout fun _ => 65
  let (dir, h₁) ← createNode exampleLayout .dir start.heap [97] start.root 0
  let m₁ := emulatedFsAddChild exampleLayout.arch h₁.mem start.root dir
  let (file, h₂) ← createNode exampleLayout .file { h₁ with mem := m₁ } [98] dir 0
  let m₂ := emulatedFsAddChild exampleLayout.arch h₂.mem dir file
  let h₃ ← emulatedFsWrite exampleLayout { h₂ with mem := m₂ } file 100 1
  return ([start.root, dir, file],
    [get .x86_64 start.heap.mem start.root .type,
      get .x86_64 start.heap.mem start.root .childCount],
    [get .x86_64 m₁ start.root .childCount, get .x86_64 m₁ start.root (.child 0),
      get .x86_64 m₁ dir .type, get .x86_64 m₁ dir .childCount],
    [get .x86_64 m₂ start.root .childCount, get .x86_64 m₂ start.root (.child 0),
      get .x86_64 m₂ dir .childCount, get .x86_64 m₂ dir (.child 0), get .x86_64 m₂ file .type],
    [get .x86_64 h₃.mem start.root .childCount, get .x86_64 h₃.mem start.root (.child 0),
      get .x86_64 h₃.mem dir .childCount, get .x86_64 h₃.mem dir (.child 0),
      get .x86_64 h₃.mem dir .parent, get .x86_64 h₃.mem dir .owner,
      get .x86_64 h₃.mem file .type, get .x86_64 h₃.mem file .childCount])

theorem builtSubtree_eq :
    builtSubtree = .ok ([0x200020, 0x200298, 0x200510], [1, 0], [1, 0x200298, 1, 0],
      [1, 0x200298, 1, 0x200510, 0], [1, 0x200298, 1, 0x200510, 0x200020, 0, 0, 0]) := by
  decide +kernel

theorem Reaches.onlyChild {arch : Arch} {m : Mem} {top dir c : Ptr}
    (found : Reaches arch m top dir) (count : get arch m dir .childCount = 1)
    (child : get arch m dir (.child 0) = c) : Reaches arch m top c := by
  rw [← child]
  exact found.child (count.symm ▸ Nat.one_pos)

/-- What a directory with a single child that has none leads to. -/
theorem Reaches.of_onlyChild {arch : Arch} {m : Mem} {dir c x : Ptr}
    (found : Reaches arch m dir x) (count : get arch m dir .childCount = 1)
    (child : get arch m dir (.child 0) = c) (leaf : get arch m c .childCount = 0) :
    x = dir ∨ x = c := by
  induction found with
  | top => exact .inl rfl
  | @child y i _ below ih =>
      rcases ih with rfl | rfl
      · obtain rfl : i = 0 := Nat.lt_one_iff.mp (count ▸ below)
        exact .inr child
      · rw [leaf] at below
        exact absurd below (Nat.not_lt_zero i)

theorem exists_subtree :
    ∃ start t trace dir file, freshImage exampleLayout (fun _ => 65) = .ok start ∧
    Run (ImageStep exampleLayout) start trace t ∧
    trace.map Prod.snd = subtreeEvents start.root dir file ∧ Subtree t dir file := by
  have value := builtSubtree_eq
  rw [builtSubtree] at value
  obtain ⟨start, fresh, value⟩ := bind_eq_ok.mp value
  obtain ⟨⟨dir, h₁⟩, madeDir, value⟩ := bind_eq_ok.mp value
  obtain ⟨⟨file, h₂⟩, madeFile, value⟩ := bind_eq_ok.mp value
  obtain ⟨h₃, written, value⟩ := bind_eq_ok.mp value
  have facts := pure_eq_ok.mp value
  simp only [Prod.mk.injEq, List.cons.injEq, and_true] at facts
  obtain ⟨⟨root, atDir, atFile⟩, ⟨rootIsDir, bare⟩, ⟨count₁, child₁, isDir, empty⟩,
    ⟨count₂, child₂, dirCount₂, dirChild₂, isFile₂⟩,
    count₃, child₃, dirCount₃, dirChild₃, parent, owner, isFile, leaf⟩ := facts
  rw [← atDir] at child₁ child₂ child₃
  rw [← atFile] at dirChild₂ dirChild₃
  have first : ImageStep exampleLayout start (.create .dir [97] start.root start.root 0 dir) _ :=
    .create (by decide) (by decide) (root.trans_lt (by decide)) .top rootIsDir
      (bare.trans_lt (by decide)) madeDir
  have second : ImageStep exampleLayout
      { start with heap := { h₁ with
        mem := emulatedFsAddChild exampleLayout.arch h₁.mem start.root dir } }
      (.create .file [98] dir dir 0 file) _ :=
    .create (by decide) (by decide) (atDir.trans_lt (by decide))
      (Reaches.top.onlyChild count₁ child₁) isDir (empty.trans_lt (by decide)) madeFile
  have third : ImageStep exampleLayout
      { start with heap := { h₂ with
        mem := emulatedFsAddChild exampleLayout.arch h₂.mem dir file } }
      (.write file 100 1) _ :=
    .write ((Reaches.top.onlyChild count₂ child₂).onlyChild dirCount₂ dirChild₂) isFile₂
      (by decide) (.inl (by decide)) written
  exact ⟨start, _, _, dir, file, fresh, ((Run.single first).snoc second).snoc third, rfl,
    Reaches.top.onlyChild count₃ child₃, parent.trans_ne (by decide),
    fun x found => found.of_onlyChild dirCount₃ dirChild₃ leaf, isFile, owner⟩

/-- The directory is removed again, with the file. -/
theorem exists_removed :
    ∃ start t trace dir file, freshImage exampleLayout (fun _ => 65) = .ok start ∧
    Run (ImageStep exampleLayout) start trace t ∧
      trace.map Prod.snd = subtreeEvents start.root dir file ++ [.remove dir] := by
  obtain ⟨start, t, trace, dir, file, fresh, run, events, tree⟩ := exists_subtree
  obtain ⟨held, s, _, inv, _, _⟩ := run_beside fresh run
  obtain ⟨t', _, _, step, _, _⟩ := inv.removes tree.reaches tree.hasParent (tree.noStrayLink inv)
  refine ⟨start, t', _, dir, file, fresh, run.snoc step, ?_⟩
  rw [List.map_append, events]
  rfl

theorem session_refines_subtree : ∃ start t trace dir file s acts,
    freshImage exampleLayout (fun _ => 65) = .ok start ∧
    Run (ImageStep exampleLayout) start trace t ∧
      trace.map Prod.snd = subtreeEvents start.root dir file ++ [.remove dir] ∧
      Run FsStep (freshTree start.root) acts s ∧ Follower exampleLayout t s := by
  obtain ⟨start, t, trace, dir, file, fresh, run, events⟩ := exists_removed
  obtain ⟨s, acts, beside, _, follower⟩ := session_refines _ _ start t _ fresh run
  exact ⟨start, t, trace, dir, file, s, acts, fresh, run, events, beside, follower⟩

theorem session_leaks_nothing_subtree : ∃ start t trace dir file bs,
    freshImage exampleLayout (fun _ => 65) = .ok start ∧
    Run (ImageStep exampleLayout) start trace t ∧
      trace.map Prod.snd = subtreeEvents start.root dir file ++ [.remove dir] ∧
      Seg .x86_64 t.heap.mem 0 bs 0 ∧
      ∀ a, a ∈ (live bs).map (allocationOf .x86_64) ↔ BlockOfTree .x86_64 t a := by
  obtain ⟨start, t, trace, dir, file, fresh, run, events⟩ := exists_removed
  obtain ⟨bs, seg, _, _, _, blocks⟩ := session_leaks_nothing _ _ start t _ fresh run
  exact ⟨start, t, trace, dir, file, bs, fresh, run, events, seg, blocks⟩

theorem session_removes_subtree : ∃ t t' dir file, Subtree t dir file ∧
    ImageStep exampleLayout t (.remove dir) t' ∧ TakesOut .x86_64 t t' dir := by
  obtain ⟨start, t, trace, dir, file, fresh, run, _, tree⟩ := exists_subtree
  obtain ⟨held, s, _, inv, _, _⟩ := run_beside fresh run
  obtain ⟨t', step, takesOut⟩ := session_removes _ _ start t _ fresh run dir tree.reaches
    tree.hasParent
    (inv.harmless tree.reaches (tree.noStrayLink inv))
  exact ⟨t, t', dir, file, tree, step, takesOut⟩

/-- Deleting an empty directory whose owner does harm overwrites a word outside the heap. -/
theorem emulatedFsDelete_harms (L : Layout) (h : State) (held : List Allocation) (s : FsState)
    (p : Nat) (n : FsNode) (rep : Represents L h held s) (present : s.nodes p = some n)
    (isDir : n.type = .dir) (empty : n.childCount = 0) (bare : n.data = 0 ∧ n.size = 0)
    (victim : Nat) (harmful : Harmful L h.mem n.owner victim) (fuel : Nat) :
    ∃ h', Bytes.emulatedFsDelete L (fuel + 2) h p = .ok h' ∧
      Heap.get L.arch h'.mem victim .prev = strayBlock L.arch p := by
  obtain ⟨bs, inv⟩ := rep.heap
  obtain ⟨member, node⟩ := rep.nodes p n present
  have range := inv.inside member
  dsimp only at range
  have ready : h.memoryAlreadyInitialized = true := inv.ready
  obtain ⟨m', freed, written, kept⟩ := free_inside_links ready node range bare harmful
  have code : get L.arch h.mem p .type = typeCode .dir := by
    rw [node.fields .type trivial, fieldOf, isDir]
  have count : get L.arch h.mem p .childCount = 0 := by
    rw [node.fields .childCount trivial, fieldOf, empty]
  have cleared : ChangesIn m' (set L.arch m' p .childCount 0) p (sizeofNode L.arch) :=
    set_changesIn (f := .childCount) trivial
  have nonnull : p ≠ 0 := by omega
  refine ⟨Heap.free L { h with mem := set L.arch m' p .childCount 0 } p, ?_, ?_⟩
  · rw [Bytes.emulatedFsDelete, if_neg nonnull, if_pos code, Bytes.emulatedDeleteLoop, count,
      if_neg (Nat.lt_irrefl 0)]
    dsimp only [bind, Except.bind, pure, Except.pure]
    rw [freed]
  · have inv' : Heap.Inv L ⟨{ h with mem := set L.arch m' p .childCount 0 }, held⟩ bs := by
      refine inv.after_change fun x inside own => ?_
      have outside := own _ member
      dsimp only at outside
      rw [cleared x (by omega), kept x inside (by omega)]
    obtain ⟨_, same⟩ := inv'.free_returns member
    refine (Heap.get_congr .prev fun x above below => ?_).trans written
    have apart := harmful.apartVictim
    rw [Layout.Apart] at apart
    have outside : L.Outside x := by
      rw [Layout.Outside]
      omega
    rw [same.outside x outside]
    exact cleared x (by omega)

/-- Low memory with a 1 where a directory of the user 1001 has the flag of the next block, and with
    0x1000 where it has the link behind that. -/
def lowMemory : Mem := fun x => if x = 1001 + 9 then 0x10 else if x = 1001 + 24 then 1 else 0

/-- A directory of the user 1001 is deleted: the word at 0x1010 is overwritten. -/
theorem emulatedFsDelete_harms_1001 :
    ∃ h h' p, Bytes.emulatedFsDelete exampleLayout 2 h p = .ok h' ∧
    Heap.get .x86_64 h.mem 0x1000 .prev = 0 ∧
    Heap.get .x86_64 h'.mem 0x1000 .prev = strayBlock .x86_64 p := by
  have value : (do
      let start ← freshImage exampleLayout lowMemory
      let (node, h) ← createNode exampleLayout .dir start.heap [97] start.root 1001
      let m := emulatedFsAddChild exampleLayout.arch h.mem start.root node
      return [start.root, get .x86_64 start.heap.mem start.root .type,
        get .x86_64 start.heap.mem start.root .childCount, Heap.get .x86_64 m 1001 .free,
        Heap.get .x86_64 m 1001 .next, Heap.get .x86_64 m 0x1000 .prev]) = .ok [0x200020, 1, 0, 1,
        0x1000, 0] := by
    decide +kernel
  obtain ⟨start, fresh, value⟩ := bind_eq_ok.mp value
  obtain ⟨⟨node, h⟩, created, value⟩ := bind_eq_ok.mp value
  have facts := pure_eq_ok.mp value
  simp only [List.cons.injEq, and_true] at facts
  obtain ⟨root, isDir, count, isFree, next, before⟩ := facts
  obtain ⟨_, inv⟩ := freshImage_inv fresh
  have fits : start.root < exampleLayout.arch.wordSize := root.trans_lt (by decide)
  obtain ⟨held, s, inv', _, acts⟩ :=
    inv.create (by decide) (by decide) fits .top isDir (count.trans_lt (by decide)) created
  obtain ⟨_, _, made⟩ := created_of_acts acts
  obtain ⟨par, present⟩ := made.atBlock
  have harmful : Harmful exampleLayout (emulatedFsAddChild exampleLayout.arch h.mem start.root node)
      1001 0x1000 :=
    ⟨by decide, .inl (by decide), isFree.trans_ne (by decide), next, by decide,
      .inl (by decide), by decide, by decide⟩
  obtain ⟨h', deleted, written⟩ := emulatedFsDelete_harms exampleLayout _ held s node _
    inv'.holds.rep present rfl rfl
    ⟨rfl, rfl⟩ 0x1000 harmful 0
  exact ⟨_, h', node, deleted, before, written⟩

end AurorOS.Fs.Bytes
