import AurorOS.Fs.Delete
import AurorOS.Lib.Outcome

/-! # The tree invariant

Creating and adding a node, writing a file, and removing a node in either of the
two ways of the source keep a state well formed.
-/

namespace AurorOS.Fs

open FsState Forest

variable {s s' s₁ : FsState} {n d : FsNode} {p q x block dir : Ptr} {K T : Forest Ptr}

/-- What `malloc` may return for a positive size: not `NULL`, and nothing live is
    there. -/
structure Fresh (s : FsState) (block : Ptr) : Prop where
  nonnull : block ≠ 0
  noNode : s.nodes block = none
  noBuf : s.bufs block = none

/-- What `malloc(size)` may return while the heap is not exhausted. -/
def MallocReturns (s : FsState) (size : Nat) (block : Ptr) : Prop :=
  if size = 0 then block = 0 else Fresh s block

/-- The nodes of the subtree at `p` are gone, its parent has lost the child `p` and
    keeps the others in order, and every other node is as it was. -/
structure Deleted (s s' : FsState) (p : Ptr) : Prop where
  gone : ∀ x, s.Below p x → s'.nodes x = none
  parent : ∃ n n', s.nodes (s.parent p) = some n ∧ s'.nodes (s.parent p) = some n' ∧
    n'.childList = n.childList.erase p ∧
    n' = { n with children := n'.children, childCount := n'.childCount }
  kept : ∀ x, ¬ s.Below p x → x ≠ s.parent p → s'.nodes x = s.nodes x
  root : s'.fsRoot = s.fsRoot

/-- A node of the tree other than the root, with what is below and above it. -/
structure Placed (s : FsState) (K : Forest Ptr) (p : Ptr) (Kp : Forest Ptr) (q : Ptr) : Prop where
  tree : TreeAt s 0 (cons s.fsRoot K nil)
  unique : (cons s.fsRoot K nil).labels.Nodup
  position : At 0 (cons s.fsRoot K nil) p Kp q
  above : q ∈ (cons s.fsRoot K nil).labels
  listed : p ∈ s.kids q

theorem placed_of_inTree (wf : WellFormed s) (inTree : s.InTree p) (notRoot : p ≠ s.fsRoot) :
    ∃ K Kp q, Placed s K p Kp q := by
  obtain ⟨K, tree, unique⟩ := wf
  have member : p ∈ K.labels := by
    cases mem_labels_tree.mp ((tree.mem_iff_below p).mpr inTree) with
    | inl root => exact absurd root notRoot
    | inr inKids => exact inKids
  obtain ⟨Kp, q, position⟩ := exists_at s.fsRoot member
  refine ⟨K, Kp, q, tree, unique, .inside position, ?_, ?_⟩
  · rcases position.parent_mem with rfl | inKids
    · exact List.mem_cons_self
    · exact mem_labels_cons.mpr (.inr (.inl inKids))
  · exact position.mem_kidsOf tree.spans.2.2.1 fun x root => tree.spans.2.1 ▸ root

namespace Placed

variable {Kp : Forest Ptr} (placed : Placed s K p Kp q)

include placed

theorem below : TreeAt s q (cons p Kp nil) := placed.tree.below placed.position

theorem parent_eq : s.parent p = q := placed.below.spans.1

theorem nodup : (cons p Kp nil).labels.Nodup ∧ q ∉ (cons p Kp nil).labels := by
  refine placed.position.nodup (List.nodup_cons.mpr ⟨fun zero => ?_, placed.unique⟩)
  exact (placed.tree.nodes 0 zero).1 rfl

/-- The parent is a directory in order. -/
theorem parent_dir :
    q ≠ 0 ∧ ∃ m, s.nodes q = some m ∧ NodeOk m ∧ m.type = .dir ∧ p ∈ m.childList ∧
    m.childList.Nodup := by
  obtain ⟨nonnull, m, present, ok⟩ := placed.tree.nodes q placed.above
  have listed := placed.listed
  rw [kids_of present] at listed
  refine ⟨nonnull, m, present, ok, ?_, listed, ?_⟩
  · cases type : m.type with
    | dir => rfl
    | file =>
        rw [childList_eq_nil.mpr (ok.leaf type)] at listed
        cases listed
  · obtain ⟨Kq, r, position⟩ := exists_at 0 placed.above
    have children := (position.spans placed.tree.spans).2.1
    rw [kids_of present] at children
    have notZero : (0 : Ptr) ∉ (cons s.fsRoot K nil).labels :=
      fun zero => (placed.tree.nodes 0 zero).1 rfl
    have inner :=
      (nodup_cons.mp (position.nodup (List.nodup_cons.mpr ⟨notZero, placed.unique⟩)).1).2.2.1
    rw [children]
    exact Kq.roots_sublist.nodup inner

/-- A subtree that has been cut out, in the terms of the state. -/
theorem deleted_of_cutOut {m m' : FsNode} (present : s.nodes q = some m)
    (gone : ∀ x ∈ (cons p Kp nil).labels, s'.nodes x = none) (present' : s'.nodes q = some m')
    (children : m'.childList = m.childList.erase p)
    (fields : m' = { m with children := m'.children, childCount := m'.childCount })
    (kept : ∀ x, x ≠ q → x ∉ (cons p Kp nil).labels → s'.nodes x = s.nodes x)
      (root : s'.fsRoot = s.fsRoot) :
    Deleted s s' p where
  gone := fun x below => gone x ((placed.below.mem_iff_below x).mpr below)
  parent := by
    rw [placed.parent_eq]
    exact ⟨m, m', present, present', children, fields⟩
  kept := by
    intro x notBelow other
    rw [placed.parent_eq] at other
    exact kept x other fun inside => notBelow ((placed.below.mem_iff_below x).mp inside)
  root := root

/-- A node that is left is the parent or as it was. -/
theorem remaining (deleted : Deleted s s' p)
    (inside : x ∈ ((cons s.fsRoot K nil).remove p).labels) :
    x ∈ (cons s.fsRoot K nil).labels ∧ (x ≠ q → s'.nodes x = s.nodes x) := by
  obtain ⟨member, outside⟩ := (placed.position.mem_remove placed.unique).mp inside
  refine ⟨member, fun other => deleted.kept x ?_ (placed.parent_eq.symm ▸ other)⟩
  exact fun below => outside ((placed.below.mem_iff_below x).mpr below)

/-- Each node that is left has lost `p`, if it listed it, and nothing else. -/
theorem remaining_links (deleted : Deleted s s' p)
    (inside : x ∈ ((cons s.fsRoot K nil).remove p).labels) :
    s'.kids x = (s.kids x).erase p ∧ s'.parent x = s.parent x := by
  obtain ⟨member, same⟩ := placed.remaining deleted inside
  obtain ⟨n, n', present, present', children, fields⟩ := deleted.parent
  rw [placed.parent_eq] at present present'
  by_cases atParent : x = q
  · subst atParent
    rw [kids_of present', kids_of present, parent_of present', parent_of present, children]
    exact ⟨rfl, by rw [fields]⟩
  · have notChild : p ∉ s.kids x := by
      intro kid
      exact atParent ((placed.tree.spans.parent_of_kid member kid).symm.trans placed.parent_eq)
    rw [List.erase_of_not_mem notChild]
    exact links_of_same (same atParent)

theorem remaining_node (deleted : Deleted s s' p)
    (inside : x ∈ ((cons s.fsRoot K nil).remove p).labels) :
    x ≠ 0 ∧ ∃ k, s'.nodes x = some k ∧ NodeOk k := by
  obtain ⟨member, same⟩ := placed.remaining deleted inside
  obtain ⟨nonnull, k, present, ok⟩ := placed.tree.nodes x member
  refine ⟨nonnull, ?_⟩
  by_cases atParent : x = q
  · subst atParent
    obtain ⟨_, m, presentDir, _, isDir, _, _⟩ := placed.parent_dir
    obtain ⟨n, n', presentParent, present', children, fields⟩ := deleted.parent
    rw [placed.parent_eq] at presentParent present'
    obtain rfl := Option.some.inj (present.symm.trans presentParent)
    obtain rfl := Option.some.inj (present.symm.trans presentDir)
    have notFile : n'.type ≠ .file := by
      rw [fields, isDir]
      exact NodeType.noConfusion
    have fewer : n'.childCount ≤ k.childCount := by
      rw [← length_childList, ← length_childList, children]
      exact List.length_erase_le
    exact ⟨n', present', fewer.trans ok.fits, fun isFile => absurd isFile notFile,
      fun isFile => absurd isFile notFile⟩
  · exact ⟨k, (same atParent).trans present, ok⟩

/-- What is left after a deletion is a tree again. -/
theorem wellFormed (notRoot : p ≠ s.fsRoot) (deleted : Deleted s s' p) : WellFormed s' := by
  have whole : (cons s.fsRoot K nil).remove p = cons s'.fsRoot (K.remove p) nil := by
    rw [Forest.remove, if_neg notRoot.symm, deleted.root]
    rfl
  refine ⟨K.remove p, whole ▸ ⟨?_, ?_⟩, whole ▸ (labels_remove_sublist _ p).nodup placed.unique⟩
  · exact placed.tree.spans.remove placed.unique fun x inside =>
      placed.remaining_links deleted inside
  · exact fun x inside => placed.remaining_node deleted inside

end Placed

/-- A directory to whose list `child` has been appended. -/
def FsNode.adding (n : FsNode) (child : Ptr) : FsNode :=
  { n with
    children := Function.update n.children n.childCount child
    childCount := n.childCount + 1 }

theorem childList_adding (n : FsNode) (child : Ptr) :
    (n.adding child).childList = n.childList ++ [child] := by
  have last : (n.adding child).children n.childCount = child := Function.update_self _ _ _
  have earlier : (List.range n.childCount).map (n.adding child).children = n.childList := by
    refine List.map_congr_left fun i inside => ?_
    exact Function.update_of_ne (Nat.ne_of_lt (List.mem_range.mp inside)) _ _
  have count : (n.adding child).childCount = n.childCount + 1 := rfl
  rw [FsNode.childList, count, List.range_succ, List.map_append, List.map_singleton, earlier, last]

/-- The node that `createNode` writes, hung in under `dir`. -/
def leafNode (type : NodeType) (name : List UInt8) (owner : UInt64) (dir : Ptr) : FsNode :=
  { name := name, type := type, parent := dir, permissions := mkDefaultPermissions 0o777,
    owner := owner, data := 0, size := 0, children := fun _ => 0, childCount := 0 }

/-- A child is added to a directory with room. -/
theorem addChild_eq {c : FsNode} {child : Ptr} (atDir : s.nodes dir = some d)
    (atChild : s.nodes child = some c) (isDir : d.type = .dir) (room : d.childCount < 64)
    (other : child ≠ dir) :
    fsAddChild s dir child =
    .ok ((s.setNode dir (d.adding child)).setNode child { c with parent := dir }) := by
  have still : (s.setNode dir (d.adding child)).nodes child = some c :=
    (nodes_setNode_of_ne _ _ other).trans atChild
  refine Outcome.bind_eq_ok.mpr ⟨d, deref_eq_ok.mpr atDir, ?_⟩
  rw [if_neg (not_not.mpr isDir), if_pos room]
  exact Outcome.bind_eq_ok.mpr ⟨c, deref_eq_ok.mpr still, rfl⟩

/-- A new node and its directory, and nothing else, are written. -/
theorem create_add_eq (type : NodeType) (name : List UInt8) (parent : Ptr) (owner : UInt64)
    (short : name.length < 32) (fresh : Fresh s block) (present : s.nodes dir = some d)
    (isDir : d.type = .dir) (room : d.childCount < 64) :
    ∃ s₁ s₂, createNode type s block name parent owner = .ok (block, s₁) ∧
    fsAddChild s₁ dir block = .ok s₂ ∧
      s₂.nodes block = some (leafNode type name owner dir) ∧ s₂.nodes dir = some (d.adding block) ∧
      (∀ x, x ≠ block → x ≠ dir → s₂.nodes x = s.nodes x) ∧ s₂.fsRoot = s.fsRoot := by
  have apart : dir ≠ block := by
    rintro rfl
    rw [fresh.noNode] at present
    cases present
  let s₁ := s.setNode block (leafNode type name owner parent)
  let s₂ := (s₁.setNode dir (d.adding block)).setNode block (leafNode type name owner dir)
  have created : createNode type s block name parent owner = .ok (block, s₁) := if_pos short
  have present₁ : s₁.nodes dir = some d := (nodes_setNode_of_ne s _ apart).trans present
  have added : fsAddChild s₁ dir block = .ok s₂ :=
    addChild_eq present₁ (s.nodes_setNode_self block _) isDir room apart.symm
  refine ⟨s₁, s₂, created, added, ?_, ?_, ?_, rfl⟩
  · simp [s₂, setNode]
  · simp [s₂, setNode, apart]
  · intro x notBlock notDir
    simp [s₂, s₁, setNode, notBlock, notDir]

/-- Creating a node and adding it to a directory. -/
theorem create_add {type : NodeType} {name : List UInt8} {parent : Ptr} {owner : UInt64}
    (wf : WellFormed s) (short : name.length < 32) (fresh : Fresh s block)
    (present : s.nodes dir = some d) (isDir : d.type = .dir) (room : d.childCount < 64) :
    ∃ s₁ s₂, createNode type s block name parent owner = .ok (block, s₁) ∧
    fsAddChild s₁ dir block = .ok s₂ ∧ WellFormed s₂ ∧ s₂.kids dir = s.kids dir ++ [block] := by
  obtain ⟨s₁, s₂, created, added, atBlock, atDir, kept, root⟩ :=
    create_add_eq type name parent owner short fresh present isDir room
  have kidsDir : s₂.kids dir = s.kids dir ++ [block] := by
    rw [kids_of atDir, kids_of present, childList_adding]
  refine ⟨s₁, s₂, created, added, ?_, kidsDir⟩
  obtain ⟨K, tree, unique⟩ := wf
  have absent : ∀ x ∈ (cons s.fsRoot K nil).labels, x ≠ block := by
    rintro x inside rfl
    obtain ⟨_, n, here, _⟩ := tree.nodes x inside
    rw [fresh.noNode] at here
    cases here
  have whole : (cons s.fsRoot K nil).addUnder dir block = cons s₂.fsRoot
      (if s.fsRoot = dir then (K.addUnder dir block).append (cons block nil nil)
        else K.addUnder dir block) nil := by
    rw [root]
    rfl
  refine ⟨_, whole ▸ ⟨tree.spans.addUnder ?_ ?_ ?_, ?_⟩,
    whole ▸ nodup_addUnder unique fun inside => absent _ inside rfl⟩
  · intro x inside
    by_cases atX : x = dir
    · subst atX
      rw [if_pos rfl, kidsDir, parent_of atDir, parent_of present]
      exact ⟨rfl, rfl⟩
    · rw [if_neg atX]
      exact links_of_same (kept x (absent x inside) atX)
  · exact kids_of atBlock
  · exact parent_of atBlock
  · intro x inside
    rcases mem_addUnder.mp inside with old | ⟨rfl, _⟩
    · obtain ⟨nonnull, n, here, ok⟩ := tree.nodes x old
      refine ⟨nonnull, ?_⟩
      by_cases atX : x = dir
      · subst atX
        have notFile : (d.adding block).type ≠ .file := by
          rw [FsNode.adding, isDir]
          exact NodeType.noConfusion
        exact ⟨d.adding block, atDir, room, fun isFile => absurd isFile notFile,
          fun isFile => absurd isFile notFile⟩
      · exact ⟨n, (kept x (absent x old) atX).trans here, ok⟩
    · exact ⟨fresh.nonnull, _, atBlock, Nat.zero_le 64, fun _ => rfl, fun _ => Iff.rfl⟩

theorem releaseData_nodes (s : FsState) (n : FsNode) :
    (releaseData s n).nodes = s.nodes ∧ (releaseData s n).fsRoot = s.fsRoot := by
  rw [releaseData]
  split <;> exact ⟨rfl, rfl⟩

theorem mallocReturns_zero_iff {size : Nat} (returned : MallocReturns s size block) :
    block = 0 ↔ size = 0 := by
  rw [MallocReturns] at returned
  split at returned
  · rename_i empty
    exact ⟨fun _ => empty, fun _ => returned⟩
  · rename_i some
    exact ⟨fun zero => absurd zero returned.nonnull, fun none => absurd none some⟩

theorem write_value {file : Ptr} (data : List UInt8) (block : Ptr) (present : s.nodes file = some n)
    (isFile : n.type = .file) :
    fsWrite s file data block =
      .ok ((if data = [] then releaseData s n
        else { releaseData s n with
          bufs := Function.update (releaseData s n).bufs block (some data) }).setNode file
          { n with data := block, size := data.length }) := by
  refine Outcome.bind_eq_ok.mpr ⟨n, deref_eq_ok.mpr present, ?_⟩
  rw [if_neg (not_not.mpr isFile)]
  rfl

/-- Writing a file changes its contents only. -/
theorem write_eq {file : Ptr} (data : List UInt8) (block : Ptr) (present : s.nodes file = some n)
    (isFile : n.type = .file) :
    ∃ s', fsWrite s file data block = .ok s' ∧
      s'.nodes = Function.update s.nodes file (some { n with data := block, size := data.length }) ∧
      s'.fsRoot = s.fsRoot := by
  obtain ⟨nodes, root⟩ := releaseData_nodes s n
  refine ⟨_, write_value data block present isFile, ?_, ?_⟩
  · by_cases empty : data = [] <;> simp [setNode, empty, nodes]
  · by_cases empty : data = [] <;> simp [setNode, empty, root]

/-- Writing a file. -/
theorem write_wellFormed {file : Ptr} {data : List UInt8} (wf : WellFormed s)
    (present : s.nodes file = some n) (isFile : n.type = .file)
    (returned : MallocReturns (releaseData s n) data.length block) :
    ∃ s', fsWrite s file data block = .ok s' ∧ WellFormed s' := by
  obtain ⟨s', written, nodes, root⟩ := write_eq data block present isFile
  have atFile : s'.nodes file = some { n with data := block, size := data.length } := by
    rw [nodes, Function.update_self]
  have kept : ∀ x, x ≠ file → s'.nodes x = s.nodes x := by
    intro x other
    rw [nodes, Function.update_of_ne other]
  obtain ⟨K, tree, unique⟩ := wf
  refine ⟨s', written, K, ?_, root ▸ unique⟩
  rw [root]
  refine ⟨tree.spans.congr ?_, ?_⟩
  · intro x _
    by_cases atX : x = file
    · subst atX
      rw [kids_of atFile, kids_of present, parent_of atFile, parent_of present]
      exact ⟨rfl, rfl⟩
    · exact links_of_same (kept x atX)
  · intro x inside
    obtain ⟨nonnull, k, here, ok⟩ := tree.nodes x inside
    refine ⟨nonnull, ?_⟩
    by_cases atX : x = file
    · subst atX
      obtain rfl := Option.some.inj (present.symm.trans here)
      exact ⟨_, atFile, ok.fits, ok.leaf, fun _ => mallocReturns_zero_iff returned⟩
    · exact ⟨k, (kept x atX).trans here, ok⟩

/-- `fs_delete` of a node of the tree. -/
theorem fsDelete_deletes (wf : WellFormed s) (inTree : s.InTree p) (notRoot : p ≠ s.fsRoot) :
    ∃ s', Returns (fsDelete · s p) s' ∧ WellFormed s' ∧ Deleted s s' p := by
  obtain ⟨K, Kp, q, placed⟩ := placed_of_inTree wf inTree notRoot
  obtain ⟨nonnull, m, present, ok, isDir, _, _⟩ := placed.parent_dir
  obtain ⟨unique, outside⟩ := placed.nodup
  obtain ⟨s', returns, cut⟩ :=
    fsDelete_spec placed.below unique outside (.inr ⟨m, present, isDir, ok.fits⟩)
  have deleted := placed.deleted_of_cutOut present cut.gone (cut.parent m nonnull present)
    (childList_without m p) rfl
    cut.kept cut.root
  exact ⟨s', returns, placed.wellFormed notRoot deleted, deleted⟩

/-- `fs_remove_child` and then `fs_delete` of the node thus detached. -/
theorem remove_then_delete (wf : WellFormed s) (inTree : s.InTree q) (listed : p ∈ s.kids q) :
    ∃ s₁ s', fsRemoveChild s q p = .ok s₁ ∧ Returns (fsDelete · s₁ p) s' ∧ WellFormed s' ∧
    Deleted s s' p := by
  have isChild : s.parent p = q := by
    obtain ⟨K, tree, unique⟩ := wf
    exact tree.spans.parent_of_kid ((tree.mem_iff_below q).mpr inTree) listed
  have parentNonnull : q ≠ 0 := by
    obtain ⟨K, tree, unique⟩ := wf
    exact (tree.nodes q ((tree.mem_iff_below q).mpr inTree)).1
  have notRoot : p ≠ s.fsRoot := by
    rintro rfl
    obtain ⟨K, tree, unique⟩ := wf
    exact parentNonnull (isChild.symm.trans tree.spans.1)
  obtain ⟨K, Kp, q', placed⟩ := placed_of_inTree wf (inTree.tail listed) notRoot
  obtain rfl : q' = q := placed.parent_eq.symm.trans isChild
  obtain ⟨_, m, present, ok, isDir, _, childrenUnique⟩ := placed.parent_dir
  obtain ⟨unique, outside⟩ := placed.nodup
  have childNonnull := (placed.below.nodes p List.mem_cons_self).1
  have unlink := fsRemoveChild_eq present parentNonnull childNonnull isDir ok.fits
  -- the subtree is the same after unlinking, and its parent lists it no more
  have detached : TreeAt (s.setNode q' (m.without p)) q' (cons p Kp nil) := by
    refine placed.below.congr fun x inside => ?_
    have other : x ≠ q' := fun same => outside (same ▸ inside)
    simp [setNode, other]
  have present₁ : (s.setNode q' (m.without p)).nodes q' = some (m.without p) := by simp [setNode]
  obtain ⟨s', returns, cut⟩ := fsDelete_spec detached unique outside
    (.inr ⟨m.without p, present₁, isDir, (childCount_without_le m p).trans ok.fits⟩)
  have children : ((m.without p).without p).childList = m.childList.erase p := by
    rw [childList_without, childList_without]
    exact List.erase_of_not_mem (childrenUnique.not_mem_erase)
  have kept : ∀ x, x ≠ q' → x ∉ (cons p Kp nil).labels → s'.nodes x = s.nodes x := by
    intro x other notInside
    rw [cut.kept x other notInside]
    simp [setNode, other]
  have deleted := placed.deleted_of_cutOut present cut.gone (cut.parent _ parentNonnull present₁)
    children rfl kept
    cut.root
  exact ⟨_, s', unlink, returns, placed.wellFormed notRoot deleted, deleted⟩

/-- From a well-formed state, while the heap is not exhausted: a node with a short
    name is created and added to a directory with room, a file is written, a child
    is removed and then deleted, and a node other than the root is deleted; each of
    these returns and leaves a well-formed state. -/
theorem operations_keep_tree (wf : WellFormed s) :
    (∀ create, create = fsCreateDirNode ∨ create = fsCreateFileNode →
      ∀ (block dir parent : Ptr) (d : FsNode) (name : List UInt8) (owner : UInt64),
      name.length < 32 → Fresh s block → s.nodes dir = some d → d.type = .dir → d.childCount < 64 →
        ∃ s₁ s₂, create s block name parent owner = .ok (block, s₁) ∧
        fsAddChild s₁ dir block = .ok s₂ ∧ WellFormed s₂ ∧ s₂.kids dir = s.kids dir ++ [block]) ∧
    (∀ (file block : Ptr) (n : FsNode) (data : List UInt8), s.nodes file = some n → n.type = .file →
      MallocReturns (releaseData s n) data.length block →
      ∃ s', fsWrite s file data block = .ok s' ∧ WellFormed s') ∧
    (∀ parent child : Ptr, s.InTree parent → child ∈ s.kids parent →
      ∃ s₁ s', fsRemoveChild s parent child = .ok s₁ ∧ Returns (fsDelete · s₁ child) s' ∧
        WellFormed s' ∧ Deleted s s' child) ∧
    ∀ node : Ptr, s.InTree node → node ≠ s.fsRoot →
      ∃ s', Returns (fsDelete · s node) s' ∧ WellFormed s' ∧ Deleted s s' node := by
  refine ⟨?_, ?_, ?_, ?_⟩
  · intro create either block dir parent d name owner short fresh present isDir room
    cases either with
    | inl isCreateDir => exact isCreateDir ▸ create_add wf short fresh present isDir room
    | inr isCreateFile => exact isCreateFile ▸ create_add wf short fresh present isDir room
  · intro file block n data present isFile returned
    exact write_wellFormed wf present isFile returned
  · intro parent child inTree listed
    exact remove_then_delete wf inTree listed
  · intro node inTree notRoot
    exact fsDelete_deletes wf inTree notRoot

/-- The root at 1, in it the directory `home` at 2, in it the empty file `notes` at 3. -/
def homeState : FsState where
  nodes
    | 1 => some { leafNode .dir [] 0 0 with children := fun _ => 2, childCount := 1 }
    | 2 => some { leafNode .dir [104, 111, 109, 101] 0 1 with
        children := fun _ => 3, childCount := 1 }
    | 3 => some (leafNode .file [110, 111, 116, 101, 115] 0 2)
    | _ => none
  bufs := fun _ => none
  fsRoot := 1
  freed := []

theorem homeState_wellFormed : WellFormed homeState := by
  refine ⟨cons 2 (cons 3 nil nil) nil, ⟨?_, ?_⟩, by decide⟩
  · exact ⟨rfl, rfl, ⟨rfl, rfl, ⟨rfl, rfl, trivial, trivial⟩, trivial⟩, trivial⟩
  · intro x inside
    have cases : x = 1 ∨ x = 2 ∨ x = 3 := by simpa [labels, homeState] using inside
    rcases cases with rfl | rfl | rfl
    · exact ⟨by decide, _, rfl, by decide, NodeType.noConfusion, NodeType.noConfusion⟩
    · exact ⟨by decide, _, rfl, by decide, NodeType.noConfusion, NodeType.noConfusion⟩
    · exact ⟨by decide, _, rfl, by decide, fun _ => rfl, fun _ => Iff.rfl⟩

/-- A file `a` comes to `home`, `notes` gets a byte, `notes` is removed, and `home` is
    deleted with what it holds. -/
theorem operations_keep_tree_home :
    (∃ s₁ s₂, fsCreateFileNode homeState 4 [97] 2 0 = .ok (4, s₁) ∧ fsAddChild s₁ 2 4 = .ok s₂ ∧
    WellFormed s₂ ∧ s₂.kids 2 = [3, 4]) ∧
    (∃ s', fsWrite homeState 3 [65] 4 = .ok s' ∧ WellFormed s') ∧
    (∃ s₁ s', fsRemoveChild homeState 2 3 = .ok s₁ ∧ Returns (fsDelete · s₁ 3) s' ∧ WellFormed s' ∧
      Deleted homeState s' 3) ∧
    ∃ s', Returns (fsDelete · homeState 2) s' ∧ WellFormed s' ∧ Deleted homeState s' 2 := by
  have fresh : Fresh homeState 4 := ⟨by decide, rfl, rfl⟩
  have home : homeState.InTree 2 := .tail .refl (List.mem_singleton.mpr rfl)
  obtain ⟨create, write, remove, delete⟩ := operations_keep_tree homeState_wellFormed
  refine ⟨?_, ?_, ?_, ?_⟩
  · exact create fsCreateFileNode (.inr rfl) 4 2 2 _ [97] 0 (by decide) fresh rfl rfl (by decide)
  · exact write 3 4 _ [65] rfl rfl fresh
  · exact remove 2 3 home (List.mem_singleton.mpr rfl)
  · exact delete 2 home (by decide)

end AurorOS.Fs
