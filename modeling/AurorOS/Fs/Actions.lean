import AurorOS.Fs.Invariant
import AurorOS.Fs.Prune

/-! # Actions on the file system

Whatever a command does to the file system is a sequence of four kinds of actions:
creating a node and adding it, writing a file, changing permissions, and removing a
node with what is below it.  Each keeps the tree well formed and the files' data
apart, and touches one node that stays.
-/

namespace AurorOS.Fs

open FsState Forest Outcome

inductive Action where
  | create (type : NodeType) (name : List UInt8) (parent : Ptr) (owner : UInt64) (dir block : Ptr)
  | write (file : Ptr) (data : List UInt8) (block : Ptr)
  | chmod (p : Ptr) (permissions : UInt16)
  | remove (p : Ptr)

/-- The action is carried out and returns. -/
inductive Acts (s : FsState) : Action → FsState → Prop where
  | create {type name parent owner dir block d s₁ s'} : s.nodes dir = some d → Fresh s block →
      createNode type s block name parent owner = .ok (block, s₁) →
      fsAddChild s₁ dir block = .ok s' →
      Acts s (.create type name parent owner dir block) s'
  | write {file data block n s'} : s.nodes file = some n → n.type = .file →
      MallocReturns (releaseData s n) data.length block → fsWrite s file data block = .ok s' →
      Acts s (.write file data block) s'
  | chmod {p n permissions} : s.nodes p = some n →
      Acts s (.chmod p permissions) (s.setNode p { n with permissions := permissions })
  | remove {p n fuel s₁ s'} : s.nodes p = some n → n.parent ≠ 0 →
      fsRemoveChild s n.parent p = .ok s₁ →
      fsDelete fuel s₁ p = .ok s' → Acts s (.remove p) s'

/-- Nodes are created in the tree and removed from it. -/
def Action.InPlace (s : FsState) : Action → Prop
  | .create _ _ _ _ dir _ => s.InTree dir
  | .remove p => s.InTree p
  | _ => True

/-- No directory from `p` down has an owner that `free(node->children)` takes for a link. -/
def NoStrayLink (arch : Arch) (s : FsState) (p : Ptr) : Prop :=
  ∀ x n, s.Below p x → s.nodes x = some n → n.type = .dir → strayNext arch n.owner = 0

/-- The node is one that the action changes and that is there afterwards; a file takes no
    children. -/
def Action.Touches (s : FsState) (x : Ptr) : Action → Prop
  | .create _ _ _ _ dir _ => x = dir ∧ ∃ d, s.nodes dir = some d ∧ d.type = .dir
  | .write file _ _ => x = file
  | .chmod p _ => x = p
  | .remove p => x = s.parent p

variable {s s' : FsState} {a : Action} {n n' d m : FsNode} {p q x y dir block file : Ptr}
  {type : NodeType} {name data : List UInt8} {parent : Ptr} {owner : UInt64}

/-- Nothing else is below a node without children. -/
theorem below_of_childless (empty : s.kids p = []) (below : s.Below p x) : x = p := by
  induction below with
  | refl => rfl
  | tail _ listed ih =>
      rw [ih, empty] at listed
      cases listed

theorem noStrayLink_of_childless {arch : Arch} (empty : s.kids p = [])
    (owners : ∀ n, s.nodes p = some n → strayNext arch n.owner = 0) : NoStrayLink arch s p := by
  intro x n below present _
  obtain rfl := below_of_childless empty below
  exact owners n present

/-- Creating a node: it is a leaf, and the directory has it as its last child. -/
structure Created (s s' : FsState) (type : NodeType) (name : List UInt8) (owner : UInt64)
    (dir block : Ptr) (d : FsNode) :
    Prop where
  short : name.length < 32
  fresh : Fresh s block
  atBlock : ∃ par, s'.nodes block = some (leafNode type name owner par)
  atDir : d.type = .dir → d.childCount < 64 ∧ s'.nodes dir = some (d.adding block)
  atFile : d.type = .file → s'.nodes dir = some d
  kept : ∀ x, x ≠ block → x ≠ dir → s'.nodes x = s.nodes x
  bufs : s'.bufs = s.bufs
  root : s'.fsRoot = s.fsRoot

theorem created_of_acts (acts : Acts s (.create type name parent owner dir block) s') :
    ∃ d, s.nodes dir = some d ∧ Created s s' type name owner dir block d := by
  cases acts with
  | @create _ _ _ _ _ _ d s₁ _ present fresh created added =>
      refine ⟨d, present, ?_⟩
      have apart : dir ≠ block := by
        rintro rfl
        rw [fresh.noNode] at present
        cases present
      rw [createNode] at created
      split at created
      case isFalse => cases created
      rename_i short
      obtain ⟨_, rfl⟩ := Prod.mk.inj (Except.ok.inj created)
      obtain ⟨d', here, added⟩ := bind_eq_ok.mp added
      rw [deref_eq_ok] at here
      have same : d' = d := by
        simp only [setNode, Function.update_of_ne apart] at here
        exact Option.some.inj (here.symm.trans present)
      subst same
      split at added
      · rename_i notDir
        obtain rfl := pure_eq_ok.mp added
        refine ⟨short, fresh, ⟨parent, Function.update_self ..⟩, fun isDir => absurd isDir notDir,
          fun _ => here, ?_, rfl, rfl⟩
        intro x notBlock _
        exact Function.update_of_ne notBlock _ _
      rename_i isDir
      rw [not_not] at isDir
      split at added
      case isFalse => cases added
      rename_i room
      obtain ⟨c, child, added⟩ := bind_eq_ok.mp added
      rw [deref_eq_ok] at child
      simp only [setNode, Function.update_of_ne apart.symm, Function.update_self,
        Option.some.injEq] at child
      obtain rfl := pure_eq_ok.mp added
      subst child
      refine ⟨short, fresh, ⟨dir, Function.update_self ..⟩, fun _ => ⟨room, ?_⟩, fun isFile => ?_,
        ?_, rfl, rfl⟩
      · simp [setNode, apart, FsNode.adding]
      · cases isDir.symm.trans isFile
      · intro x notBlock notDir
        simp [setNode, notBlock, notDir]

/-- Writing a file: its old data is freed and its new data is at the block. -/
structure Written (s s' : FsState) (file : Ptr) (data : List UInt8) (block : Ptr)
    (n : FsNode) : Prop where
  isFile : n.type = .file
  returned : MallocReturns (releaseData s n) data.length block
  nodes : s'.nodes = Function.update s.nodes file
    (some { n with data := block, size := data.length })
  bufs : s'.bufs =
    if data = [] then (releaseData s n).bufs
      else Function.update (releaseData s n).bufs block (some data)
  root : s'.fsRoot = s.fsRoot

theorem written_of_acts (acts : Acts s (.write file data block) s') :
    ∃ n, s.nodes file = some n ∧ Written s s' file data block n := by
  cases acts with
  | @write _ _ _ n _ present isFile returned written =>
      obtain ⟨s'', written', nodes, root⟩ := write_eq data block present isFile
      obtain rfl := Except.ok.inj (written.symm.trans written')
      refine ⟨n, present, isFile, returned, nodes, ?_, root⟩
      obtain rfl := Except.ok.inj ((write_value data block present isFile).symm.trans written)
      by_cases empty : data = [] <;> simp [setNode, empty]

/-- Removing a node of the tree. -/
theorem removed_of_acts (wf : WellFormed s) (inTree : s.InTree p) (acts : Acts s (.remove p) s') :
    p ≠ s.fsRoot ∧ WellFormed s' ∧ Deleted s s' p ∧ Pruned s s' := by
  cases acts with
  | @remove _ n fuel s₁ _ present hasParent unlinked deleted =>
      have notRoot : p ≠ s.fsRoot := by
        rintro rfl
        obtain ⟨K, tree, _⟩ := wf
        exact hasParent ((parent_of present).symm.trans tree.spans.1)
      obtain ⟨K, Kp, q, placed⟩ := placed_of_inTree wf inTree notRoot
      obtain rfl : n.parent = q := (parent_of present).symm.trans placed.parent_eq
      have above : s.InTree n.parent := (placed.tree.mem_iff_below _).mp placed.above
      obtain ⟨s₁', s'', unlinked', returns, wf', deleted'⟩ :=
        remove_then_delete wf above placed.listed
      obtain rfl := Except.ok.inj (unlinked.symm.trans unlinked')
      obtain rfl := returns.eq deleted
      exact ⟨notRoot, wf', deleted',
        (fsRemoveChild_pruned unlinked).trans ((fsDelete_pruned fuel).1 _ _ _ deleted)⟩

/-- Links and order of the nodes of the tree are all that matters. -/
theorem WellFormed.of_links (wf : WellFormed s) (root : s'.fsRoot = s.fsRoot)
    (links : ∀ x n, s.InTree x → s.nodes x = some n → ∃ n', s'.nodes x = some n' ∧
    n'.childList = n.childList ∧ n'.parent = n.parent ∧ (NodeOk n → NodeOk n')) :
    WellFormed s' := by
  obtain ⟨K, tree, unique⟩ := wf
  refine ⟨K, ?_, root ▸ unique⟩
  rw [root]
  refine ⟨tree.spans.congr ?_, ?_⟩
  · intro x inside
    obtain ⟨_, n, present, _⟩ := tree.nodes x inside
    obtain ⟨n', present', children, par, _⟩ := links x n ((tree.mem_iff_below x).mp inside) present
    rw [kids_of present', kids_of present, parent_of present', parent_of present]
    exact ⟨children, par⟩
  · intro x inside
    obtain ⟨nonnull, n, present, ok⟩ := tree.nodes x inside
    obtain ⟨n', present', _, _, keeps⟩ := links x n ((tree.mem_iff_below x).mp inside) present
    exact ⟨nonnull, n', present', keeps ok⟩

theorem WellFormed.live (wf : WellFormed s) (inTree : s.InTree x) :
    x ≠ 0 ∧ ∃ n, s.nodes x = some n ∧ NodeOk n := by
  obtain ⟨K, tree, _⟩ := wf
  exact tree.nodes x ((tree.mem_iff_below x).mpr inTree)

/-- More children, more nodes in the tree. -/
theorem inTree_mono (root : s'.fsRoot = s.fsRoot) (kids : ∀ x y, y ∈ s.kids x → y ∈ s'.kids x)
    (inTree : s.InTree x) :
    s'.InTree x := by
  rw [InTree, root]
  exact Relation.ReflTransGen.mono (fun x y => kids x y) _ _ inTree

/-- Nodes outside a removed subtree stay in the tree. -/
theorem Deleted.inTree (deleted : Deleted s s' p) (inTree : s.InTree x) (outside : ¬ s.Below p x) :
    s'.InTree x := by
  rw [InTree, deleted.root]
  induction inTree with
  | refl => exact .refl
  | @tail y z path listed ih =>
      have notBelow : ¬ s.Below p y := fun below => outside (below.tail listed)
      refine (ih notBelow).tail ?_
      by_cases atParent : y = s.parent p
      · obtain ⟨n, n', present, present', children, _⟩ := deleted.parent
        rw [← atParent] at present present'
        rw [kids_of present] at listed
        rw [kids_of present', children]
        have other : z ≠ p := by
          rintro rfl
          exact outside .refl
        exact (List.mem_erase_of_ne other).mpr listed
      · rwa [(links_of_same (deleted.kept y notBelow atParent)).1]

namespace Acts

theorem wellFormed (acts : Acts s a s') (wf : WellFormed s) (inPlace : a.InPlace s) :
    WellFormed s' := by
  cases a with
  | create type name parent owner dir block =>
      obtain ⟨d, present, created⟩ := created_of_acts acts
      cases kind : d.type with
      | dir =>
          obtain ⟨room, _⟩ := created.atDir kind
          obtain ⟨s₁, s₂, first, second, wf', _⟩ :=
            @create_add _ _ _ _ type name parent owner wf created.short created.fresh present
              kind room
          cases acts with
          | create _ _ first' second' =>
              obtain ⟨_, rfl⟩ := Prod.mk.inj (Except.ok.inj (first.symm.trans first'))
              obtain rfl := Except.ok.inj (second.symm.trans second')
              exact wf'
      | file =>
          refine wf.of_links created.root fun x n _ here => ⟨n, ?_, rfl, rfl, id⟩
          by_cases atDir : x = dir
          · subst atDir
            obtain rfl := Option.some.inj (here.symm.trans present)
            exact created.atFile kind
          · have other : x ≠ block := by
              rintro rfl
              rw [created.fresh.noNode] at here
              cases here
            exact (created.kept x other atDir).trans here
  | write file data block =>
      cases acts with
      | write present isFile returned written =>
          obtain ⟨s'', written', wf'⟩ := write_wellFormed wf present isFile returned
          obtain rfl := Except.ok.inj (written.symm.trans written')
          exact wf'
  | chmod p permissions =>
      cases acts with
      | @chmod _ n _ present =>
          refine wf.of_links rfl fun x m _ here => ?_
          by_cases same : x = p
          · subst same
            obtain rfl := Option.some.inj (here.symm.trans present)
            exact ⟨_, nodes_setNode_self .., rfl, rfl, fun ok => ⟨ok.fits, ok.leaf, ok.content⟩⟩
          · exact ⟨m, (nodes_setNode_of_ne _ _ same).trans here, rfl, rfl, id⟩
  | remove p => exact (removed_of_acts wf inPlace acts).2.1

/-- Nothing comes to be at `NULL`. -/
theorem null (acts : Acts s a s') (wf : WellFormed s) (inPlace : a.InPlace s)
    (nothing : s.nodes 0 = none) :
    s'.nodes 0 = none := by
  have notZero : ∀ n, s.nodes 0 = some n → False :=
    fun n present => nomatch nothing.symm.trans present
  cases a with
  | create type name parent owner dir block =>
      obtain ⟨d, present, created⟩ := created_of_acts acts
      have notDir : 0 ≠ dir := by
        rintro rfl
        exact notZero d present
      exact (created.kept 0 created.fresh.nonnull.symm notDir).trans nothing
  | write file data block =>
      obtain ⟨n, present, written⟩ := written_of_acts acts
      have notFile : 0 ≠ file := by
        rintro rfl
        exact notZero n present
      rw [written.nodes, Function.update_of_ne notFile, nothing]
  | chmod p permissions =>
      cases acts with
      | @chmod _ n _ present =>
          have notNode : 0 ≠ p := by
            rintro rfl
            exact notZero n present
          exact (nodes_setNode_of_ne _ _ notNode).trans nothing
  | remove p =>
      obtain ⟨_, _, _, pruned⟩ := removed_of_acts wf inPlace acts
      cases still : s'.nodes 0 with
      | none => rfl
      | some n' =>
          obtain ⟨n, present, _⟩ := pruned.nodes 0 n' still
          exact (notZero n present).elim

/-- A node of the tree stays in it unless it is removed. -/
theorem inTree (acts : Acts s a s') (wf : WellFormed s) (inPlace : a.InPlace s)
    (inTree : s.InTree x) (outside : ∀ p, a = .remove p → ¬ s.Below p x) : s'.InTree x := by
  cases a with
  | create type name parent owner dir block =>
      obtain ⟨d, present, created⟩ := created_of_acts acts
      refine inTree_mono created.root ?_ inTree
      intro y z listed
      by_cases atDir : y = dir
      · subst atDir
        rw [kids_of present] at listed
        cases kind : d.type with
        | dir =>
            rw [kids_of (created.atDir kind).2, childList_adding]
            exact List.mem_append_left _ listed
        | file =>
            rw [kids_of (created.atFile kind)]
            exact listed
      · by_cases atBlock : y = block
        · subst atBlock
          rw [FsState.kids, created.fresh.noNode] at listed
          cases listed
        · rwa [(links_of_same (created.kept y atBlock atDir)).1]
  | write file data block =>
      obtain ⟨n, present, written⟩ := written_of_acts acts
      refine inTree_mono written.root ?_ inTree
      intro y z listed
      by_cases atFile : y = file
      · subst atFile
        rw [kids_of present] at listed
        have here : s'.nodes y = some { n with data := block, size := data.length } := by
          rw [written.nodes, Function.update_self]
        rw [kids_of here]
        exact listed
      · have same : s'.nodes y = s.nodes y := by rw [written.nodes, Function.update_of_ne atFile]
        rwa [(links_of_same same).1]
  | chmod p permissions =>
      cases acts with
      | @chmod _ n _ present =>
          refine inTree_mono (s := s) rfl ?_ inTree
          intro y z listed
          by_cases same : y = p
          · subst same
            rw [kids_of present] at listed
            rw [kids_of (nodes_setNode_self ..)]
            exact listed
          · rwa [(links_of_same (nodes_setNode_of_ne _ _ same)).1]
  | remove p =>
      obtain ⟨_, _, deleted, _⟩ := removed_of_acts wf inPlace acts
      exact deleted.inTree inTree (outside p rfl)

/-- A node that is touched keeps what it is and whose it is. -/
theorem keeps_kind (acts : Acts s a s') (wf : WellFormed s) (inPlace : a.InPlace s)
    (present : s.nodes x = some n) (present' : s'.nodes x = some n') :
    n'.type = n.type ∧ n'.owner = n.owner := by
  cases a with
  | create type name parent owner dir block =>
      obtain ⟨d, atDir, created⟩ := created_of_acts acts
      have other : x ≠ block := by
        rintro rfl
        rw [created.fresh.noNode] at present
        cases present
      by_cases same : x = dir
      · subst same
        obtain rfl := Option.some.inj (present.symm.trans atDir)
        cases kind : n.type with
        | dir =>
            obtain rfl := Option.some.inj ((created.atDir kind).2.symm.trans present')
            exact ⟨kind, rfl⟩
        | file =>
            obtain rfl := Option.some.inj ((created.atFile kind).symm.trans present')
            exact ⟨kind, rfl⟩
      · rw [created.kept x other same, present] at present'
        obtain rfl := Option.some.inj present'
        exact ⟨rfl, rfl⟩
  | write file data block =>
      obtain ⟨m, atFile, written⟩ := written_of_acts acts
      rw [written.nodes] at present'
      by_cases same : x = file
      · subst same
        rw [Function.update_self] at present'
        obtain rfl := Option.some.inj (present.symm.trans atFile)
        obtain rfl := Option.some.inj present'
        exact ⟨rfl, rfl⟩
      · rw [Function.update_of_ne same, present] at present'
        obtain rfl := Option.some.inj present'
        exact ⟨rfl, rfl⟩
  | chmod p permissions =>
      cases acts with
      | @chmod _ m _ atP =>
          by_cases same : x = p
          · subst same
            rw [nodes_setNode_self] at present'
            obtain rfl := Option.some.inj (present.symm.trans atP)
            obtain rfl := Option.some.inj present'
            exact ⟨rfl, rfl⟩
          · rw [nodes_setNode_of_ne _ _ same, present] at present'
            obtain rfl := Option.some.inj present'
            exact ⟨rfl, rfl⟩
  | remove p =>
      obtain ⟨_, _, _, pruned⟩ := removed_of_acts wf inPlace acts
      obtain ⟨m, here, fields⟩ := pruned.nodes x n' present'
      obtain rfl := Option.some.inj (present.symm.trans here)
      rw [fields]
      exact ⟨rfl, rfl⟩

/-- A directory of the tree stays one unless it is removed. -/
theorem dir_stays (acts : Acts s a s') (wf : WellFormed s) (inPlace : a.InPlace s)
    (isDir : s.InTree x ∧ ∃ n, s.nodes x = some n ∧ n.type = .dir)
    (outside : ∀ p, a = .remove p → ¬ s.Below p x) :
    s'.InTree x ∧ ∃ n, s'.nodes x = some n ∧ n.type = .dir := by
  obtain ⟨inTree, n, present, type⟩ := isDir
  have stays := acts.inTree wf inPlace inTree outside
  obtain ⟨_, n', present', _⟩ := (acts.wellFormed wf inPlace).live stays
  exact ⟨stays, n', present', (acts.keeps_kind wf inPlace present present').1.trans type⟩

end Acts

end AurorOS.Fs
