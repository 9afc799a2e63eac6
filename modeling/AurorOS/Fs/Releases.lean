import AurorOS.Fs.Files

/-! # What a deletion frees

`fs_delete` gives `free` the node and the data of everything below it, each of them
once, and for every directory also the address of the array inside the node, which
`malloc` never returned.
-/

namespace AurorOS.Fs

open FsState Forest

/-- A block that `malloc` returned and that has not been freed.  The address of an
    array inside a node is none. -/
def FsState.InUse (s : FsState) : Freed → Prop
  | .node x => s.nodes x ≠ none
  | .data d => s.bufs d ≠ none
  | .children _ => False

/-- The node blocks and the data blocks of what is below `p`, itself included. -/
inductive FsState.BlockBelow (s : FsState) (p : Ptr) : Freed → Prop where
  | node {x} : s.Below p x → BlockBelow s p (.node x)
  | data {x n} : s.Below p x → s.nodes x = some n → n.type = .file → n.data ≠ 0 →
      BlockBelow s p (.data n.data)

/-- The arguments are blocks in use, each once, and precisely those of the subtree. -/
structure Exactly (s : FsState) (p : Ptr) (args : List Freed) : Prop where
  inUse : ∀ f ∈ args, s.InUse f
  once : args.Nodup
  blocks : ∀ f, f ∈ args ↔ s.BlockBelow p f

def Freed.nonNull (f : Freed) : Bool := f ≠ .data 0

def Freed.inside : Freed → Bool
  | .children _ => true
  | _ => false

/-- The arguments that are not `NULL` are exactly the blocks of the subtree. -/
def ReleasesExactly (s s' : FsState) (p : Ptr) : Prop :=
  ∃ new, s'.freed = new ++ s.freed ∧ Exactly s p (new.filter Freed.nonNull)

variable {s s' : FsState} {n : FsNode} {p q x : Ptr} {K : Forest Ptr} {f : Freed}
  {args new : List Freed}

/-- The arguments for one node that are blocks. -/
def FsNode.blocks (n : FsNode) (x : Ptr) : List Freed :=
  (n.releases x).filter fun f => f.nonNull && !f.inside

theorem mem_blocks :
    f ∈ n.blocks x ↔ f = .node x ∨ (n.type = .file ∧ n.data ≠ 0 ∧ f = .data n.data) := by
  rw [FsNode.blocks, FsNode.releases]
  cases kind : n.type with
  | dir => cases f <;> simp [Freed.nonNull, Freed.inside]
  | file =>
      cases f with
      | node _ => simp [Freed.nonNull, Freed.inside]
      | data _ =>
          simp [Freed.nonNull, Freed.inside]
          grind
      | children _ => simp

/-- The address of the array is given to `free` for a directory. -/
theorem children_mem_releases {y : Ptr} : .children x ∈ n.releases y ↔ y = x ∧ n.type = .dir := by
  rw [FsNode.releases]
  cases n.type with
  | dir => simp [eq_comm]
  | file => simp

theorem nodup_blocks (n : FsNode) (x : Ptr) : (n.blocks x).Nodup := by
  refine List.Nodup.filter _ ?_
  rw [FsNode.releases]
  cases n.type <;> simp

section Subtree

variable (files : FilesOk s) (tree : TreeAt s q (cons p K nil))
  (unique : (cons p K nil).labels.Nodup)

include tree

theorem releases_of_mem (inside : x ∈ (cons p K nil).labels) :
    ∃ n, s.nodes x = some n ∧ s.releases x = n.releases x := by
  obtain ⟨_, n, present, _⟩ := tree.nodes x inside
  exact ⟨n, present, by rw [FsState.releases, present]⟩

theorem mem_releases : f ∈ (cons p K nil).labels.flatMap s.releases ↔
    ∃ x n, s.Below p x ∧ s.nodes x = some n ∧ f ∈ n.releases x := by
  rw [List.mem_flatMap]
  constructor
  · rintro ⟨x, inside, given⟩
    obtain ⟨n, present, same⟩ := releases_of_mem tree inside
    exact ⟨x, n, (tree.mem_iff_below x).mp inside, present, same ▸ given⟩
  · rintro ⟨x, n, below, present, given⟩
    have same : s.releases x = n.releases x := by rw [FsState.releases, present]
    exact ⟨x, (tree.mem_iff_below x).mpr below, same ▸ given⟩

include files unique

/-- But for the addresses inside directories, deleting the subtree frees its blocks. -/
theorem exactly_blocks :
    Exactly s p (((cons p K nil).labels.flatMap s.releases).filter fun f => f.nonNull &&
    !f.inside) := by
  have mem : ∀ f, f ∈ ((cons p K nil).labels.flatMap s.releases).filter (fun f => f.nonNull &&
      !f.inside) ↔
      ∃ x n, s.Below p x ∧ s.nodes x = some n ∧ f ∈ n.blocks x := by
    intro f
    rw [List.mem_filter, mem_releases tree]
    simp only [FsNode.blocks, List.mem_filter]
    grind
  refine ⟨?_, ?_, ?_⟩
  · intro f given
    obtain ⟨x, n, _, present, inBlocks⟩ := (mem f).mp given
    rcases mem_blocks.mp inBlocks with rfl | ⟨isFile, nonnull, rfl⟩
    · simp [FsState.InUse, present]
    · have hasSize : n.size ≠ 0 := mt (files.content x n present isFile).mpr nonnull
      obtain ⟨bytes, stored, _⟩ := files.stored x n present isFile hasSize
      simp [FsState.InUse, stored]
  · rw [List.filter_flatMap, List.nodup_flatMap]
    refine ⟨fun x inside => ?_, unique.imp_of_mem ?_⟩
    · obtain ⟨n, _, same⟩ := releases_of_mem tree inside
      rw [same]
      exact nodup_blocks n x
    · intro x y inX inY other f
      obtain ⟨m, presentX, sameX⟩ := releases_of_mem tree inX
      obtain ⟨n, presentY, sameY⟩ := releases_of_mem tree inY
      simp only [sameX, sameY]
      intro blockX blockY
      rcases mem_blocks.mp blockX with rfl | ⟨isFile, nonnull, rfl⟩
      · have same : x = y := by simpa using mem_blocks.mp blockY
        exact other same
      · obtain ⟨isFileY, _, shared⟩ := (mem_blocks.mp blockY).resolve_left Freed.noConfusion
        have hasSize : m.size ≠ 0 := mt (files.content x m presentX isFile).mpr nonnull
        exact other (files.apart x y m n presentX presentY isFile isFileY hasSize
          (Freed.data.inj shared))
  · intro f
    rw [mem]
    constructor
    · rintro ⟨x, n, below, present, inBlocks⟩
      rcases mem_blocks.mp inBlocks with rfl | ⟨isFile, nonnull, rfl⟩
      · exact .node below
      · exact .data below present isFile nonnull
    · intro block
      cases block with
      | @node x below =>
          obtain ⟨_, n, present, _⟩ := tree.nodes x ((tree.mem_iff_below x).mpr below)
          exact ⟨x, n, below, present, mem_blocks.mpr (.inl rfl)⟩
      | @data x n below present isFile nonnull =>
          exact ⟨x, n, below, present, mem_blocks.mpr (.inr ⟨isFile, nonnull, rfl⟩)⟩

end Subtree

theorem Exactly.perm (exactly : Exactly s p args) (perm : new.Perm args) : Exactly s p new where
  inUse := fun f member => exactly.inUse f (perm.mem_iff.mp member)
  once := perm.nodup_iff.mpr exactly.once
  blocks := fun f => perm.mem_iff.trans (exactly.blocks f)

/-- Nothing is below a file but itself. -/
theorem below_file (wf : WellFormed s) (inTree : s.InTree p) (present : s.nodes p = some n)
    (isFile : n.type = .file) (below : s.Below p x) : x = p := by
  obtain ⟨_, n', present', ok⟩ := wf.live inTree
  obtain rfl := Option.some.inj (present.symm.trans present')
  have noKids : s.kids p = [] := by rw [kids_of present, childList_eq_nil.mpr (ok.leaf isFile)]
  rcases Relation.ReflTransGen.cases_head below with rfl | ⟨y, listed, _⟩
  · rfl
  · rw [noKids] at listed
    cases listed

/-- What deleting a node of the tree frees: the blocks of the subtree, each once, and
    one address inside each of its directories. -/
theorem delete_frees (wf : WellFormed s) (files : FilesOk s) (inTree : s.InTree p)
    (notRoot : p ≠ s.fsRoot) :
    ∃ s' new, Returns (fsDelete · s p) s' ∧ s'.freed = new ++ s.freed ∧
      Exactly s p (new.filter fun f => f.nonNull && !f.inside) ∧
      ∀ x, .children x ∈ new ↔ s.Below p x ∧ ∃ n, s.nodes x = some n ∧ n.type = .dir := by
  obtain ⟨K, Kp, q, placed⟩ := placed_of_inTree wf inTree notRoot
  obtain ⟨_, m, presentParent, okParent, isDir, _, _⟩ := placed.parent_dir
  obtain ⟨unique, outside⟩ := placed.nodup
  obtain ⟨s', returns, cut⟩ :=
    fsDelete_spec placed.below unique outside (.inr ⟨m, presentParent, isDir, okParent.fits⟩)
  obtain ⟨new, freed, perm⟩ := cut.released
  refine ⟨s', new, returns, freed, (exactly_blocks files placed.below unique).perm (perm.filter _),
    fun x => ?_⟩
  rw [perm.mem_iff, mem_releases placed.below]
  constructor
  · rintro ⟨y, n, below, present, given⟩
    obtain ⟨rfl, kind⟩ := children_mem_releases.mp given
    exact ⟨below, n, present, kind⟩
  · rintro ⟨below, n, present, kind⟩
    exact ⟨x, n, below, present, children_mem_releases.mpr ⟨rfl, kind⟩⟩

/-- An address inside a node is no block. -/
theorem not_releasesExactly (freed : s'.freed = new ++ s.freed) (given : .children x ∈ new) :
    ¬ ReleasesExactly s s' p := by
  rintro ⟨new', freed', only⟩
  obtain rfl : new' = new := List.append_cancel_right (freed'.symm.trans freed)
  exact only.inUse (.children x) (List.mem_filter.mpr ⟨given, rfl⟩)

/-- `fs_delete` frees exactly the blocks of the subtree if the node is a file, and
    something else as well if it is a directory. -/
theorem delete_releases_iff (s : FsState) (wf : WellFormed s) (files : FilesOk s) (p : Ptr)
    (inTree : s.InTree p) (notRoot : p ≠ s.fsRoot) : ∃ s', Returns (fsDelete · s p) s' ∧
      (ReleasesExactly s s' p ↔ ∃ n, s.nodes p = some n ∧ n.type = .file) := by
  obtain ⟨s', new, returns, freed, exactly, addresses⟩ := delete_frees wf files inTree notRoot
  obtain ⟨_, n, present, _⟩ := wf.live inTree
  refine ⟨s', returns, ?_, ?_⟩
  · intro only
    cases kind : n.type with
    | file => exact ⟨n, present, kind⟩
    | dir =>
        exact absurd only (not_releasesExactly freed ((addresses p).mpr ⟨.refl, n, present, kind⟩))
  · rintro ⟨n', present', isFile⟩
    refine ⟨new, freed, ?_⟩
    have noAddress : ∀ f ∈ new, f.inside = false := by
      intro f given
      cases f with
      | children x =>
          obtain ⟨below, m, presentX, kind⟩ := (addresses x).mp given
          obtain rfl := below_file wf inTree present' isFile below
          obtain rfl := Option.some.inj (present'.symm.trans presentX)
          cases isFile.symm.trans kind
      | node _ => rfl
      | data _ => rfl
    have same : new.filter Freed.nonNull = new.filter fun f => f.nonNull && !f.inside := by
      refine List.filter_congr fun f given => ?_
      rw [noAddress f given, Bool.not_false, Bool.and_true]
    rw [same]
    exact exactly

theorem homeState_inTree : homeState.InTree 2 ∧ homeState.InTree 3 := by
  have home : homeState.InTree 2 := .tail .refl (List.mem_singleton.mpr rfl)
  exact ⟨home, home.tail (List.mem_singleton.mpr rfl)⟩

/-- The file `notes`. -/
theorem delete_releases_iff_home :
    ∃ s', Returns (fsDelete · homeState 3) s' ∧ ReleasesExactly homeState s' 3 := by
  obtain ⟨s', returns, spec⟩ := delete_releases_iff homeState homeState_wellFormed
    homeState_filesOk 3
    homeState_inTree.2 (by decide)
  exact ⟨s', returns, spec.mpr ⟨_, rfl, rfl⟩⟩

/-- The directory `home`: the address of its array is freed as well. -/
theorem not_delete_releases :
    ¬ ∀ (s : FsState) (p : Ptr), WellFormed s → FilesOk s → s.InTree p → p ≠ s.fsRoot →
    ∃ s', Returns (fsDelete · s p) s' ∧ ReleasesExactly s s' p := by
  intro all
  obtain ⟨s', ⟨bound, returns⟩, only⟩ := all homeState 2 homeState_wellFormed homeState_filesOk
    homeState_inTree.1 (by decide)
  obtain ⟨s'', new, returns', freed, _, addresses⟩ :=
    delete_frees homeState_wellFormed homeState_filesOk homeState_inTree.1 (by decide)
  obtain rfl := returns'.eq (returns bound le_rfl)
  exact not_releasesExactly freed ((addresses 2).mpr ⟨.refl, _, rfl, rfl⟩) only

end AurorOS.Fs
