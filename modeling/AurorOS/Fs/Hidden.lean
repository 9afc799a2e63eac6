import AurorOS.Fs.Paths
import AurorOS.Fs.Prune

/-! # Hidden data

The data of a file is hidden from a user who neither owns the file nor may read it.
File systems that differ in the hidden data of one file only stay so under every
operation, and resolving paths does not tell them apart.
-/

namespace AurorOS.Fs

open FsState Outcome

/-- The user neither owns the node nor has the read bit. -/
def Hidden (user : UInt64) (n : FsNode) : Prop := n.owner ≠ user ∧ ¬ Readable user n

instance (user : UInt64) (n : FsNode) : Decidable (Hidden user n) :=
  inferInstanceAs (Decidable (_ ∧ _))

/-- The file systems are the same up to the bytes, but not the number of bytes, of the data
    of the file, which is hidden. -/
structure DifferHidden (user : UInt64) (file : Ptr) (s t : FsState) : Prop where
  nodes : t.nodes = s.nodes
  root : t.fsRoot = s.fsRoot
  freed : t.freed = s.freed
  lengths : ∀ q, (t.bufs q).map List.length = (s.bufs q).map List.length
  hidden : ∀ x n, s.nodes x = some n → n.type = .file → n.size ≠ 0 → t.bufs n.data ≠ s.bufs n.data →
    x = file ∧ Hidden user n

variable {user : UInt64} {file : Ptr} {s t : FsState} {n m d : FsNode} {p x cur : Ptr}
  {path token : CStr}

namespace DifferHidden

variable (differ : DifferHidden user file s t)

include differ

theorem deref_eq (p : Ptr) : t.deref p = s.deref p := by
  rw [deref, deref, differ.nodes]

theorem findLoop_eq (d : FsNode) (name : CStr) (left i : Nat) :
    findLoop t d name left i = findLoop s d name left i := by
  induction left generalizing i with
  | zero => rfl
  | succ left ih => simp only [findLoop, differ.deref_eq, ih]

theorem emulatedFsFindIn_eq (dir : Ptr) (name : CStr) :
    emulatedFsFindIn t dir name = emulatedFsFindIn s dir name := by
  simp only [emulatedFsFindIn, differ.deref_eq, differ.findLoop_eq]

theorem stepInto_eq (token : CStr) (current : Ptr) :
    stepInto t token current = stepInto s token current := by
  simp only [stepInto, differ.deref_eq, differ.emulatedFsFindIn_eq]

theorem resolveLoop_eq (path token : CStr) (current : Ptr) :
    resolveLoop t path token current = resolveLoop s path token current := by
  induction path generalizing token current with
  | nil => exact differ.stepInto_eq token current
  | cons c rest ih => simp only [resolveLoop, differ.stepInto_eq, ih]

theorem fsResolve_eq (path : CStr) (cur : Ptr) : fsResolve t path cur = fsResolve s path cur := by
  simp only [fsResolve, emulatedFsResolve, differ.resolveLoop_eq, differ.root]

theorem pwdLoop_eq (fuel : Nat) (node : Ptr) (path : CStr) :
    pwdLoop t fuel node path = pwdLoop s fuel node path := by
  induction fuel generalizing node path with
  | zero => rfl
  | succ fuel ih => simp only [pwdLoop, differ.deref_eq, ih]

theorem shcPwd_eq (currentDir : Ptr) : shcPwd t currentDir = shcPwd s currentDir := by
  simp only [shcPwd, differ.pwdLoop_eq]

/-- Blocks are as free in the one as in the other. -/
theorem bufs_none (q : Ptr) : t.bufs q = none ↔ s.bufs q = none := by
  have length := differ.lengths q
  rw [← Option.map_eq_none_iff (f := List.length), length, Option.map_eq_none_iff]

/-- The data of every other file, and of a file that is not hidden, is the same. -/
theorem bufs_eq (present : s.nodes x = some n) (isFile : n.type = .file) (hasSize : n.size ≠ 0)
    (seen : ¬ (x = file ∧ Hidden user n)) : t.bufs n.data = s.bufs n.data := by
  by_contra other
  exact seen (differ.hidden x n present isFile hasSize other)

end DifferHidden

namespace DifferHidden

variable (differ : DifferHidden user file s t)

include differ

/-- A node changes in both; what differs stays hidden behind it. -/
theorem setNode
    (covers : m.type = .file → m.size ≠ 0 → t.bufs m.data ≠ s.bufs m.data →
    p = file ∧ Hidden user m) :
    DifferHidden user file (s.setNode p m) (t.setNode p m) where
  nodes := by rw [FsState.setNode, FsState.setNode, differ.nodes]
  root := differ.root
  freed := differ.freed
  lengths := differ.lengths
  hidden := by
    intro x n present isFile hasSize other
    by_cases same : x = p
    · subst same
      rw [nodes_setNode_self] at present
      obtain rfl := Option.some.inj present
      exact covers isFile hasSize other
    · rw [nodes_setNode_of_ne _ _ same] at present
      exact differ.hidden x n present isFile hasSize other

/-- A node changes in fields other than those of its data. -/
theorem setNode_of (present : s.nodes p = some n) (type : m.type = n.type) (data : m.data = n.data)
    (size : m.size = n.size) (covers : Hidden user n → Hidden user m) :
    DifferHidden user file (s.setNode p m) (t.setNode p m) := by
  refine differ.setNode fun isFile hasSize other => ?_
  rw [type] at isFile
  rw [size] at hasSize
  rw [data] at other
  exact (differ.hidden p n present isFile hasSize other).imp_right covers

theorem freeNode (p : Ptr) : DifferHidden user file (s.freeNode p) (t.freeNode p) where
  nodes := by rw [FsState.freeNode, FsState.freeNode, differ.nodes]
  root := differ.root
  freed := congrArg (Freed.node p :: ·) differ.freed
  lengths := differ.lengths
  hidden := by
    intro x n present isFile hasSize other
    by_cases same : x = p
    · subst same
      have gone : (s.freeNode x).nodes x = none := Function.update_self ..
      cases gone.symm.trans present
    · exact differ.hidden x n ((Function.update_of_ne same _ _).symm.trans present) isFile
        hasSize other

/-- A block of data becomes the same in both. -/
theorem update_bufs (q : Ptr) (block : Option (List UInt8)) :
    DifferHidden user file { s with bufs := Function.update s.bufs q block }
      { t with bufs := Function.update t.bufs q block } where
  nodes := differ.nodes
  root := differ.root
  freed := differ.freed
  lengths := by
    intro a
    dsimp only
    by_cases same : a = q
    · subst same
      rw [Function.update_self, Function.update_self]
    · rw [Function.update_of_ne same, Function.update_of_ne same]
      exact differ.lengths a
  hidden := by
    intro x n present isFile hasSize other
    by_cases same : n.data = q
    · subst same
      exact absurd ((Function.update_self ..).trans (Function.update_self ..).symm) other
    · refine differ.hidden x n present isFile hasSize fun equal => other ?_
      dsimp only
      rw [Function.update_of_ne same, Function.update_of_ne same]
      exact equal

theorem freeData (q : Ptr) : DifferHidden user file (s.freeData q) (t.freeData q) :=
  have updated := differ.update_bufs q none
  ⟨updated.nodes, updated.root, congrArg (Freed.data q :: ·) differ.freed, updated.lengths,
    updated.hidden⟩

theorem freeChildren (p : Ptr) : DifferHidden user file (s.freeChildren p) (t.freeChildren p) :=
  ⟨differ.nodes, differ.root, congrArg (Freed.children p :: ·) differ.freed, differ.lengths,
    differ.hidden⟩

theorem releaseData (n : FsNode) : DifferHidden user file (releaseData s n) (releaseData t n) := by
  rw [Fs.releaseData, Fs.releaseData]
  split
  · exact differ.freeData n.data
  · exact differ

theorem createNode (type : NodeType) (block : Ptr) (name : List UInt8) (parent : Ptr)
    (owner : UInt64) :
    Alike (fun a b => a.1 = b.1 ∧ DifferHidden user file a.2 b.2)
      (createNode type s block name parent owner) (createNode type t block name parent owner) := by
  rw [Fs.createNode, Fs.createNode]
  split
  · exact .ok ⟨rfl, differ.setNode fun _ hasSize => absurd rfl hasSize⟩
  · exact .error _

theorem emulatedFsAddChild (dir child : Ptr) :
    Alike (DifferHidden user file) (emulatedFsAddChild s dir child)
      (emulatedFsAddChild t dir child) := by
  rw [Fs.emulatedFsAddChild, Fs.emulatedFsAddChild, differ.deref_eq]
  refine alike_bind fun d atDir => ?_
  rw [deref_eq_ok] at atDir
  split
  · exact alike_pure differ
  split
  · have linked := differ.setNode_of (p := dir) (m := { d with
        children := Function.update d.children d.childCount child
        childCount := d.childCount + 1 }) atDir rfl rfl rfl id
    dsimp only
    rw [linked.deref_eq]
    refine alike_bind fun c atChild => ?_
    rw [deref_eq_ok] at atChild
    exact alike_pure (linked.setNode_of atChild rfl rfl rfl id)
  · exact .error _

/-- A write puts the same bytes in both. -/
theorem emulatedFsWrite (p : Ptr) (data : List UInt8) (block : Ptr) :
    Alike (DifferHidden user file) (emulatedFsWrite s p data block)
      (emulatedFsWrite t p data block) := by
  rw [Fs.emulatedFsWrite, Fs.emulatedFsWrite, differ.deref_eq]
  refine alike_bind fun n present => ?_
  split
  · exact alike_pure differ
  refine alike_pure ?_
  have released := differ.releaseData n
  split
  · rename_i empty
    refine released.setNode fun _ hasSize => absurd ?_ hasSize
    exact List.length_eq_zero_iff.mpr empty
  · refine (released.update_bufs block (some data)).setNode fun _ _ other => absurd ?_ other
    dsimp only
    rw [Function.update_self, Function.update_self]

theorem fsRemoveChild (parent child : Ptr) :
    Alike (DifferHidden user file) (fsRemoveChild s parent child)
      (fsRemoveChild t parent child) := by
  rw [Fs.fsRemoveChild, Fs.fsRemoveChild]
  split
  · exact alike_pure differ
  rw [differ.deref_eq]
  refine alike_bind fun n present => ?_
  rw [deref_eq_ok] at present
  split
  · exact alike_pure differ
  refine alike_bind fun result loop => ?_
  obtain ⟨found, n'⟩ := result
  have fields := removeLoop_fields child n.childCount loop
  refine alike_pure (differ.setNode_of present ?_ ?_ ?_ ?_)
  all_goals
    rw [fields]
    cases found
  · rfl
  · rfl
  · rfl
  · rfl
  · rfl
  · rfl
  · exact id
  · exact id

end DifferHidden

theorem freeNode_setNode (s : FsState) (p : Ptr) (n : FsNode) :
    (s.setNode p n).freeNode p = s.freeNode p := by
  rw [freeNode, freeNode, setNode]
  simp only [Function.update_idem]

theorem emulatedFsDelete_differ (fuel : Nat) :
    (∀ s t p, DifferHidden user file s t →
      Alike (DifferHidden user file) (emulatedFsDelete fuel s p) (emulatedFsDelete fuel t p)) ∧
      ∀ s t p i, DifferHidden user file s t →
        Alike (DifferHidden user file) (emulatedDeleteLoop fuel s p i)
          (emulatedDeleteLoop fuel t p i) := by
  induction fuel with
  | zero => exact ⟨fun _ _ _ _ => .error _, fun _ _ _ _ _ => .error _⟩
  | succ fuel ih =>
      refine ⟨?_, ?_⟩
      · intro s t p differ
        rw [emulatedFsDelete, emulatedFsDelete]
        split
        · exact .ok differ
        rw [differ.deref_eq]
        refine alike_bind fun n _ => ?_
        cases n.type with
        | dir =>
            refine (ih.2 s t p 0 differ).bind fun s₁ t₁ differ₁ => ?_
            rw [differ₁.deref_eq]
            refine alike_bind fun n₁ _ => ?_
            rw [freeNode_setNode, freeNode_setNode]
            exact alike_pure ((differ₁.freeChildren p).freeNode p)
        | file =>
            rw [freeNode_setNode, freeNode_setNode]
            exact alike_pure ((differ.freeData n.data).freeNode p)
      · intro s t p i differ
        rw [emulatedDeleteLoop, emulatedDeleteLoop, differ.deref_eq]
        refine alike_bind fun n _ => ?_
        split
        · refine alike_bind fun c _ => ?_
          exact (ih.1 s t c differ).bind fun s₁ t₁ differ₁ => ih.2 s₁ t₁ p (i + 1) differ₁
        · exact alike_pure differ

theorem fsDelete_differ (fuel : Nat) :
    (∀ s t p, DifferHidden user file s t →
    Alike (DifferHidden user file) (fsDelete fuel s p) (fsDelete fuel t p)) ∧
      ∀ s t p, DifferHidden user file s t →
        Alike (DifferHidden user file) (deleteChildren fuel s p) (deleteChildren fuel t p) := by
  induction fuel with
  | zero => exact ⟨fun _ _ _ _ => .error _, fun _ _ _ _ => .error _⟩
  | succ fuel ih =>
      refine ⟨?_, ?_⟩
      · intro s t p differ
        rw [fsDelete_parts, fsDelete_parts]
        split
        · exact .ok differ
        rw [differ.deref_eq]
        refine alike_bind fun n _ => ?_
        have children : Alike (DifferHidden user file)
            (if n.type = .dir then deleteChildren fuel s p else .ok s)
            (if n.type = .dir then deleteChildren fuel t p else .ok t) := by
          split
          · exact ih.2 s t p differ
          · exact .ok differ
        refine children.bind fun s₁ t₁ differ₁ => ?_
        rw [differ₁.deref_eq]
        refine alike_bind fun m _ => ?_
        have unlinked : Alike (DifferHidden user file)
            (if m.parent ≠ 0 then fsRemoveChild s₁ m.parent p else .ok s₁)
            (if m.parent ≠ 0 then fsRemoveChild t₁ m.parent p else .ok t₁) := by
          split
          · exact differ₁.fsRemoveChild m.parent p
          · exact .ok differ₁
        exact unlinked.bind fun s₂ t₂ differ₂ => (emulatedFsDelete_differ fuel).1 s₂ t₂ p differ₂
      · intro s t p differ
        rw [deleteChildren, deleteChildren, differ.deref_eq]
        refine alike_bind fun n _ => ?_
        split
        · refine alike_bind fun c _ => ?_
          exact (ih.1 s t c differ).bind fun s₁ t₁ differ₁ => ih.2 s₁ t₁ p differ₁
        · exact alike_pure differ

end AurorOS.Fs
