import AurorOS.Fs.Actions

/-! # The data of files

Every file has a buffer of its own with as many bytes as its size says.  What an
action does not touch keeps its fields and, if it is a file, its data.
-/

namespace AurorOS.Fs

open FsState

variable {s s' : FsState} {a : Action} {n n' m : FsNode} {x y : Ptr}

/-- Files have data exactly if they have a size, the data is live and as long as the
    size says, and no two files share it. -/
structure FilesOk (s : FsState) : Prop where
  content : ∀ x n, s.nodes x = some n → n.type = .file → (n.data = 0 ↔ n.size = 0)
  stored : ∀ x n, s.nodes x = some n → n.type = .file → n.size ≠ 0 →
    ∃ bytes, s.bufs n.data = some bytes ∧ bytes.length = n.size
  apart : ∀ x y m n, s.nodes x = some m → s.nodes y = some n → m.type = .file → n.type = .file →
    m.size ≠ 0 →
    m.data = n.data → x = y

/-- What a file of the node `n` is made of: its bytes, if it has any. -/
def FsState.contentOf (s : FsState) (n : FsNode) : Option (List UInt8) :=
  if n.size = 0 then some [] else s.bufs n.data

theorem releaseData_bufs {p : Ptr} (other : p ≠ n.data) : (releaseData s n).bufs p = s.bufs p := by
  rw [releaseData]
  split
  · exact Function.update_of_ne other _ _
  · rfl

/-- The data of another file is not where a write puts its data. -/
theorem Written.data_ne {data : List UInt8} {block : Ptr} (written : Written s s' x data block n)
    (files : FilesOk s) (present : s.nodes x = some n) (presentY : s.nodes y = some m)
    (isFile : m.type = .file) (other : y ≠ x) (nonnull : block ≠ 0) : m.data ≠ block := by
  intro atBlock
  have returned := written.returned
  rw [MallocReturns, if_neg (mt (mallocReturns_zero_iff written.returned).mpr nonnull)] at returned
  have hasSize : m.size ≠ 0 := mt (files.content y m presentY isFile).mpr (atBlock ▸ nonnull)
  obtain ⟨bytes, live, _⟩ := files.stored y m presentY isFile hasSize
  have different : m.data ≠ n.data := fun same =>
    other (files.apart y x m n presentY present isFile written.isFile hasSize same)
  have nothing := returned.noBuf
  rw [← atBlock, releaseData_bufs different, live] at nothing
  cases nothing

namespace Acts

/-- A node that was not there before is a new leaf; any other has the type, the data and
    the size of before unless it is the file that is written. -/
theorem node_cases (acts : Acts s a s') (wf : WellFormed s) (inPlace : a.InPlace s)
    (present' : s'.nodes x = some n') :
    (∃ type name owner par, n' = leafNode type name owner par) ∨
      (∃ n, s.nodes x = some n ∧ n'.type = n.type ∧ n'.data = n.data ∧ n'.size = n.size) ∨
      ∃ data block n, a = .write x data block ∧ Written s s' x data block n ∧
        n' = { n with data := block, size := data.length } := by
  cases a with
  | create type name parent owner dir block =>
      obtain ⟨d, atDir, created⟩ := created_of_acts acts
      by_cases atBlock : x = block
      · subst atBlock
        obtain ⟨par, leaf⟩ := created.atBlock
        exact .inl ⟨type, name, owner, par, Option.some.inj (present'.symm.trans leaf)⟩
      by_cases same : x = dir
      · subst same
        cases kind : d.type with
        | dir =>
            obtain rfl := Option.some.inj ((created.atDir kind).2.symm.trans present')
            exact .inr (.inl ⟨d, atDir, rfl, rfl, rfl⟩)
        | file =>
            obtain rfl := Option.some.inj ((created.atFile kind).symm.trans present')
            exact .inr (.inl ⟨d, atDir, rfl, rfl, rfl⟩)
      · rw [created.kept x atBlock same] at present'
        exact .inr (.inl ⟨n', present', rfl, rfl, rfl⟩)
  | write file data block =>
      obtain ⟨m, atFile, written⟩ := written_of_acts acts
      by_cases same : x = file
      · subst same
        have here := present'
        rw [written.nodes, Function.update_self] at here
        exact .inr (.inr ⟨data, block, m, rfl, written, (Option.some.inj here).symm⟩)
      · rw [written.nodes, Function.update_of_ne same] at present'
        exact .inr (.inl ⟨n', present', rfl, rfl, rfl⟩)
  | chmod p permissions =>
      cases acts with
      | @chmod _ m _ atP =>
          by_cases same : x = p
          · subst same
            rw [nodes_setNode_self] at present'
            obtain rfl := Option.some.inj present'
            exact .inr (.inl ⟨m, atP, rfl, rfl, rfl⟩)
          · rw [nodes_setNode_of_ne _ _ same] at present'
            exact .inr (.inl ⟨n', present', rfl, rfl, rfl⟩)
  | remove p =>
      obtain ⟨_, _, _, pruned⟩ := removed_of_acts wf inPlace acts
      obtain ⟨n, here, fields⟩ := pruned.nodes x n' present'
      refine .inr (.inl ⟨n, here, ?_⟩)
      rw [fields]
      exact ⟨rfl, rfl, rfl⟩

/-- The data of a file that is left is as it was unless that file is written. -/
theorem bufs_eq (acts : Acts s a s') (wf : WellFormed s) (inPlace : a.InPlace s) (files : FilesOk s)
    (present : s.nodes x = some n) (isFile : n.type = .file) (hasSize : n.size ≠ 0)
    (still : s'.nodes x ≠ none) (notWritten : ∀ data block, a ≠ .write x data block) :
    s'.bufs n.data = s.bufs n.data := by
  cases a with
  | create type name parent owner dir block =>
      obtain ⟨_, _, created⟩ := created_of_acts acts
      rw [created.bufs]
  | write file data block =>
      obtain ⟨m, atFile, written⟩ := written_of_acts acts
      have other : n.data ≠ m.data := by
        intro shared
        refine notWritten data block ?_
        rw [files.apart x file n m present atFile isFile written.isFile hasSize shared]
      have notSame : x ≠ file := by
        rintro rfl
        exact notWritten data block rfl
      rw [written.bufs]
      split
      · exact releaseData_bufs other
      · rename_i nonempty
        have nonnull : block ≠ 0 := by
          intro null
          exact nonempty (List.length_eq_zero_iff.mp
            ((mallocReturns_zero_iff written.returned).mp null))
        have notBlock := written.data_ne files atFile present isFile notSame nonnull
        rw [Function.update_of_ne notBlock, releaseData_bufs other]
  | chmod p permissions =>
      cases acts with
      | chmod _ => rfl
  | remove p =>
      obtain ⟨_, _, _, pruned⟩ := removed_of_acts wf inPlace acts
      cases pruned.bufs n.data with
      | inl same => exact same
      | inr freed =>
          obtain ⟨y, m, here, gone, isFile', shared⟩ := freed
          obtain rfl := files.apart x y n m present here isFile isFile' hasSize shared.symm
          exact absurd gone still

theorem filesOk (acts : Acts s a s') (wf : WellFormed s) (inPlace : a.InPlace s)
    (files : FilesOk s) :
    FilesOk s' where
  content := by
    intro x n' present' isFile
    rcases acts.node_cases wf inPlace present' with
      ⟨_, _, _, _, rfl⟩ | ⟨n, present, kind, data, size⟩ | ⟨data, block, n, _, written, rfl⟩
    · exact Iff.rfl
    · rw [data, size]
      exact files.content x n present (kind.symm.trans isFile)
    · exact mallocReturns_zero_iff written.returned
  stored := by
    intro x n' present' isFile hasSize
    by_cases isWrite : ∃ data block, a = .write x data block
    · obtain ⟨data, block, rfl⟩ := isWrite
      obtain ⟨n, present, written⟩ := written_of_acts acts
      rw [written.nodes, Function.update_self] at present'
      obtain rfl := Option.some.inj present'
      have nonempty : data ≠ [] := fun empty => hasSize (List.length_eq_zero_iff.mpr empty)
      refine ⟨data, ?_, rfl⟩
      rw [written.bufs, if_neg nonempty, Function.update_self]
    · rcases acts.node_cases wf inPlace present' with
        ⟨_, _, _, _, rfl⟩ | ⟨n, present, kind, data, size⟩ | ⟨data, block, n, same, _, _⟩
      · exact absurd rfl hasSize
      · rw [kind] at isFile
        rw [size] at hasSize
        obtain ⟨bytes, live, length⟩ := files.stored x n present isFile hasSize
        have still : s'.nodes x ≠ none := fun nothing => nomatch nothing.symm.trans present'
        have kept := acts.bufs_eq wf inPlace files present isFile hasSize still
          fun data block same => isWrite ⟨data, block, same⟩
        rw [data, size, kept]
        exact ⟨bytes, live, length⟩
      · exact absurd ⟨data, block, same⟩ isWrite
  apart := by
    intro x y m' n' atX atY fileX fileY hasSize shared
    by_contra other
    rcases acts.node_cases wf inPlace atX with
      ⟨_, _, _, _, rfl⟩ | ⟨m, presentX, kindX, dataX, sizeX⟩ | ⟨data, block, m, isWrite,
        written, rfl⟩
    · exact hasSize rfl
    · rw [kindX] at fileX
      rw [sizeX] at hasSize
      rw [dataX] at shared
      have nonnull : m.data ≠ 0 := mt (files.content x m presentX fileX).mp hasSize
      rcases acts.node_cases wf inPlace atY with
        ⟨_, _, _, _, rfl⟩ | ⟨n, presentY, kindY, dataY, _⟩ | ⟨data, block, n, isWrite, written, rfl⟩
      · exact nonnull shared
      · rw [kindY] at fileY
        rw [dataY] at shared
        exact other (files.apart x y m n presentX presentY fileX fileY hasSize shared)
      · have blockIs : m.data = block := shared
        subst isWrite
        obtain ⟨n₁, presentY, written₁⟩ := written_of_acts acts
        exact written₁.data_ne files presentY presentX fileX other (blockIs ▸ nonnull) blockIs
    · have blockNonnull : block ≠ 0 := mt (mallocReturns_zero_iff written.returned).mp hasSize
      subst isWrite
      obtain ⟨m₁, presentX, written₁⟩ := written_of_acts acts
      rcases acts.node_cases wf inPlace atY with
        ⟨_, _, _, _, rfl⟩ | ⟨n, presentY, kindY, dataY, _⟩ | ⟨data', block', n, again, _, _⟩
      · exact blockNonnull shared
      · rw [kindY] at fileY
        exact written₁.data_ne files presentX presentY fileY (Ne.symm other) blockNonnull
          (dataY.symm.trans shared.symm)
      · exact other (Action.write.inj again).1

/-- A node that the action does not touch and that is left is as it was, and so is its
    data if it is a file. -/
theorem frame (acts : Acts s a s') (wf : WellFormed s) (inPlace : a.InPlace s) (files : FilesOk s)
    (present : s.nodes x = some n) (still : s'.nodes x ≠ none) (untouched : ¬ a.Touches s x) :
    s'.nodes x = some n ∧ (n.type = .file → s'.contentOf n = s.contentOf n) := by
  refine ⟨?_, ?_⟩
  · cases a with
    | create type name parent owner dir block =>
        obtain ⟨d, atDir, created⟩ := created_of_acts acts
        have other : x ≠ block := by
          rintro rfl
          rw [created.fresh.noNode] at present
          cases present
        by_cases same : x = dir
        · subst same
          obtain rfl := Option.some.inj (present.symm.trans atDir)
          cases kind : n.type with
          | dir => exact absurd ⟨rfl, n, atDir, kind⟩ untouched
          | file => exact created.atFile kind
        · exact (created.kept x other same).trans present
    | write file data block =>
        obtain ⟨m, atFile, written⟩ := written_of_acts acts
        rw [written.nodes, Function.update_of_ne untouched, present]
    | chmod p permissions =>
        cases acts with
        | chmod _ => exact (nodes_setNode_of_ne _ _ untouched).trans present
    | remove p =>
        obtain ⟨_, _, deleted, _⟩ := removed_of_acts wf inPlace acts
        have outside : ¬ s.Below p x := fun below => still (deleted.gone x below)
        exact (deleted.kept x outside untouched).trans present
  · intro isFile
    rw [contentOf, contentOf]
    split
    · rfl
    · rename_i hasSize
      refine acts.bufs_eq wf inPlace files present isFile hasSize still fun data block same => ?_
      subst same
      exact untouched rfl

end Acts

theorem homeState_filesOk : FilesOk homeState := by
  -- `notes` is the only file
  have only : ∀ x n, homeState.nodes x = some n → n.type = .file → x = 3 ∧ n.data = 0 ∧
      n.size = 0 := by
    intro x n present isFile
    match x, present with
    | 1, present => cases (Option.some.inj present) ▸ isFile
    | 2, present => cases (Option.some.inj present) ▸ isFile
    | 3, present =>
        obtain rfl := Option.some.inj present
        exact ⟨rfl, rfl, rfl⟩
  refine ⟨?_, ?_, ?_⟩
  · intro x n present isFile
    obtain ⟨_, data, size⟩ := only x n present isFile
    exact ⟨fun _ => size, fun _ => data⟩
  · intro x n present isFile hasSize
    exact absurd (only x n present isFile).2.2 hasSize
  · intro x y m n presentX presentY fileX fileY _ _
    exact (only x m presentX fileX).1.trans (only y n presentY fileY).1.symm

end AurorOS.Fs
