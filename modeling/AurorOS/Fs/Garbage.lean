import AurorOS.Fs.Files

/-! # Nothing is forgotten

Every node that is live is in the tree and every block of data belongs to a file: no
action loses track of a block without freeing it.
-/

namespace AurorOS.Fs

open FsState Forest Outcome

/-- Every live block can be found from the root. -/
structure NoGarbage (s : FsState) : Prop where
  nodes : ∀ p n, s.nodes p = some n → s.InTree p
  bufs : ∀ q bytes, s.bufs q = some bytes → ∃ p n, s.nodes p = some n ∧ n.type = .file ∧
    n.size ≠ 0 ∧ n.data = q

/-- Data that is in the record of what has been freed is gone, and none has come. -/
structure Forgets (s s' : FsState) : Prop where
  bufs : ∀ q, s'.bufs q = s.bufs q ∨ s'.bufs q = none
  freed : ∃ new, s'.freed = new ++ s.freed ∧ ∀ q, .data q ∈ new → s'.bufs q = none

variable {s s' s₁ s₂ : FsState} {a : Action} {n m d : FsNode} {p q x dir block file : Ptr}
  {type : NodeType} {name data : List UInt8} {parent : Ptr} {owner : UInt64}

theorem fsRemoveChild_rest (removed : fsRemoveChild s q p = .ok s') :
    s'.bufs = s.bufs ∧ s'.freed = s.freed := by
  rw [fsRemoveChild] at removed
  split at removed
  · obtain rfl := pure_eq_ok.mp removed
    exact ⟨rfl, rfl⟩
  obtain ⟨n, _, removed⟩ := bind_eq_ok.mp removed
  split at removed
  · obtain rfl := pure_eq_ok.mp removed
    exact ⟨rfl, rfl⟩
  obtain ⟨⟨found, n'⟩, _, removed⟩ := bind_eq_ok.mp removed
  obtain rfl := pure_eq_ok.mp removed
  exact ⟨rfl, rfl⟩

theorem elementary_forgets : Elementary Forgets where
  refl := fun s => ⟨fun _ => .inl rfl, [], rfl, fun _ member => absurd member List.not_mem_nil⟩
  trans := by
    intro s s' s'' first second
    obtain ⟨new, log, gone⟩ := first.freed
    obtain ⟨new', log', gone'⟩ := second.freed
    refine ⟨fun q => ?_, new' ++ new, by rw [log', log, List.append_assoc], fun q member => ?_⟩
    · cases second.bufs q with
      | inl same => exact (first.bufs q).imp same.trans same.trans
      | inr none => exact .inr none
    · rcases List.mem_append.mp member with later | earlier
      · exact gone' q later
      · cases second.bufs q with
        | inl same => exact same.trans (gone q earlier)
        | inr none => exact none
  unlink := by
    intro s s' p q removed
    obtain ⟨bufs, freed⟩ := fsRemoveChild_rest removed
    exact ⟨fun a => .inl (congrFun bufs a), [], freed,
      fun _ member => absurd member List.not_mem_nil⟩
  freeDir :=
    fun s p n => ⟨fun _ => .inl rfl, [.node p, .children p], rfl, fun q member => by simp at member⟩
  freeFile := by
    intro s p n _ _
    refine ⟨fun q => ?_, [.node p, .data n.data], rfl, fun q member => ?_⟩
    · by_cases same : q = n.data
      · exact .inr (same ▸ s.bufs_freeData_self n.data)
      · exact .inl (s.bufs_freeData_of_ne same)
    · obtain rfl : q = n.data := by simpa using member
      exact s.bufs_freeData_self _

/-- What is lost was below the node. -/
theorem Deleted.lost (deleted : Deleted s s' p) (present : s.nodes x = some n)
    (gone : s'.nodes x = none) :
    s.Below p x := by
  by_contra outside
  by_cases atParent : x = s.parent p
  · obtain ⟨_, n', _, present', _⟩ := deleted.parent
    cases gone.symm.trans (atParent ▸ present')
  · cases gone.symm.trans ((deleted.kept x outside atParent).trans present)

/-- Removing a node frees the data of every file below it. -/
theorem removed_data (wf : WellFormed s) (inTree : s.InTree p) (acts : Acts s (.remove p) s')
    (below : s.Below p x) (present : s.nodes x = some n) (isFile : n.type = .file) :
    s'.bufs n.data = none := by
  cases acts with
  | @remove _ k fuel s₁ _ here hasParent unlinked deleted =>
      have notRoot : p ≠ s.fsRoot := by
        rintro rfl
        obtain ⟨K, tree, _⟩ := wf
        exact hasParent ((parent_of here).symm.trans tree.spans.1)
      obtain ⟨K, Kp, q, placed⟩ := placed_of_inTree wf inTree notRoot
      obtain rfl : k.parent = q := (parent_of here).symm.trans placed.parent_eq
      obtain ⟨nonnull, m, presentDir, ok, isDir, _, _⟩ := placed.parent_dir
      obtain ⟨unique, outside⟩ := placed.nodup
      have unlink := fsRemoveChild_eq presentDir nonnull (placed.below.nodes p List.mem_cons_self).1
        isDir ok.fits
      obtain rfl := Except.ok.inj (unlinked.symm.trans unlink)
      -- below the node everything is as before
      have same : ∀ y ∈ (cons p Kp nil).labels,
          (s.setNode k.parent (m.without p)).nodes y = s.nodes y := by
        intro y inside
        exact nodes_setNode_of_ne _ _ fun equal => outside (equal ▸ inside)
      have present₁ := nodes_setNode_self s k.parent (m.without p)
      obtain ⟨s'', returns, cut⟩ := fsDelete_spec (placed.below.congr same) unique outside
        (.inr ⟨_, present₁, isDir, (childCount_without_le m p).trans ok.fits⟩)
      obtain rfl := returns.eq deleted
      obtain ⟨new, log, perm⟩ := cut.released
      obtain ⟨new', log', gone⟩ := ((elementary_forgets.fsDelete fuel).1 _ p _ deleted).freed
      obtain rfl : new' = new := List.append_cancel_right (log'.symm.trans log)
      have inside := (placed.below.mem_iff_below x).mpr below
      refine gone n.data (perm.mem_iff.mpr (List.mem_flatMap.mpr ⟨x, inside, ?_⟩))
      rw [FsState.releases, same x inside, present]
      simp only [FsNode.releases, isFile, List.mem_cons, true_or, or_true]

/-- A node is created in a directory. -/
theorem Created.noGarbage (created : Created s s' type name owner dir block d)
    (atDir : s.nodes dir = some d) (isDir : d.type = .dir) (stays : ∀ x, s.InTree x → s'.InTree x)
    (clean : NoGarbage s) : NoGarbage s' where
  nodes := by
    intro x n' present'
    by_cases atBlock : x = block
    · refine (stays dir (clean.nodes dir d atDir)).tail ?_
      rw [kids_of (created.atDir isDir).2, childList_adding, atBlock]
      exact List.mem_append_right _ (List.mem_singleton_self _)
    · by_cases same : x = dir
      · exact stays x (clean.nodes x d (same ▸ atDir))
      · exact stays x (clean.nodes x n' ((created.kept x atBlock same).symm.trans present'))
  bufs := by
    intro q bytes live
    rw [created.bufs] at live
    obtain ⟨x, n, present, isFile, facts⟩ := clean.bufs q bytes live
    have notBlock : x ≠ block := by
      rintro rfl
      cases created.fresh.noNode.symm.trans present
    have notDir : x ≠ dir := by
      rintro rfl
      obtain rfl := Option.some.inj (present.symm.trans atDir)
      cases isDir.symm.trans isFile
    exact ⟨x, n, (created.kept x notBlock notDir).trans present, isFile, facts⟩

/-- A file is written: its old data is freed and its new data is its own. -/
theorem Written.noGarbage (written : Written s s' file data block n)
    (present : s.nodes file = some n) (stays : ∀ x, s.InTree x → s'.InTree x)
    (clean : NoGarbage s) :
    NoGarbage s' where
  nodes := by
    intro x n' present'
    rw [written.nodes] at present'
    by_cases same : x = file
    · exact stays x (clean.nodes x n (same ▸ present))
    · rw [Function.update_of_ne same] at present'
      exact stays x (clean.nodes x n' present')
  bufs := by
    intro q bytes live
    -- data of before belongs to another file
    have older : (releaseData s n).bufs q = some bytes →
        ∃ x m, s'.nodes x = some m ∧ m.type = .file ∧ m.size ≠ 0 ∧ m.data = q := by
      intro before
      have live : s.bufs q = some bytes ∧ ¬ (n.size > 0 ∧ q = n.data) := by
        rw [releaseData] at before
        split at before
        · have other : q ≠ n.data := by
            rintro rfl
            cases (s.bufs_freeData_self n.data).symm.trans before
          exact ⟨(s.bufs_freeData_of_ne other).symm.trans before, fun both => other both.2⟩
        · rename_i noSize
          exact ⟨before, fun both => noSize both.1⟩
      obtain ⟨x, m, here, isFile, hasSize, dataIs⟩ := clean.bufs q bytes live.1
      have other : x ≠ file := by
        rintro rfl
        obtain rfl := Option.some.inj (here.symm.trans present)
        exact live.2 ⟨Nat.pos_of_ne_zero hasSize, dataIs.symm⟩
      refine ⟨x, m, ?_, isFile, hasSize, dataIs⟩
      rw [written.nodes, Function.update_of_ne other, here]
    rw [written.bufs] at live
    split at live
    · exact older live
    · rename_i nonempty
      by_cases atBlock : q = block
      · have here : s'.nodes file = some { n with data := block, size := data.length } := by
          rw [written.nodes, Function.update_self]
        exact ⟨file, _, here, written.isFile, mt List.length_eq_zero_iff.mp nonempty, atBlock.symm⟩
      · rw [Function.update_of_ne atBlock] at live
        exact older live

theorem Acts.noGarbage (acts : Acts s a s') (wf : WellFormed s) (inPlace : a.InPlace s)
    (place : ∀ type name parent owner dir block, a = .create type name parent owner dir block →
      ∃ d, s.nodes dir = some d ∧ d.type = .dir) (clean : NoGarbage s) : NoGarbage s' := by
  cases a with
  | create type name parent owner dir block =>
      obtain ⟨d, atDir, created⟩ := created_of_acts acts
      obtain ⟨d', atDir', isDir⟩ := place _ _ _ _ _ _ rfl
      obtain rfl := Option.some.inj (atDir'.symm.trans atDir)
      have stays : ∀ x, s.InTree x → s'.InTree x :=
        fun x below => acts.inTree wf inPlace below fun p same => by cases same
      exact created.noGarbage atDir isDir stays clean
  | write file data block =>
      obtain ⟨n, present, written⟩ := written_of_acts acts
      exact written.noGarbage present
        (fun x below => acts.inTree wf inPlace below fun p same => by cases same) clean
  | chmod p permissions =>
      have stays : ∀ x, s.InTree x → s'.InTree x :=
        fun x below => acts.inTree wf inPlace below fun p same => by cases same
      cases acts with
      | @chmod _ n _ present =>
          refine ⟨fun x n' present' => stays x ?_, fun q bytes live => ?_⟩
          · by_cases same : x = p
            · exact clean.nodes x n (same ▸ present)
            · exact clean.nodes x n' ((nodes_setNode_of_ne _ _ same).symm.trans present')
          · obtain ⟨x, m, here, isFile, hasSize, dataIs⟩ := clean.bufs q bytes live
            by_cases same : x = p
            · subst same
              obtain rfl := Option.some.inj (here.symm.trans present)
              exact ⟨x, _, nodes_setNode_self .., isFile, hasSize, dataIs⟩
            · exact ⟨x, m, (nodes_setNode_of_ne _ _ same).trans here, isFile, hasSize, dataIs⟩
  | remove p =>
      obtain ⟨_, _, deleted, pruned⟩ := removed_of_acts wf inPlace acts
      refine ⟨fun x n' present' => ?_, fun q bytes live => ?_⟩
      · obtain ⟨n, present, _⟩ := pruned.nodes x n' present'
        refine deleted.inTree (clean.nodes x n present) fun below => ?_
        cases (deleted.gone x below).symm.trans present'
      · have before : s.bufs q = some bytes := by
          rcases pruned.bufs q with same | ⟨x, n, here, gone, isFile, dataIs⟩
          · exact same.symm.trans live
          · have below : s.Below p x := by
              by_contra outside
              by_cases atParent : x = s.parent p
              · obtain ⟨_, n', _, present', _⟩ := deleted.parent
                cases gone.symm.trans (atParent ▸ present')
              · cases gone.symm.trans ((deleted.kept x outside atParent).trans here)
            cases (removed_data wf inPlace acts below here isFile).symm.trans (dataIs ▸ live)
        obtain ⟨x, n, present, isFile, hasSize, dataIs⟩ := clean.bufs q bytes before
        cases still : s'.nodes x with
        | some n' =>
            obtain ⟨m, here, fields⟩ := pruned.nodes x n' still
            obtain rfl := Option.some.inj (present.symm.trans here)
            exact ⟨x, n', still, by rw [fields, isFile], by rw [fields]; exact hasSize, by
              rw [fields]; exact dataIs⟩
        | none =>
            have below := deleted.lost present still
            cases (removed_data wf inPlace acts below present isFile).symm.trans (dataIs ▸ live)

end AurorOS.Fs
