import AurorOS.Fs.Delete
import AurorOS.Fs.Resolve

/-! # Deletion from any state

What a call of `fs_delete` that has returned can have done, whether or not the nodes
spell out a tree: nodes are lost, the others have lost children at most, and only
the data of lost files is freed.  A larger budget does not change the outcome.
-/

namespace AurorOS.Fs

open FsState Outcome

variable {s s' s'' : FsState} {n m : FsNode} {p q x a : Ptr} {fuel i : Nat}

theorem emulatedFsDelete_mono (fuel : Nat) :
    (∀ s p s', emulatedFsDelete fuel s p = .ok s' → emulatedFsDelete (fuel + 1) s p = .ok s') ∧
      ∀ s p i s', emulatedDeleteLoop fuel s p i = .ok s' →
      emulatedDeleteLoop (fuel + 1) s p i = .ok s' := by
  induction fuel with
  | zero => exact ⟨nofun, nofun⟩
  | succ fuel ih =>
      refine ⟨?_, ?_⟩
      · intro s p s' returned
        rw [emulatedFsDelete] at returned ⊢
        split at returned
        · rename_i null
          rwa [if_pos null]
        · rename_i nonnull
          rw [if_neg nonnull]
          refine bind_mono (fun n same => same) (fun n s' rest => ?_) s' returned
          cases type : n.type with
          | dir =>
              simp only [type] at rest ⊢
              exact bind_mono (ih.2 s p 0) (fun _ _ same => same) s' rest
          | file =>
              simp only [type] at rest ⊢
              exact rest
      · intro s p i s' returned
        rw [emulatedDeleteLoop] at returned ⊢
        refine bind_mono (fun n same => same) (fun n s' rest => ?_) s' returned
        split at rest
        · rename_i more
          rw [if_pos more]
          refine bind_mono (fun c same => same) (fun c s' rest => ?_) s' rest
          exact bind_mono (ih.1 s c) (fun s₁ s' rest => ih.2 s₁ p (i + 1) s' rest) s' rest
        · rename_i done
          rwa [if_neg done]

/-- The two optional parts of `fs_delete` as steps of their own. -/
theorem fsDelete_parts (fuel : Nat) (s : FsState) (p : Ptr) : fsDelete (fuel + 1) s p =
    if p = 0 then .ok s
    else s.deref p >>= fun n =>
      (if n.type = .dir then deleteChildren fuel s p else .ok s) >>= fun s₁ => s₁.deref p >>=
      fun m =>
        (if m.parent ≠ 0 then fsRemoveChild s₁ m.parent p else .ok s₁) >>= fun s₂ =>
        emulatedFsDelete fuel s₂ p := by
  have unlink : ∀ s₁ : FsState, ∀ m : FsNode,
      (if m.parent ≠ 0 then fsRemoveChild s₁ m.parent p >>= fun s₂ => emulatedFsDelete fuel s₂ p
        else Except.ok s₁ >>= fun s₂ => emulatedFsDelete fuel s₂ p) =
      (if m.parent ≠ 0 then fsRemoveChild s₁ m.parent p else .ok s₁) >>= fun s₂ =>
      emulatedFsDelete fuel s₂ p := by
    intro s₁ m
    split <;> rfl
  rw [fsDelete]
  simp only [unlink]
  split
  · rfl
  · congr 1
    funext n
    split <;> rfl

theorem fsDelete_mono (fuel : Nat) :
    (∀ s p s', fsDelete fuel s p = .ok s' → fsDelete (fuel + 1) s p = .ok s') ∧
      ∀ s p s', deleteChildren fuel s p = .ok s' → deleteChildren (fuel + 1) s p = .ok s' := by
  induction fuel with
  | zero => exact ⟨nofun, nofun⟩
  | succ fuel ih =>
      refine ⟨?_, ?_⟩
      · intro s p s' returned
        rw [fsDelete_parts] at returned ⊢
        split at returned
        · rename_i null
          rwa [if_pos null]
        · rename_i nonnull
          rw [if_neg nonnull]
          refine bind_mono (fun n same => same) (fun n s' rest => ?_) s' returned
          refine bind_mono (fun s₁ first => ?_) (fun s₁ s' rest => ?_) s' rest
          · split at first
            · rename_i isDir
              rw [if_pos isDir]
              exact ih.2 s p s₁ first
            · rename_i notDir
              rwa [if_neg notDir]
          · refine bind_mono (fun n same => same) (fun n s' rest => ?_) s' rest
            exact bind_mono (fun s₂ same => same) (fun s₂ => (emulatedFsDelete_mono fuel).1 s₂ p)
              s' rest
      · intro s p s' returned
        rw [deleteChildren] at returned ⊢
        refine bind_mono (fun n same => same) (fun n s' rest => ?_) s' returned
        split at rest
        · rename_i more
          rw [if_pos more]
          refine bind_mono (fun c same => same) (fun c s' rest => ?_) s' rest
          exact bind_mono (ih.1 s c) (fun s₁ => ih.2 s₁ p) s' rest
        · rename_i done
          rwa [if_neg done]

/-- A call that has returned returns the same with any larger budget. -/
theorem fsDelete_returns (returned : fsDelete fuel s p = .ok s') : Returns (fsDelete · s p) s' := by
  refine ⟨fuel, fun more enough => ?_⟩
  induction enough with
  | refl => exact returned
  | step _ ih => exact (fsDelete_mono _).1 s p s' ih

/-- The outcome is the one that enough budget gives. -/
theorem Returns.eq (returns : Returns (fsDelete · s p) s')
    (returned : fsDelete fuel s p = .ok s'') : s'' = s' := by
  obtain ⟨bound, always⟩ := returns
  obtain ⟨bound', always'⟩ := fsDelete_returns returned
  have first := always (max bound bound') (le_max_left _ _)
  have second := always' (max bound bound') (le_max_right _ _)
  exact Except.ok.inj (second.symm.trans first)

/-- Every node that is left was there, with the same fields but for its children, and
    data has been freed of lost files only. -/
structure Pruned (s s' : FsState) : Prop where
  nodes : ∀ x n', s'.nodes x = some n' →
    ∃ n, s.nodes x = some n ∧ n' = { n with children := n'.children, childCount := n'.childCount }
  bufs : ∀ a, s'.bufs a = s.bufs a ∨ ∃ x n, s.nodes x = some n ∧ s'.nodes x = none ∧
    n.type = .file ∧ n.data = a
  root : s'.fsRoot = s.fsRoot

namespace Pruned

theorem refl (s : FsState) : Pruned s s where
  nodes := fun _ n present => ⟨n, present, rfl⟩
  bufs := fun _ => .inl rfl
  root := rfl

theorem trans (first : Pruned s s') (second : Pruned s' s'') : Pruned s s'' where
  nodes := by
    intro x n'' present
    obtain ⟨n', present', fields'⟩ := second.nodes x n'' present
    obtain ⟨n, here, fields⟩ := first.nodes x n' present'
    refine ⟨n, here, ?_⟩
    rw [fields', fields]
  bufs := by
    intro a
    cases second.bufs a with
    | inl same =>
        cases first.bufs a with
        | inl before => exact .inl (same.trans before)
        | inr freed =>
            obtain ⟨x, n, here, gone, isFile, dataIs⟩ := freed
            refine .inr ⟨x, n, here, ?_, isFile, dataIs⟩
            cases still : s''.nodes x with
            | none => rfl
            | some n'' =>
                obtain ⟨n', present', _⟩ := second.nodes x n'' still
                exact absurd (gone.symm.trans present') nofun
    | inr freed =>
        obtain ⟨x, n', here', gone, isFile, dataIs⟩ := freed
        obtain ⟨n, here, fields⟩ := first.nodes x n' here'
        rw [fields] at isFile dataIs
        exact .inr ⟨x, n, here, gone, isFile, dataIs⟩
  root := second.root.trans first.root

/-- Children are taken out of a node. -/
theorem setChildren (present : s.nodes p = some n) (children : Nat → Ptr) (count : Nat) :
    Pruned s (s.setNode p { n with children := children, childCount := count }) where
  nodes := by
    intro x n' here
    by_cases same : x = p
    · subst same
      obtain rfl := Option.some.inj ((Function.update_self x _ s.nodes).symm.trans here)
      exact ⟨n, present, rfl⟩
    · have old : s.nodes x = some n' := (Function.update_of_ne same _ s.nodes).symm.trans here
      exact ⟨n', old, rfl⟩
  bufs := fun _ => .inl rfl
  root := rfl

/-- A directory is freed. -/
theorem freeDir (s : FsState) (p : Ptr) (n : FsNode) :
    Pruned s (((s.freeChildren p).setNode p { n with childCount := 0 }).freeNode p) where
  nodes := by
    intro x n' here
    by_cases same : x = p
    · subst same
      simp [freeNode] at here
    · simp only [freeNode, setNode, freeChildren, Function.update_of_ne same] at here
      exact ⟨n', here, rfl⟩
  bufs := fun _ => .inl rfl
  root := rfl

/-- A node that is left has the type that it had. -/
theorem type_eq (pruned : Pruned s s') (present : s.nodes p = some n)
    (left : s'.nodes p = some n') : n'.type = n.type := by
  obtain ⟨m, here, fields⟩ := pruned.nodes p n' left
  obtain rfl := Option.some.inj (present.symm.trans here)
  rw [fields]

/-- A file is freed together with its data. -/
theorem freeFile (present : s.nodes p = some n) (isFile : n.type = .file) :
    Pruned s (((s.freeData n.data).setNode p { n with data := 0 }).freeNode p) where
  nodes := by
    intro x n' here
    by_cases same : x = p
    · subst same
      simp [freeNode] at here
    · simp only [freeNode, setNode, freeData, Function.update_of_ne same] at here
      exact ⟨n', here, rfl⟩
  bufs := by
    intro a
    by_cases same : a = n.data
    · refine .inr ⟨p, n, present, ?_, isFile, same.symm⟩
      simp [freeNode]
    · exact .inl (Function.update_of_ne same _ _)
  root := rfl

end Pruned

theorem removeLoop_fields (child : Ptr) (left : Nat) {found found' : Bool} {n n' : FsNode}
    (returned : removeLoop child left i found n = .ok (found', n')) :
    n' = { n with children := n'.children } := by
  induction left generalizing i found n with
  | zero =>
      obtain ⟨_, rfl⟩ := Prod.mk.inj (Except.ok.inj returned)
      rfl
  | succ left ih =>
      rw [removeLoop] at returned
      obtain ⟨c, _, returned⟩ := bind_eq_ok.mp returned
      dsimp only at returned
      split at returned
      · obtain ⟨next, _, returned⟩ := bind_eq_ok.mp returned
        rw [ih returned]
      · exact ih returned

theorem fsRemoveChild_pruned (returned : fsRemoveChild s q p = .ok s') : Pruned s s' := by
  rw [fsRemoveChild] at returned
  split at returned
  · obtain rfl := pure_eq_ok.mp returned
    exact .refl s
  obtain ⟨n, present, returned⟩ := bind_eq_ok.mp returned
  rw [deref_eq_ok] at present
  split at returned
  · obtain rfl := pure_eq_ok.mp returned
    exact .refl s
  obtain ⟨⟨found, n'⟩, loop, returned⟩ := bind_eq_ok.mp returned
  obtain rfl := pure_eq_ok.mp returned
  have fields := removeLoop_fields p n.childCount loop
  have node : (if found = true then { n' with childCount := n'.childCount - 1 } else n') =
      { n with
        children := n'.children
        childCount := if found = true then n.childCount - 1 else n.childCount } := by
    rw [fields]
    cases found <;> rfl
  rw [node]
  exact .setChildren present _ _

/-- The relation holds across every change that a deletion is made of, and across changes
    that follow each other. -/
structure Elementary (R : FsState → FsState → Prop) : Prop where
  refl : ∀ s, R s s
  trans : ∀ {s s' s''}, R s s' → R s' s'' → R s s''
  unlink : ∀ {s s' p q}, fsRemoveChild s q p = .ok s' → R s s'
  freeDir : ∀ (s : FsState) (p : Ptr) (n : FsNode),
    R s (((s.freeChildren p).setNode p { n with childCount := 0 }).freeNode p)
  freeFile : ∀ {s : FsState} {p : Ptr} {n : FsNode}, s.nodes p = some n → n.type = .file →
    R s (((s.freeData n.data).setNode p { n with data := 0 }).freeNode p)

namespace Elementary

variable {R : FsState → FsState → Prop}

theorem emulatedFsDelete (elementary : Elementary R) (fuel : Nat) :
    (∀ s p s', emulatedFsDelete fuel s p = .ok s' → R s s') ∧
      ∀ s p i s', emulatedDeleteLoop fuel s p i = .ok s' → R s s' := by
  induction fuel with
  | zero => exact ⟨nofun, nofun⟩
  | succ fuel ih =>
      refine ⟨?_, ?_⟩
      · intro s p s' returned
        rw [Fs.emulatedFsDelete] at returned
        split at returned
        · obtain rfl := Except.ok.inj returned
          exact elementary.refl s
        obtain ⟨n, present, returned⟩ := bind_eq_ok.mp returned
        rw [deref_eq_ok] at present
        cases type : n.type with
        | dir =>
            simp only [type] at returned
            obtain ⟨s₁, loop, returned⟩ := bind_eq_ok.mp returned
            obtain ⟨n₁, _, returned⟩ := bind_eq_ok.mp returned
            obtain rfl := pure_eq_ok.mp returned
            exact elementary.trans (ih.2 s p 0 s₁ loop) (elementary.freeDir s₁ p n₁)
        | file =>
            simp only [type] at returned
            obtain rfl := pure_eq_ok.mp returned
            rw [← type]
            exact elementary.freeFile present type
      · intro s p i s' returned
        rw [emulatedDeleteLoop] at returned
        obtain ⟨n, _, returned⟩ := bind_eq_ok.mp returned
        split at returned
        · obtain ⟨c, _, returned⟩ := bind_eq_ok.mp returned
          obtain ⟨s₁, first, returned⟩ := bind_eq_ok.mp returned
          exact elementary.trans (ih.1 s c s₁ first) (ih.2 s₁ p (i + 1) s' returned)
        · obtain rfl := pure_eq_ok.mp returned
          exact elementary.refl s

/-- The first optional part of `fs_delete`. -/
theorem emptied {n : FsNode} (elementary : Elementary R)
    (loop : Fs.deleteChildren fuel s p = .ok s' → R s s')
    (children : (if n.type = .dir then Fs.deleteChildren fuel s p else .ok s) = .ok s') :
    R s s' := by
  split at children
  · exact loop children
  · obtain rfl := Except.ok.inj children
    exact elementary.refl s

/-- The second. -/
theorem unlinked {n : FsNode} (elementary : Elementary R)
    (cut : (if n.parent ≠ 0 then fsRemoveChild s n.parent p else .ok s) = .ok s') : R s s' := by
  split at cut
  · exact elementary.unlink cut
  · obtain rfl := Except.ok.inj cut
    exact elementary.refl s

theorem fsDelete (elementary : Elementary R) (fuel : Nat) :
    (∀ s p s', fsDelete fuel s p = .ok s' → R s s') ∧ ∀ s p s', deleteChildren fuel s p = .ok s' →
    R s s' := by
  induction fuel with
  | zero => exact ⟨nofun, nofun⟩
  | succ fuel ih =>
      refine ⟨?_, ?_⟩
      · intro s p s' returned
        rw [fsDelete_parts] at returned
        split at returned
        · obtain rfl := Except.ok.inj returned
          exact elementary.refl s
        obtain ⟨n, _, returned⟩ := bind_eq_ok.mp returned
        obtain ⟨s₁, children, returned⟩ := bind_eq_ok.mp returned
        obtain ⟨m, _, returned⟩ := bind_eq_ok.mp returned
        obtain ⟨s₂, unlinked, returned⟩ := bind_eq_ok.mp returned
        have first := elementary.emptied (ih.2 s p s₁) children
        have second := elementary.unlinked unlinked
        exact elementary.trans (elementary.trans first second)
          ((elementary.emulatedFsDelete fuel).1 s₂ p s' returned)
      · intro s p s' returned
        rw [deleteChildren] at returned
        obtain ⟨n, _, returned⟩ := bind_eq_ok.mp returned
        split at returned
        · obtain ⟨c, _, returned⟩ := bind_eq_ok.mp returned
          obtain ⟨s₁, first, returned⟩ := bind_eq_ok.mp returned
          exact elementary.trans (ih.1 s c s₁ first) (ih.2 s₁ p s' returned)
        · obtain rfl := pure_eq_ok.mp returned
          exact elementary.refl s

end Elementary

theorem elementary_pruned : Elementary Pruned where
  refl := .refl
  trans := .trans
  unlink := fsRemoveChild_pruned
  freeDir := .freeDir
  freeFile := .freeFile

theorem fsDelete_pruned (fuel : Nat) :
    (∀ s p s', fsDelete fuel s p = .ok s' → Pruned s s') ∧
      ∀ s p s', deleteChildren fuel s p = .ok s' → Pruned s s' := elementary_pruned.fsDelete fuel

end AurorOS.Fs
