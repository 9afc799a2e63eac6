import AurorOS.Fs.Actions
import AurorOS.Fs.Components

/-! # File systems that grow

In a file system that has nodes and children more, paths lead where they led before.
Creating a node with a name that is not taken keeps the names of siblings apart.
-/

namespace AurorOS.Fs

open FsState Outcome

variable {s s' : FsState} {d d' : FsNode} {p x start current dir next block : Ptr}
  {token name : CStr} {tokens : List CStr} {type : NodeType} {owner : UInt64} {i left : Nat}

/-- Every node is still there with its name, its parent and its children, and more of
    these may have come. -/
def Grows (s s' : FsState) : Prop :=
  ∀ x n, s.nodes x = some n → ∃ n', s'.nodes x = some n' ∧ n'.name = n.name ∧ n'.type = n.type ∧
    n'.parent = n.parent ∧
    n.childCount ≤ n'.childCount ∧ ∀ k < n.childCount, n'.children k = n.children k

theorem findLoop_grows (grown : Grows s s') (more : Nat)
    (same : ∀ k < i + left, d'.children k = d.children k) (found : findLoop s d name left i = .ok p)
    (nonnull : p ≠ 0) :
    findLoop s' d' name (left + more) i = .ok p := by
  induction left generalizing i with
  | zero => exact absurd (Except.ok.inj found).symm nonnull
  | succ left ih =>
      obtain ⟨child, read, rest⟩ := bind_eq_ok.mp found
      obtain ⟨inside, rfl⟩ := readChild_eq_ok.mp read
      obtain ⟨c, here, rest⟩ := bind_eq_ok.mp rest
      rw [Fs.deref_eq_ok] at here
      obtain ⟨c', here', named, _⟩ := grown _ c here
      have read' : readChild d' i = .ok (d.children i) :=
        readChild_eq_ok.mpr ⟨inside, same i (by omega)⟩
      rw [Nat.succ_add, findLoop, read']
      simp only [bind, Except.bind, Fs.deref_eq_ok.mpr here', named]
      by_cases atName : c.name = name
      · rw [if_pos atName] at rest ⊢
        exact rest
      · rw [if_neg atName] at rest ⊢
        exact ih (fun k below => same k (by omega)) rest

/-- What is found in a directory is found in it again. -/
theorem emulatedFsFindIn_grows (grown : Grows s s') (found : emulatedFsFindIn s dir name = .ok p)
    (nonnull : p ≠ 0) : emulatedFsFindIn s' dir name = .ok p := by
  obtain ⟨d, here, rest⟩ := bind_eq_ok.mp found
  rw [Fs.deref_eq_ok] at here
  obtain ⟨d', here', _, type, _, more, same⟩ := grown dir d here
  rw [emulatedFsFindIn, Fs.deref_eq_ok.mpr here']
  simp only [bind, Except.bind, type]
  by_cases isDir : d.type = .dir
  · rw [if_neg (not_not.mpr isDir)] at rest ⊢
    obtain ⟨extra, count⟩ := Nat.exists_eq_add_of_le more
    rw [count]
    exact findLoop_grows grown extra (fun k below => same k (by omega)) rest nonnull
  · rw [if_pos isDir] at rest
    exact absurd (pure_eq_ok.mp rest).symm nonnull

theorem stepInto_grows (grown : Grows s s') (step : stepInto s token current = .ok (some next)) :
    stepInto s' token current = .ok (some next) := by
  rw [stepInto] at step ⊢
  split at step
  case isFalse => cases step
  rename_i short
  rw [if_pos short]
  split at step
  · rename_i stays
    rw [if_pos stays]
    exact step
  rename_i proper
  rw [if_neg proper]
  split at step
  · rename_i up
    obtain ⟨n, here, step⟩ := bind_eq_ok.mp step
    rw [Fs.deref_eq_ok] at here
    obtain ⟨n', here', _, _, parent, _⟩ := grown current n here
    rw [if_pos up, Fs.deref_eq_ok.mpr here']
    simp only [bind, Except.bind, parent]
    exact step
  · rename_i down
    obtain ⟨found, search, step⟩ := bind_eq_ok.mp step
    have value := pure_eq_ok.mp step
    split at value
    · cases value
    · rename_i present
      obtain rfl := Option.some.inj value
      rw [if_neg down, emulatedFsFindIn_grows grown search present]
      exact step

theorem Grows.name_eq {k k₀ : FsNode} (grown : Grows s s') (before : s.nodes x = some k₀)
    (here : s'.nodes x = some k) : k.name = k₀.name := by
  obtain ⟨k', here', sameName, _⟩ := grown x k₀ before
  obtain rfl := Option.some.inj (here.symm.trans here')
  exact sameName

/-- A walk that leads somewhere leads there in a file system that has grown. -/
theorem walk_grows (grown : Grows s s')
    (leads : walk s tokens start = .ok (some dir)) : walk s' tokens start = .ok (some dir) := by
  induction tokens generalizing start with
  | nil => exact leads
  | cons token tokens ih =>
      rw [walk] at leads ⊢
      obtain ⟨next, step, leads⟩ := bind_eq_ok.mp leads
      cases next with
      | none => cases pure_eq_ok.mp leads
      | some next =>
          rw [stepInto_grows grown step]
          exact ih leads

/-- A node keeps its absolute path. -/
theorem AbsolutePath.grows {path : CStr} (grown : Grows s s') (root : s'.fsRoot = s.fsRoot)
    (absolute : AbsolutePath s x path) : AbsolutePath s' x path := by
  induction absolute with
  | root => exact root ▸ .root
  | @child q c front n above listed present ih =>
      obtain ⟨n', present', named, _⟩ := grown c n present
      have still : c ∈ s'.kids q := by
        cases here : s.nodes q with
        | none =>
            rw [kids, here] at listed
            cases listed
        | some d =>
            obtain ⟨d', here', _, _, _, more, same⟩ := grown q d here
            rw [kids_of here, FsNode.childList] at listed
            obtain ⟨k, below, rfl⟩ := List.mem_map.mp listed
            rw [List.mem_range] at below
            rw [kids_of here', FsNode.childList]
            exact List.mem_map.mpr ⟨k, List.mem_range.mpr (Nat.lt_of_lt_of_le below more),
              same k below⟩
      rw [← named]
      exact ih.child still present'

/-- Writing a file takes nothing from the nodes. -/
theorem grows_of_written {n : FsNode} {data : List UInt8} (wrote : Written s s' p data block n)
    (present : s.nodes p = some n) : Grows s' s := by
  intro x n' here
  rw [wrote.nodes] at here
  by_cases atFile : x = p
  · subst atFile
    rw [Function.update_self] at here
    obtain rfl := Option.some.inj here
    exact ⟨n, present, rfl, rfl, rfl, le_rfl, fun _ _ => rfl⟩
  · rw [Function.update_of_ne atFile] at here
    exact ⟨n', here, rfl, rfl, rfl, le_rfl, fun _ _ => rfl⟩

theorem Written.grows {n : FsNode} {data : List UInt8} (wrote : Written s s' p data block n)
    (present : s.nodes p = some n) : Grows s s' := by
  intro x k here
  by_cases atFile : x = p
  · subst atFile
    obtain rfl := Option.some.inj (present.symm.trans here)
    refine ⟨{ n with data := block, size := data.length }, ?_, rfl, rfl, rfl, le_rfl,
      fun _ _ => rfl⟩
    rw [wrote.nodes, Function.update_self]
  · refine ⟨k, ?_, rfl, rfl, rfl, le_rfl, fun _ _ => rfl⟩
    rw [wrote.nodes, Function.update_of_ne atFile, here]

/-- Children of one directory have different names. -/
def DistinctSiblings (s : FsState) : Prop :=
  ∀ x y z m n, s.InTree x → y ∈ s.kids x → z ∈ s.kids x → s.nodes y = some m → s.nodes z = some n →
    m.name = n.name → y = z

theorem Created.grows (made : Created s s' type name owner dir block d)
    (present : s.nodes dir = some d) :
    Grows s s' := by
  intro x n here
  by_cases atBlock : x = block
  · subst atBlock
    rw [made.fresh.noNode] at here
    cases here
  by_cases atDir : x = dir
  · subst atDir
    obtain rfl := Option.some.inj (here.symm.trans present)
    cases type : n.type with
    | dir =>
        refine ⟨n.adding block, (made.atDir type).2, rfl, type, rfl, Nat.le_succ n.childCount,
          fun k below => ?_⟩
        exact Function.update_of_ne (Nat.ne_of_lt below) _ _
    | file => exact ⟨n, made.atFile type, rfl, type, rfl, le_rfl, fun _ _ => rfl⟩
  · exact ⟨n, (made.kept x atBlock atDir).trans here, rfl, rfl, rfl, le_rfl, fun _ _ => rfl⟩

section Grown

variable (made : Created s s' type name owner dir block d) (present : s.nodes dir = some d)
  (isDir : d.type = .dir)

include made present isDir

theorem kids_of_created (x : Ptr) :
    s'.kids x = if x = block then [] else if x = dir then s.kids dir ++ [block] else s.kids x := by
  by_cases atBlock : x = block
  · obtain ⟨par, leaf⟩ := made.atBlock
    rw [if_pos atBlock, atBlock, kids_of leaf]
    rfl
  by_cases atDir : x = dir
  · rw [if_neg atBlock, if_pos atDir, atDir, kids_of (made.atDir isDir).2, kids_of present,
      childList_adding]
  · rw [if_neg atBlock, if_neg atDir, (links_of_same (made.kept x atBlock atDir)).1]

/-- A child is the new one or one of before. -/
theorem kid_of_created {y : Ptr} (kid : y ∈ s'.kids x) :
    (y = block ∧ x = dir) ∨ (x ≠ block ∧ y ∈ s.kids x) := by
  rw [kids_of_created made present isDir] at kid
  split at kid
  · cases kid
  rename_i notBlock
  split at kid
  · rename_i atDir
    rcases List.mem_append.mp kid with old | new
    · exact .inr ⟨notBlock, atDir ▸ old⟩
    · exact .inl ⟨List.mem_singleton.mp new, atDir⟩
  · exact .inr ⟨notBlock, kid⟩

theorem inTree_of_created (inTree : s'.InTree x) : x = block ∨ s.InTree x := by
  rw [InTree, made.root] at inTree
  induction inTree with
  | refl => exact .inr .refl
  | tail _ listed ih =>
      rcases kid_of_created made present isDir listed with ⟨new, _⟩ | ⟨notBlock, old⟩
      · exact .inl new
      · exact .inr ((ih.resolve_left notBlock).tail old)

omit isDir in
/-- A child of before has the name it had. -/
theorem name_of_created {c : Ptr} {k : FsNode} (tree : ConsistentTree s) (below : s.InTree x)
    (kid : c ∈ s.kids x) (here : s'.nodes c = some k) :
    ∃ k₀, s.nodes c = some k₀ ∧ k.name = k₀.name := by
  obtain ⟨k₀, before, _⟩ := tree.live c (below.tail kid)
  exact ⟨k₀, before, (made.grows present).name_eq before here⟩

/-- A path of afterwards is one of before, or that of the new node. -/
theorem absolutePath_of_created {path : CStr} (tree : ConsistentTree s)
    (absolute : AbsolutePath s' x path) :
    AbsolutePath s x path ∨ x = block ∧ ∃ front, AbsolutePath s dir front ∧
    path = front ++ slash :: name := by
  induction absolute with
  | root => exact .inl (made.root ▸ .root)
  | @child q c front n above listed here ih =>
      rcases kid_of_created made present isDir listed with ⟨rfl, rfl⟩ | ⟨notBlock, old⟩
      · obtain ⟨par, leaf⟩ := made.atBlock
        obtain rfl := Option.some.inj (leaf.symm.trans here)
        refine .inr ⟨rfl, front, ih.resolve_right ?_, rfl⟩
        rintro ⟨same, -⟩
        rw [same, made.fresh.noNode] at present
        cases present
      · have before := ih.resolve_right fun new => notBlock new.1
        obtain ⟨k₀, there, named⟩ := name_of_created made present tree before.inTree old here
        rw [named]
        exact .inl (before.child old there)

section Untaken

variable (tree : ConsistentTree s) (below : s.InTree dir)
  (untaken : ∀ c m, c ∈ s.kids dir → s.nodes c = some m → m.name ≠ name)

include tree below untaken

/-- The new node is the only child of its name. -/
theorem only_created {c : Ptr} {k : FsNode} (kid : c ∈ s'.kids dir) (here : s'.nodes c = some k)
    (named : k.name = name) : c = block := by
  rcases kid_of_created made present isDir kid with ⟨new, _⟩ | ⟨_, old⟩
  · exact new
  · obtain ⟨k₀, before, sameName⟩ := name_of_created made present tree below old here
    exact absurd (sameName.symm.trans named) (untaken c k₀ old before)

/-- A name that is not taken does not come twice. -/
theorem distinct_of_created (distinct : DistinctSiblings s) : DistinctSiblings s' := by
  obtain ⟨par, leaf⟩ := made.atBlock
  -- next to the new node, none has its name
  have only : ∀ z n, z ∈ s'.kids dir → s'.nodes z = some n → ∀ m, s'.nodes block = some m →
      m.name = n.name →
      block = z := by
    intro z n kid atZ m atBlock same
    obtain rfl := Option.some.inj (leaf.symm.trans atBlock)
    exact (only_created made present isDir tree below untaken kid atZ same.symm).symm
  intro x y z m n inTree first second atY atZ same
  rcases kid_of_created made present isDir first with ⟨rfl, rfl⟩ | ⟨notBlock, oldY⟩
  · exact only z n second atZ m atY same
  rcases kid_of_created made present isDir second with ⟨rfl, rfl⟩ | ⟨_, oldZ⟩
  · exact (only y m first atY n atZ same.symm).symm
  have before : s.InTree x := (inTree_of_created made present isDir inTree).resolve_left notBlock
  obtain ⟨m₀, beforeY, nameY⟩ := name_of_created made present tree before oldY atY
  obtain ⟨n₀, beforeZ, nameZ⟩ := name_of_created made present tree before oldZ atZ
  exact distinct x y z m₀ n₀ before oldY oldZ beforeY beforeZ (nameY.symm.trans (same.trans nameZ))

/-- A search for the name finds the new node. -/
theorem find_created (tree' : ConsistentTree s') (below' : s'.InTree dir) :
    emulatedFsFindIn s' dir name = .ok block := by
  obtain ⟨par, leaf⟩ := made.atBlock
  have kid : block ∈ s'.kids dir := by
    have grown := (made.atDir isDir).2
    rw [kids_of grown, childList_adding]
    exact List.mem_append_right _ List.mem_cons_self
  rcases emulatedFsFindIn_search tree' below' name with
    ⟨c, k, listed, found, here, named⟩ | ⟨_, nobody⟩
  · rwa [only_created made present isDir tree below untaken listed here named] at found
  · exact absurd rfl (nobody block _ kid leaf)

end Untaken

end Grown

end AurorOS.Fs
