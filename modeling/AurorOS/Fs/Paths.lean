import AurorOS.Fs.Invariant
import AurorOS.Fs.Resolve

/-! # Working directories

`shc_pwd` writes the path of a directory backwards into a static buffer of 256
characters, going up the parent pointers.  Resolving what it wrote leads back.
-/

namespace AurorOS.Fs

open FsState Outcome

/-- The loop of `shc_pwd`; `path` is what the buffer holds from `pos` on, so that
    `pos` is 255 less its length. -/
def pwdLoop (s : FsState) : Nat → Ptr → CStr → Except Fault CStr
  | 0, _, _ => .error .outOfFuel
  | fuel + 1, node, path =>
      if node = 0 then .ok path
      else do
        let n ← s.deref node
        if n.parent = 0 then return path
        -- the name and a slash go in front, down to index 0
        if path.length + n.name.length + 1 ≤ 255 then
          pwdLoop s fuel n.parent (slash :: n.name ++ path)
        else .error .invalidAccess

/-- Every round fills a character of the buffer at least, so 256 rounds are enough. -/
def shcPwd (s : FsState) (currentDir : Ptr) : Except Fault CStr := do
  let result ← pwdLoop s 256 currentDir []
  return if result = [] then [slash] else result

/-- What is reached from the root is live and has its children's parent pointers
    right; a file has no children. -/
structure ConsistentTree (s : FsState) : Prop where
  nonnull : ∀ x, s.InTree x → x ≠ 0
  live : ∀ x, s.InTree x → ∃ n, s.nodes x = some n ∧ n.childCount ≤ 64 ∧
    (n.type = .file → n.childCount = 0)
  parents : ∀ x y, s.InTree x → y ∈ s.kids x → s.parent y = x
  rootParent : s.parent s.fsRoot = 0

/-- A name that a path can hold as one component. -/
structure ComponentName (name : CStr) : Prop where
  nonempty : name ≠ []
  short : name.length < 32
  noSlash : slash ∉ name
  notDot : name ≠ dot
  notDotDot : name ≠ dotDot

/-- Names in the tree are components, and siblings' names differ. -/
structure ProperNames (s : FsState) : Prop where
  component : ∀ x y n, s.InTree x → y ∈ s.kids x → s.nodes y = some n → ComponentName n.name
  distinct : ∀ x y z m n, s.InTree x → y ∈ s.kids x → z ∈ s.kids x → s.nodes y = some m →
    s.nodes z = some n →
    m.name = n.name → y = z

/-- `path` leads from the root to the node, a slash and a name for each step down;
    the root itself has the empty path here. -/
inductive AbsolutePath (s : FsState) : Ptr → CStr → Prop where
  | root : AbsolutePath s s.fsRoot []
  | child {p c path n} : AbsolutePath s p path → c ∈ s.kids p → s.nodes c = some n →
      AbsolutePath s c (path ++ slash :: n.name)

variable {s : FsState} {n m d : FsNode} {p q c x dir current : Ptr} {path name rest token : CStr}
  {i left fuel : Nat}

theorem WellFormed.consistentTree (wf : WellFormed s) : ConsistentTree s := by
  obtain ⟨K, tree, _⟩ := wf
  refine ⟨?_, ?_, ?_, tree.spans.1⟩
  · exact fun x inTree => (tree.nodes x ((tree.mem_iff_below x).mpr inTree)).1
  · intro x inTree
    obtain ⟨_, n, present, ok⟩ := tree.nodes x ((tree.mem_iff_below x).mpr inTree)
    exact ⟨n, present, ok.fits, ok.leaf⟩
  · exact fun x y inTree listed => tree.spans.parent_of_kid
      ((tree.mem_iff_below x).mpr inTree) listed

namespace AbsolutePath

theorem inTree (path : AbsolutePath s p name) : s.InTree p := by
  induction path with
  | root => exact .refl
  | child _ listed _ ih => exact ih.tail listed

/-- Only the root has the empty path; any other starts with a slash. -/
theorem shape (absolute : AbsolutePath s p path) :
    (p = s.fsRoot ∧ path = []) ∨ ∃ rest, path = slash :: rest := by
  induction absolute with
  | root => exact .inl ⟨rfl, rfl⟩
  | @child q _ front n _ _ _ ih =>
      refine .inr ?_
      rcases ih with ⟨_, rfl⟩ | ⟨rest, rfl⟩
      · exact ⟨n.name, rfl⟩
      · exact ⟨rest ++ slash :: n.name, rfl⟩

end AbsolutePath

/-- From a node with absolute path `path`, the loop puts that path in front. -/
theorem pwdLoop_path (tree : ConsistentTree s) (absolute : AbsolutePath s p path)
    (room : path.length + rest.length ≤ 255) (enough : path.length < fuel) :
    pwdLoop s fuel p rest = .ok (path ++ rest) := by
  induction absolute generalizing rest fuel with
  | root =>
      obtain ⟨n, present, _⟩ := tree.live _ .refl
      have noParent : n.parent = 0 := (parent_of present).symm.trans tree.rootParent
      obtain ⟨fuel, rfl⟩ : ∃ k, fuel = k + 1 := ⟨fuel - 1, by omega⟩
      rw [pwdLoop, if_neg (tree.nonnull _ .refl), deref_eq_ok.mpr present]
      simp only [bind, Except.bind, if_pos noParent]
      rfl
  | @child q c front n above listed present ih =>
      rw [List.length_append, List.length_cons] at room enough
      have below : s.InTree c := above.inTree.tail listed
      have parent : n.parent = q :=
        (parent_of present).symm.trans (tree.parents q c above.inTree listed)
      have hasParent : n.parent ≠ 0 := parent ▸ tree.nonnull q above.inTree
      obtain ⟨fuel, rfl⟩ : ∃ k, fuel = k + 1 := ⟨fuel - 1, by omega⟩
      have onward := @ih (slash :: n.name ++ rest) fuel
        (by rw [List.length_append, List.length_cons]; omega) (by omega)
      rw [pwdLoop, if_neg (tree.nonnull _ below), deref_eq_ok.mpr present]
      rw [← parent] at onward
      simp only [bind, Except.bind, if_neg hasParent,
        if_pos (by omega : rest.length + n.name.length + 1 ≤ 255)]
      rw [onward, List.append_assoc]

/-- If the loop returns from a node, there was room for the node's path. -/
theorem pwdLoop_room {written : CStr} (tree : ConsistentTree s) (absolute : AbsolutePath s p path)
    (start : rest.length ≤ 255) (returned : pwdLoop s fuel p rest = .ok written) :
    path.length + rest.length ≤ 255 := by
  induction absolute generalizing rest fuel with
  | root => rwa [List.length_nil, Nat.zero_add]
  | @child q c front n above listed present ih =>
      have parent : n.parent = q :=
        (parent_of present).symm.trans (tree.parents q c above.inTree listed)
      have hasParent : n.parent ≠ 0 := parent ▸ tree.nonnull q above.inTree
      cases fuel with
      | zero => cases returned
      | succ fuel =>
          rw [pwdLoop, if_neg (tree.nonnull _ (above.inTree.tail listed)),
            deref_eq_ok.mpr present] at returned
          simp only [bind, Except.bind, if_neg hasParent] at returned
          split at returned
          case isFalse => cases returned
          rename_i room
          rw [parent] at returned
          have onward := ih (by rw [List.length_append, List.length_cons]; omega) returned
          rw [List.length_append, List.length_cons] at onward ⊢
          omega

/-- The buffer has room for the paths of at most 255 characters, and for no others. -/
theorem shcPwd_iff (tree : ConsistentTree s) (absolute : AbsolutePath s p path) :
    (∃ written, shcPwd s p = .ok written) ↔ path.length ≤ 255 := by
  constructor
  · rintro ⟨written, returned⟩
    obtain ⟨result, looped, _⟩ := bind_eq_ok.mp returned
    have room : path.length + ([] : CStr).length ≤ 255 :=
      pwdLoop_room tree absolute (Nat.zero_le 255) looped
    exact room
  · intro short
    have looped : pwdLoop s 256 p [] = .ok (path ++ []) :=
      pwdLoop_path tree absolute short (by omega)
    exact ⟨_, bind_eq_ok.mpr ⟨_, looped, rfl⟩⟩

/-- Every node of the tree has an absolute path. -/
theorem exists_absolutePath (tree : ConsistentTree s) (inTree : s.InTree p) :
    ∃ path, AbsolutePath s p path := by
  induction inTree with
  | refl => exact ⟨[], .root⟩
  | @tail q c above listed ih =>
      obtain ⟨path, absolute⟩ := ih
      obtain ⟨n, present, _⟩ := tree.live c (above.tail listed)
      exact ⟨_, absolute.child listed present⟩

/-- A search of a directory in order finds the child with a name that no other has. -/
theorem findLoop_child (live : ∀ k < i + left, ∃ m, s.nodes (d.children k) = some m)
    (fits : i + left ≤ 64) (present : s.nodes c = some n)
    (unique : ∀ k m, k < i + left → s.nodes (d.children k) = some m → m.name = n.name →
    d.children k = c) (listed : ∃ k, i ≤ k ∧ k < i + left ∧ d.children k = c) :
    findLoop s d n.name left i = .ok c := by
  induction left generalizing i with
  | zero =>
      obtain ⟨k, above, below, _⟩ := listed
      omega
  | succ left ih =>
      obtain ⟨m, here⟩ := live i (by omega)
      rw [findLoop, readChild, if_pos (by omega)]
      simp only [bind, Except.bind, deref_eq_ok.mpr here]
      by_cases same : m.name = n.name
      · rw [if_pos same]
        exact congrArg Except.ok (unique i m (by omega) here same)
      · rw [if_neg same]
        refine ih (fun k below => live k (by omega)) (by omega)
          (fun k m below => unique k m (by omega)) ?_
        obtain ⟨k, above, below, child⟩ := listed
        refine ⟨k, ?_, by omega, child⟩
        by_contra atStart
        obtain rfl : k = i := by omega
        rw [child, present] at here
        exact same (congrArg FsNode.name (Option.some.inj here).symm)

theorem emulatedFsFindIn_child (tree : ConsistentTree s) (names : ProperNames s)
    (inTree : s.InTree p) (listed : c ∈ s.kids p) (present : s.nodes c = some n) :
    emulatedFsFindIn s p n.name = .ok c := by
  obtain ⟨d, here, fits, leaf⟩ := tree.live p inTree
  have children : s.kids p = d.childList := kids_of here
  have isDir : d.type = .dir := by
    cases type : d.type with
    | dir => rfl
    | file =>
        rw [children, childList_eq_nil.mpr (leaf type)] at listed
        cases listed
  have kid : ∀ k < 0 + d.childCount, d.children k ∈ s.kids p := by
    intro k below
    rw [children, FsNode.childList]
    exact List.mem_map.mpr ⟨k, List.mem_range.mpr (by omega), rfl⟩
  rw [emulatedFsFindIn, deref_eq_ok.mpr here]
  simp only [bind, Except.bind, if_neg (not_not.mpr isDir)]
  refine findLoop_child ?_ (by omega) present ?_ ?_
  · intro k below
    obtain ⟨m, presentKid, _⟩ := tree.live _ (inTree.tail (kid k below))
    exact ⟨m, presentKid⟩
  · intro k m below presentKid same
    exact names.distinct p _ c m n inTree (kid k below) listed presentKid present same
  · rw [children, FsNode.childList] at listed
    obtain ⟨k, inRange, child⟩ := List.mem_map.mp listed
    exact ⟨k, Nat.zero_le k, by rw [Nat.zero_add]; exact List.mem_range.mp inRange, child⟩

/-- A child's name as the last component leads to the child. -/
theorem resolveLoop_child (tree : ConsistentTree s) (names : ProperNames s) (inTree : s.InTree p)
    (listed : c ∈ s.kids p) (present : s.nodes c = some n) :
    resolveLoop s n.name [] p = .ok (some c) := by
  obtain ⟨nonempty, short, noSlash, notDot, notDotDot⟩ :=
    names.component p c n inTree listed present
  rw [resolveLoop_name noSlash short, stepInto, if_pos short,
    if_neg (not_or.mpr ⟨nonempty, notDot⟩), if_neg notDotDot,
    emulatedFsFindIn_child tree names inTree listed present]
  simp only [bind, Except.bind, if_neg (tree.nonnull c (inTree.tail listed))]
  rfl

/-- The path without its first slash leads from the root to the node. -/
theorem resolveLoop_path (tree : ConsistentTree s) (names : ProperNames s)
    (absolute : AbsolutePath s p path) (shape : path = slash :: rest) :
    resolveLoop s rest [] s.fsRoot = .ok (some p) := by
  induction absolute generalizing rest with
  | root => cases shape
  | @child q c front n above listed present ih =>
      have last := resolveLoop_child tree names above.inTree listed present
      rcases above.shape with ⟨rfl, rfl⟩ | ⟨before, rfl⟩
      · obtain rfl := (List.cons.inj shape).2
        exact last
      · have split : rest = before ++ slash :: n.name := (List.cons.inj shape).2.symm
        rw [split, resolveLoop_append, ih rfl]
        exact last

/-- Resolving the path that `shc_pwd` writes leads back to the directory, from any
    current directory. -/
theorem resolve_pwd (s : FsState) (tree : ConsistentTree s) (names : ProperNames s) (d : Ptr)
    (path : CStr) (absolute : AbsolutePath s d path) (short : path.length ≤ 255) (c : Ptr) :
    ∃ written, shcPwd s d = .ok written ∧ fsResolve s written c = .ok d := by
  have looped : pwdLoop s 256 d [] = .ok (path ++ []) :=
    pwdLoop_path tree absolute (by rwa [List.length_nil]) (by omega)
  rw [List.append_nil] at looped
  refine ⟨if path = [] then [slash] else path, ?_, ?_⟩
  · rw [shcPwd, looped]
    rfl
  · rcases absolute.shape with ⟨rfl, rfl⟩ | ⟨rest, rfl⟩
    · rfl
    · have found := resolveLoop_path tree names absolute rfl
      rw [if_neg (List.cons_ne_nil _ _), fsResolve, emulatedFsResolve]
      simp only [if_true, found]
      rfl

/-- A path leads on from the root or from the current directory. -/
theorem fsResolve_start (resolved : fsResolve s path current = .ok p) (present : p ≠ 0) :
    ∃ rest start, (start = s.fsRoot ∨ start = current) ∧
    resolveLoop s rest [] start = .ok (some p) := by
  have started : ∀ rest start, (do return (← resolveLoop s rest [] start).getD 0) = .ok p →
      resolveLoop s rest [] start = .ok (some p) := by
    intro rest start returned
    obtain ⟨found, loop, same⟩ := bind_eq_ok.mp returned
    have value := pure_eq_ok.mp same
    cases found with
    | none => exact absurd value.symm present
    | some q => exact value ▸ loop
  unfold fsResolve emulatedFsResolve at resolved
  split at resolved
  · split at resolved
    · exact ⟨_, s.fsRoot, .inl rfl, started _ _ resolved⟩
    · exact ⟨_, current, .inr rfl, started _ _ resolved⟩
  · exact ⟨_, current, .inr rfl, started _ _ resolved⟩

/-- From `NULL` or a node of the tree, a path leads to `NULL` or to a node of the tree. -/
theorem fsResolve_inTree (wf : WellFormed s) (nothing : s.nodes 0 = none)
    (start : current = 0 ∨ s.InTree current) (resolved : fsResolve s path current = .ok p) :
    p = 0 ∨ s.InTree p := by
  by_cases present : p = 0
  · exact .inl present
  obtain ⟨rest, first, either, loop⟩ := fsResolve_start resolved present
  have begins : first = 0 ∨ s.InTree first := by
    rcases either with rfl | rfl
    · exact .inr .refl
    · exact start
  have tree := wf.consistentTree
  refine resolveLoop_invariant (P := fun x => x = 0 ∨ s.InTree x) ?_ ?_ begins loop
  · intro x n place here hasParent
    refine .inr ?_
    rcases place with rfl | inTree
    · cases nothing.symm.trans here
    · rw [← parent_of here] at hasParent ⊢
      cases inTree with
      | refl => exact absurd tree.rootParent hasParent
      | tail above listed =>
          rw [tree.parents _ x above listed]
          exact above
  · intro x y place listed
    refine .inr ?_
    rcases place with rfl | inTree
    · rw [FsState.kids, nothing] at listed
      cases listed
    · exact inTree.tail listed

/-- The prompt reads the current directory, unless it is `NULL`. -/
theorem shcPwd_live {written : CStr} (returned : shcPwd s current = .ok written)
    (nonnull : current ≠ 0) :
    ∃ n, s.nodes current = some n := by
  obtain ⟨_, loop, _⟩ := bind_eq_ok.mp returned
  rw [pwdLoop, if_neg nonnull] at loop
  obtain ⟨n, here, _⟩ := bind_eq_ok.mp loop
  exact ⟨n, deref_eq_ok.mp here⟩

theorem inTree_homeState (inTree : homeState.InTree x) : x = 1 ∨ x = 2 ∨ x = 3 := by
  induction inTree with
  | refl => exact .inl rfl
  | tail _ listed ih =>
      rcases ih with rfl | rfl | rfl
      · exact .inr (.inl (List.mem_singleton.mp listed))
      · exact .inr (.inr (List.mem_singleton.mp listed))
      · cases listed

theorem homeState_properNames : ProperNames homeState := by
  refine ⟨?_, ?_⟩
  · intro x y n inTree listed present
    rcases inTree_homeState inTree with rfl | rfl | rfl
    · obtain rfl := List.mem_singleton.mp listed
      obtain rfl := Option.some.inj present
      exact ⟨by decide, by decide, by decide, by decide, by decide⟩
    · obtain rfl := List.mem_singleton.mp listed
      obtain rfl := Option.some.inj present
      exact ⟨by decide, by decide, by decide, by decide, by decide⟩
    · cases listed
  · intro x y z m n inTree first second _ _ _
    rcases inTree_homeState inTree with rfl | rfl | rfl
    · exact (List.mem_singleton.mp first).trans (List.mem_singleton.mp second).symm
    · exact (List.mem_singleton.mp first).trans (List.mem_singleton.mp second).symm
    · cases first

/-- `home` is found again from the file in it. -/
theorem resolve_pwd_home :
    ∃ written, shcPwd homeState 2 = .ok written ∧ fsResolve homeState written 3 = .ok 2 := by
  have absolute : AbsolutePath homeState 2 [47, 104, 111, 109, 101] :=
    .child (n := { leafNode .dir [104, 111, 109, 101] 0 1 with
      children := fun _ => 3, childCount := 1 }) .root
      (List.mem_singleton.mpr rfl) rfl
  exact resolve_pwd homeState homeState_wellFormed.consistentTree homeState_properNames 2 _ absolute
    (by decide) 3

end AurorOS.Fs
