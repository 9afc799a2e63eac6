import AurorOS.Fs.Tree

/-! # Deleting a subtree

`fs_delete` empties a directory by deleting its first child until none is left, and
each of these calls takes the child out of the list through its parent pointer.
The induction is on the forest below the node: its first tree, then the rest.
-/

namespace AurorOS.Fs

open FsState Forest

variable {s s' : FsState} {n m : FsNode} {p q x : Ptr} {K F : Forest Ptr}

/-- The arguments of `free` when the node at `p` is deleted, the last one first. -/
def FsNode.releases (n : FsNode) (p : Ptr) : List Freed :=
  [.node p, match n.type with
    | .dir => .children p
    | .file => .data n.data]

def FsState.releases (s : FsState) (p : Ptr) : List Freed :=
  match s.nodes p with
  | some n => n.releases p
  | none => []

/-- `free` has been called with these arguments, in any order. -/
def Released (s s' : FsState) (args : List Freed) : Prop :=
  ∃ new, s'.freed = new ++ s.freed ∧ new.Perm args

theorem Released.trans {s₁ : FsState} {xs ys : List Freed} (first : Released s s₁ xs)
    (second : Released s₁ s' ys) :
    Released s s' (xs ++ ys) := by
  obtain ⟨new, freed, perm⟩ := first
  obtain ⟨new', freed', perm'⟩ := second
  refine ⟨new' ++ new, by rw [freed', freed, List.append_assoc], ?_⟩
  exact (perm'.append perm).trans List.perm_append_comm

/-- `p` was a directory over the forest `F`; the forest is gone and the directory
    empty, and nothing else has changed. -/
structure Cleared (s s' : FsState) (p : Ptr) (n : FsNode) (F : Forest Ptr) : Prop where
  gone : ∀ x ∈ F.labels, s'.nodes x = none
  emptied : ∃ children, s'.nodes p = some { n with children := children, childCount := 0 }
  kept : ∀ x, x ≠ p → x ∉ F.labels → s'.nodes x = s.nodes x
  root : s'.fsRoot = s.fsRoot
  released : Released s s' (F.labels.flatMap s.releases)

/-- The tree at `p` over `K` is gone and `q` has lost the child `p`. -/
structure CutOut (s s' : FsState) (p : Ptr) (K : Forest Ptr) (q : Ptr) : Prop where
  gone : ∀ x ∈ (cons p K nil).labels, s'.nodes x = none
  parent : ∀ m, q ≠ 0 → s.nodes q = some m → s'.nodes q = some (m.without p)
  kept : ∀ x, x ≠ q → x ∉ (cons p K nil).labels → s'.nodes x = s.nodes x
  root : s'.fsRoot = s.fsRoot
  released : Released s s' ((cons p K nil).labels.flatMap s.releases)

/-- With enough budget the call returns. -/
def Returns (call : Nat → Except Fault FsState) (s' : FsState) : Prop :=
  ∃ bound, ∀ fuel ≥ bound, call fuel = .ok s'

/-- A node without children is just freed. -/
theorem emulatedFsDelete_leaf (present : s.nodes p = some n) (nonnull : p ≠ 0)
    (empty : n.childCount = 0) :
    ∃ s', (∀ fuel ≥ 2, emulatedFsDelete fuel s p = .ok s') ∧
      s'.nodes = Function.update s.nodes p none ∧ s'.fsRoot = s.fsRoot ∧
      s'.freed = n.releases p ++ s.freed := by
  cases type : n.type with
  | file =>
      refine ⟨((s.freeData n.data).setNode p { n with data := 0 }).freeNode p, ?_, ?_, rfl, ?_⟩
      · intro fuel enough
        obtain ⟨fuel, rfl⟩ : ∃ k, fuel = k + 1 := ⟨fuel - 1, by omega⟩
        simp only [emulatedFsDelete, if_neg nonnull, deref_eq_ok.mpr present, bind,
          Except.bind, type]
        rfl
      · simp [freeNode, setNode, freeData]
      · simp [freeNode, setNode, freeData, FsNode.releases, type]
  | dir =>
      refine ⟨((s.freeChildren p).setNode p { n with childCount := 0 }).freeNode p, ?_, ?_, rfl, ?_⟩
      · intro fuel enough
        obtain ⟨fuel, rfl⟩ : ∃ k, fuel = k + 2 := ⟨fuel - 2, by omega⟩
        have noChild : ¬ 0 < n.childCount := by omega
        simp only [emulatedFsDelete, emulatedDeleteLoop, if_neg nonnull,
          deref_eq_ok.mpr present, bind, Except.bind, type,
          if_neg noChild]
        simp only [pure, Except.pure, deref_eq_ok.mpr present, type]
      · simp [freeNode, setNode, freeChildren]
      · simp [freeNode, setNode, freeChildren, FsNode.releases, type]

/-- One call, given what its two optional parts do. -/
theorem fsDelete_succ {s₁ s₂ : FsState} {fuel : Nat} (nonnull : p ≠ 0)
    (present : s.nodes p = some n)
    (children : (if n.type = .dir then deleteChildren fuel s p else .ok s) = .ok s₁)
    (present₁ : s₁.nodes p = some m)
    (unlink : (if m.parent ≠ 0 then fsRemoveChild s₁ m.parent p else .ok s₁) = .ok s₂) :
    fsDelete (fuel + 1) s p = emulatedFsDelete fuel s₂ p := by
  have afterwards : (do
      let n ← s₁.deref p
      let s ← if n.parent ≠ 0 then fsRemoveChild s₁ n.parent p else .ok s₁
      emulatedFsDelete fuel s p) = emulatedFsDelete fuel s₂ p := by
    simp only [deref_eq_ok.mpr present₁, bind, Except.bind]
    split at unlink
    · rename_i hasParent
      rw [if_pos hasParent, unlink]
    · rename_i noParent
      rw [if_neg noParent, Except.ok.inj unlink]
  rw [← afterwards]
  by_cases isDir : n.type = .dir
  · rw [if_pos isDir] at children
    simp only [fsDelete, if_neg nonnull, deref_eq_ok.mpr present, bind, Except.bind, if_pos isDir,
      children]
  · rw [if_neg isDir] at children
    obtain rfl := Except.ok.inj children
    simp only [fsDelete, if_neg nonnull, deref_eq_ok.mpr present, bind, Except.bind, if_neg isDir]

/-- A directory without children is clear. -/
theorem Cleared.refl (present : s.nodes p = some n) (empty : n.childCount = 0) :
    Cleared s s p n nil where
  gone := by simp [labels]
  emptied := by
    refine ⟨n.children, ?_⟩
    rw [present, ← empty]
  kept := fun _ _ _ => rfl
  root := rfl
  released := ⟨[], rfl, .nil⟩

/-- The first of the two optional parts leaves a node without children, whatever its
    type. -/
theorem children_deleted (tree : TreeAt s q (cons p K nil)) (present : s.nodes p = some n)
    (clears : n.type = .dir → ∃ s', Returns (deleteChildren · s p) s' ∧ Cleared s s' p n K) :
    ∃ s', Returns (fun fuel => if n.type = .dir then deleteChildren fuel s p else .ok s) s' ∧
    Cleared s s' p n K := by
  by_cases isDir : n.type = .dir
  · obtain ⟨s', ⟨bound, returns⟩, cleared⟩ := clears isDir
    exact ⟨s', ⟨bound, fun fuel enough => (if_pos isDir).trans (returns fuel enough)⟩, cleared⟩
  · obtain ⟨_, n', present', ok⟩ := tree.nodes p List.mem_cons_self
    obtain rfl := Option.some.inj (present.symm.trans present')
    have isFile : n.type = .file := by
      cases type : n.type with
      | file => rfl
      | dir => exact absurd type isDir
    have children : n.childList = K.roots := (kids_of present).symm.trans tree.spans.2.1
    have noKids : K = nil := by
      rw [childList_eq_nil.mpr (ok.leaf isFile)] at children
      cases K with
      | nil => rfl
      | cons a kids rest => cases children
    exact ⟨s, ⟨0, fun _ _ => if_neg isDir⟩, noKids ▸ .refl present (ok.leaf isFile)⟩

/-- The second takes the node out of its parent's list, if it has a parent. -/
theorem parent_unlinked
    (parent : q = 0 ∨ ∃ m, s.nodes q = some m ∧ m.type = .dir ∧ m.childCount ≤ 64)
    (nonnull : p ≠ 0) :
    ∃ s', (if q ≠ 0 then fsRemoveChild s q p else .ok s) = .ok s' ∧
    (∀ x, x ≠ q → s'.nodes x = s.nodes x) ∧
      (∀ m, q ≠ 0 → s.nodes q = some m → s'.nodes q = some (m.without p)) ∧ s'.fsRoot = s.fsRoot ∧
      s'.freed = s.freed := by
  by_cases null : q = 0
  · exact ⟨s, if_neg (not_not.mpr null), fun _ _ => rfl, fun _ given => absurd null given, rfl, rfl⟩
  · obtain ⟨m, presentParent, isDir, fits⟩ := parent.resolve_left null
    refine ⟨_, (if_pos null).trans (fsRemoveChild_eq presentParent null nonnull isDir fits), ?_, ?_,
      rfl, rfl⟩
    · intro x different
      simp [setNode, different]
    · intro m' _ same
      obtain rfl := Option.some.inj (presentParent.symm.trans same)
      simp [setNode]

/-- Deleting a node once its children can be deleted.  The parent may be `NULL`,
    and it need not list the node any more. -/
theorem fsDelete_cuts (tree : TreeAt s q (cons p K nil)) (unique : (cons p K nil).labels.Nodup)
    (outside : q ∉ (cons p K nil).labels)
    (parent : q = 0 ∨ ∃ m, s.nodes q = some m ∧ m.type = .dir ∧ m.childCount ≤ 64)
    (clears : ∀ n, s.nodes p = some n → n.type = .dir → ∃ s', Returns (deleteChildren · s p) s' ∧
    Cleared s s' p n K) :
    ∃ s', Returns (fsDelete · s p) s' ∧ CutOut s s' p K q := by
  obtain ⟨nonnull, n, present, _⟩ := tree.nodes p List.mem_cons_self
  have parentField : n.parent = q := (parent_of present).symm.trans tree.spans.1
  have other : q ≠ p := fun same => outside (same ▸ List.mem_cons_self)
  have notKid : ∀ x ∈ K.labels, x ≠ p := by
    rintro x inside rfl
    exact (nodup_cons.mp unique).1 inside
  obtain ⟨s₁, ⟨bound, returns⟩, cleared⟩ := children_deleted tree present (clears n present)
  obtain ⟨array, present₁⟩ := cleared.emptied
  have parent₁ : s₁.nodes q = s.nodes q :=
    cleared.kept q other fun inside => outside (mem_labels_tree.mpr (.inr inside))
  obtain ⟨s₂, unlink, kept₂, parent₂, root₂, log₂⟩ :=
    parent_unlinked (parent₁.symm ▸ parent) nonnull
  obtain ⟨s₃, freed, nodes₃, root₃, log₃⟩ :=
    emulatedFsDelete_leaf ((kept₂ p other.symm).trans present₁) nonnull rfl
  refine ⟨s₃, ⟨max bound 2 + 1, ?_⟩, ?_, ?_, ?_, ?_, ?_⟩
  · intro fuel enough
    obtain ⟨fuel, rfl⟩ : ∃ k, fuel = k + 1 := ⟨fuel - 1, by omega⟩
    have first := returns fuel (by omega)
    rw [← parentField] at unlink
    exact (fsDelete_succ nonnull present first present₁ unlink).trans (freed fuel (by omega))
  · intro x inside
    rw [nodes₃]
    cases mem_labels_tree.mp inside with
    | inl same => simp [same]
    | inr inKids =>
        have different : x ≠ q := fun same => outside (same ▸ inside)
        simp [notKid x inKids, kept₂ x different, cleared.gone x inKids]
  · intro m given same
    rw [nodes₃]
    simp [other, parent₂ m given (parent₁.trans same)]
  · intro x different notInside
    rw [mem_labels_tree, not_or] at notInside
    rw [nodes₃]
    simp [notInside.1, kept₂ x different, cleared.kept x notInside.1 notInside.2]
  · rw [root₃, root₂, cleared.root]
  · obtain ⟨new, log₁, perm⟩ := cleared.released
    refine ⟨n.releases p ++ new, ?_, ?_⟩
    · rw [log₃, log₂, log₁, List.append_assoc]
      rfl
    · have own : s.releases p = n.releases p := by rw [FsState.releases, present]
      rw [labels, labels, List.append_nil, List.flatMap_cons, own]
      exact perm.append_left _

/-- One round of the loop. -/
theorem deleteChildren_succ {s₁ s₂ : FsState} {a : Ptr} {fuel : Nat} {rest : List Ptr}
    (present : s.nodes p = some n) (children : n.childList = a :: rest) (fits : n.childCount ≤ 64)
    (first : fsDelete fuel s a = .ok s₁) (others : deleteChildren fuel s₁ p = .ok s₂) :
    deleteChildren (fuel + 1) s p = .ok s₂ := by
  have some : 0 < n.childCount := by
    rw [← length_childList, children]
    exact Nat.succ_pos _
  have head : n.children 0 = a := by
    rw [← getElem_childList (by rwa [length_childList])]
    simp [children]
  have read : readChild n 0 = .ok a := by
    rw [readChild, if_pos (some.trans_le fits), head]
  simp only [deleteChildren, deref_eq_ok.mpr present, bind, Except.bind, if_pos some, read, first,
    others]

/-- The first child is cut out and then the others are. -/
theorem CutOut.cleared {s₁ : FsState} {a : Ptr} {kids rest : Forest Ptr}
    (cut : CutOut s s₁ a kids p) (later : Cleared s₁ s' p (n.without a) rest)
    (notInside : p ∉ (cons a kids rest).labels)
    (apart : ∀ x ∈ rest.labels, x ∉ (cons a kids nil).labels) :
    Cleared s s' p n (cons a kids rest) where
  gone := by
    intro x inside
    by_cases inRest : x ∈ rest.labels
    · exact later.gone x inRest
    · have notParent : x ≠ p := fun same => notInside (same ▸ inside)
      have inFirst : x ∈ (cons a kids nil).labels :=
        mem_labels_tree.mpr ((mem_labels_cons.mp inside).imp_right fun either =>
          either.resolve_right inRest)
      exact (later.kept x notParent inRest).trans (cut.gone x inFirst)
  emptied := later.emptied
  kept := by
    intro x different notIn
    rw [mem_labels_cons, not_or, not_or] at notIn
    have notFirst : x ∉ (cons a kids nil).labels := by
      rw [mem_labels_tree, not_or]
      exact ⟨notIn.1, notIn.2.1⟩
    exact (later.kept x different notIn.2.2).trans (cut.kept x different notFirst)
  root := later.root.trans cut.root
  released := by
    have same : rest.labels.flatMap s₁.releases = rest.labels.flatMap s.releases := by
      refine List.flatMap_congr fun x inside => ?_
      have other : x ≠ p := by
        rintro rfl
        exact notInside (mem_labels_cons.mpr (.inr (.inr inside)))
      rw [FsState.releases, FsState.releases, cut.kept x other (apart x inside)]
    have both := cut.released.trans later.released
    rw [same, ← List.flatMap_append] at both
    simpa [labels] using both

/-- The loop empties a directory, by induction on the forest below it. -/
theorem deleteChildren_clears (F : Forest Ptr) :
    ∀ (s : FsState) (p : Ptr) (n : FsNode), s.nodes p = some n → p ≠ 0 →
    n.type = .dir → n.childCount ≤ 64 → n.childList = F.roots → TreeAt s p F →
    (p :: F.labels).Nodup → ∃ s', Returns (deleteChildren · s p) s' ∧ Cleared s s' p n F := by
  induction F with
  | nil =>
      intro s p n present nonnull isDir fits children tree unique
      have none : n.childCount = 0 := childList_eq_nil.mp children
      refine ⟨s, ⟨1, fun fuel enough => ?_⟩, .refl present none⟩
      obtain ⟨fuel, rfl⟩ : ∃ k, fuel = k + 1 := ⟨fuel - 1, by omega⟩
      have noChild : ¬ n.childCount > 0 := by omega
      simp only [deleteChildren, deref_eq_ok.mpr present, bind, Except.bind, if_neg noChild]
      rfl
  | cons a kids rest kidsIh restIh =>
      intro s p n present nonnull isDir fits children tree unique
      obtain ⟨notInside, inner⟩ := List.nodup_cons.mp unique
      obtain ⟨notKid, notRest, kidsUnique, restUnique, apart⟩ := nodup_cons.mp inner
      have first : TreeAt s p (cons a kids nil) := tree.below .here
      obtain ⟨firstUnique, firstOutside⟩ := At.nodup .here unique
      -- the first child
      obtain ⟨s₁, ⟨bound₁, returns₁⟩, cut⟩ :=
        fsDelete_cuts first firstUnique firstOutside (.inr ⟨n, present, isDir, fits⟩)
        fun k presentKid kidDir => by
          obtain ⟨kidNonnull, k', presentKid', ok⟩ := first.nodes a List.mem_cons_self
          obtain rfl := Option.some.inj (presentKid.symm.trans presentKid')
          have kidChildren : k.childList = kids.roots :=
            (kids_of presentKid).symm.trans first.spans.2.1
          exact kidsIh s a k presentKid kidNonnull kidDir ok.fits kidChildren first.kids
            (List.nodup_cons.mpr ⟨notKid, kidsUnique⟩)
      have children₁ : (n.without a).childList = rest.roots := by
        rw [childList_without, children, roots, List.erase_cons_head]
      -- the other children are untouched by it
      have others : ∀ x ∈ rest.labels, x ∉ (cons a kids nil).labels := by
        intro x inside inFirst
        cases mem_labels_tree.mp inFirst with
        | inl same => exact notRest (same ▸ inside)
        | inr inKids => exact apart x inKids inside
      have later : TreeAt s₁ p rest := by
        refine tree.rest.congr fun x inside => cut.kept x ?_ (others x inside)
        rintro rfl
        exact notInside (mem_labels_cons.mpr (.inr (.inr inside)))
      have laterUnique : (p :: rest.labels).Nodup := by
        refine List.nodup_cons.mpr ⟨fun inside => notInside ?_, restUnique⟩
        exact mem_labels_cons.mpr (.inr (.inr inside))
      obtain ⟨s₂, ⟨bound₂, returns₂⟩, cleared⟩ := restIh s₁ p (n.without a)
        (cut.parent n nonnull present) nonnull isDir
        ((childCount_without_le n a).trans fits) children₁ later laterUnique
      refine ⟨s₂, ⟨max bound₁ bound₂ + 1, fun fuel enough => ?_⟩,
        cut.cleared cleared notInside others⟩
      obtain ⟨fuel, rfl⟩ : ∃ k, fuel = k + 1 := ⟨fuel - 1, by omega⟩
      exact deleteChildren_succ present children fits (returns₁ fuel (by omega))
        (returns₂ fuel (by omega))

/-- `fs_delete` returns and cuts out the tree at `p`. -/
theorem fsDelete_spec (tree : TreeAt s q (cons p K nil)) (unique : (cons p K nil).labels.Nodup)
    (outside : q ∉ (cons p K nil).labels)
    (parent : q = 0 ∨ ∃ m, s.nodes q = some m ∧ m.type = .dir ∧ m.childCount ≤ 64) :
    ∃ s', Returns (fsDelete · s p) s' ∧ CutOut s s' p K q := by
  refine fsDelete_cuts tree unique outside parent fun n present isDir => ?_
  obtain ⟨nonnull, n', present', ok⟩ := tree.nodes p List.mem_cons_self
  obtain rfl := Option.some.inj (present.symm.trans present')
  have children : n.childList = K.roots := (kids_of present).symm.trans tree.spans.2.1
  obtain ⟨notKid, _, kidsUnique, _, _⟩ := nodup_cons.mp unique
  exact deleteChildren_clears K s p n present nonnull isDir ok.fits children tree.kids
    (List.nodup_cons.mpr ⟨notKid, kidsUnique⟩)

end AurorOS.Fs
