import AurorOS.Fs.Model
import AurorOS.Lib.Forest

/-! # The tree that the nodes spell out

A node's children are a list, of which removing a child erases one element.  A
state is well formed when children and parent pointers spell out a finite tree
without repetitions below the root.
-/

namespace AurorOS.Fs

open FsState Forest

variable {s s' : FsState} {n n' : FsNode} {p q x child dir block : Ptr} {i k : Nat}
  {K T : Forest Ptr}

def FsNode.childList (n : FsNode) : List Ptr := (List.range n.childCount).map n.children

@[simp] theorem length_childList (n : FsNode) : n.childList.length = n.childCount := by
  simp [FsNode.childList]

theorem getElem_childList (inside : i < n.childList.length) : n.childList[i] = n.children i := by
  simp [FsNode.childList]

theorem childList_eq_nil : n.childList = [] ↔ n.childCount = 0 := by
  rw [← List.length_eq_zero_iff, length_childList]

/-- `child` is among the first `i` elements of the array. -/
def FsNode.seen (n : FsNode) (child : Ptr) (i : Nat) : Bool :=
  (List.range i).any fun j => n.children j == child

theorem seen_succ (n : FsNode) (child : Ptr) (i : Nat) :
    n.seen child (i + 1) = (n.seen child i || n.children i == child) := by
  simp [FsNode.seen, List.range_succ]

/-- The node after `i` rounds of the loop of `fs_remove_child`. -/
def FsNode.shifted (n : FsNode) (child : Ptr) (i : Nat) : FsNode :=
  { n with children := fun k =>
      if k < i ∧ k + 1 < n.childCount ∧ n.seen child (k + 1) then n.children (k + 1)
        else n.children k }

/-- What `fs_remove_child` makes of the parent. -/
def FsNode.without (n : FsNode) (child : Ptr) : FsNode :=
  { n.shifted child n.childCount with
    childCount := if n.seen child n.childCount then n.childCount - 1 else n.childCount }

theorem removeLoop_eq (child : Ptr) (fits : n.childCount ≤ 64) {left : Nat}
    (rounds : i + left = n.childCount) :
    removeLoop child left i (n.seen child i) (n.shifted child i) =
      .ok (n.seen child n.childCount, n.shifted child n.childCount) := by
  induction left generalizing i with
  | zero =>
      obtain rfl : i = n.childCount := rounds
      rfl
  | succ left ih =>
      have here : readChild (n.shifted child i) i = .ok (n.children i) := by
        rw [readChild, if_pos (by omega)]
        simp [FsNode.shifted]
      have rest := ih (i := i + 1) (by omega)
      simp only [removeLoop, here, bind, Except.bind, ← seen_succ]
      by_cases shift : n.seen child (i + 1) = true ∧ i < (n.shifted child i).childCount - 1
      · have inside : i + 1 < n.childCount := by
          have below : i < n.childCount - 1 := shift.2
          omega
        have next : readChild (n.shifted child i) (i + 1) = .ok (n.children (i + 1)) := by
          rw [readChild, if_pos (by omega)]
          simp [FsNode.shifted]
        have moved : { n.shifted child i with
            children := Function.update (n.shifted child i).children i (n.children (i + 1)) } =
            n.shifted child (i + 1) := by
          simp only [FsNode.shifted, FsNode.mk.injEq, true_and, and_true]
          funext k
          by_cases same : k = i
          · subst same
            simp [inside, shift.1]
          · have bound : k < i + 1 ↔ k < i := by omega
            simp [same, bound]
        rw [if_pos shift, next]
        simp only
        rw [moved]
        exact rest
      · have stays : n.shifted child i = n.shifted child (i + 1) := by
          simp only [FsNode.shifted, FsNode.mk.injEq, true_and, and_true] at shift ⊢
          funext k
          by_cases same : k = i
          · subst same
            have last : ¬ (k + 1 < n.childCount ∧ n.seen child (k + 1) = true) :=
              fun both => shift ⟨both.2, by omega⟩
            simp [last]
          · have bound : k < i + 1 ↔ k < i := by omega
            simp [bound]
        rw [if_neg shift, stays]
        exact rest

theorem seen_iff (inside : i ≤ n.childCount) :
    n.seen child i = true ↔ child ∈ n.childList.take i := by
  rw [FsNode.childList, ← List.map_take, List.take_range, Nat.min_eq_left inside]
  simp [FsNode.seen]

theorem seen_all : n.seen child n.childCount = true ↔ child ∈ n.childList := by
  rw [seen_iff le_rfl, List.take_of_length_le (length_childList n).le]

theorem children_without (inside : k < n.childCount) : (n.without child).children k =
    if k + 1 < n.childCount ∧ n.seen child (k + 1) then n.children (k + 1) else n.children k := by
  simp [FsNode.without, FsNode.shifted, inside]

/-- Removing a child erases it from the list and keeps the order of the others. -/
theorem childList_without (n : FsNode) (child : Ptr) :
    (n.without child).childList = n.childList.erase child := by
  by_cases member : child ∈ n.childList
  · have found := seen_all.mpr member
    have count : (n.without child).childCount = n.childCount - 1 := if_pos found
    have below := List.idxOf_lt_length_of_mem member
    rw [length_childList] at below
    rw [List.erase_eq_eraseIdx_of_idxOf rfl]
    apply List.ext_getElem
    · rw [length_childList, count, List.length_eraseIdx, length_childList, if_pos below]
    · intro k inNew inOld
      rw [length_childList, count] at inNew
      have seen : n.seen child (k + 1) = true ↔ n.childList.idxOf child ≤ k := by
        rw [seen_iff (by omega), List.mem_take_iff_idxOf_lt member, Nat.lt_succ_iff]
      rw [getElem_childList, children_without (by omega), List.getElem_eraseIdx]
      by_cases later : n.childList.idxOf child ≤ k
      · rw [if_pos ⟨by omega, seen.mpr later⟩, dif_neg (by omega), getElem_childList]
      · rw [if_neg fun both => later (seen.mp both.2), dif_pos (by omega), getElem_childList]
  · have missing : n.seen child n.childCount = false :=
      Bool.eq_false_iff.mpr (mt seen_all.mp member)
    have count : (n.without child).childCount = n.childCount := if_neg (by simp [missing])
    rw [List.erase_of_not_mem member, FsNode.childList, FsNode.childList, count]
    apply List.map_congr_left
    intro k inside
    rw [List.mem_range] at inside
    have early : ¬ n.seen child (k + 1) = true := by
      intro seen
      exact member (List.mem_of_mem_take ((seen_iff (by omega)).mp seen))
    rw [children_without inside, if_neg fun both => early both.2]

theorem childCount_without_le (n : FsNode) (child : Ptr) :
    (n.without child).childCount ≤ n.childCount := by
  rw [← length_childList, ← length_childList, childList_without]
  exact List.length_erase_le

theorem seen_zero (n : FsNode) (child : Ptr) : n.seen child 0 = false := rfl

theorem shifted_zero (n : FsNode) (child : Ptr) : n.shifted child 0 = n := by
  simp [FsNode.shifted]

theorem fsRemoveChild_eq (present : s.nodes q = some n) (nonnull : q ≠ 0) (given : child ≠ 0)
    (isDir : n.type = .dir) (fits : n.childCount ≤ 64) :
    fsRemoveChild s q child = .ok (s.setNode q (n.without child)) := by
  have loop := removeLoop_eq child fits (Nat.zero_add n.childCount)
  rw [seen_zero, shifted_zero] at loop
  have dereferenced : s.deref q = .ok n := by rw [deref, present]
  rw [fsRemoveChild, if_neg (not_or.mpr ⟨nonnull, given⟩), dereferenced]
  simp only [bind, Except.bind, isDir, ne_eq, not_true_eq_false, if_false, loop]
  by_cases found : n.seen child n.childCount = true
  · simp only [found, if_true, FsNode.without]
    rfl
  · simp only [found, FsNode.without]
    rfl

/-- The children of the node at `p`. -/
def FsState.kids (s : FsState) (p : Ptr) : List Ptr :=
  match s.nodes p with
  | some n => n.childList
  | none => []

/-- The parent field of the node at `p`. -/
def FsState.parent (s : FsState) (p : Ptr) : Ptr :=
  match s.nodes p with
  | some n => n.parent
  | none => 0

/-- `x` is `p` or is reached from `p` by following children. -/
def FsState.Below (s : FsState) (p x : Ptr) : Prop :=
  Relation.ReflTransGen (fun a b => b ∈ s.kids a) p x

/-- `x` is reached from the root by following children. -/
def FsState.InTree (s : FsState) (x : Ptr) : Prop := s.Below s.fsRoot x

/-- A node in order on its own: the array has room for its children, a file has
    none, and a file has data exactly if it has a size. -/
structure NodeOk (n : FsNode) : Prop where
  fits : n.childCount ≤ 64
  leaf : n.type = .file → n.childCount = 0
  content : n.type = .file → (n.data = 0 ↔ n.size = 0)

/-- The nodes of `F` are live, in order and linked as in `F`, whose roots have
    parent `par`. -/
structure TreeAt (s : FsState) (par : Ptr) (F : Forest Ptr) : Prop where
  spans : Spans s.kids s.parent par F
  nodes : ∀ x ∈ F.labels, x ≠ 0 ∧ ∃ n, s.nodes x = some n ∧ NodeOk n

/-- Following children from the root gives a finite tree in which no node occurs
    twice, every node's parent field names the directory it is listed in, and the
    root's is `NULL`. -/
def WellFormed (s : FsState) : Prop :=
  ∃ K, TreeAt s 0 (cons s.fsRoot K nil) ∧ (cons s.fsRoot K nil).labels.Nodup

theorem kids_of (present : s.nodes p = some n) : s.kids p = n.childList := by
  rw [FsState.kids, present]

theorem parent_of (present : s.nodes p = some n) : s.parent p = n.parent := by
  rw [FsState.parent, present]

/-- An unchanged node has the same children and the same parent. -/
theorem links_of_same (same : s'.nodes x = s.nodes x) :
    s'.kids x = s.kids x ∧ s'.parent x = s.parent x := by
  rw [FsState.kids, FsState.parent, FsState.kids, FsState.parent, same]
  exact ⟨rfl, rfl⟩

namespace TreeAt

/-- A tree is the same where its nodes are. -/
theorem congr {par : Ptr} (tree : TreeAt s par T) (same : ∀ x ∈ T.labels, s'.nodes x = s.nodes x) :
    TreeAt s' par T where
  spans := tree.spans.congr fun x inside => links_of_same (same x inside)
  nodes := fun x inside => by
    rw [same x inside]
    exact tree.nodes x inside

theorem below {par : Ptr} (tree : TreeAt s par T) (position : At par T p K q) :
    TreeAt s q (cons p K nil) where
  spans := by
    obtain ⟨parent, children, spans⟩ := position.spans tree.spans
    exact ⟨parent, children, spans, trivial⟩
  nodes := by
    intro x inside
    cases mem_labels_tree.mp inside with
    | inl same => exact same ▸ tree.nodes p position.mem
    | inr inKids => exact tree.nodes x (position.kids_mem inKids)

theorem kids {par : Ptr} {rest : Forest Ptr} (tree : TreeAt s par (cons p K rest)) :
    TreeAt s p K where
  spans := tree.spans.2.2.1
  nodes := fun x inside => tree.nodes x (mem_labels_cons.mpr (.inr (.inl inside)))

theorem rest {par : Ptr} {rest : Forest Ptr} (tree : TreeAt s par (cons p K rest)) :
    TreeAt s par rest where
  spans := tree.spans.2.2.2
  nodes := fun x inside => tree.nodes x (mem_labels_cons.mpr (.inr (.inr inside)))

theorem mem_iff_below {par : Ptr} {rest : Forest Ptr} (tree : TreeAt s par (cons p K rest))
    (x : Ptr) :
    x ∈ (cons p K nil).labels ↔ s.Below p x :=
  tree.spans.2.2.1.mem_iff_descends tree.spans.2.1

end TreeAt

end AurorOS.Fs
