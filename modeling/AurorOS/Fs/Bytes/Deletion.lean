import AurorOS.Fs.Bytes.Refinement
import AurorOS.Fs.Prune

/-! # Deleting nodes in memory

`fs_remove_child` and the two deletions on the bytes of memory.  A directory gives `free`
the address of the array inside the node, and `free` takes the fields in front of the
array for the header of a block: `size` is its flag and `owner` its link to the next
block.  The deletions do what the abstract ones do as long as there is no free block where
an owner points.
-/

namespace AurorOS.Fs.Bytes

open ByteMemory Heap FsState Outcome

/-- The loop of `fs_remove_child` from index `i` on.  The index is below a counter of 32
    bits in every round, so that the budget of `2 ^ 32` rounds loses nothing. -/
def removeLoop (arch : Arch) (parent child : Ptr) :
    Nat → Nat → Bool → Mem → Except Fault (Bool × Mem)
  | 0, _, _, _ => .error .outOfFuel
  | left + 1, i, found, m =>
      let count := get arch m parent .childCount
      if i < count then
        let found := found || get arch m parent (.child i) == child
        if found ∧ i < count - 1 then
          removeLoop arch parent child left (i + 1) found
            (set arch m parent (.child i) (get arch m parent (.child (i + 1))))
        else removeLoop arch parent child left (i + 1) found m
      else .ok (found, m)

def fsRemoveChild (arch : Arch) (m : Mem) (parent child : Ptr) : Except Fault Mem :=
  if parent = 0 ∨ child = 0 ∨ get arch m parent .type ≠ typeCode .dir then .ok m
  else do
    let (found, m) ← removeLoop arch parent child (2 ^ 32) 0 false m
    return if found then set arch m parent .childCount (get arch m parent .childCount - 1) else m

mutual

/-- `emulated_fs_delete` within a budget of nested calls. -/
def emulatedFsDelete (L : Layout) : Nat → State → Ptr → Except Fault State
  | 0, _, _ => .error .outOfFuel
  | fuel + 1, h, node =>
      if node = 0 then .ok h
      else if get L.arch h.mem node .type = typeCode .dir then do
        let h ← emulatedDeleteLoop L fuel h node 0
        -- `free(node->children)`, an address inside the node
        let h := Heap.free L h (node + NodeField.offset L.arch (.child 0))
        let h := { h with mem := set L.arch h.mem node .childCount 0 }
        return Heap.free L h node
      else if get L.arch h.mem node .type = typeCode .file then
        let h := Heap.free L h (get L.arch h.mem node .data)
        let h := { h with mem := set L.arch h.mem node .data 0 }
        .ok (Heap.free L h node)
      else .ok (Heap.free L h node)

/-- Its loop over the children from index `i` on. -/
def emulatedDeleteLoop (L : Layout) : Nat → State → Ptr → Nat → Except Fault State
  | 0, _, _, _ => .error .outOfFuel
  | fuel + 1, h, node, i =>
      if i < get L.arch h.mem node .childCount then do
        let h ← emulatedFsDelete L fuel h (get L.arch h.mem node (.child i))
        emulatedDeleteLoop L fuel h node (i + 1)
      else .ok h

end

mutual

/-- `fs_delete` within a budget of nested calls and loop rounds. -/
def fsDelete (L : Layout) : Nat → State → Ptr → Except Fault State
  | 0, _, _ => .error .outOfFuel
  | fuel + 1, h, node =>
      if node = 0 then .ok h
      else do
        let h ← if get L.arch h.mem node .type = typeCode .dir then deleteChildren L fuel h node
          else .ok h
        let m ← if get L.arch h.mem node .parent ≠ 0 then
            fsRemoveChild L.arch h.mem (get L.arch h.mem node .parent) node
          else .ok h.mem
        emulatedFsDelete L fuel { h with mem := m } node

/-- `while (node->child_count > 0) fs_delete(node->children[0]);` -/
def deleteChildren (L : Layout) : Nat → State → Ptr → Except Fault State
  | 0, _, _ => .error .outOfFuel
  | fuel + 1, h, node =>
      if get L.arch h.mem node .childCount > 0 then do
        let h ← fsDelete L fuel h (get L.arch h.mem node (.child 0))
        deleteChildren L fuel h node
      else .ok h

end

/-- `free(node->children)` finds no block behind the node, or one outside the heap that is
    in use. -/
def Harmless (L : Layout) (m : Mem) (owner : UInt64) : Prop :=
  strayNext L.arch owner = 0 ∨
    L.Apart (strayNext L.arch owner) (sizeofMemoryBlock L.arch) ∧
      Heap.get L.arch m (strayNext L.arch owner) .free = 0

/-- Memory has the file system, and the heap has given out nothing else. -/
structure Holds (L : Layout) (h : State) (held : List Allocation) (s : FsState) : Prop where
  rep : Represents L h held s
  exact : ∀ a ∈ held, (∃ n, s.nodes a.ptr = some n ∧ a.size = sizeofNode L.arch) ∨
    ∃ bytes, s.bufs a.ptr = some bytes ∧ a.size = bytes.length

/-- A deletion that leads to `s'` does no harm to the heap. -/
structure Deletable (L : Layout) (h : State) (held : List Allocation) (s s' : FsState) : Prop where
  holds : Holds L h held s
  files : FilesOk s
  bare : ∀ p n, s.nodes p = some n → n.type = .dir → n.data = 0 ∧ n.size = 0
  harmless : ∀ p n, s.nodes p = some n → n.type = .dir → s'.nodes p = none →
    Harmless L h.mem n.owner

/-- The call returns with memory that has the new state and is as it was outside the heap. -/
def Follows (L : Layout) (h : State) (call : Except Fault State) (s' : FsState) : Prop :=
  ∃ h' held', call = .ok h' ∧ Holds L h' held' s' ∧ ∀ x, L.Outside x → h'.mem x = h.mem x

/-- The header that `free(node->children)` sees. -/
def strayBlock (arch : Arch) (node : Nat) : Nat :=
  node + NodeField.offset arch (.child 0) - sizeofMemoryBlock arch

variable {L : Layout} {arch : Arch} {h h' : State} {held : List Allocation} {s s' s₁ : FsState}
  {m m' : Mem} {n n' : FsNode} {p q node parent child : Ptr} {bytes : List UInt8} {owner : UInt64}
  {fuel i left : Nat} {found found' : Bool}

/-- Words of four bytes in a word of eight. -/
theorem load_upper (m : Mem) (a : Nat) : load m (a + 4) 4 = load m a 8 / 2 ^ 32 := by
  have bounds := load_lt m a 4
  simp only [load, Nat.add_assoc] at bounds ⊢
  norm_num at bounds ⊢
  omega

theorem strayBlock_flag (arch : Arch) (m : Mem) (node : Ptr) :
    Heap.get arch m (strayBlock arch node) .free = get arch m node .size := by
  cases arch <;> simp [Heap.get, get, strayBlock, NodeField.offset, NodeField.width, Field.offset,
    Field.width, sizeofMemoryBlock, Arch.wordBytes]

theorem strayBlock_prev (arch : Arch) (m : Mem) (node : Ptr) :
    Heap.get arch m (strayBlock arch node) .prev = get arch m node .data := by
  cases arch <;> simp [Heap.get, get, strayBlock, NodeField.offset, NodeField.width, Field.offset,
    Field.width, sizeofMemoryBlock, Arch.wordBytes]

theorem strayBlock_next (m : Mem) (node : Ptr) (whose : get arch m node .owner = owner.toNat) :
    Heap.get arch m (strayBlock arch node) .next = strayNext arch owner := by
  cases arch with
  | x86 =>
      rw [strayNext, ← whose]
      simp only [Heap.get, get, strayBlock, NodeField.offset, NodeField.width, Field.offset,
        Field.width, sizeofMemoryBlock, Arch.wordBytes]
      exact load_upper m (node + 44)
  | x86_64 =>
      rw [strayNext, ← whose]
      rfl

theorem strayBlock_raise (arch : Arch) (m : Mem) (node : Ptr) :
    Heap.set arch m (strayBlock arch node) .free 1 = set arch m node .size 1 := by
  cases arch <;> simp [Heap.set, set, strayBlock, NodeField.offset, NodeField.width, Field.offset,
    Field.width, sizeofMemoryBlock, Arch.wordBytes]

theorem strayBlock_inside (arch : Arch) (p : Nat) :
    p ≤ strayBlock arch p ∧ strayBlock arch p + sizeofMemoryBlock arch ≤ p + sizeofNode arch := by
  have room : sizeofMemoryBlock arch ≤ NodeField.offset arch (.child 0) ∧
      NodeField.offset arch (.child 0) < sizeofNode arch := by
    cases arch <;> decide
  rw [strayBlock]
  omega

/-- When the flag of the false header has been set, its links are the owner and the data. -/
theorem raised_next {p : Nat} (at_ : NodeAt arch m p n) :
    Heap.get arch (set arch m p .size 1) (strayBlock arch p) .next = strayNext arch n.owner := by
  refine strayBlock_next _ p ?_
  rw [@get_set_of_ne arch m p .size .owner 1 trivial trivial (by decide)]
  exact at_.fields .owner trivial

theorem raised_prev {p : Nat} (at_ : NodeAt arch m p n) (bare : n.data = 0) :
    Heap.get arch (set arch m p .size 1) (strayBlock arch p) .prev = 0 := by
  rw [strayBlock_prev, @get_set_of_ne arch m p .size .data 1 trivial trivial (by decide)]
  exact (at_.fields .data trivial).trans bare

/-- `free(node->children)` takes the block for one in use: it sets the flag and merges. -/
theorem free_inside_eq {p : Nat} (ready : h.memoryAlreadyInitialized = true)
    (at_ : NodeAt L.arch h.mem p n) (fits : p + sizeofNode L.arch ≤ L.arch.wordSize)
    (bare : n.size = 0) :
    Heap.free L h (p + NodeField.offset L.arch (.child 0)) =
    { h with
      mem := mergePrev L.arch
        (mergeNext L.arch (set L.arch h.mem p .size 1) (strayBlock L.arch p))
        (strayBlock L.arch p) } := by
  have room : sizeofMemoryBlock L.arch ≤ NodeField.offset L.arch (.child 0) ∧
      NodeField.offset L.arch (.child 0) < sizeofNode L.arch := by
    cases L.arch <;> decide
  have size_pos := sizeofMemoryBlock_pos L.arch
  have block : L.arch.sub (p + NodeField.offset L.arch (.child 0)) (sizeofMemoryBlock L.arch) =
      strayBlock L.arch p :=
    Arch.sub_eq (by omega) (room.1.trans (Nat.le_add_left _ p))
  have notNull : p + NodeField.offset L.arch (.child 0) ≠ 0 := by omega
  have flag : Heap.get L.arch h.mem (strayBlock L.arch p) .free = 0 :=
    (strayBlock_flag ..).trans ((at_.fields .size trivial).trans bare)
  rw [Heap.free, if_neg (not_or.mpr ⟨notNull, by rw [ready]; exact Bool.noConfusion⟩)]
  dsimp only
  rw [block, if_neg (not_not.mpr flag), strayBlock_raise]

/-- `free(node->children)` of a directory whose owner does no harm: the node has a size
    afterwards. -/
theorem free_inside {p : Nat} (ready : h.memoryAlreadyInitialized = true)
    (at_ : NodeAt L.arch h.mem p n) (fits : p + sizeofNode L.arch ≤ L.arch.wordSize)
    (bare : n.data = 0 ∧ n.size = 0)
    (inPool : ∀ x, p ≤ x → x < p + sizeofNode L.arch → ¬ L.Outside x)
    (harmless : Harmless L h.mem n.owner) :
    Heap.free L h (p + NodeField.offset L.arch (.child 0)) =
    { h with mem := set L.arch h.mem p .size 1 } := by
  -- neither of the two merges happens
  have behind : mergeNext L.arch (set L.arch h.mem p .size 1) (strayBlock L.arch p) =
      set L.arch h.mem p .size 1 := by
    rw [mergeNext, if_neg]
    rw [raised_next at_]
    rintro ⟨linked, isFree⟩
    obtain ⟨apart, inUse⟩ := harmless.resolve_left linked
    refine isFree ((Heap.get_congr .free fun x above below => ?_).trans inUse)
    refine set_changesIn (f := .size) trivial x ?_
    by_contra inside
    refine inPool x (by omega) (by omega) ?_
    rw [Layout.Apart] at apart
    rw [Layout.Outside]
    omega
  have front : mergePrev L.arch (set L.arch h.mem p .size 1) (strayBlock L.arch p) =
      set L.arch h.mem p .size 1 := by
    rw [mergePrev, if_neg fun both => both.1 (raised_prev at_ bare.1)]
  rw [free_inside_eq ready at_ fits bare.2, behind, front]

/-- The maps of nodes and of data are all that is represented. -/
theorem Represents.of_maps (rep : Represents L h held s) (nodes : s'.nodes = s.nodes)
    (bufs : s'.bufs = s.bufs) :
    Represents L h held s' where
  heap := rep.heap
  nodes := by
    intro p n present
    rw [nodes] at present
    exact rep.nodes p n present
  bufs := by
    intro q bytes present
    rw [bufs] at present
    exact rep.bufs q bytes present
  apart := by
    intro p n present
    rw [nodes] at present
    rw [bufs]
    exact rep.apart p n present

theorem nodes_freeNode_self (s : FsState) (p : Ptr) : (s.freeNode p).nodes p = none :=
  Function.update_self ..

theorem nodes_freeNode_of_ne (s : FsState) (other : q ≠ p) : (s.freeNode p).nodes q = s.nodes q :=
  Function.update_of_ne other _ _

/-- `free` of a node. -/
theorem Represents.freeNode (rep : Represents L h held s) (present : s.nodes p = some n) :
    Represents L (Heap.free L h p) (held.erase ⟨p, sizeofNode L.arch⟩) (s.freeNode p) ∧
      ∀ x, L.Outside x → (Heap.free L h p).mem x = h.mem x := by
  obtain ⟨bs, inv⟩ := rep.heap
  obtain ⟨inv', same⟩ := inv.free_returns (rep.nodes p n present).1
  have left : ∀ x m, (s.freeNode p).nodes x = some m → x ≠ p ∧ s.nodes x = some m := by
    intro x m here
    have other : x ≠ p := by
      rintro rfl
      cases (nodes_freeNode_self s x).symm.trans here
    exact ⟨other, (nodes_freeNode_of_ne s other).symm.trans here⟩
  refine ⟨⟨inv', ?_, ?_, ?_⟩, same.outside⟩
  · intro x m here
    obtain ⟨other, here⟩ := left x m here
    obtain ⟨member, node⟩ := rep.nodes x m here
    have apart : (⟨x, sizeofNode L.arch⟩ : Allocation) ≠ ⟨p, sizeofNode L.arch⟩ :=
      fun equal => other (congrArg Allocation.ptr equal)
    have kept := (List.mem_erase_of_ne apart).mpr member
    exact ⟨kept, node.congr (same.held _ kept)⟩
  · intro q bytes here
    have other : q ≠ p := by
      rintro rfl
      cases (rep.apart q n present).symm.trans here
    obtain ⟨member, holds⟩ := rep.bufs q bytes here
    have apart : (⟨q, bytes.length⟩ : Allocation) ≠ ⟨p, sizeofNode L.arch⟩ :=
      fun equal => other (congrArg Allocation.ptr equal)
    have kept := (List.mem_erase_of_ne apart).mpr member
    exact ⟨kept, (bytesAt_congr (same.held _ kept)).trans holds⟩
  · intro x m here
    exact rep.apart x m (left x m here).2

namespace Holds

variable (holds : Holds L h held s)

include holds

theorem of_maps (nodes : s'.nodes = s.nodes) (bufs : s'.bufs = s.bufs) : Holds L h held s' where
  rep := holds.rep.of_maps nodes bufs
  exact := by
    rw [nodes, bufs]
    exact holds.exact

/-- A field of a node is set. -/
theorem childCount (present : s.nodes p = some n) :
    get L.arch h.mem p .childCount = n.childCount :=
  (holds.rep.nodes p n present).2.fields .childCount trivial

theorem childAt (present : s.nodes p = some n) (inArray : i < 64) :
    get L.arch h.mem p (.child i) = n.children i :=
  (holds.rep.nodes p n present).2.fields (.child i) inArray

theorem setField {f : NodeField} {v : Nat} (atP : s.nodes p = some n) (inStruct : f.InStruct)
    (fits : v < 256 ^ f.width L.arch) (code : f = .type → ∃ type, v = typeCode type) :
    Holds L { h with mem := Bytes.set L.arch h.mem p f v } held (s.setNode p (putField n f v)) where
  rep := holds.rep.setField atP inStruct fits code
  exact := by
    intro a member
    refine (holds.exact a member).imp_left fun ⟨n', present, size⟩ => ?_
    by_cases same : a.ptr = p
    · rw [same, nodes_setNode_self]
      exact ⟨_, rfl, size⟩
    · rw [nodes_setNode_of_ne _ _ same]
      exact ⟨n', present, size⟩

/-- An allocation that has been taken out leaves none at its address. -/
theorem erase_other {a c : Allocation} (member : c ∈ held) (rest : a ∈ held.erase c) :
    a.ptr ≠ c.ptr := by
  obtain ⟨bs, inv⟩ := holds.rep.heap
  have first : Heap.Inv L ⟨h, c :: held.erase c⟩ bs :=
    ⟨inv.ready, inv.seg, inv.laid, inv.first, inv.separate,
      (List.perm_cons_erase member).symm.trans inv.held,
      fun x inside => inv.sized x ((List.perm_cons_erase member).mem_iff.mpr inside)⟩
  have apart := first.newest_apart rest
  have sizeA := inv.sized a (List.mem_of_mem_erase rest)
  have sizeC := inv.sized c member
  omega

/-- `free` of a node. -/
theorem freeNode (present : s.nodes p = some n) :
    Holds L (Heap.free L h p) (held.erase ⟨p, sizeofNode L.arch⟩) (s.freeNode p) ∧
      ∀ x, L.Outside x → (Heap.free L h p).mem x = h.mem x := by
  obtain ⟨rep', outside⟩ := holds.rep.freeNode present
  refine ⟨⟨rep', fun a rest => ?_⟩, outside⟩
  have other := holds.erase_other (holds.rep.nodes p n present).1 rest
  rw [nodes_freeNode_of_ne s other]
  exact holds.exact a (List.mem_of_mem_erase rest)

/-- `free` of the data of a file, which may be `NULL`. -/
theorem freeData (files : FilesOk s) (present : s.nodes p = some n) (isFile : n.type = .file) :
    ∃ held', Holds L (Heap.free L h n.data) held' (s.freeData n.data) ∧
      ∀ x, L.Outside x → (Heap.free L h n.data).mem x = h.mem x := by
  by_cases null : n.data = 0
  · have nothing : s.bufs 0 = none := by
      cases here : s.bufs 0 with
      | none => rfl
      | some bytes =>
          obtain ⟨_, inv⟩ := holds.rep.heap
          exact absurd (inv.inside (holds.rep.bufs 0 bytes here).1).1 (Nat.not_lt_zero _)
    have same : (s.freeData 0).bufs = s.bufs := by
      rw [FsState.freeData, ← nothing]
      exact Function.update_eq_self 0 s.bufs
    have unchanged : Heap.free L h 0 = h := if_pos (.inl rfl)
    rw [null, unchanged]
    exact ⟨held, holds.of_maps rfl same, fun _ _ => rfl⟩
  · have hasSize : n.size ≠ 0 := mt (files.content p n present isFile).mpr null
    obtain ⟨bytes, stored, _⟩ := files.stored p n present isFile hasSize
    obtain ⟨rep', outside⟩ := holds.rep.free stored
    refine ⟨_, ⟨rep', fun a rest => ?_⟩, outside⟩
    have other := holds.erase_other (holds.rep.bufs n.data bytes stored).1 rest
    rw [s.bufs_freeData_of_ne other]
    exact holds.exact a (List.mem_of_mem_erase rest)

end Holds

theorem typeCode_eq_iff {type type' : NodeType} :
    typeCode type = typeCode type' ↔ type = type' := by
  cases type <;> cases type' <;> decide

/-- The loop writes the children that the abstract one writes. -/
theorem Holds.removeLoop {budget : Nat} (holds : Holds L h held s)
    (present : s.nodes parent = some n)
    (looped : Fs.removeLoop child left i found n = .ok (found', n'))
    (count : i + left = n.childCount) (enough : left < budget) :
    ∃ m', Bytes.removeLoop L.arch parent child budget i found h.mem = .ok (found', m') ∧
      Holds L { h with mem := m' } held (s.setNode parent n') ∧ ∀ x, L.Outside x →
      m' x = h.mem x := by
  induction left generalizing i found n h s budget with
  | zero =>
      obtain ⟨budget, rfl⟩ : ∃ k, budget = k + 1 := ⟨budget - 1, by omega⟩
      obtain ⟨rfl, rfl⟩ := Prod.mk.inj (Except.ok.inj looped)
      have stored : get L.arch h.mem parent .childCount = n.childCount :=
        (holds.rep.nodes parent n present).2.fields .childCount trivial
      have unchanged : (s.setNode parent n).nodes = s.nodes := by
        rw [FsState.setNode, ← present]
        exact Function.update_eq_self parent s.nodes
      refine ⟨h.mem, ?_, holds.of_maps unchanged rfl, fun _ _ => rfl⟩
      rw [Bytes.removeLoop, if_neg (by omega)]
  | succ left ih =>
      obtain ⟨budget, rfl⟩ : ∃ k, budget = k + 1 := ⟨budget - 1, by omega⟩
      obtain ⟨_, node⟩ := holds.rep.nodes parent n present
      rw [Fs.removeLoop] at looped
      obtain ⟨c, read, looped⟩ := bind_eq_ok.mp looped
      obtain ⟨inArray, rfl⟩ := readChild_eq_ok.mp read
      have stored : get L.arch h.mem parent .childCount = n.childCount :=
        node.fields .childCount trivial
      have first : get L.arch h.mem parent (.child i) = n.children i :=
        node.fields (.child i) inArray
      rw [Bytes.removeLoop, stored, first, if_pos (by omega)]
      dsimp only at looped ⊢
      by_cases moves : (found || n.children i == child) = true ∧ i < n.childCount - 1
      · rw [if_pos moves] at looped ⊢
        obtain ⟨next, readNext, looped⟩ := bind_eq_ok.mp looped
        obtain ⟨nextInArray, rfl⟩ := readChild_eq_ok.mp readNext
        have second : get L.arch h.mem parent (.child (i + 1)) = n.children (i + 1) :=
          node.fields (.child (i + 1)) nextInArray
        have fits : n.children (i + 1) < 256 ^ NodeField.width L.arch (.child i) := by
          rw [← second]
          exact load_lt h.mem _ _
        have moved := holds.setField (f := .child i) present inArray fits fun same => by cases same
        have left' : i + 1 + left = n.childCount := by omega
        obtain ⟨m', value, holds', outside⟩ := @ih _ _ (putField n (.child i) (n.children (i + 1)))
          (i + 1)
          (found || n.children i == child) budget moved (nodes_setNode_self ..) looped left'
            (by omega)
        rw [setNode_setNode] at holds'
        rw [second]
        refine ⟨m', value, holds', fun x apart => ?_⟩
        exact (outside x apart).trans (holds.rep.set_outside (f := .child i) present inArray apart)
      · rw [if_neg moves] at looped ⊢
        exact ih holds present looped (by omega) (by omega)

theorem Holds.fsRemoveChild (holds : Holds L h held s)
    (removed : Fs.fsRemoveChild s parent child = .ok s') :
    ∃ m', Bytes.fsRemoveChild L.arch h.mem parent child = .ok m' ∧
    Holds L { h with mem := m' } held s' ∧ ∀ x, L.Outside x → m' x = h.mem x := by
  rw [Fs.fsRemoveChild] at removed
  rw [Bytes.fsRemoveChild]
  by_cases null : parent = 0 ∨ child = 0
  · rw [if_pos null] at removed
    obtain rfl := pure_eq_ok.mp removed
    have skip : parent = 0 ∨ child = 0 ∨ get L.arch h.mem parent .type ≠ typeCode .dir :=
      null.elim .inl fun other => .inr (.inl other)
    rw [if_pos skip]
    exact ⟨h.mem, rfl, holds, fun _ _ => rfl⟩
  rw [if_neg null] at removed
  rw [not_or] at null
  obtain ⟨n, present, removed⟩ := bind_eq_ok.mp removed
  rw [deref_eq_ok] at present
  obtain ⟨_, node⟩ := holds.rep.nodes parent n present
  have code : get L.arch h.mem parent .type = typeCode n.type := node.fields .type trivial
  rw [code]
  by_cases isDir : n.type = .dir
  · rw [if_neg (not_not.mpr isDir)] at removed
    obtain ⟨⟨found, n'⟩, looped, removed⟩ := bind_eq_ok.mp removed
    obtain rfl := pure_eq_ok.mp removed
    have small : n.childCount < 2 ^ 32 := by
      have stored : get L.arch h.mem parent .childCount = n.childCount :=
        node.fields .childCount trivial
      rw [← stored]
      exact load_lt h.mem _ 4
    obtain ⟨m', value, holds', outside⟩ := holds.removeLoop present looped (Nat.zero_add _) small
    have same := removeLoop_fields child n.childCount looped
    have kept : n'.childCount = n.childCount := by rw [same]
    have skip : ¬ (parent = 0 ∨ child = 0 ∨ typeCode n.type ≠ typeCode .dir) := by
      rw [isDir]
      rintro (first | second | third)
      · exact null.1 first
      · exact null.2 second
      · exact third rfl
    rw [if_neg skip, bind_of_ok value]
    have present' := nodes_setNode_self s parent n'
    have stored' : get L.arch m' parent .childCount = n'.childCount :=
      (holds'.rep.nodes parent n' present').2.fields .childCount trivial
    cases found with
    | false => exact ⟨m', rfl, holds', outside⟩
    | true =>
        have counted := holds'.setField (f := .childCount) (v := n'.childCount - 1) present' trivial
          (by simp only [NodeField.width]; omega) fun same => by cases same
        rw [setNode_setNode] at counted
        refine ⟨_, rfl, ?_, fun x apart => ?_⟩
        · rw [if_pos rfl, stored']
          exact counted
        · rw [if_pos rfl]
          exact (holds'.rep.set_outside (f := .childCount) present' trivial apart).trans
            (outside x apart)
  · rw [if_pos isDir] at removed
    obtain rfl := pure_eq_ok.mp removed
    have skip : parent = 0 ∨ child = 0 ∨ typeCode n.type ≠ typeCode .dir :=
      .inr (.inr (mt typeCode_eq_iff.mp isDir))
    rw [if_pos skip]
    exact ⟨h.mem, rfl, holds, fun _ _ => rfl⟩

/-- The files that are left keep their data. -/
theorem pruned_filesOk (pruned : Pruned s s') (files : FilesOk s) : FilesOk s' where
  content := by
    intro x n' present isFile
    obtain ⟨n, here, fields⟩ := pruned.nodes x n' present
    rw [fields] at isFile ⊢
    exact files.content x n here isFile
  stored := by
    intro x n' present isFile hasSize
    obtain ⟨n, here, fields⟩ := pruned.nodes x n' present
    rw [fields] at isFile hasSize ⊢
    obtain ⟨bytes, live, length⟩ := files.stored x n here isFile hasSize
    refine ⟨bytes, ?_, length⟩
    rcases pruned.bufs n.data with same | ⟨y, m, there, gone, isFile', shared⟩
    · rw [same, live]
    · obtain rfl := files.apart x y n m here there isFile isFile' hasSize shared.symm
      cases gone.symm.trans present
  apart := by
    intro x y m' n' atX atY fileX fileY hasSize shared
    obtain ⟨m, hereX, fieldsX⟩ := pruned.nodes x m' atX
    obtain ⟨n, hereY, fieldsY⟩ := pruned.nodes y n' atY
    rw [fieldsX] at fileX hasSize shared
    rw [fieldsY] at fileY shared
    exact files.apart x y m n hereX hereY fileX fileY hasSize shared

/-- The block where an owner points is not in the heap. -/
theorem Harmless.congr (harmless : Harmless L m owner) (same : ∀ x, L.Outside x → m' x = m x) :
    Harmless L m' owner := by
  refine harmless.imp_right fun ⟨apart, inUse⟩ => ⟨apart, ?_⟩
  refine (Heap.get_congr .free fun x above below => same x ?_).trans inUse
  rw [Layout.Apart] at apart
  rw [Layout.Outside]
  omega

theorem pruned_gone (pruned : Pruned s s') (gone : s.nodes p = none) : s'.nodes p = none := by
  cases here : s'.nodes p with
  | none => rfl
  | some n' =>
      obtain ⟨n, present, _⟩ := pruned.nodes p n' here
      cases gone.symm.trans present

theorem Holds.follows (holds : Holds L h held s) : Follows L h (.ok h) s :=
  ⟨h, held, rfl, holds, fun _ _ => rfl⟩

theorem Follows.of_outside {call : Except Fault State} (follows : Follows L h' call s')
    (outside : ∀ x, L.Outside x → h'.mem x = h.mem x) : Follows L h call s' := by
  obtain ⟨h₂, held, value, holds, outside'⟩ := follows
  exact ⟨h₂, held, value, holds, fun x apart => (outside' x apart).trans (outside x apart)⟩

namespace Deletable

/-- A deletion may be stopped early. -/
theorem first {s₁ : FsState} (deletable : Deletable L h held s s') (later : Pruned s₁ s') :
    Deletable L h held s s₁ where
  holds := deletable.holds
  files := deletable.files
  bare := deletable.bare
  harmless :=
    fun p n present isDir gone => deletable.harmless p n present isDir (pruned_gone later gone)

/-- What is left of it may be done from where it was stopped. -/
theorem rest {held' : List Allocation} (deletable : Deletable L h held s s') (pruned : Pruned s s₁)
    (holds' : Holds L h' held' s₁) (outside : ∀ x, L.Outside x → h'.mem x = h.mem x) :
    Deletable L h' held' s₁ s' where
  holds := holds'
  files := pruned_filesOk pruned deletable.files
  bare := by
    intro p n' present isDir
    obtain ⟨n, here, fields⟩ := pruned.nodes p n' present
    rw [fields] at isDir ⊢
    exact deletable.bare p n here isDir
  harmless := by
    intro p n' present isDir gone
    obtain ⟨n, here, fields⟩ := pruned.nodes p n' present
    rw [fields] at isDir ⊢
    exact (deletable.harmless p n here isDir gone).congr outside

/-- A call that is followed by another: what is left of the deletion is done from where the first
    one has led to. -/
theorem follows_bind {call : Except Fault State} {onward : State → Except Fault State}
    (deletable : Deletable L h held s s') (pruned : Pruned s s₁) (first : Follows L h call s₁)
    (second : ∀ h₁ held₁, Deletable L h₁ held₁ s₁ s' → Follows L h₁ (onward h₁) s') :
    Follows L h (call >>= onward) s' := by
  obtain ⟨h₁, held₁, value, holds₁, outside₁⟩ := first
  rw [bind_of_ok value]
  exact (second h₁ held₁ (deletable.rest pruned holds₁ outside₁)).of_outside outside₁

variable (deletable : Deletable L h held s s')

include deletable

theorem code (present : s.nodes p = some n) : get L.arch h.mem p .type = typeCode n.type :=
  (deletable.holds.rep.nodes p n present).2.fields .type trivial

/-- The end of `emulated_fs_delete` for a directory. -/
theorem freeDir {p : Nat} (present : s.nodes p = some n) (isDir : n.type = .dir)
    (gone : s'.nodes p = none) :
    let inside := Heap.free L h (p + NodeField.offset L.arch (.child 0))
    Follows L h (.ok (Heap.free L { inside with mem := set L.arch inside.mem p .childCount 0 } p))
      (((s.freeChildren p).setNode p { n with childCount := 0 }).freeNode p) := by
  obtain ⟨_, inv⟩ := deletable.holds.rep.heap
  obtain ⟨member, node⟩ := deletable.holds.rep.nodes p n present
  have range := inv.inside member
  have poolFits := L.poolFits
  dsimp only at range
  have inPool : ∀ x, p ≤ x → x < p + sizeofNode L.arch → ¬ L.Outside x := by
    intro x above below
    rw [Layout.Outside]
    omega
  have stray := free_inside inv.ready node (by omega) (deletable.bare p n present isDir) inPool
    (deletable.harmless p n present isDir gone)
  dsimp only
  rw [stray]
  have sized := deletable.holds.setField (f := .size) (v := 1) present trivial
    (by norm_num [NodeField.width])
    fun same => by cases same
  have present₁ := nodes_setNode_self s p (putField n .size 1)
  have counted := sized.setField (f := .childCount) (v := 0) present₁ trivial (by positivity)
    fun same => by cases same
  rw [setNode_setNode] at counted
  obtain ⟨freed, outside⟩ := counted.freeNode (nodes_setNode_self ..)
  refine ⟨_, _, rfl, freed.of_maps ?_ rfl, fun x apart => ?_⟩
  · simp only [FsState.freeNode, setNode, freeChildren, Function.update_idem]
  · rw [outside x apart]
    exact (sized.rep.set_outside (f := .childCount) present₁ trivial apart).trans
      (deletable.holds.rep.set_outside (f := .size) present trivial apart)

/-- And for a file. -/
theorem freeFile (present : s.nodes p = some n) (isFile : n.type = .file) :
    let freed := Heap.free L h (get L.arch h.mem p .data)
    Follows L h (.ok (Heap.free L { freed with mem := set L.arch freed.mem p .data 0 } p))
      (((s.freeData n.data).setNode p { n with data := 0 }).freeNode p) := by
  have data : get L.arch h.mem p .data = n.data :=
    (deletable.holds.rep.nodes p n present).2.fields .data trivial
  dsimp only
  rw [data]
  obtain ⟨held', released, outside₁⟩ := deletable.holds.freeData deletable.files present isFile
  have present₁ : (s.freeData n.data).nodes p = some n := present
  have cleared := released.setField (f := .data) (v := 0) present₁ trivial (by positivity)
    fun same => by cases same
  obtain ⟨freed, outside₂⟩ := cleared.freeNode (nodes_setNode_self ..)
  refine ⟨_, _, rfl, freed, fun x apart => ?_⟩
  rw [outside₂ x apart]
  exact (released.rep.set_outside (f := .data) present₁ trivial apart).trans (outside₁ x apart)

end Deletable

/-- `emulated_fs_delete` and its loop, by induction on the budget. -/
theorem emulatedFsDelete_follows (fuel : Nat) :
    (∀ h held s p s', Deletable L h held s s' → Fs.emulatedFsDelete fuel s p = .ok s' →
      Follows L h (Bytes.emulatedFsDelete L fuel h p) s') ∧
    ∀ h held s p i s', Deletable L h held s s' → Fs.emulatedDeleteLoop fuel s p i = .ok s' →
      Follows L h (Bytes.emulatedDeleteLoop L fuel h p i) s' := by
  induction fuel with
  | zero =>
      refine ⟨fun h held s p s' _ returned => ?_, fun h held s p i s' _ returned => ?_⟩
      · cases returned
      · cases returned
  | succ fuel ih =>
      have prunes := elementary_pruned.emulatedFsDelete fuel
      refine ⟨?_, ?_⟩
      · intro h held s p s' deletable returned
        rw [Fs.emulatedFsDelete] at returned
        rw [Bytes.emulatedFsDelete]
        by_cases null : p = 0
        · rw [if_pos null] at returned ⊢
          obtain rfl := Except.ok.inj returned
          exact deletable.holds.follows
        rw [if_neg null] at returned ⊢
        obtain ⟨n, present, returned⟩ := bind_eq_ok.mp returned
        rw [deref_eq_ok] at present
        rw [deletable.code present]
        cases type : n.type with
        | dir =>
            simp only [type] at returned
            obtain ⟨s₁, loop, returned⟩ := bind_eq_ok.mp returned
            obtain ⟨n₁, present₁, returned⟩ := bind_eq_ok.mp returned
            rw [deref_eq_ok] at present₁
            obtain rfl := pure_eq_ok.mp returned
            have pruned := prunes.2 s p 0 s₁ loop
            have isDir : n₁.type = .dir := by rw [pruned.type_eq present present₁, type]
            have children := ih.2 h held s p 0 s₁ (deletable.first (.freeDir s₁ p n₁)) loop
            rw [if_pos rfl]
            exact deletable.follows_bind pruned children fun h₁ held₁ deletable₁ =>
              deletable₁.freeDir present₁ isDir (nodes_freeNode_self _ p)
        | file =>
            simp only [type] at returned
            obtain rfl := pure_eq_ok.mp returned
            have notDir : typeCode .file ≠ typeCode .dir := by decide
            rw [if_neg notDir, if_pos rfl]
            have freed := deletable.freeFile present type
            simpa only [type] using freed
      · intro h held s p i s' deletable returned
        rw [Fs.emulatedDeleteLoop] at returned
        rw [Bytes.emulatedDeleteLoop]
        obtain ⟨n, present, returned⟩ := bind_eq_ok.mp returned
        rw [deref_eq_ok] at present
        rw [deletable.holds.childCount present]
        by_cases more : i < n.childCount
        · rw [if_pos more] at returned ⊢
          obtain ⟨c, read, returned⟩ := bind_eq_ok.mp returned
          obtain ⟨inArray, rfl⟩ := readChild_eq_ok.mp read
          obtain ⟨s₁, first, returned⟩ := bind_eq_ok.mp returned
          have child :=
            ih.1 h held s _ s₁ (deletable.first (prunes.2 s₁ p (i + 1) s' returned)) first
          rw [deletable.holds.childAt present inArray]
          exact deletable.follows_bind (prunes.1 s _ s₁ first) child fun h₁ held₁ deletable₁ =>
            ih.2 h₁ held₁ s₁ p (i + 1) s' deletable₁ returned
        · rw [if_neg more] at returned ⊢
          obtain rfl := pure_eq_ok.mp returned
          exact deletable.holds.follows

/-- The two optional parts of `fs_delete` as steps of their own. -/
theorem bytes_fsDelete_parts (L : Layout) (fuel : Nat) (h : State) (p : Ptr) :
    Bytes.fsDelete L (fuel + 1) h p =
    if p = 0 then .ok h
    else (if get L.arch h.mem p .type = typeCode .dir then Bytes.deleteChildren L fuel h p
      else .ok h) >>= fun h₁ =>
      (if get L.arch h₁.mem p .parent ≠ 0 then Bytes.fsRemoveChild L.arch h₁.mem
        (get L.arch h₁.mem p .parent) p
        else .ok h₁.mem) >>= fun m₂ => Bytes.emulatedFsDelete L fuel { h₁ with mem := m₂ } p := by
  have unlink : ∀ h₁ : State,
      (if get L.arch h₁.mem p .parent ≠ 0 then
          Bytes.fsRemoveChild L.arch h₁.mem (get L.arch h₁.mem p .parent) p >>= fun m =>
            Bytes.emulatedFsDelete L fuel { h₁ with mem := m } p
        else Except.ok h₁.mem >>= fun m => Bytes.emulatedFsDelete L fuel { h₁ with mem := m } p) =
      (if get L.arch h₁.mem p .parent ≠ 0 then Bytes.fsRemoveChild L.arch h₁.mem
        (get L.arch h₁.mem p .parent) p
        else .ok h₁.mem) >>= fun m => Bytes.emulatedFsDelete L fuel { h₁ with mem := m } p := by
    intro h₁
    split <;> rfl
  rw [Bytes.fsDelete]
  simp only [unlink]
  split
  · rfl
  · split <;> rfl

/-- The children go first, if there may be any. -/
theorem Deletable.emptied (deletable : Deletable L h held s s') (present : s.nodes p = some n)
    (loop : n.type = .dir → Follows L h (Bytes.deleteChildren L fuel h p) s₁)
    (children : (if n.type = .dir then Fs.deleteChildren fuel s p else .ok s) = .ok s₁) :
    Follows L h (if get L.arch h.mem p .type = typeCode .dir then Bytes.deleteChildren L fuel h p
      else .ok h) s₁ := by
  rw [deletable.code present]
  by_cases isDir : n.type = .dir
  · rw [if_pos (congrArg typeCode isDir)]
    exact loop isDir
  · rw [if_neg isDir] at children
    obtain rfl := Except.ok.inj children
    rw [if_neg (mt typeCode_eq_iff.mp isDir)]
    exact deletable.holds.follows

/-- Then the link from the parent. -/
theorem Holds.unlinked (holds : Holds L h held s) (present : s.nodes p = some n)
    (unlinked : (if n.parent ≠ 0 then Fs.fsRemoveChild s n.parent p else .ok s) = .ok s₁) :
    ∃ m', (if get L.arch h.mem p .parent ≠ 0 then
        Bytes.fsRemoveChild L.arch h.mem (get L.arch h.mem p .parent) p else .ok h.mem) = .ok m' ∧
      Holds L { h with mem := m' } held s₁ ∧ ∀ x, L.Outside x → m' x = h.mem x := by
  have above : get L.arch h.mem p .parent = n.parent :=
    (holds.rep.nodes p n present).2.fields .parent trivial
  rw [above]
  by_cases hasParent : n.parent ≠ 0
  · rw [if_pos hasParent] at unlinked ⊢
    exact holds.fsRemoveChild unlinked
  · rw [if_neg hasParent] at unlinked ⊢
    obtain rfl := Except.ok.inj unlinked
    exact ⟨h.mem, rfl, holds, fun _ _ => rfl⟩

/-- `fs_delete` and its loop. -/
theorem fsDelete_follows (fuel : Nat) :
    (∀ h held s p s', Deletable L h held s s' → Fs.fsDelete fuel s p = .ok s' →
      Follows L h (Bytes.fsDelete L fuel h p) s') ∧
    ∀ h held s p s', Deletable L h held s s' → Fs.deleteChildren fuel s p = .ok s' →
      Follows L h (Bytes.deleteChildren L fuel h p) s' := by
  induction fuel with
  | zero =>
      refine ⟨fun h held s p s' _ returned => ?_, fun h held s p s' _ returned => ?_⟩
      · cases returned
      · cases returned
  | succ fuel ih =>
      refine ⟨?_, ?_⟩
      · intro h held s p s' deletable returned
        rw [fsDelete_parts] at returned
        rw [bytes_fsDelete_parts]
        by_cases null : p = 0
        · rw [if_pos null] at returned ⊢
          obtain rfl := Except.ok.inj returned
          exact deletable.holds.follows
        rw [if_neg null] at returned ⊢
        obtain ⟨n, present, returned⟩ := bind_eq_ok.mp returned
        rw [deref_eq_ok] at present
        obtain ⟨s₁, children, returned⟩ := bind_eq_ok.mp returned
        obtain ⟨m, present₁, returned⟩ := bind_eq_ok.mp returned
        rw [deref_eq_ok] at present₁
        obtain ⟨s₂, cut, returned⟩ := bind_eq_ok.mp returned
        have final := (elementary_pruned.emulatedFsDelete fuel).1 s₂ p s' returned
        have middle := elementary_pruned.unlinked cut
        have emptied := deletable.emptied present (fun isDir => ih.2 h held s p s₁
          (deletable.first (middle.trans final)) ((if_pos isDir).symm.trans children)) children
        have pruned := elementary_pruned.emptied ((fsDelete_pruned fuel).2 s p s₁) children
        refine deletable.follows_bind pruned emptied fun h₁ held₁ deletable₁ => ?_
        obtain ⟨m₂, value, holds₂, outside⟩ := deletable₁.holds.unlinked present₁ cut
        rw [bind_of_ok value]
        have last := (emulatedFsDelete_follows fuel).1 _ held₁ s₂ p s'
          (deletable₁.rest middle holds₂ outside) returned
        exact last.of_outside outside
      · intro h held s p s' deletable returned
        rw [Fs.deleteChildren] at returned
        rw [Bytes.deleteChildren]
        obtain ⟨n, present, returned⟩ := bind_eq_ok.mp returned
        rw [deref_eq_ok] at present
        rw [deletable.holds.childCount present]
        by_cases more : n.childCount > 0
        · rw [if_pos more] at returned ⊢
          obtain ⟨c, read, returned⟩ := bind_eq_ok.mp returned
          obtain ⟨inArray, rfl⟩ := readChild_eq_ok.mp read
          obtain ⟨s₁, first, returned⟩ := bind_eq_ok.mp returned
          have later := (fsDelete_pruned fuel).2 s₁ p s' returned
          rw [deletable.holds.childAt present inArray]
          exact deletable.follows_bind ((fsDelete_pruned fuel).1 s _ s₁ first)
            (ih.1 h held s _ s₁ (deletable.first later) first) fun h₁ held₁ deletable₁ =>
              ih.2 h₁ held₁ s₁ p s' deletable₁ returned
        · rw [if_neg more] at returned ⊢
          obtain rfl := pure_eq_ok.mp returned
          exact deletable.holds.follows

theorem bytes_emulatedFsDelete_mono (L : Layout) (fuel : Nat) :
    (∀ h p h', Bytes.emulatedFsDelete L fuel h p = .ok h' →
    Bytes.emulatedFsDelete L (fuel + 1) h p = .ok h') ∧
      ∀ h p i h', Bytes.emulatedDeleteLoop L fuel h p i = .ok h' →
        Bytes.emulatedDeleteLoop L (fuel + 1) h p i = .ok h' := by
  induction fuel with
  | zero =>
      refine ⟨fun h p h' returned => ?_, fun h p i h' returned => ?_⟩
      · cases returned
      · cases returned
  | succ fuel ih =>
      refine ⟨?_, ?_⟩
      · intro h p h' returned
        rw [Bytes.emulatedFsDelete] at returned ⊢
        split at returned
        · rename_i null
          rwa [if_pos null]
        · rename_i nonnull
          rw [if_neg nonnull]
          split at returned
          · rename_i isDir
            rw [if_pos isDir]
            exact bind_mono (ih.2 h p 0) (fun _ _ same => same) h' returned
          · rename_i notDir
            rw [if_neg notDir]
            exact returned
      · intro h p i h' returned
        rw [Bytes.emulatedDeleteLoop] at returned ⊢
        split at returned
        · rename_i more
          rw [if_pos more]
          exact bind_mono (ih.1 h _) (fun h₁ => ih.2 h₁ p (i + 1)) h' returned
        · rename_i done
          rwa [if_neg done]

theorem bytes_fsDelete_mono (L : Layout) (fuel : Nat) :
    (∀ h p h', Bytes.fsDelete L fuel h p = .ok h' → Bytes.fsDelete L (fuel + 1) h p = .ok h') ∧
      ∀ h p h', Bytes.deleteChildren L fuel h p = .ok h' →
      Bytes.deleteChildren L (fuel + 1) h p = .ok h' := by
  induction fuel with
  | zero =>
      refine ⟨fun h p h' returned => ?_, fun h p h' returned => ?_⟩
      · cases returned
      · cases returned
  | succ fuel ih =>
      refine ⟨?_, ?_⟩
      · intro h p h' returned
        rw [bytes_fsDelete_parts] at returned ⊢
        split at returned
        · rename_i null
          rwa [if_pos null]
        · rename_i nonnull
          rw [if_neg nonnull]
          refine bind_mono (fun h₁ children => ?_) (fun h₁ h' rest => ?_) h' returned
          · split at children
            · rename_i isDir
              rw [if_pos isDir]
              exact ih.2 h p h₁ children
            · rename_i notDir
              rwa [if_neg notDir]
          · exact bind_mono (fun _ same => same)
              (fun m => (bytes_emulatedFsDelete_mono L fuel).1 { h₁ with mem := m } p) h' rest
      · intro h p h' returned
        rw [Bytes.deleteChildren] at returned ⊢
        split at returned
        · rename_i more
          rw [if_pos more]
          exact bind_mono (ih.1 h _) (fun h₁ => ih.2 h₁ p) h' returned
        · rename_i done
          rwa [if_neg done]

/-- What a call returns does not depend on the budget. -/
theorem bytes_fsDelete_unique {h₁ h₂ : State} {fuel' : Nat}
    (first : Bytes.fsDelete L fuel h p = .ok h₁)
    (second : Bytes.fsDelete L fuel' h p = .ok h₂) : h₁ = h₂ := by
  have more : ∀ {f g : Nat} {h₀ : State}, f ≤ g → Bytes.fsDelete L f h p = .ok h₀ →
      Bytes.fsDelete L g h p = .ok h₀ := by
    intro f g h₀ le returned
    induction le with
    | refl => exact returned
    | step _ ih => exact (bytes_fsDelete_mono L _).1 h p h₀ ih
  have left := more (le_max_left fuel fuel') first
  have right := more (le_max_right fuel fuel') second
  exact Except.ok.inj (left.symm.trans right)

/-- The owner of a directory points outside the heap, to what looks like a free block with
    another one behind it, at `victim`. -/
structure Harmful (L : Layout) (m : Mem) (owner : UInt64) (victim : Nat) : Prop where
  linked : strayNext L.arch owner ≠ 0
  apart : L.Apart (strayNext L.arch owner) (sizeofMemoryBlock L.arch)
  isFree : Heap.get L.arch m (strayNext L.arch owner) .free ≠ 0
  behind : Heap.get L.arch m (strayNext L.arch owner) .next = victim
  nonnull : victim ≠ 0
  apartVictim : L.Apart victim (sizeofMemoryBlock L.arch)
  -- both lie in the address space
  fits : strayNext L.arch owner + sizeofMemoryBlock L.arch ≤ L.arch.wordSize ∧
    victim + sizeofMemoryBlock L.arch ≤ L.arch.wordSize

/-- A block is merged with a free one that has another behind it. -/
theorem mergeNext_links {b w victim : Nat} (next : Heap.get arch m b .next = w) (linked : w ≠ 0)
    (isFree : Heap.get arch m w .free ≠ 0) (behind : Heap.get arch m w .next = victim)
    (nonnull : victim ≠ 0)
    (apart : b + sizeofMemoryBlock arch ≤ w ∨ w + sizeofMemoryBlock arch ≤ b) :
    ∃ size, mergeNext arch m b =
      Heap.set arch (Heap.set arch (Heap.set arch m b .size size) b .next victim) victim .prev
        b := by
  let size := arch.add (Heap.get arch m b .size)
    (arch.add (sizeofMemoryBlock arch) (Heap.get arch m w .size))
  let sized := Heap.set arch m b .size size
  have next' : Heap.get arch sized b .next = w :=
    (Heap.get_set_ne arch m _ _ (by decide)).trans next
  have behind' : Heap.get arch sized w .next = victim := by
    rw [Heap.get_set_apart arch m _ .size .next (by omega), behind]
  have linked' : Heap.get arch (Heap.set arch sized b .next victim) b .next = victim := by
    refine Heap.get_set_same arch sized _ .next ?_
    rw [← behind']
    exact Heap.get_lt arch sized w .next
  refine ⟨size, ?_⟩
  rw [mergeNext, next, if_pos ⟨linked, isFree⟩]
  dsimp only
  rw [next', behind', linked', relink, if_pos nonnull]

/-- `free(node->children)` writes the address of the false header to the victim. -/
theorem free_inside_links {p victim : Nat} (ready : h.memoryAlreadyInitialized = true)
    (at_ : NodeAt L.arch h.mem p n)
    (inPool : L.memoryPool < p ∧ p + sizeofNode L.arch ≤ L.memoryPool + memoryPoolSize)
    (bare : n.data = 0 ∧ n.size = 0) (harmful : Harmful L h.mem n.owner victim) :
    ∃ m', Heap.free L h (p + NodeField.offset L.arch (.child 0)) = { h with mem := m' } ∧
      Heap.get L.arch m' victim .prev = strayBlock L.arch p ∧
      ∀ x, ¬ L.Outside x → (x < p ∨ p + sizeofNode L.arch ≤ x) → m' x = h.mem x := by
  obtain ⟨linked, apart, isFree, behind, nonnull, apartVictim, _⟩ := harmful
  have poolFits := L.poolFits
  have size_pos := sizeofMemoryBlock_pos L.arch
  have inNode := strayBlock_inside L.arch p
  rw [Layout.Apart] at apart apartVictim
  -- the owner does not point into the node, so the block there is as it was
  have raised : ChangesIn h.mem (set L.arch h.mem p .size 1) p (sizeofNode L.arch) :=
    set_changesIn (f := .size) trivial
  have there : ∀ f, Heap.get L.arch (set L.arch h.mem p .size 1) (strayNext L.arch n.owner) f =
      Heap.get L.arch h.mem (strayNext L.arch n.owner) f :=
    fun f => Heap.get_congr f (raised.agreeOn (by omega))
  obtain ⟨size, merged⟩ := mergeNext_links (raised_next at_) linked (by rwa [there])
    ((there .next).trans behind) nonnull (by omega)
  have freed := free_inside_eq ready at_ (by omega) bare.2
  have prev := raised_prev at_ bare.1
  rw [merged] at freed
  generalize set L.arch h.mem p .size 1 = m₁ at raised prev freed
  -- the three stores of the merge do not touch the link backwards
  have still : Heap.get L.arch (Heap.set L.arch (Heap.set L.arch
      (Heap.set L.arch m₁ (strayBlock L.arch p) .size size) (strayBlock L.arch p) .next victim)
      victim .prev (strayBlock L.arch p)) (strayBlock L.arch p) .prev = 0 := by
    rw [Heap.get_set_apart L.arch _ _ .prev .prev (by omega),
      Heap.get_set_ne L.arch _ _ _ (by decide), Heap.get_set_ne L.arch m₁ _ _ (by decide), prev]
  rw [mergePrev, if_neg fun both => both.1 still] at freed
  refine ⟨_, freed, ?_, ?_⟩
  · exact Heap.get_set_same L.arch _ _ .prev (by simp only [Field.limit]; omega)
  · intro x inside outside
    rw [Layout.Outside] at inside
    rw [Heap.set_outside L.arch _ victim _ .prev (by omega),
      Heap.set_outside L.arch _ _ _ .next (by omega),
      Heap.set_outside L.arch m₁ _ _ .size (by omega)]
    exact raised x outside

end AurorOS.Fs.Bytes
