import AurorOS.Fs.Files
import AurorOS.Fs.Bytes.Model
import AurorOS.Heap.Clients

/-! # The file system on the heap

The abstract file system, with its maps of live nodes and data blocks, stands for the
bytes that the kernel keeps: every node and every block of data is an allocation of its
own and memory holds what the maps say.  The functions on bytes do what the abstract
functions do, and the heap returns blocks that are fresh.
-/

namespace AurorOS.Fs.Bytes

open ByteMemory Heap FsState

/-- The value of a field of the abstract node. -/
def fieldOf (n : FsNode) : NodeField → Nat
  | .type => typeCode n.type
  | .parent => n.parent
  | .permissions => n.permissions.toNat
  | .owner => n.owner.toNat
  | .data => n.data
  | .size => n.size
  | .child i => n.children i
  | .childCount => n.childCount

/-- The abstract node with another value in a field. -/
def putField (n : FsNode) : NodeField → Nat → FsNode
  | .type, v => { n with type := if v = typeCode .file then .file else .dir }
  | .parent, v => { n with parent := v }
  | .permissions, v => { n with permissions := UInt16.ofNat v }
  | .owner, v => { n with owner := UInt64.ofNat v }
  | .data, v => { n with data := v }
  | .size, v => { n with size := v }
  | .child i, v => { n with children := Function.update n.children i v }
  | .childCount, v => { n with childCount := v }

/-- Memory has the node at `p`. -/
structure NodeAt (arch : Arch) (m : Mem) (p : Ptr) (n : FsNode) : Prop where
  name : bytesAt m p (n.name.length + 1) = n.name ++ [0]
  short : n.name.length < 32
  proper : 0 ∉ n.name
  fields : ∀ f : NodeField, f.InStruct → get arch m p f = fieldOf n f

/-- Memory has the file system in allocations that do not overlap. -/
structure Represents (L : Layout) (h : State) (held : List Allocation) (s : FsState) : Prop where
  heap : ∃ bs, Inv L ⟨h, held⟩ bs
  nodes : ∀ p n, s.nodes p = some n → ⟨p, sizeofNode L.arch⟩ ∈ held ∧ NodeAt L.arch h.mem p n
  bufs : ∀ q bytes, s.bufs q = some bytes → ⟨q, bytes.length⟩ ∈ held ∧
    bytesAt h.mem q bytes.length = bytes
  apart : ∀ p n, s.nodes p = some n → s.bufs p = none

variable {L : Layout} {arch : Arch} {h h' : State} {held : List Allocation} {s s' : FsState}
  {m m' : Mem} {n n' : FsNode} {p q file block : Ptr} {bytes : List UInt8} {f : NodeField} {v : Nat}

theorem putField_name (n : FsNode) (f : NodeField) (v : Nat) : (putField n f v).name = n.name := by
  cases f <;> rfl

theorem fieldOf_putField_self (fits : v < 256 ^ f.width arch)
    (code : f = .type → ∃ type, v = typeCode type) :
    fieldOf (putField n f v) f = v := by
  cases f with
  | type =>
      obtain ⟨type, rfl⟩ := code rfl
      cases type <;> rfl
  | permissions => exact UInt16.toNat_ofNat_of_lt' fits
  | owner => exact UInt64.toNat_ofNat_of_lt' fits
  | child i => exact Function.update_self ..
  | _ => rfl

theorem fieldOf_putField_of_ne {g : NodeField} (other : g ≠ f) :
    fieldOf (putField n f v) g = fieldOf n g := by
  cases f <;> cases g <;> first | rfl | exact absurd rfl other | skip
  rename_i i j
  exact Function.update_of_ne (fun same => other (congrArg NodeField.child same)) _ _

theorem typeCode_lt (type : NodeType) : typeCode type < 256 ^ 4 := by
  cases type <;> decide

theorem setNode_setNode (s : FsState) (p : Ptr) (n n' : FsNode) :
    (s.setNode p n).setNode p n' = s.setNode p n' := by
  rw [setNode, setNode, setNode, Function.update_idem]

namespace NodeAt

/-- The node is a matter of its bytes alone. -/
theorem congr (at_ : NodeAt arch m p n) (same : AgreeOn m m' p (p + sizeofNode arch)) :
    NodeAt arch m' p n where
  name := by
    have short := at_.short
    have room : 32 ≤ sizeofNode arch := by cases arch <;> decide
    rw [bytesAt_congr (same.mono le_rfl (by omega)), at_.name]
  short := at_.short
  proper := at_.proper
  fields := fun f inStruct => (get_congr inStruct same).trans (at_.fields f inStruct)

/-- A store to a field changes that field of the node. -/
theorem set (at_ : NodeAt arch m p n) (inStruct : f.InStruct) (fits : v < 256 ^ f.width arch)
    (code : f = .type → ∃ type, v = typeCode type) :
    NodeAt arch (Bytes.set arch m p f v) p (putField n f v) where
  name := by
    have short := at_.short
    have inside := f.inside arch inStruct
    rw [putField_name, ← at_.name]
    refine bytesAt_congr ((store_changesIn m _ _ v).agreeOn (.inl ?_))
    omega
  short := (putField_name n f v).symm ▸ at_.short
  proper := (putField_name n f v).symm ▸ at_.proper
  fields := by
    intro g inG
    by_cases same : g = f
    · rw [same, get_set_self fits, fieldOf_putField_self fits code]
    · rw [get_set_of_ne inStruct inG (Ne.symm same), fieldOf_putField_of_ne same, at_.fields g inG]

/-- What loading the node yields. -/
theorem loadNode_eq (at_ : NodeAt arch m p n) :
    loadNode arch m p = { n with children := (loadNode arch m p).children } := by
  have name : (bytesAt m p 32).takeWhile (· ≠ 0) = n.name := by
    have short := at_.short
    have proper : ∀ c ∈ n.name, decide (c ≠ 0) = true := by
      intro c member
      refine decide_eq_true fun zero => ?_
      exact at_.proper (zero ▸ member)
    rw [show 32 = n.name.length + 1 + (31 - n.name.length) by omega, bytesAt_add, at_.name,
      List.append_assoc, List.takeWhile_append_of_pos proper]
    simp
  have type : (if get arch m p .type = typeCode .file then NodeType.file else .dir) = n.type := by
    rw [at_.fields .type trivial, fieldOf]
    cases n.type <;> rfl
  have permissions : UInt16.ofNat (get arch m p .permissions) = n.permissions := by
    rw [at_.fields .permissions trivial, fieldOf, UInt16.ofNat_toNat]
  have owner : UInt64.ofNat (get arch m p .owner) = n.owner := by
    rw [at_.fields .owner trivial, fieldOf, UInt64.ofNat_toNat]
  rw [loadNode, name, type, permissions, owner, at_.fields .parent trivial,
    at_.fields .data trivial, at_.fields .size trivial, at_.fields .childCount trivial]
  rfl

end NodeAt

namespace Represents

variable (rep : Represents L h held s)

include rep

/-- Bytes in an allocation change that become the node. -/
theorem setNode (member : ⟨p, sizeofNode L.arch⟩ ∈ held) (noData : s.bufs p = none)
    (changes : ChangesIn h.mem m p (sizeofNode L.arch)) (at_ : NodeAt L.arch m p n) :
    Represents L { h with mem := m } held (s.setNode p n) := by
  obtain ⟨bs, inv⟩ := rep.heap
  refine ⟨⟨bs, inv.after_change fun x _ own => ?_⟩, ?_, ?_, ?_⟩
  · refine changes x ?_
    have outside := own _ member
    dsimp only at outside
    omega
  · intro x n' present
    by_cases same : x = p
    · subst same
      rw [nodes_setNode_self] at present
      exact ⟨member, Option.some.inj present ▸ at_⟩
    · rw [nodes_setNode_of_ne _ _ same] at present
      obtain ⟨memberX, atX⟩ := rep.nodes x n' present
      have apart := inv.apart memberX member fun equal => same (congrArg Allocation.ptr equal)
      exact ⟨memberX, atX.congr (changes.agreeOn apart)⟩
  · intro q bytes present
    obtain ⟨memberQ, holds⟩ := rep.bufs q bytes present
    have other : q ≠ p := by
      rintro rfl
      cases noData.symm.trans present
    have apart := inv.apart memberQ member fun equal => other (congrArg Allocation.ptr equal)
    exact ⟨memberQ, (bytesAt_congr (changes.agreeOn apart)).trans holds⟩
  · intro x n' present
    by_cases same : x = p
    · exact same ▸ noData
    · rw [nodes_setNode_of_ne _ _ same] at present
      exact rep.apart x n' present

/-- A field of a node is set. -/
theorem setField (atP : s.nodes p = some n) (inStruct : f.InStruct)
    (fits : v < 256 ^ f.width L.arch) (code : f = .type → ∃ type, v = typeCode type) :
    Represents L { h with mem := Bytes.set L.arch h.mem p f v } held
      (s.setNode p (putField n f v)) := by
  obtain ⟨member, node⟩ := rep.nodes p n atP
  exact rep.setNode member (rep.apart p n atP) (set_changesIn inStruct)
    (node.set inStruct fits code)

/-- A node lies in the pool. -/
theorem set_outside (atP : s.nodes p = some n) (inStruct : f.InStruct) {x : Nat}
    (outside : L.Outside x) :
    Bytes.set L.arch h.mem p f v x = h.mem x := by
  obtain ⟨_, inv⟩ := rep.heap
  have inside := inv.inside (rep.nodes p n atP).1
  rw [Layout.Outside] at outside
  dsimp only at inside
  exact set_changesIn inStruct x (by omega)

/-- What is held has an address of one word. -/
theorem address_lt {a size : Nat} (member : ⟨a, size⟩ ∈ held) : a < 256 ^ L.arch.wordBytes := by
  obtain ⟨_, inv⟩ := rep.heap
  have inside := inv.inside member
  have sized := inv.sized _ member
  have fits := L.poolFits
  dsimp only at inside sized
  rw [Arch.pow_wordBytes]
  omega

/-- Bytes in an allocation change that become a block of data. -/
theorem setData (member : ⟨q, bytes.length⟩ ∈ held) (noNode : s.nodes q = none)
    (changes : ChangesIn h.mem m q bytes.length) (holds : bytesAt m q bytes.length = bytes) :
    Represents L { h with mem := m } held { s with
      bufs := Function.update s.bufs q (some bytes) } := by
  obtain ⟨bs, inv⟩ := rep.heap
  refine ⟨⟨bs, inv.after_change fun x _ own => ?_⟩, ?_, ?_, ?_⟩
  · refine changes x ?_
    have outside := own _ member
    dsimp only at outside
    omega
  · intro x n present
    obtain ⟨memberX, atX⟩ := rep.nodes x n present
    have other : x ≠ q := by
      rintro rfl
      cases noNode.symm.trans present
    have apart := inv.apart memberX member fun equal => other (congrArg Allocation.ptr equal)
    exact ⟨memberX, atX.congr (changes.agreeOn apart)⟩
  · intro x bytes' present
    dsimp only at present
    by_cases same : x = q
    · subst same
      rw [Function.update_self] at present
      obtain rfl := Option.some.inj present
      exact ⟨member, holds⟩
    · rw [Function.update_of_ne same] at present
      obtain ⟨memberX, holdsX⟩ := rep.bufs x bytes' present
      have apart := inv.apart memberX member fun equal => same (congrArg Allocation.ptr equal)
      exact ⟨memberX, (bytesAt_congr (changes.agreeOn apart)).trans holdsX⟩
  · intro x n present
    have other : x ≠ q := by
      rintro rfl
      cases noNode.symm.trans present
    exact (Function.update_of_ne other _ _).trans (rep.apart x n present)

/-- Nothing that is represented changes. -/
theorem undisturbed {held' rest : List Allocation} (inv' : ∃ bs, Inv L ⟨h', held'⟩ bs)
    (kept : ∀ a ∈ rest, a ∈ held') (same : Undisturbed L h.mem h'.mem rest)
    (nodes : s'.nodes = s.nodes) (bufs : ∀ q bytes, s'.bufs q = some bytes → s.bufs q = some bytes)
    (keptNodes : ∀ p n, s.nodes p = some n → ⟨p, sizeofNode L.arch⟩ ∈ rest)
    (keptBufs : ∀ q bytes, s'.bufs q = some bytes → ⟨q, bytes.length⟩ ∈ rest) :
    Represents L h' held' s' where
  heap := inv'
  nodes := by
    intro p n present
    rw [nodes] at present
    have member := keptNodes p n present
    exact ⟨kept _ member, (rep.nodes p n present).2.congr (same.held _ member)⟩
  bufs := by
    intro q bytes present
    have member := keptBufs q bytes present
    exact ⟨kept _ member,
      (bytesAt_congr (same.held _ member)).trans (rep.bufs q bytes (bufs q bytes present)).2⟩
  apart := by
    intro p n present
    rw [nodes] at present
    cases here : s'.bufs p with
    | none => rfl
    | some bytes => cases (rep.apart p n present).symm.trans (bufs p bytes here)

/-- Bytes outside the pool change. -/
theorem elsewhere (same : ∀ x, ¬ L.Outside x → m x = h.mem x) :
    Represents L { h with mem := m } held s := by
  obtain ⟨bs, inv⟩ := rep.heap
  have kept : ∀ a ∈ held, AgreeOn h.mem m a.ptr (a.ptr + a.size) := by
    intro a member x above below
    have inside := inv.inside member
    refine same x fun outside => ?_
    rw [Layout.Outside] at outside
    omega
  refine ⟨⟨bs, inv.after_change fun x inPool _ => same x inPool⟩, ?_, ?_, rep.apart⟩
  · intro p n present
    obtain ⟨member, node⟩ := rep.nodes p n present
    exact ⟨member, node.congr (kept _ member)⟩
  · intro q bytes present
    obtain ⟨member, holds⟩ := rep.bufs q bytes present
    exact ⟨member, (bytesAt_congr (kept _ member)).trans holds⟩

/-- `malloc` of some bytes returns a fresh block. -/
theorem malloc {size : Nat} (asked : 0 < size) (returned : malloc L h size = .ok (p, h')) :
    Represents L h' (⟨p, size⟩ :: held) s ∧ Fresh s p ∧ ∀ x, L.Outside x → h'.mem x = h.mem x := by
  obtain ⟨bs, inv⟩ := rep.heap
  obtain ⟨nonnull, ⟨bs', inv'⟩, same⟩ := inv.malloc_returns asked returned
  -- the new block is none of those in use
  have other : ∀ a ∈ held, a.ptr ≠ p := by
    intro a member
    have apart := inv'.newest_apart member
    have sized := inv.sized a member
    dsimp only at apart sized
    omega
  refine ⟨?_, ⟨nonnull, ?_, ?_⟩, same.outside⟩
  · exact rep.undisturbed ⟨bs', inv'⟩ (fun a => List.mem_cons_of_mem _) same rfl (fun _ _ => id)
      (fun p n present => (rep.nodes p n present).1) fun q bytes present =>
        (rep.bufs q bytes present).1
  · cases present : s.nodes p with
    | none => rfl
    | some n => exact absurd rfl (other _ (rep.nodes p n present).1)
  · cases present : s.bufs p with
    | none => rfl
    | some bytes => exact absurd rfl (other _ (rep.bufs p bytes present).1)

/-- `free` of a block of data. -/
theorem free (present : s.bufs q = some bytes) :
    Represents L (free L h q) (held.erase ⟨q, bytes.length⟩) (s.freeData q) ∧
      ∀ x, L.Outside x → (Heap.free L h q).mem x = h.mem x := by
  obtain ⟨bs, inv⟩ := rep.heap
  obtain ⟨inv', same⟩ := inv.free_returns (rep.bufs q bytes present).1
  have left : ∀ x bytes', (s.freeData q).bufs x = some bytes' → x ≠ q ∧ s.bufs x = some bytes' := by
    intro x bytes' here
    have other : x ≠ q := by
      rintro rfl
      cases (s.bufs_freeData_self x).symm.trans here
    exact ⟨other, (s.bufs_freeData_of_ne other).symm.trans here⟩
  refine ⟨?_, same.outside⟩
  refine rep.undisturbed inv' (fun _ => id) same rfl
    (fun x bytes' here => (left x bytes' here).2) ?_ ?_
  · intro x n here
    have other : x ≠ q := by
      rintro rfl
      cases (rep.apart x n here).symm.trans present
    exact (List.mem_erase_of_ne fun equal => other (congrArg Allocation.ptr equal)).mpr
      (rep.nodes x n here).1
  · intro x bytes' here
    obtain ⟨other, here⟩ := left x bytes' here
    exact (List.mem_erase_of_ne fun equal => other (congrArg Allocation.ptr equal)).mpr
      (rep.bufs x bytes' here).1

end Represents

/-- A block of a node that has been filled with zeros and given a name. -/
theorem nodeAt_named {name : List UInt8} (m : Mem) (p : Ptr) (short : name.length < 32)
    (proper : 0 ∉ name) :
    NodeAt arch (strcpy (memset m p 0 (sizeofNode arch)) p name) p
      ⟨name, .file, 0, 0, 0, 0, 0, fun _ => 0, 0⟩ where
  name := bytesAt_strcpy _ _ _
  short := short
  proper := proper
  fields := by
    intro f inStruct
    have inside := f.inside arch inStruct
    have zero : get arch (strcpy (memset m p 0 (sizeofNode arch)) p name) p f = 0 := by
      refine load_zeros fun k below => ?_
      rw [strcpy_changesIn _ _ _ _ (.inr (by omega)), memset_apply, if_pos (by omega)]
    rw [zero]
    cases f <;> rfl

/-- A node is created in a fresh block. -/
theorem Represents.createNode (rep : Represents L h held s) {type : NodeType} {name : List UInt8}
    {parent : Ptr} {owner : UInt64} (short : name.length < 32) (proper : 0 ∉ name)
    (parentFits : parent < L.arch.wordSize)
    (returned : Bytes.createNode L type h name parent owner = .ok (p, h')) :
    Fresh s p ∧ Represents L h' (⟨p, sizeofNode L.arch⟩ :: held)
      (s.setNode p (leafNode type name owner parent)) := by
  obtain ⟨⟨node, h₁⟩, allocated, returned⟩ := Outcome.bind_eq_ok.mp returned
  obtain ⟨rfl, rfl⟩ := Prod.mk.inj (Outcome.pure_eq_ok.mp returned)
  have asked : 0 < sizeofNode L.arch := by cases L.arch <;> decide
  have room : 32 ≤ sizeofNode L.arch := by cases L.arch <;> decide
  obtain ⟨rep₁, fresh, _⟩ := rep.malloc asked allocated
  -- the stores, one after the other
  have named : NodeAt L.arch (strcpy (memset h₁.mem node 0 (sizeofNode L.arch)) node name) node _ :=
    nodeAt_named h₁.mem node short proper
  have typed := named.set (f := .type) trivial (typeCode_lt type) fun _ => ⟨type, rfl⟩
  have parented :=
    typed.set (f := .parent) trivial (parentFits.trans_eq L.arch.pow_wordBytes.symm) nofun
  have permitted :=
    parented.set (f := .permissions) trivial (mkDefaultPermissions 0o777).toNat_lt nofun
  have owned := permitted.set (f := .owner) trivial owner.toNat_lt nofun
  have leaf : putField
      (putField
        (putField (putField ⟨name, .file, 0, 0, 0, 0, 0, fun _ => 0, 0⟩ .type (typeCode type))
      .parent parent) .permissions (mkDefaultPermissions 0o777).toNat) .owner owner.toNat =
      leafNode type name owner parent := by
    cases type <;> simp only [putField, UInt16.ofNat_toNat, UInt64.ofNat_toNat] <;> rfl
  rw [leaf] at owned
  refine ⟨fresh, rep₁.setNode List.mem_cons_self fresh.noBuf ?_ owned⟩
  have filled := memset_changesIn h₁.mem node 0 (sizeofNode L.arch)
  have copied := filled.trans ((strcpy_changesIn _ node name).mono le_rfl (by omega))
  exact (((copied.trans (set_changesIn (f := .type) trivial)).trans
    (set_changesIn (f := .parent) trivial)).trans
    (set_changesIn (f := .permissions) trivial)).trans (set_changesIn (f := .owner) trivial)

/-- A child is added to a directory. -/
theorem Represents.addChild {d c : FsNode} {dir child : Ptr} (rep : Represents L h held s)
    (atDir : s.nodes dir = some d) (atChild : s.nodes child = some c) (isDir : d.type = .dir)
    (room : d.childCount < 64) (other : child ≠ dir) :
    Represents L { h with mem := Bytes.emulatedFsAddChild L.arch h.mem dir child } held
      ((s.setNode dir (d.adding child)).setNode child { c with parent := dir }) := by
  obtain ⟨memberDir, nodeDir⟩ := rep.nodes dir d atDir
  obtain ⟨memberChild, _⟩ := rep.nodes child c atChild
  have code : get L.arch h.mem dir .type = typeCode .dir := by
    rw [nodeDir.fields .type trivial, fieldOf, isDir]
  have count : get L.arch h.mem dir .childCount = d.childCount := nodeDir.fields .childCount trivial
  rw [Bytes.emulatedFsAddChild, if_neg (not_not.mpr code), count]
  have childLt := rep.address_lt memberChild
  have listed := rep.setField (f := .child d.childCount) atDir room childLt fun same => by
    cases same
  have counted := listed.setField (f := .childCount) (v := d.childCount + 1)
    (s.nodes_setNode_self _ _) trivial
    (by simp only [NodeField.width]; omega) fun same => by cases same
  rw [setNode_setNode] at counted
  have still : (s.setNode dir (d.adding child)).nodes child = some c :=
    (nodes_setNode_of_ne _ _ other).trans atChild
  exact counted.setField (f := .parent) still trivial (rep.address_lt memberDir) fun same => by
    cases same

/-- The old data is freed. -/
theorem Represents.release (rep : Represents L h held s) (files : FilesOk s)
    (atFile : s.nodes file = some n) (isFile : n.type = .file) :
    ∃ held' h', (if get L.arch h.mem file .size > 0 then Heap.free L h (get L.arch h.mem file .data)
      else h) = h' ∧
      Represents L h' held' (releaseData s n) ∧ ∀ x, L.Outside x → h'.mem x = h.mem x := by
  obtain ⟨_, node⟩ := rep.nodes file n atFile
  rw [node.fields .size trivial, node.fields .data trivial, fieldOf, fieldOf, releaseData]
  by_cases hasSize : n.size > 0
  · obtain ⟨bytes, stored, _⟩ := files.stored file n atFile isFile hasSize.ne'
    rw [if_pos hasSize, if_pos hasSize]
    exact ⟨_, _, rfl, rep.free stored⟩
  · rw [if_neg hasSize, if_neg hasSize]
    exact ⟨held, h, rfl, rep, fun _ _ => rfl⟩

/-- `malloc` returns a block for the new data, or `NULL` for no data. -/
theorem Represents.mallocData {size : Nat} (rep : Represents L h held s)
    (returned : Heap.malloc L h size = .ok (block, h')) :
    ∃ held', Represents L h' held' s ∧ MallocReturns s size block ∧
    (0 < size → ⟨block, size⟩ ∈ held') ∧
      block < 256 ^ L.arch.wordBytes ∧ ∀ x, L.Outside x → h'.mem x = h.mem x := by
  rcases Nat.eq_zero_or_pos size with rfl | asked
  · obtain ⟨_, inv⟩ := rep.heap
    obtain ⟨rfl, rfl⟩ := Prod.mk.inj (Except.ok.inj (inv.malloc_zero.symm.trans returned))
    have returns : MallocReturns s 0 0 := by rw [MallocReturns, if_pos rfl]
    exact ⟨held, rep, returns, fun asked => absurd asked (lt_irrefl 0), by positivity,
      fun _ _ => rfl⟩
  · obtain ⟨rep', fresh, outside⟩ := rep.malloc asked returned
    have returns : MallocReturns s size block := by
      rw [MallocReturns, if_neg asked.ne']
      exact fresh
    exact ⟨_, rep', returns, fun _ => List.mem_cons_self, rep'.address_lt List.mem_cons_self,
      outside⟩

/-- The data is copied from a source outside the heap. -/
theorem Represents.copyData {block src size : Nat} (rep : Represents L h held s)
    (member : 0 < size → ⟨block, size⟩ ∈ held)
    (noNode : 0 < size → s.nodes block = none) (source : L.Apart src size) :
    Represents L { h with mem := memcpy h.mem block src size } held
      (if bytesAt h.mem src size = [] then s
        else { s with bufs := Function.update s.bufs block (some (bytesAt h.mem src size)) }) := by
  rcases Nat.eq_zero_or_pos size with rfl | asked
  · exact rep
  have nonempty : bytesAt h.mem src size ≠ [] := by
    refine List.ne_nil_of_length_pos ?_
    rwa [length_bytesAt]
  obtain ⟨_, inv⟩ := rep.heap
  have inside := inv.inside (member asked)
  have apart : block + size ≤ src ∨ src + size ≤ block := by
    rw [Layout.Apart] at source
    dsimp only at inside
    omega
  rw [if_neg nonempty]
  refine rep.setData ?_ (noNode asked) ?_ ?_
  · rw [length_bytesAt]
    exact member asked
  · rw [length_bytesAt]
    exact memcpy_changesIn h.mem apart
  · rw [length_bytesAt]
    exact bytesAt_memcpy h.mem apart

/-- A file is written. -/
theorem Represents.emulatedFsWrite {src size : Nat} (rep : Represents L h held s)
    (files : FilesOk s) (atFile : s.nodes file = some n) (isFile : n.type = .file)
    (source : L.Apart src size) (fits : size < 2 ^ 32)
    (returned : Bytes.emulatedFsWrite L h file src size = .ok h') :
    ∃ s' held' block, Fs.emulatedFsWrite s file (bytesAt h.mem src size) block = .ok s' ∧
      MallocReturns (releaseData s n) size block ∧ Represents L h' held' s' := by
  have code : get L.arch h.mem file .type = typeCode .file := by
    rw [(rep.nodes file n atFile).2.fields .type trivial, fieldOf, isFile]
  obtain ⟨held₁, h₁, freed, rep₁, outside₁⟩ := rep.release files atFile isFile
  rw [Bytes.emulatedFsWrite, if_neg (not_not.mpr code), freed] at returned
  obtain ⟨⟨block, h₂⟩, allocated, returned⟩ := Outcome.bind_eq_ok.mp returned
  obtain rfl := Outcome.pure_eq_ok.mp returned
  obtain ⟨held₂, rep₂, fresh, member, small, outside₂⟩ := rep₁.mallocData allocated
  have atFile₁ : (releaseData s n).nodes file = some n := by rw [(releaseData_nodes s n).1, atFile]
  -- `file->data = malloc(size)`
  have rep₃ := rep₂.setField (f := .data) atFile₁ trivial small fun same => by cases same
  have noNode : 0 < size →
      ((releaseData s n).setNode file (putField n .data block)).nodes block = none := by
    intro asked
    rw [MallocReturns, if_neg asked.ne'] at fresh
    have other : block ≠ file := by
      rintro rfl
      cases fresh.noNode.symm.trans atFile₁
    exact (nodes_setNode_of_ne _ _ other).trans fresh.noNode
  -- the source is as it was
  have same : bytesAt (Bytes.set L.arch h₂.mem file .data block) src size =
      bytesAt h.mem src size := by
    refine bytesAt_congr fun x above below => ?_
    have outside : L.Outside x := by
      rw [Layout.Apart] at source
      rw [Layout.Outside]
      omega
    rw [rep₂.set_outside (f := .data) atFile₁ trivial outside, outside₂ x outside,
      outside₁ x outside]
  have rep₄ := rep₃.copyData member noNode source
  dsimp only at rep₄
  rw [same] at rep₄
  have loaded : get L.arch (Bytes.set L.arch h₂.mem file .data block) file .data = block :=
    get_set_self small
  refine ⟨_, held₂, block, write_value _ block atFile isFile, fresh, ?_⟩
  rw [loaded, length_bytesAt]
  by_cases empty : bytesAt h.mem src size = []
  · rw [if_pos empty] at rep₄ ⊢
    have rep₅ := rep₄.setField (f := .size) (nodes_setNode_self _ file _) trivial fits
      fun same => by cases same
    rw [setNode_setNode] at rep₅
    exact rep₅
  · rw [if_neg empty] at rep₄ ⊢
    have rep₅ := rep₄.setField (f := .size) (nodes_setNode_self _ file _) trivial fits
      fun same => by cases same
    rw [FsState.setNode, FsState.setNode, Function.update_idem] at rep₅
    exact rep₅

/-- A read of `count` bytes of a file with this content: what it returns, and what memory
    is like afterwards. -/
structure Reads (m : Mem) (out count : Nat) (content : List UInt8) (result : Int × Mem) : Prop where
  returned : result.1 = count
  copied : bytesAt result.2 out count = content.take count
  terminated : result.2 (out + count) = 0
  rest : ∀ x, x < out ∨ out + count < x → result.2 x = m x

/-- The stores of a read, all performed. -/
theorem perform_all (data out count : Nat) (m : Mem) :
    (memcpyStores count ++ [OutStore.terminate count]).foldl (perform data out) m =
      Function.update (memcpy m out data count) (out + count) 0 := by
  rw [List.foldl_append, memcpyStores, List.foldl_map]
  rfl

theorem reads_copied {data out count : Nat} {content : List UInt8}
    (holds : bytesAt m data count = content.take count)
    (apart : out + count ≤ data ∨ data + count ≤ out) :
    Reads m out count content
      (count, Function.update (memcpy m out data count) (out + count) 0) where
  returned := rfl
  copied := by
    have same : AgreeOn (memcpy m out data count)
      (Function.update (memcpy m out data count) (out + count) 0) out (out + count) :=
      fun x _ below => Function.update_of_ne below.ne _ _
    rw [bytesAt_congr same, bytesAt_memcpy m apart, holds]
  terminated := Function.update_self ..
  rest := by
    intro x outside
    exact (Function.update_of_ne (by omega) _ _).trans (memcpy_changesIn m apart x (by omega))

/-- A file is read into `max` bytes that are not in its data. -/
theorem Represents.emulatedFsRead {out : Nat} {max : UInt32} {content : List UInt8}
    (rep : Represents L h held s) (files : FilesOk s) (atFile : s.nodes file = some n)
    (isFile : n.type = .file) (holds : s.contentOf n = some content) (room : 0 < max)
    (apart : out + max.toNat ≤ get L.arch h.mem file .data ∨
    get L.arch h.mem file .data + get L.arch h.mem file .size ≤ out) :
    Reads h.mem out (min content.length (max.toNat - 1)) content
      (Bytes.emulatedFsRead L.arch h.mem file out max) := by
  obtain ⟨_, node⟩ := rep.nodes file n atFile
  have positive : 0 < max.toNat := UInt32.lt_iff_toNat_lt.mp room
  have loaded : Fs.emulatedFsRead (loadNode L.arch h.mem file) max = Fs.emulatedFsRead n max := by
    rw [node.loadNode_eq]
    rfl
  rw [node.fields .data trivial, node.fields .size trivial, fieldOf, fieldOf] at apart
  rw [Bytes.emulatedFsRead, loaded, node.fields .data trivial, fieldOf, Fs.emulatedFsRead,
    if_neg (not_not.mpr isFile)]
  rw [contentOf] at holds
  by_cases hasSize : n.size = 0
  · rw [if_pos hasSize] at holds
    obtain rfl := Option.some.inj holds
    rw [if_pos (.inr hasSize), if_pos room, List.length_nil, Nat.zero_min]
    exact @reads_copied h.mem n.data out 0 [] rfl (by omega)
  · obtain ⟨bytes, stored, length⟩ := files.stored file n atFile isFile hasSize
    rw [if_neg hasSize, stored] at holds
    obtain rfl := Option.some.inj holds
    obtain ⟨member, there⟩ := rep.bufs n.data bytes stored
    have hasData : n.data ≠ 0 := mt (files.content file n atFile isFile).mp hasSize
    -- a block of the heap is shorter than the pool
    have small : bytes.length < 2 ^ 31 := by
      obtain ⟨_, inv⟩ := rep.heap
      have inside := inv.inside member
      rw [memoryPoolSize] at inside
      dsimp only at inside
      omega
    have count := toCopy_eq n room
    rw [← length] at count
    have value : toInt32 (toCopy n max) = (min bytes.length (max.toNat - 1) : Nat) := by
      rw [toInt32, count, if_pos (by omega)]
    have copied :
      bytesAt h.mem n.data (min bytes.length (max.toNat - 1)) =
        bytes.take (min bytes.length (max.toNat - 1)) := by
      rw [← there, take_bytesAt, length_bytesAt, min_eq_left (min_le_left _ _)]
    rw [if_neg (not_or.mpr ⟨hasData, hasSize⟩)]
    dsimp only
    rw [perform_all, value, count]
    exact reads_copied copied (by omega)

end AurorOS.Fs.Bytes
