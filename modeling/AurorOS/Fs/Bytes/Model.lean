import AurorOS.Fs.Read
import AurorOS.Heap.Memory
import AurorOS.Heap.Model

/-! # File system nodes in memory

The functions of the emulated file system again, on the bytes of memory and with the
heap's own `malloc` and `free`.  The fields of a node are loads and stores at the
offsets of `emulated_fs_node`.
-/

namespace AurorOS.Fs.Bytes

open ByteMemory Heap

/-- The fields of `emulated_fs_node` behind the name, the elements of `children` one by
    one. -/
inductive NodeField where
  | type
  | parent
  | permissions
  | owner
  | data
  | size
  | child (i : Nat)
  | childCount
  deriving DecidableEq, Repr

namespace NodeField

def offset : Arch → NodeField → Nat
  | _, .type => 32
  | .x86, .parent => 36
  | .x86, .permissions => 40
  | .x86, .owner => 44
  | .x86, .data => 52
  | .x86, .size => 56
  | .x86, .child i => 60 + i * 4
  | .x86, .childCount => 316
  -- pointers and 64-bit integers are aligned to 8 bytes
  | .x86_64, .parent => 40
  | .x86_64, .permissions => 48
  | .x86_64, .owner => 56
  | .x86_64, .data => 64
  | .x86_64, .size => 72
  | .x86_64, .child i => 80 + i * 8
  | .x86_64, .childCount => 592

def width (arch : Arch) : NodeField → Nat
  | .type | .size | .childCount => 4
  | .permissions => 2
  | .owner => 8
  | .parent | .data | .child _ => arch.wordBytes

/-- `children` has 64 elements. -/
def InStruct : NodeField → Prop
  | .child i => i < 64
  | _ => True

end NodeField

/-- `sizeof(emulated_fs_node)`. -/
def sizeofNode : Arch → Nat
  | .x86 => 320
  | .x86_64 => 600

/-- `node->field`. -/
def get (arch : Arch) (m : Mem) (node : Ptr) (f : NodeField) : Nat :=
  load m (node + f.offset arch) (f.width arch)

/-- `node->field = v`. -/
def set (arch : Arch) (m : Mem) (node : Ptr) (f : NodeField) (v : Nat) : Mem :=
  store m (node + f.offset arch) (f.width arch) v

/-- `EMULATED_FS_FILE` and `EMULATED_FS_DIR`. -/
def typeCode : NodeType → Nat
  | .file => 0
  | .dir => 1

/-- `emulated_fs_create_dir_node` and `emulated_fs_create_file_node`. -/
def createNode (L : Layout) (type : NodeType) (h : State) (name : List UInt8) (parent : Ptr)
    (owner : UInt64) :
    Except Fault (Ptr × State) := do
  let (node, h) ← malloc L h (sizeofNode L.arch)
  let m := memset h.mem node 0 (sizeofNode L.arch)
  let m := strcpy m node name
  let m := set L.arch m node .type (typeCode type)
  let m := set L.arch m node .parent parent
  let m := set L.arch m node .permissions (mkDefaultPermissions 0o777).toNat
  let m := set L.arch m node .owner owner.toNat
  return (node, { h with mem := m })

def emulatedFsAddChild (arch : Arch) (m : Mem) (dir child : Ptr) : Mem :=
  if get arch m dir .type ≠ typeCode .dir then m
  else
    let count := get arch m dir .childCount
    let m := set arch m dir (.child count) child
    let m := set arch m dir .childCount (count + 1)
    set arch m child .parent dir

/-- The data is the `size` bytes at `data`. -/
def emulatedFsWrite (L : Layout) (h : State) (file : Ptr) (data size : Nat) : Except Fault State :=
  do
  if get L.arch h.mem file .type ≠ typeCode .file then return h
  let h := if get L.arch h.mem file .size > 0 then free L h (get L.arch h.mem file .data) else h
  let (block, h) ← malloc L h size
  let m := set L.arch h.mem file .data block
  let m := memcpy m (get L.arch m file .data) data size
  return { h with mem := set L.arch m file .size size }

/-- `emulated_fs_init`, which makes the root with the name `/`. -/
def emulatedFsInit (L : Layout) (h : State) : Except Fault (Ptr × State) :=
  createNode L .dir h [47] 0 0

/-- A node as memory has it. -/
def loadNode (arch : Arch) (m : Mem) (node : Ptr) : FsNode where
  name := (bytesAt m node 32).takeWhile (· ≠ 0)
  type := if get arch m node .type = typeCode .file then .file else .dir
  parent := get arch m node .parent
  permissions := UInt16.ofNat (get arch m node .permissions)
  owner := UInt64.ofNat (get arch m node .owner)
  data := get arch m node .data
  size := get arch m node .size
  children := fun i => get arch m node (.child i)
  childCount := get arch m node .childCount

/-- A store of a read to the buffer `out`, whose source is the file's data. -/
def perform (data out : Nat) (m : Mem) : OutStore → Mem
  | .copy i => Function.update m (out + i) (m (data + i))
  | .terminate i => Function.update m (out + i) 0

/-- The result and the memory that `emulated_fs_read` leaves. -/
def emulatedFsRead (arch : Arch) (m : Mem) (file out : Ptr) (max : UInt32) : Int × Mem :=
  let (count, stores) := Fs.emulatedFsRead (loadNode arch m file) max
  (count, stores.foldl (perform (get arch m file .data) out) m)

variable {arch : Arch} {m m' : Mem} {node : Ptr} {f g : NodeField} {v : Nat}

theorem NodeField.inside (arch : Arch) (inStruct : f.InStruct) :
    32 ≤ f.offset arch ∧ f.offset arch + f.width arch ≤ sizeofNode arch := by
  cases f with
  | child i =>
      have below : i < 64 := inStruct
      cases arch <;> simp only [offset, width, Arch.wordBytes, sizeofNode] <;> omega
  | _ => cases arch <;> decide

theorem NodeField.apart (arch : Arch) (inF : f.InStruct) (inG : g.InStruct) (distinct : f ≠ g) :
    f.offset arch + f.width arch ≤ g.offset arch ∨
    g.offset arch + g.width arch ≤ f.offset arch := by
  simp only [InStruct] at inF inG
  cases arch <;> cases f <;> cases g <;>
    simp only [ne_eq, child.injEq, not_true_eq_false, offset, width, Arch.wordBytes] at * <;> omega

theorem set_changesIn (inStruct : f.InStruct) :
    ChangesIn m (set arch m node f v) node (sizeofNode arch) := by
  have inside := f.inside arch inStruct
  exact (store_changesIn m _ _ v).mono (Nat.le_add_right _ _) (by omega)

theorem get_congr (inStruct : f.InStruct) (same : AgreeOn m m' node (node + sizeofNode arch)) :
    get arch m' node f = get arch m node f := by
  have inside := f.inside arch inStruct
  exact load_congr (same.mono (Nat.le_add_right _ _) (by omega))

theorem get_set_self (fits : v < 256 ^ f.width arch) :
    get arch (set arch m node f v) node f = v := by
  rw [get, set, load_store_same, Nat.mod_eq_of_lt fits]

theorem get_set_of_ne (inF : f.InStruct) (inG : g.InStruct) (distinct : f ≠ g) :
    get arch (set arch m node f v) node g = get arch m node g := by
  have apart := NodeField.apart arch inF inG distinct
  exact load_store_disjoint m _ _ _ (by omega)

end AurorOS.Fs.Bytes
