import AurorOS.Machine

/-! # The emulated file system

Nodes are records in memory that point at their parent and their children.  The
heap is abstract here: live nodes and data buffers are found by their addresses,
`malloc` is represented by the address it returned, and `free` takes a block out of
the maps and keeps its argument on record.
-/

namespace AurorOS.Fs

/-- An address; 0 is `NULL`. -/
abbrev Ptr := Nat

/-- `emulated_fs_node_type`. -/
inductive NodeType where
  | file
  | dir
  deriving DecidableEq, Repr

/-- `emulated_fs_node`.  The array `children` has 64 elements. -/
structure FsNode where
  name : List UInt8
  type : NodeType
  parent : Ptr
  permissions : UInt16
  owner : UInt64
  data : Ptr
  size : Nat
  children : Nat → Ptr
  childCount : Nat

/-- The argument of a call to `free`. -/
inductive Freed where
  | node (p : Ptr)
  | data (p : Ptr)
  | children (p : Ptr)
  deriving DecidableEq, Repr

structure FsState where
  nodes : Ptr → Option FsNode
  bufs : Ptr → Option (List UInt8)
  fsRoot : Ptr
  freed : List Freed

namespace FsState

def deref (s : FsState) (p : Ptr) : Except Fault FsNode :=
  match s.nodes p with
  | some n => .ok n
  | none => .error .invalidAccess

def setNode (s : FsState) (p : Ptr) (n : FsNode) : FsState :=
  { s with nodes := Function.update s.nodes p (some n) }

theorem nodes_setNode_self (s : FsState) (p : Ptr) (n : FsNode) :
    (s.setNode p n).nodes p = some n :=
  Function.update_self ..

theorem nodes_setNode_of_ne {x p : Ptr} (s : FsState) (n : FsNode) (other : x ≠ p) :
    (s.setNode p n).nodes x = s.nodes x :=
  Function.update_of_ne other _ _

/-- `free(node)`. -/
def freeNode (s : FsState) (p : Ptr) : FsState :=
  { s with nodes := Function.update s.nodes p none, freed := .node p :: s.freed }

/-- `free(node->data)`. -/
def freeData (s : FsState) (p : Ptr) : FsState :=
  { s with bufs := Function.update s.bufs p none, freed := .data p :: s.freed }

theorem bufs_freeData_self (s : FsState) (p : Ptr) : (s.freeData p).bufs p = none :=
  Function.update_self ..

theorem bufs_freeData_of_ne {x p : Ptr} (s : FsState) (other : x ≠ p) :
    (s.freeData p).bufs x = s.bufs x :=
  Function.update_of_ne other _ _

/-- `free(node->children)`, an address inside the node.  The call is on record only.  It does
    nothing to the maps as long as it finds no link in front of the array, where it looks
    for the header of a block. -/
def freeChildren (s : FsState) (p : Ptr) : FsState := { s with freed := .children p :: s.freed }

end FsState

/-- The link that `free(node->children)` finds: the fields in front of the array lie where a
    header has the address of the next block. -/
def strayNext : Arch → UInt64 → Nat
  -- the upper half of `owner`
  | .x86, owner => owner.toNat / 2 ^ 32
  | .x86_64, owner => owner.toNat

open FsState

theorem deref_eq_ok {s : FsState} {p : Ptr} {n : FsNode} :
    s.deref p = .ok n ↔ s.nodes p = some n := by
  rw [deref]
  cases s.nodes p <;> simp

def defaultUmask : UInt16 := 0o022

/-- `MK_DEFAULT_PERMISSIONS`. -/
def mkDefaultPermissions (base : UInt16) : UInt16 := base &&& ~~~defaultUmask

/-- Both kinds of nodes are created alike; `block` is the result of `malloc`. -/
def createNode (type : NodeType) (s : FsState) (block : Ptr) (name : List UInt8) (parent : Ptr)
    (owner : UInt64) :
    Except Fault (Ptr × FsState) :=
  -- `strcpy` into an array of 32 characters, terminator included
  if name.length < 32 then
    .ok (block, s.setNode block
      { name := name, type := type, parent := parent, permissions := mkDefaultPermissions 0o777,
        owner := owner, data := 0, size := 0, children := fun _ => 0, childCount := 0 })
  else .error .invalidAccess

def emulatedFsCreateDirNode := createNode .dir

def emulatedFsCreateFileNode := createNode .file

def emulatedFsAddChild (s : FsState) (dir child : Ptr) : Except Fault FsState := do
  let d ← s.deref dir
  if d.type ≠ .dir then return s
  if d.childCount < 64 then
    let s := s.setNode dir
      { d with
        children := Function.update d.children d.childCount child
        childCount := d.childCount + 1 }
    let c ← s.deref child
    return s.setNode child { c with parent := dir }
  else .error .invalidAccess

/-- `if (file->size > 0) free(file->data);` -/
def releaseData (s : FsState) (n : FsNode) : FsState := if n.size > 0 then s.freeData n.data else s

/-- `data` holds the `size` bytes to write; `block` is the result of `malloc(size)`,
    which is `NULL` for no bytes. -/
def emulatedFsWrite (s : FsState) (file : Ptr) (data : List UInt8) (block : Ptr) :
    Except Fault FsState := do
  let n ← s.deref file
  if n.type ≠ .file then return s
  let s := releaseData s n
  let s := if data = [] then s else { s with bufs := Function.update s.bufs block (some data) }
  return s.setNode file { n with data := block, size := data.length }

/-- `node->children[i]`. -/
def readChild (n : FsNode) (i : Nat) : Except Fault Ptr :=
  if i < 64 then .ok (n.children i) else .error .invalidAccess

/-- The loop of `fs_remove_child` from index `i` on, with `left` rounds left to do. -/
def removeLoop (child : Ptr) : Nat → Nat → Bool → FsNode → Except Fault (Bool × FsNode)
  | 0, _, found, n => .ok (found, n)
  | left + 1, i, found, n => do
      let c ← readChild n i
      let found := found || c == child
      if found ∧ i < n.childCount - 1 then
        let next ← readChild n (i + 1)
        removeLoop child left (i + 1) found { n with children := Function.update n.children i next }
      else removeLoop child left (i + 1) found n

def fsRemoveChild (s : FsState) (parent child : Ptr) : Except Fault FsState := do
  if parent = 0 ∨ child = 0 then return s
  let n ← s.deref parent
  if n.type ≠ .dir then return s
  let (found, n) ← removeLoop child n.childCount 0 false n
  return s.setNode parent (if found then { n with childCount := n.childCount - 1 } else n)

mutual

/-- `emulated_fs_delete` within a budget of nested calls. -/
def emulatedFsDelete : Nat → FsState → Ptr → Except Fault FsState
  | 0, _, _ => .error .outOfFuel
  | fuel + 1, s, node =>
      if node = 0 then .ok s
      else do
        let n ← s.deref node
        match n.type with
        | .dir =>
            let s ← emulatedDeleteLoop fuel s node 0
            let n ← s.deref node
            return ((s.freeChildren node).setNode node { n with childCount := 0 }).freeNode node
        | .file => return ((s.freeData n.data).setNode node { n with data := 0 }).freeNode node

/-- Its loop over the children from index `i` on. -/
def emulatedDeleteLoop : Nat → FsState → Ptr → Nat → Except Fault FsState
  | 0, _, _, _ => .error .outOfFuel
  | fuel + 1, s, node, i => do
      let n ← s.deref node
      if i < n.childCount then
        let s ← emulatedFsDelete fuel s (← readChild n i)
        emulatedDeleteLoop fuel s node (i + 1)
      else return s

end

mutual

/-- `fs_delete` within a budget of nested calls and loop rounds. -/
def fsDelete : Nat → FsState → Ptr → Except Fault FsState
  | 0, _, _ => .error .outOfFuel
  | fuel + 1, s, node =>
      if node = 0 then .ok s
      else do
        let n ← s.deref node
        let s ← if n.type = .dir then deleteChildren fuel s node else .ok s
        let n ← s.deref node
        let s ← if n.parent ≠ 0 then fsRemoveChild s n.parent node else .ok s
        emulatedFsDelete fuel s node

/-- `while (node->child_count > 0) fs_delete(node->children[0]);` -/
def deleteChildren : Nat → FsState → Ptr → Except Fault FsState
  | 0, _, _ => .error .outOfFuel
  | fuel + 1, s, node => do
      let n ← s.deref node
      if n.childCount > 0 then
        let s ← fsDelete fuel s (← readChild n 0)
        deleteChildren fuel s node
      else return s

end

/-- This and the next three functions of `fs_general.c` hand over to the emulated file system. -/
def fsWrite := emulatedFsWrite

def fsCreateDirNode := emulatedFsCreateDirNode

def fsCreateFileNode := emulatedFsCreateFileNode

def fsAddChild := emulatedFsAddChild

/-- `GET_PERMS`: three bits each for the owner, the group and everybody else. -/
def getPerms (isOwner inGroup : Bool) (permissions : UInt16) : UInt16 :=
  if isOwner then (permissions >>> 6) &&& 7
  else if inGroup then (permissions >>> 3) &&& 7
  else permissions &&& 7

/-- The class of the user at the node.  There are no groups yet: `is_owner` stands for `in_group` as
    well. -/
def permsOf (user : UInt64) (n : FsNode) : UInt16 :=
  let isOwner := n.owner == user
  let inGroup := isOwner
  getPerms isOwner inGroup n.permissions

/-- `GET_PERMS(…) & 4`. -/
def Readable (user : UInt64) (n : FsNode) : Prop := permsOf user n &&& 4 ≠ 0

/-- `GET_PERMS(…) & 2`. -/
def Writable (user : UInt64) (n : FsNode) : Prop := permsOf user n &&& 2 ≠ 0

instance (user : UInt64) (n : FsNode) : Decidable (Readable user n) :=
  inferInstanceAs (Decidable (_ ≠ _))

instance (user : UInt64) (n : FsNode) : Decidable (Writable user n) :=
  inferInstanceAs (Decidable (_ ≠ _))

end AurorOS.Fs
