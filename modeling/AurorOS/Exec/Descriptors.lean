import AurorOS.Fs.Model
import AurorOS.Lib.LinkedList
import AurorOS.Lib.Outcome

/-! # File descriptors

The descriptors form a singly linked list in the order of their creation, each with
the number that `id_counter` had then.  A number is looked up from the front.
-/

namespace AurorOS.Exec

open Fs LinkedList Outcome

/-- `use_fs_node` and the union it tells apart: a node, or the addresses of two
    functions. -/
inductive FdTarget where
  | path (node : Ptr)
  | iofunc (read write : Ptr)
  deriving DecidableEq, Repr

structure FileDescriptor where
  id : UInt64
  openedByProcess : UInt64
  openedByUser : UInt64
  target : FdTarget
  next : Ptr
  deriving DecidableEq

/-- The descriptors by their addresses, `first_fd` and `id_counter`. -/
structure FdTable where
  descriptors : Ptr → Option FileDescriptor
  firstFd : Ptr
  idCounter : UInt64

namespace FdTable

/-- The table the kernel starts with. -/
def boot : FdTable where
  descriptors := fun _ => none
  firstFd := 0
  idCounter := 1

def deref (t : FdTable) (p : Ptr) : Except Fault FileDescriptor :=
  match t.descriptors p with
  | some fd => .ok fd
  | none => .error .invalidAccess

/-- A budget for a walk along the list, which has fewer descriptors than numbers
    have been given out. -/
def budget (t : FdTable) : Nat := t.idCounter.toNat

end FdTable

/-- The loop of `get_fd_from_id` at `current`. -/
def findLoop (t : FdTable) (id : UInt64) : Nat → Ptr → Except Fault Ptr
  | 0, _ => .error .outOfFuel
  | fuel + 1, current => do
      let fd ← t.deref current
      if fd.id = id then return current
      if fd.next = 0 then return 0
      findLoop t id fuel fd.next

def getFdFromId (t : FdTable) (id : UInt64) : Except Fault Ptr :=
  if t.firstFd = 0 then .ok 0 else findLoop t id t.budget t.firstFd

/-- `while (current->next != NULL) current = current->next;` -/
def lastLoop (t : FdTable) : Nat → Ptr → Except Fault Ptr
  | 0, _ => .error .outOfFuel
  | fuel + 1, current => do
      let fd ← t.deref current
      if fd.next ≠ 0 then lastLoop t fuel fd.next else return current

/-- Both kinds of descriptors are created alike; `block` is the result of `malloc`. -/
def createFd (target : FdTarget) (t : FdTable) (block : Ptr) (userId procId : UInt64) :
    Except Fault (Ptr × FdTable) := do
  if block = 0 then return (0, t)
  let fd : FileDescriptor :=
    { id := t.idCounter, openedByProcess := procId, openedByUser := userId, target := target,
      next := 0 }
  let t := { t with
    descriptors := Function.update t.descriptors block (some fd)
    idCounter := t.idCounter + 1 }
  if t.firstFd ≠ 0 then
    let current ← lastLoop t t.budget t.firstFd
    let last ← t.deref current
    return (block, { t with
      descriptors := Function.update t.descriptors current (some { last with next := block }) })
  else return (block, { t with firstFd := block })

def createNewFsnodeFd (node : Ptr) := createFd (.path node)

def createNewIofuncFd (read write : Ptr) := createFd (.iofunc read write)

variable {t t' : FdTable} {p q block : Ptr} {ps : List Ptr} {id userId procId : UInt64}
  {target : FdTarget} {fd : FileDescriptor} {fuel : Nat}

/-- The list visits the addresses of `ps`. -/
def FdTable.Lists (t : FdTable) (ps : List Ptr) : Prop :=
  Chain t.descriptors FileDescriptor.next 0 t.firstFd ps

/-- The `i`-th descriptor of the list has number `i + 1`, and the counter is at the
    number after the last one. -/
structure Numbered (t : FdTable) (ps : List Ptr) : Prop where
  lists : t.Lists ps
  counter : t.idCounter.toNat = ps.length + 1
  ids : ∀ i fd, (inside : i < ps.length) → t.descriptors ps[i] = some fd → fd.id.toNat = i + 1

theorem boot_numbered : Numbered FdTable.boot [] := by
  refine ⟨rfl, rfl, ?_⟩
  intro i fd inside
  exact absurd inside (Nat.not_lt_zero i)

theorem fd_deref_eq_ok : t.deref p = .ok fd ↔ t.descriptors p = some fd := by
  rw [FdTable.deref]
  cases t.descriptors p <;> simp

theorem fd_deref_returns (t : FdTable) (p : Ptr) : t.deref p ≠ .error .outOfFuel := by
  rw [FdTable.deref]
  split <;> exact nofun

/-- The loop stops at the first descriptor with the number. -/
theorem findLoop_chain (chain : Chain t.descriptors FileDescriptor.next 0 p ps) (present : p ≠ 0)
    (enough : ps.length ≤ fuel) :
    ∃ r, findLoop t id fuel p = .ok r ∧
      ((r = 0 ∧ ∀ q ∈ ps, ∀ fd, t.descriptors q = some fd → fd.id ≠ id) ∨
        r ∈ ps ∧ ∃ fd, t.descriptors r = some fd ∧ fd.id = id) := by
  induction fuel generalizing p ps with
  | zero =>
      obtain ⟨_, _, rfl, _⟩ := chain.cons_of_ne_null present
      cases enough
  | succ fuel ih =>
      obtain ⟨fd, rest, rfl, here, behind⟩ := chain.cons_of_ne_null present
      rw [List.length_cons] at enough
      have step : findLoop t id (fuel + 1) p =
          if fd.id = id then .ok p else if fd.next = 0 then .ok 0
            else findLoop t id fuel fd.next := by
        rw [findLoop, fd_deref_eq_ok.mpr here]
        rfl
      rw [step]
      by_cases same : fd.id = id
      · rw [if_pos same]
        exact ⟨p, rfl, .inr ⟨List.mem_cons_self, fd, here, same⟩⟩
      · rw [if_neg same]
        have notHere : ∀ fd', t.descriptors p = some fd' → fd'.id ≠ id := by
          intro fd' again
          obtain rfl := Option.some.inj (here.symm.trans again)
          exact same
        by_cases ends : fd.next = 0
        · rw [if_pos ends]
          rw [ends] at behind
          obtain rfl := chain_null.mp behind
          refine ⟨0, rfl, .inl ⟨rfl, ?_⟩⟩
          intro q member
          obtain rfl := List.mem_singleton.mp member
          exact notHere
        · rw [if_neg ends]
          obtain ⟨r, returned, result⟩ := ih behind ends (by omega)
          refine ⟨r, returned, ?_⟩
          cases result with
          | inl missing =>
              refine .inl ⟨missing.1, ?_⟩
              intro q member
              cases List.mem_cons.mp member with
              | inl atHead => exact atHead ▸ notHere
              | inr later => exact missing.2 q later
          | inr found => exact .inr ⟨List.mem_cons_of_mem p found.1, found.2⟩

namespace Numbered

variable (numbered : Numbered t ps)

include numbered

/-- A look-up returns a descriptor of the list with the number, or `NULL` if there is
    none. -/
theorem getFdFromId_cases (id : UInt64) :
    ∃ r, getFdFromId t id = .ok r ∧
      ((r = 0 ∧ ∀ q ∈ ps, ∀ fd, t.descriptors q = some fd → fd.id ≠ id) ∨
        r ∈ ps ∧ ∃ fd, t.descriptors r = some fd ∧ fd.id = id) := by
  have lists := numbered.lists
  rw [FdTable.Lists] at lists
  rw [getFdFromId]
  by_cases empty : t.firstFd = 0
  · rw [if_pos empty]
    rw [empty] at lists
    obtain rfl := chain_null.mp lists
    exact ⟨0, rfl, .inl ⟨rfl, nofun⟩⟩
  · rw [if_neg empty]
    have enough : ps.length ≤ t.budget := by
      have counter := numbered.counter
      rw [FdTable.budget]
      omega
    exact findLoop_chain lists empty enough

/-- The descriptor at a position is the one that its number finds. -/
theorem getFdFromId_eq {i : Nat} (inside : i < ps.length) (numberIs : id.toNat = i + 1) :
    getFdFromId t id = .ok ps[i] := by
  obtain ⟨r, returned, result⟩ := numbered.getFdFromId_cases id
  cases result with
  | inl missing =>
      obtain ⟨_, fd, here⟩ := Chain.live numbered.lists (List.getElem_mem inside)
      have idIs := numbered.ids i fd inside here
      exact absurd (UInt64.toNat_inj.mp (idIs.trans numberIs.symm))
        (missing.2 _ (List.getElem_mem inside) fd here)
  | inr found =>
      obtain ⟨member, fd, here, rfl⟩ := found
      obtain ⟨k, insideK, rfl⟩ := List.getElem_of_mem member
      have idIs := numbered.ids k fd insideK here
      obtain rfl : k = i := by omega
      exact returned

end Numbered

/-- The walk to the end of the list. -/
theorem lastLoop_chain (chain : Chain t.descriptors FileDescriptor.next 0 p (ps ++ [q]))
    (enough : ps.length < fuel) :
    lastLoop t fuel p = .ok q := by
  induction ps generalizing p fuel with
  | nil =>
      obtain ⟨rfl, _, fd, here, ends⟩ := chain
      obtain ⟨fuel, rfl⟩ : ∃ k, fuel = k + 1 := ⟨fuel - 1, by rw [List.length_nil] at enough; omega⟩
      have isLast : fd.next = 0 := ends
      rw [lastLoop, fd_deref_eq_ok.mpr here]
      simp only [bind, Except.bind, isLast, ne_eq, not_true_eq_false, if_false]
      rfl
  | cons r front ih =>
      obtain ⟨rfl, _, fd, here, behind⟩ := chain
      rw [List.length_cons] at enough
      obtain ⟨fuel, rfl⟩ : ∃ k, fuel = k + 1 := ⟨fuel - 1, by omega⟩
      have more : fd.next ≠ 0 := by
        intro ends
        rw [ends] at behind
        cases (List.append_eq_nil_iff.mp (chain_null.mp behind)).2
      rw [lastLoop, fd_deref_eq_ok.mpr here]
      simp only [bind, Except.bind, ne_eq, more, not_false_eq_true, if_true]
      exact ih behind (by omega)

/-- A descriptor is at the block that `malloc` gave for it. -/
theorem createFd_returns (created : createFd target t block userId procId = .ok (p, t'))
    (nonnull : block ≠ 0) :
    p = block := by
  rw [createFd, if_neg nonnull] at created
  dsimp only at created
  split at created
  · obtain ⟨_, _, created⟩ := bind_eq_ok.mp created
    obtain ⟨_, _, created⟩ := bind_eq_ok.mp created
    exact (Prod.mk.inj (pure_eq_ok.mp created)).1.symm
  · exact (Prod.mk.inj (pure_eq_ok.mp created)).1.symm

/-- What creating a descriptor does to the table: the new one is appended, every
    other keeps its number, its target and its owners. -/
structure Appended (t t' : FdTable) (ps : List Ptr) (block : Ptr) (fd : FileDescriptor) : Prop where
  numbered : Numbered t' (ps ++ [block])
  new : t'.descriptors block = some fd
  old : ∀ p ∈ ps, ∀ d, t.descriptors p = some d →
    ∃ next, t'.descriptors p = some { d with next := next }

/-- A descriptor of the table has the new target, or it has been there with its target. -/
theorem createFd_targets (created : createFd target t block userId procId = .ok (p, t'))
    (here : t'.descriptors q = some fd) :
    fd.target = target ∨ ∃ fd', t.descriptors q = some fd' ∧ fd'.target = fd.target := by
  rw [createFd] at created
  split at created
  · obtain ⟨_, rfl⟩ := Prod.mk.inj (pure_eq_ok.mp created)
    exact .inr ⟨fd, here, rfl⟩
  dsimp only at created
  -- the table with the new descriptor, before it is linked
  have inserted :
    ∀ q fd, Function.update t.descriptors block (some ⟨t.idCounter, procId, userId, target, 0⟩) q =
      some fd →
      fd.target = target ∨ ∃ fd', t.descriptors q = some fd' ∧ fd'.target = fd.target := by
    intro q fd here
    by_cases same : q = block
    · rw [same, Function.update_self] at here
      obtain rfl := Option.some.inj here
      exact .inl rfl
    · rw [Function.update_of_ne same] at here
      exact .inr ⟨fd, here, rfl⟩
  split at created
  · obtain ⟨current, _, created⟩ := bind_eq_ok.mp created
    obtain ⟨last, atCurrent, created⟩ := bind_eq_ok.mp created
    rw [fd_deref_eq_ok] at atCurrent
    obtain ⟨_, rfl⟩ := Prod.mk.inj (pure_eq_ok.mp created)
    dsimp only at here
    by_cases same : q = current
    · subst same
      rw [Function.update_self] at here
      obtain rfl := Option.some.inj here
      exact inserted q last atCurrent
    · rw [Function.update_of_ne same] at here
      exact inserted q fd here
  · obtain ⟨_, rfl⟩ := Prod.mk.inj (pure_eq_ok.mp created)
    exact inserted q fd here

/-- The table with a new descriptor to which no other points yet. -/
def FdTable.withNew (t : FdTable) (block : Ptr) (fd : FileDescriptor) : FdTable :=
  { t with
    descriptors := Function.update t.descriptors block (some fd)
    idCounter := t.idCounter + 1 }

/-- The table in which `last` at `q` points to the new descriptor. -/
def FdTable.linked (t : FdTable) (q : Ptr) (last : FileDescriptor) (block : Ptr) : FdTable :=
  { t with descriptors := Function.update t.descriptors q (some { last with next := block }) }

theorem createFd_eq (target : FdTarget) (t : FdTable) (userId procId : UInt64)
    (nonnull : block ≠ 0) :
    createFd target t block userId procId = (do
      let t := t.withNew block ⟨t.idCounter, procId, userId, target, 0⟩
      if t.firstFd ≠ 0 then
        let current ← lastLoop t t.budget t.firstFd
        let last ← t.deref current
        return (block, t.linked current last block)
      else return (block, { t with firstFd := block })) := by
  rw [createFd, if_neg nonnull]
  rfl

namespace Numbered

variable (numbered : Numbered t ps)

include numbered

theorem absent (fresh : t.descriptors block = none) : block ∉ ps := by
  intro member
  obtain ⟨_, d, here⟩ := Chain.live numbered.lists member
  cases fresh.symm.trans here

theorem kept_withNew (fresh : t.descriptors block = none) (member : p ∈ ps) :
    (t.withNew block fd).descriptors p = t.descriptors p := by
  have other : p ≠ block := fun same => numbered.absent fresh (same ▸ member)
  exact Function.update_of_ne other _ _

theorem chain_withNew (fresh : t.descriptors block = none) :
    Chain (t.withNew block fd).descriptors FileDescriptor.next 0 t.firstFd ps :=
  Chain.congr numbered.lists fun _ member => numbered.kept_withNew fresh member

theorem counter_withNew (block : Ptr) (fd : FileDescriptor) (room : ps.length + 2 < 2 ^ 64) :
    (t.withNew block fd).idCounter.toNat = ps.length + 2 := by
  have before := numbered.counter
  change (t.idCounter + 1).toNat = _
  rw [UInt64.toNat_add, before]
  exact Nat.mod_eq_of_lt room

end Numbered

/-- The first descriptor of an empty table. -/
theorem appended_first (numbered : Numbered t []) (nonnull : block ≠ 0) (idIs : fd.id = t.idCounter)
    (ends : fd.next = 0) :
    Appended t { t.withNew block fd with firstFd := block } [] block fd := by
  have atBlock : (t.withNew block fd).descriptors block = some fd := Function.update_self ..
  refine ⟨⟨⟨rfl, nonnull, fd, atBlock, ends⟩, numbered.counter_withNew block fd (by decide), ?_⟩,
    atBlock, nofun⟩
  intro i d inside here
  obtain rfl : i = 0 := by simpa using inside
  obtain rfl := Option.some.inj (atBlock.symm.trans here)
  rw [idIs]
  exact numbered.counter

/-- A descriptor behind the last one. -/
theorem appended_last {front : List Ptr} {last : FileDescriptor}
    (numbered : Numbered t (front ++ [q])) (nonnull : block ≠ 0)
    (fresh : t.descriptors block = none) (room : (front ++ [q]).length + 2 < 2 ^ 64)
    (idIs : fd.id = t.idCounter) (ends : fd.next = 0) (atLast : t.descriptors q = some last) :
    Appended t ((t.withNew block fd).linked q last block) (front ++ [q]) block fd := by
  have isLast : q ∈ front ++ [q] := List.mem_append_right _ List.mem_cons_self
  have absent := numbered.absent fresh
  have chain : Chain (t.withNew block fd).descriptors FileDescriptor.next 0 t.firstFd
      (front ++ [q]) :=
    numbered.chain_withNew fresh
  have notBlock : block ≠ q := fun same => absent (same ▸ isLast)
  have atNew : ((t.withNew block fd).linked q last block).descriptors block = some fd :=
    (Function.update_of_ne notBlock _ _).trans (Function.update_self ..)
  have atQ : ((t.withNew block fd).linked q last block).descriptors q =
      some { last with next := block } :=
    Function.update_self ..
  have linked : ∀ p, p ≠ q →
      ((t.withNew block fd).linked q last block).descriptors p =
      (t.withNew block fd).descriptors p :=
    fun p other => Function.update_of_ne other _ _
  have others : ∀ p ∈ front ++ [q], p ≠ q →
      ((t.withNew block fd).linked q last block).descriptors p = t.descriptors p :=
    fun p member other => (linked p other).trans (numbered.kept_withNew fresh member)
  have before : ∀ p ∈ front, p ≠ q := by
    rintro p member rfl
    exact List.disjoint_of_nodup_append chain.nodup member List.mem_cons_self
  have old : ∀ p ∈ front ++ [q], ∀ d, t.descriptors p = some d →
      ∃ next, ((t.withNew block fd).linked q last block).descriptors p =
      some { d with next := next } := by
    intro p member d here
    by_cases atEnd : p = q
    · subst atEnd
      obtain rfl := Option.some.inj (atLast.symm.trans here)
      exact ⟨block, atQ⟩
    · exact ⟨d.next, (others p member atEnd).trans here⟩
  refine ⟨⟨?_, ?_, ?_⟩, atNew, old⟩
  · exact chain.append_last absent nonnull atQ rfl atNew ends fun p member =>
      linked p (before p member)
  · rw [List.length_append]
    exact numbered.counter_withNew block fd room
  · intro i d inside here
    by_cases new : i < (front ++ [q]).length
    · rw [List.getElem_append_left new] at here
      have member := List.getElem_mem new
      obtain ⟨_, d', present⟩ := Chain.live numbered.lists member
      obtain ⟨next, there⟩ := old _ member d' present
      obtain rfl := Option.some.inj (there.symm.trans here)
      exact numbered.ids i d' new present
    · obtain rfl : i = (front ++ [q]).length := by
        rw [@List.length_append _ _ [block], List.length_singleton] at inside
        omega
      rw [List.getElem_concat_length rfl, atNew] at here
      obtain rfl := Option.some.inj here
      rw [idIs]
      exact numbered.counter

/-- With memory for it and a number left, a descriptor is created. -/
theorem createFd_appends (numbered : Numbered t ps) (target : FdTarget) (userId procId : UInt64)
    (nonnull : block ≠ 0) (fresh : t.descriptors block = none) (room : ps.length + 2 < 2 ^ 64) :
    ∃ t', createFd target t block userId procId = .ok (block, t') ∧
      Appended t t' ps block
        { id := t.idCounter, openedByProcess := procId, openedByUser := userId, target := target,
          next := 0 } := by
  have chain :=
    @Numbered.chain_withNew t block ps ⟨t.idCounter, procId, userId, target, 0⟩ numbered fresh
  rw [createFd_eq target t userId procId nonnull]
  by_cases empty : t.firstFd = 0
  · rw [empty] at chain
    obtain rfl := chain_null.mp chain
    exact ⟨_, if_neg (not_not.mpr empty), appended_first numbered nonnull rfl rfl⟩
  · obtain ⟨front, q, rfl⟩ : ∃ front q, ps = front ++ [q] := by
      rcases List.eq_nil_or_concat ps with rfl | ⟨front, q, split⟩
      · exact absurd chain empty
      · exact ⟨front, q, split.trans List.concat_eq_append⟩
    have isLast : q ∈ front ++ [q] := List.mem_append_right _ List.mem_cons_self
    obtain ⟨_, last, atLast⟩ := Chain.live numbered.lists isLast
    refine ⟨_, (if_pos empty).trans ?_, appended_last numbered nonnull fresh room rfl rfl atLast⟩
    refine bind_eq_ok.mpr ⟨q, lastLoop_chain chain ?_,
      bind_eq_ok.mpr ⟨last, fd_deref_eq_ok.mpr ?_, rfl⟩⟩
    · rw [FdTable.budget, numbered.counter_withNew _ _ room, List.length_append]
      omega
    · exact (numbered.kept_withNew fresh isLast).trans atLast

end AurorOS.Exec
