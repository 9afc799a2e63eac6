import AurorOS.Fs.Actions
import AurorOS.Fs.Components

/-! # Room for children

The array `children` has 64 elements, and the functions that use it test no index.  The
indices are written down here as the functions come to them.
-/

namespace AurorOS.Fs

open FsState Outcome

/-- Every count is one that the array can hold. -/
def Capacity (s : FsState) : Prop := ∀ x n, s.nodes x = some n → n.childCount ≤ 64

variable {α : Type} {s s' : FsState} {a : Action} {n d : FsNode} {p q x current child : Ptr}
  {path token name : CStr} {tokens : List CStr} {found : Bool} {i left fuel : Nat} {P : Nat → Prop}

/-- What is come to after a computation that has returned. -/
def after (x : Except Fault α) (accesses : α → List Nat) : List Nat :=
  match x with
  | .ok a => accesses a
  | .error _ => []

theorem forall_after {x : Except Fault α} {accesses : α → List Nat} :
    (∀ i ∈ after x accesses, P i) ↔ ∀ a, x = .ok a → ∀ i ∈ accesses a, P i := by
  cases x with
  | ok a => simp [after]
  | error fault => simp [after]

/-- The loop of `emulated_fs_find_in`. -/
def findAccesses (s : FsState) (d : FsNode) (name : CStr) : Nat → Nat → List Nat
  | 0, _ => []
  | left + 1, i =>
      i :: after (readChild d i) fun child => after (s.deref child) fun c =>
        if c.name = name then [] else findAccesses s d name left (i + 1)

def findInAccesses (s : FsState) (dir : Ptr) (name : CStr) : List Nat :=
  after (s.deref dir) fun d => if d.type ≠ .dir then [] else findAccesses s d name d.childCount 0

def stepAccesses (s : FsState) (token : CStr) (current : Ptr) : List Nat :=
  if token.length < 32 ∧ token ≠ [] ∧ token ≠ dot ∧
    token ≠ dotDot then findInAccesses s current token else []

def walkAccesses (s : FsState) : List CStr → Ptr → List Nat
  | [], _ => []
  | token :: rest, current =>
      stepAccesses s token current ++ after (stepInto s token current) fun next =>
        match next with
        | none => []
        | some next => walkAccesses s rest next

def resolveAccesses (s : FsState) (path : CStr) (current : Ptr) : List Nat :=
  walkAccesses s (components path) (startOf s path current)

/-- The store of `emulated_fs_add_child`. -/
def addAccesses (s : FsState) (dir : Ptr) : List Nat :=
  after (s.deref dir) fun d => if d.type ≠ .dir then [] else [d.childCount]

/-- The loop of `fs_remove_child`; where it moves an element, it reads the next one and
    stores to this one. -/
def removeLoopAccesses (child : Ptr) : Nat → Nat → Bool → FsNode → List Nat
  | 0, _, _, _ => []
  | left + 1, i, found, n =>
      i :: after (readChild n i) fun c =>
        let found := found || c == child
        if found ∧ i < n.childCount - 1 then
          (i + 1) :: i :: after (readChild n (i + 1)) fun next =>
            removeLoopAccesses child left (i + 1) found { n with
              children := Function.update n.children i next }
        else removeLoopAccesses child left (i + 1) found n

def removeAccesses (s : FsState) (parent child : Ptr) : List Nat :=
  if parent = 0 ∨ child = 0 then []
  else
    after (s.deref parent) fun n =>
      if n.type ≠ .dir then [] else removeLoopAccesses child n.childCount 0 false n

mutual

/-- `emulated_fs_delete`, which is left with nothing to do for the children. -/
def emulatedDeleteAccesses : Nat → FsState → Ptr → List Nat
  | 0, _, _ => []
  | fuel + 1, s, node =>
      if node = 0 then []
      else after (s.deref node) fun n =>
        match n.type with
        | .dir => emulatedLoopAccesses fuel s node 0
        | .file => []

def emulatedLoopAccesses : Nat → FsState → Ptr → Nat → List Nat
  | 0, _, _, _ => []
  | fuel + 1, s, node, i =>
      after (s.deref node) fun n =>
        if i < n.childCount then
          i :: after (readChild n i) fun c =>
            emulatedDeleteAccesses fuel s c ++ after (emulatedFsDelete fuel s c) fun s =>
              emulatedLoopAccesses fuel s node (i + 1)
        else []

end

mutual

def deleteAccesses : Nat → FsState → Ptr → List Nat
  | 0, _, _ => []
  | fuel + 1, s, node =>
      if node = 0 then []
      else after (s.deref node) fun n =>
        (if n.type = .dir then deleteChildrenAccesses fuel s node else []) ++
          after (if n.type = .dir then deleteChildren fuel s node else .ok s) fun s =>
            after (s.deref node) fun n =>
              (if n.parent ≠ 0 then removeAccesses s n.parent node else []) ++
                after (if n.parent ≠ 0 then fsRemoveChild s n.parent node else .ok s) fun s =>
                  emulatedDeleteAccesses fuel s node

def deleteChildrenAccesses : Nat → FsState → Ptr → List Nat
  | 0, _, _ => []
  | fuel + 1, s, node =>
      after (s.deref node) fun n =>
        if n.childCount > 0 then
          0 :: after (readChild n 0) fun c =>
            deleteAccesses fuel s c ++ after (fsDelete fuel s c) fun s =>
              deleteChildrenAccesses fuel s node
        else []

end

/-- One node is replaced or gone. -/
theorem Capacity.update {v : Option FsNode} (capacity : Capacity s)
    (nodes : s'.nodes = Function.update s.nodes p v) (fits : ∀ n, v = some n → n.childCount ≤ 64) :
    Capacity s' := by
  intro x k here
  rw [nodes] at here
  by_cases same : x = p
  · subst same
    rw [Function.update_self] at here
    exact fits k here
  · rw [Function.update_of_ne same] at here
    exact capacity x k here

theorem Capacity.setNode (capacity : Capacity s) (fits : n.childCount ≤ 64) :
    Capacity (s.setNode p n) := by
  refine capacity.update rfl fun k here => ?_
  obtain rfl := Option.some.inj here
  exact fits

theorem elementary_capacity : Elementary fun s s' => Capacity s → Capacity s' where
  refl := fun _ capacity => capacity
  trans := fun first second capacity => second (first capacity)
  unlink := by
    intro s s' p q returned capacity
    rw [fsRemoveChild] at returned
    split at returned
    · obtain rfl := pure_eq_ok.mp returned
      exact capacity
    obtain ⟨n, present, returned⟩ := bind_eq_ok.mp returned
    rw [deref_eq_ok] at present
    split at returned
    · obtain rfl := pure_eq_ok.mp returned
      exact capacity
    obtain ⟨⟨found, n'⟩, loop, returned⟩ := bind_eq_ok.mp returned
    obtain rfl := pure_eq_ok.mp returned
    have count : n'.childCount = n.childCount := by rw [removeLoop_fields p n.childCount loop]
    have before := capacity q n present
    refine capacity.setNode ?_
    split
    · exact Nat.le_trans (Nat.sub_le _ 1) (count ▸ before)
    · exact count ▸ before
  freeDir := by
    intro s p n capacity
    have emptied : Capacity ((s.freeChildren p).setNode p { n with childCount := 0 }) :=
      Capacity.setNode capacity (Nat.zero_le 64)
    exact emptied.update rfl fun n none => by cases none
  freeFile := by
    intro s p n present _ capacity
    have before : n.childCount ≤ 64 := capacity p n present
    have emptied : Capacity ((s.freeData n.data).setNode p { n with data := 0 }) :=
      Capacity.setNode capacity before
    exact emptied.update rfl fun n none => by cases none

/-- Every action keeps the counts within the array. -/
theorem Acts.capacity (acts : Acts s a s') (capacity : Capacity s) : Capacity s' := by
  cases a with
  | create type name parent owner dir block =>
      obtain ⟨d, present, created⟩ := created_of_acts acts
      intro x k here
      by_cases atBlock : x = block
      · obtain ⟨par, leaf⟩ := created.atBlock
        subst atBlock
        obtain rfl := Option.some.inj (leaf.symm.trans here)
        exact Nat.zero_le 64
      by_cases atDir : x = dir
      · subst atDir
        cases kind : d.type with
        | dir =>
            obtain ⟨room, grown⟩ := created.atDir kind
            obtain rfl := Option.some.inj (grown.symm.trans here)
            exact room
        | file =>
            obtain rfl := Option.some.inj ((created.atFile kind).symm.trans here)
            exact capacity x d present
      · exact capacity x k ((created.kept x atBlock atDir).symm.trans here)
  | write file data block =>
      obtain ⟨n, present, written⟩ := written_of_acts acts
      refine capacity.update written.nodes fun k here => ?_
      obtain rfl := Option.some.inj here
      exact capacity file n present
  | chmod p permissions =>
      cases acts with
      | @chmod _ n _ present =>
          have before : n.childCount ≤ 64 := capacity p n present
          exact capacity.setNode before
  | remove p =>
      cases acts with
      | remove _ _ unlinked deleted =>
          have first := elementary_capacity.unlink unlinked capacity
          exact (elementary_capacity.fsDelete _).1 _ _ _ deleted first

theorem findAccesses_lt (fits : i + left ≤ 64) : ∀ k ∈ findAccesses s d name left i, k < 64 := by
  induction left generalizing i with
  | zero => exact List.forall_mem_nil _
  | succ left ih =>
      rw [findAccesses, List.forall_mem_cons]
      refine ⟨by omega, forall_after.mpr fun child _ => forall_after.mpr fun c _ => ?_⟩
      split
      · exact List.forall_mem_nil _
      · exact ih (by omega)

theorem walkAccesses_lt (capacity : Capacity s) : ∀ k ∈ walkAccesses s tokens current, k < 64 := by
  induction tokens generalizing current with
  | nil => exact List.forall_mem_nil _
  | cons token tokens ih =>
      rw [walkAccesses, List.forall_mem_append]
      refine ⟨?_, forall_after.mpr fun next _ => ?_⟩
      · rw [stepAccesses]
        split
        · refine forall_after.mpr fun d here => ?_
          rw [deref_eq_ok] at here
          have fits := capacity current d here
          split
          · exact List.forall_mem_nil _
          · exact findAccesses_lt (by omega)
        · exact List.forall_mem_nil _
      · cases next with
        | none => exact List.forall_mem_nil _
        | some next => exact ih

theorem resolveAccesses_lt (capacity : Capacity s) : ∀ k ∈ resolveAccesses s path current, k < 64 :=
  walkAccesses_lt capacity

theorem removeLoopAccesses_lt (rounds : i + left ≤ n.childCount) (fits : n.childCount ≤ 64) :
    ∀ k ∈ removeLoopAccesses child left i found n, k < 64 := by
  induction left generalizing i found n with
  | zero => exact List.forall_mem_nil _
  | succ left ih =>
      rw [removeLoopAccesses, List.forall_mem_cons]
      refine ⟨by omega, forall_after.mpr fun c _ => ?_⟩
      dsimp only
      split
      · rename_i moves
        rw [List.forall_mem_cons, List.forall_mem_cons]
        refine ⟨by omega, by omega, forall_after.mpr fun next _ => ?_⟩
        exact ih (n := { n with children := Function.update n.children i next })
          (by dsimp only; omega) fits
      · exact ih (by omega) fits

theorem removeAccesses_lt (capacity : Capacity s) : ∀ k ∈ removeAccesses s p q, k < 64 := by
  rw [removeAccesses]
  split
  · exact List.forall_mem_nil _
  · refine forall_after.mpr fun n here => ?_
    rw [deref_eq_ok] at here
    split
    · exact List.forall_mem_nil _
    · exact removeLoopAccesses_lt (by omega) (capacity p n here)

theorem emulatedDeleteAccesses_lt (fuel : Nat) :
    (∀ s p, Capacity s → ∀ k ∈ emulatedDeleteAccesses fuel s p, k < 64) ∧
      ∀ s p i, Capacity s → ∀ k ∈ emulatedLoopAccesses fuel s p i, k < 64 := by
  induction fuel with
  | zero => exact ⟨fun _ _ _ => List.forall_mem_nil _, fun _ _ _ _ => List.forall_mem_nil _⟩
  | succ fuel ih =>
      refine ⟨?_, ?_⟩
      · intro s p capacity
        rw [emulatedDeleteAccesses]
        split
        · exact List.forall_mem_nil _
        · refine forall_after.mpr fun n _ => ?_
          cases n.type with
          | dir => exact ih.2 s p 0 capacity
          | file => exact List.forall_mem_nil _
      · intro s p i capacity
        rw [emulatedLoopAccesses]
        refine forall_after.mpr fun n here => ?_
        rw [deref_eq_ok] at here
        have fits := capacity p n here
        split
        · rw [List.forall_mem_cons]
          refine ⟨by omega, forall_after.mpr fun c _ => ?_⟩
          rw [List.forall_mem_append]
          refine ⟨ih.1 s c capacity, forall_after.mpr fun s₁ deleted => ?_⟩
          exact ih.2 s₁ p (i + 1)
            ((elementary_capacity.emulatedFsDelete fuel).1 s c s₁ deleted capacity)
        · exact List.forall_mem_nil _

theorem deleteAccesses_lt (fuel : Nat) :
    (∀ s p, Capacity s → ∀ k ∈ deleteAccesses fuel s p, k < 64) ∧
      ∀ s p, Capacity s → ∀ k ∈ deleteChildrenAccesses fuel s p, k < 64 := by
  induction fuel with
  | zero => exact ⟨fun _ _ _ => List.forall_mem_nil _, fun _ _ _ => List.forall_mem_nil _⟩
  | succ fuel ih =>
      refine ⟨?_, ?_⟩
      · intro s p capacity
        rw [deleteAccesses]
        split
        · exact List.forall_mem_nil _
        refine forall_after.mpr fun n _ => ?_
        rw [List.forall_mem_append]
        refine ⟨?_, forall_after.mpr fun s₁ children => forall_after.mpr fun m _ => ?_⟩
        · split
          · exact ih.2 s p capacity
          · exact List.forall_mem_nil _
        have capacity₁ : Capacity s₁ := by
          split at children
          · exact (elementary_capacity.fsDelete fuel).2 s p s₁ children capacity
          · exact Except.ok.inj children ▸ capacity
        rw [List.forall_mem_append]
        refine ⟨?_, forall_after.mpr fun s₂ unlinked => (emulatedDeleteAccesses_lt fuel).1 s₂ p ?_⟩
        · split
          · exact removeAccesses_lt capacity₁
          · exact List.forall_mem_nil _
        · split at unlinked
          · exact elementary_capacity.unlink unlinked capacity₁
          · exact Except.ok.inj unlinked ▸ capacity₁
      · intro s p capacity
        rw [deleteChildrenAccesses]
        refine forall_after.mpr fun n _ => ?_
        split
        · rw [List.forall_mem_cons]
          refine ⟨by omega, forall_after.mpr fun c _ => ?_⟩
          rw [List.forall_mem_append]
          refine ⟨ih.1 s c capacity, forall_after.mpr fun s₁ deleted => ?_⟩
          exact ih.2 s₁ p ((elementary_capacity.fsDelete fuel).1 s c s₁ deleted capacity)
        · exact List.forall_mem_nil _

end AurorOS.Fs
