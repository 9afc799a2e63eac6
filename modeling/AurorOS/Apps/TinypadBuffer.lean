import AurorOS.Apps.Tinypad
import AurorOS.Heap.Clients
import AurorOS.Shell.Strings

/-! # The editor's buffer in memory

The main loop of `tinypad_main` on the bytes of memory and with the heap's own `malloc` and
`free`.  The buffer moves to a larger block when a line may not fit.
-/

namespace AurorOS.Apps

open ByteMemory Heap Runs Fs Devices Lines Outcome

/-- The variables of `tinypad_main`; `block` is what `malloc` has returned for `buffer`, with
    the size that it was asked for. -/
structure Editor where
  heap : State
  block : Allocation
  bufferCapacity : Nat
  bufferLen : Nat

/-- `memcpy` to a block; a store that is not inside it is an invalid access. -/
def copyInto (block : Allocation) (m : Mem) (dest src n : Nat) : Except Fault Mem :=
  if block.ptr ≤ dest ∧ dest + n ≤ block.ptr + block.size then .ok (memcpy m dest src n)
    else .error .invalidAccess

def storeInto (block : Allocation) (m : Mem) (dest : Nat) (c : UInt8) : Except Fault Mem :=
  if block.ptr ≤ dest ∧ dest + 1 ≤ block.ptr + block.size then .ok (Function.update m dest c)
  else .error .invalidAccess

/-- `none` if the editor ends at once. -/
def tinypadStart (L : Layout) (h : State) : Except Fault (Option Editor) := do
  let (buffer, h) ← malloc L h 1762
  if buffer = 0 then return none
  else return some ⟨h, ⟨buffer, 1762⟩, 1762, 0⟩

/-- The buffer moves to a block with 150 bytes more; `none` if there is none. -/
def grow (L : Layout) (e : Editor) : Except Fault (Option Editor) := do
  let size := L.arch.add e.bufferCapacity 150
  let (newBuffer, h) ← malloc L e.heap size
  if newBuffer = 0 then return none
  else
    let m ← copyInto ⟨newBuffer, size⟩ h.mem newBuffer e.block.ptr e.bufferLen
    return some ⟨free L { h with mem := m } e.block.ptr, ⟨newBuffer, size⟩,
      L.arch.add e.bufferCapacity 150, e.bufferLen⟩

/-- The stores of the characters at `line` and of a newline. -/
def appendLine (L : Layout) (line lineLen : Nat) (e : Editor) : Except Fault Editor := do
  let m ← copyInto e.block e.heap.mem (L.arch.add e.block.ptr e.bufferLen) line lineLen
  let bufferLen := L.arch.add e.bufferLen lineLen
  let m ← storeInto e.block m (L.arch.add e.block.ptr bufferLen) 10
  return { e with heap := { e.heap with mem := m }, bufferLen := L.arch.add bufferLen 1 }

/-- A round of the main loop when a line has been read to the array at `line`; `none` if the loop is
    left. -/
def editRound (L : Layout) (line : Nat) (e : Editor) : Except Fault (Option Editor) := do
  let text := cString (bytesAt e.heap.mem line 81)
  if text.head? = some 46 then
    if text = cstr ".exit" ∨ text = cstr ".save" then return none
    else return some e
  else if L.arch.add (L.arch.add e.bufferLen text.length) 1 > e.bufferCapacity then
    match ← grow L e with
    | none => return none
    | some e => return some (← appendLine L line text.length e)
  else return some (← appendLine L line text.length e)

/-- What `read_str` leaves at `line`; whatever else it changes (the screen, the keyboard, its own
    variables) is not in the heap's pool, either. -/
structure Reads (L : Layout) (line : Nat) (text : CStr) (m m' : Mem) : Prop where
  plain : 0 ∉ text
  short : text.length ≤ 80
  stored : bytesAt m' line (text.length + 1) = text ++ [0]
  pool : ∀ x, ¬ L.Outside x → m' x = m x

/-- The variables when the memory has changed. -/
def Editor.withMem (e : Editor) (m : Mem) : Editor := { e with heap := { e.heap with mem := m } }

/-- A line is read and dealt with, and the loop goes on. -/
inductive EditStep (L : Layout) (line : Nat) : Editor → CStr → Editor → Prop where
  | enter {e e' : Editor} {text : CStr} {m : Mem} (reads : Reads L line text e.heap.mem m)
      (entered : editRound L line (e.withMem m) = .ok (some e')) : EditStep L line e text e'

/-- The lines that are no commands, with a newline behind each. -/
def contents (typed : List CStr) : List UInt8 :=
  unlines 10 (typed.filter fun text => text.head? ≠ some 46)

/-- What a line adds to the text. -/
def added (text : CStr) : List UInt8 := if text.head? = some 46 then [] else text ++ [10]

/-- What a round of the loop does to the text and the capacity of its block. -/
def TextBuffer.enter (t : TextBuffer) (text : CStr) : TextBuffer where
  capacity :=
    if text.head? = some 46 then t.capacity
    else if t.bytes.length + text.length + 1 > t.capacity then t.capacity + 150
    else t.capacity
  bytes := t.bytes ++ added text

/-- The buffer is an allocation of its capacity and holds these bytes. -/
structure BufferHolds (L : Layout) (e : Editor) (bytes : List UInt8) : Prop where
  fits : e.bufferLen ≤ e.bufferCapacity
  size : e.bufferCapacity = e.block.size
  allocated : ∃ held bs, Inv L ⟨e.heap, held⟩ bs ∧ e.block ∈ held
  bytes : bytesAt e.heap.mem e.block.ptr e.bufferLen = bytes

variable {L : Layout} {e e' : Editor} {bytes : List UInt8} {line : Nat} {text : CStr} {m m' : Mem}
  {typed : List CStr} {block : Allocation} {dest src n : Nat} {c : UInt8}

theorem copyInto_inside (m : Mem) (src : Nat) (lower : block.ptr ≤ dest)
    (upper : dest + n ≤ block.ptr + block.size) :
    copyInto block m dest src n = .ok (memcpy m dest src n) := if_pos ⟨lower, upper⟩

theorem storeInto_inside (m : Mem) (c : UInt8) (lower : block.ptr ≤ dest)
    (upper : dest + 1 ≤ block.ptr + block.size) :
    storeInto block m dest c = .ok (Function.update m dest c) := if_pos ⟨lower, upper⟩

/-- Memory when a line and a newline have been stored. -/
def lineStored (m : Mem) (dest line n : Nat) : Mem :=
  Function.update (memcpy m dest line n) (dest + n) 10

theorem lineStored_changesIn (m : Mem) (separate : dest + n ≤ line ∨ line + n ≤ dest) :
    ChangesIn m (lineStored m dest line n) dest (n + 1) := by
  intro x outside
  rw [lineStored, Function.update_of_ne (by omega)]
  exact memcpy_changesIn m separate x (by omega)

theorem bytesAt_lineStored (m : Mem) (separate : dest + n ≤ line ∨ line + n ≤ dest) :
    bytesAt (lineStored m dest line n) dest (n + 1) = bytesAt m line n ++ [10] := by
  have copy : bytesAt (lineStored m dest line n) dest n = bytesAt m line n := by
    refine (bytesAt_congr fun x above below => ?_).trans (bytesAt_memcpy m separate)
    exact Function.update_of_ne (by omega) _ _
  have newline : bytesAt (lineStored m dest line n) (dest + n) 1 = [10] := by
    rw [bytesAt, List.range_one, List.map_singleton, Nat.add_zero, lineStored, Function.update_self]
  rw [bytesAt_add, copy, newline]

namespace BufferHolds

variable (holds : BufferHolds L e bytes)

include holds

/-- The buffer is in the pool. -/
theorem inside :
    L.memoryPool < e.block.ptr ∧
    e.block.ptr + e.bufferCapacity ≤ L.memoryPool + memoryPoolSize := by
  obtain ⟨held, bs, inv, member⟩ := holds.allocated
  rw [holds.size]
  exact inv.inside member

/-- Reading a line does not touch it. -/
theorem afterRead (pool : ∀ x, ¬ L.Outside x → m x = e.heap.mem x) :
    BufferHolds L (e.withMem m) bytes where
  fits := holds.fits
  size := holds.size
  allocated := by
    obtain ⟨held, bs, inv, member⟩ := holds.allocated
    exact ⟨held, bs, inv.after_change fun x inPool _ => pool x inPool, member⟩
  bytes := by
    have range := holds.inside
    have fits := holds.fits
    refine (bytesAt_congr fun x above below => pool x ?_).trans holds.bytes
    dsimp only [Editor.withMem] at above below
    rw [Layout.Outside]
    omega

/-- The buffer in its new block. -/
theorem grows :
    grow L e =
    .error (.kernelpanic "OUT_OF_MEMORY" "There is no sufficient memory for allocation.") ∨
    ∃ e', grow L e = .ok (some e') ∧ BufferHolds L e' bytes ∧
    e'.bufferCapacity = e.bufferCapacity + 150 ∧
      e'.bufferLen = e.bufferLen ∧ ∀ x, L.Outside x → e'.heap.mem x = e.heap.mem x := by
  obtain ⟨held, bs, inv, member⟩ := holds.allocated
  have range := holds.inside
  have fits := holds.fits
  have size := holds.size
  have pool := L.poolFits
  have word := L.arch.le_wordSize
  have small : memoryPoolSize = 2 ^ 20 := rfl
  have sum : L.arch.add e.bufferCapacity 150 = e.bufferCapacity + 150 := Arch.add_eq (by omega)
  rcases inv.malloc_spec (L.arch.add e.bufferCapacity 150) with
    ⟨none, -⟩ | ⟨-, -, panics⟩ | ⟨asked, p, bs', m', -, returned, -, -⟩
  · omega
  · exact .inl (bind_of_error panics)
  · right
    dsimp only at returned
    obtain ⟨nonnull, ⟨bs', inv'⟩, same⟩ := inv.malloc_returns asked returned
    rw [sum] at inv' returned
    have apart := inv'.newest_apart member
    dsimp only at apart
    have copied : copyInto ⟨p, e.bufferCapacity + 150⟩ m' p e.block.ptr e.bufferLen =
        .ok (memcpy m' p e.block.ptr e.bufferLen) :=
      copyInto_inside m' e.block.ptr le_rfl (by dsimp only; omega)
    have separate : p + e.bufferLen ≤ e.block.ptr ∨ e.block.ptr + e.bufferLen ≤ p := by omega
    have changes := memcpy_changesIn m' separate
    have inv'' : Inv L ⟨⟨memcpy m' p e.block.ptr e.bufferLen, e.heap.memoryAlreadyInitialized⟩,
        ⟨p, e.bufferCapacity + 150⟩ :: held⟩ bs' := by
      refine inv'.after_change fun x _ own => changes x ?_
      have outside := own _ List.mem_cons_self
      dsimp only at outside
      omega
    obtain ⟨⟨bs'', freed⟩, kept⟩ := inv''.free_returns (List.mem_cons_of_mem _ member)
    have other : (⟨p, e.bufferCapacity + 150⟩ : Allocation) ≠ e.block := by
      intro equal
      have same := congrArg Allocation.size equal
      dsimp only at same
      omega
    have stays : (⟨p, e.bufferCapacity + 150⟩ : Allocation) ∈
        (⟨p, e.bufferCapacity + 150⟩ :: held).erase e.block :=
      (List.mem_erase_of_ne other).mpr List.mem_cons_self
    have run : grow L e =
        .ok (some ⟨free L ⟨memcpy m' p e.block.ptr e.bufferLen, e.heap.memoryAlreadyInitialized⟩
        e.block.ptr, ⟨p, e.bufferCapacity + 150⟩, e.bufferCapacity + 150, e.bufferLen⟩) := by
      rw [grow, sum]
      refine (bind_of_ok returned).trans ((if_neg nonnull).trans ?_)
      exact bind_of_ok copied
    refine ⟨_, run, ⟨?_, rfl, ⟨_, bs'', freed, stays⟩, ?_⟩, rfl, rfl, ?_⟩
    · dsimp only
      omega
    · have held' := kept.held _ stays
      have old := same.held _ member
      calc bytesAt _ p e.bufferLen
          = bytesAt (memcpy m' p e.block.ptr e.bufferLen) p e.bufferLen :=
            bytesAt_congr (held'.mono le_rfl (by dsimp only; omega))
        _ = bytesAt m' e.block.ptr e.bufferLen := bytesAt_memcpy m' separate
        _ = bytesAt e.heap.mem e.block.ptr e.bufferLen := bytesAt_congr (old.mono le_rfl (by omega))
        _ = bytes := holds.bytes
    · intro x outside
      have elsewhere : memcpy m' p e.block.ptr e.bufferLen x = m' x := by
        have newInside := inv'.inside List.mem_cons_self
        dsimp only at newInside
        rw [Layout.Outside] at outside
        exact changes x (by omega)
      exact (kept.outside x outside).trans (elsewhere.trans (same.outside x outside))

/-- A line that fits is added with a newline. -/
theorem appends (apart : L.Apart line 81) (short : text.length ≤ 80)
    (stored : bytesAt e.heap.mem line text.length = text)
    (room : e.bufferLen + text.length + 1 ≤ e.bufferCapacity) :
    ∃ e', appendLine L line text.length e = .ok e' ∧ BufferHolds L e' (bytes ++ (text ++ [10])) ∧
      e'.bufferCapacity = e.bufferCapacity := by
  obtain ⟨held, bs, inv, member⟩ := holds.allocated
  have range := holds.inside
  have size := holds.size
  have pool := L.poolFits
  rw [Layout.Apart] at apart
  have place : L.arch.add e.block.ptr e.bufferLen = e.block.ptr + e.bufferLen :=
    Arch.add_eq (by omega)
  have len : L.arch.add e.bufferLen text.length = e.bufferLen + text.length :=
    Arch.add_eq (by omega)
  have behind : L.arch.add e.block.ptr (e.bufferLen + text.length) =
      e.block.ptr + e.bufferLen + text.length := by
    rw [Nat.add_assoc]
    exact Arch.add_eq (by omega)
  have total : L.arch.add (e.bufferLen + text.length) 1 = e.bufferLen + text.length + 1 :=
    Arch.add_eq (by omega)
  have copied := copyInto_inside e.heap.mem line (Nat.le_add_right e.block.ptr e.bufferLen)
    (by omega : e.block.ptr + e.bufferLen + text.length ≤ e.block.ptr + e.block.size)
  have separate : e.block.ptr + e.bufferLen + text.length ≤ line ∨
      line + text.length ≤ e.block.ptr + e.bufferLen := by omega
  have ended := storeInto_inside (memcpy e.heap.mem (e.block.ptr + e.bufferLen) line text.length) 10
    (by omega : e.block.ptr ≤ e.block.ptr + e.bufferLen + text.length)
    (by omega : e.block.ptr + e.bufferLen + text.length + 1 ≤ e.block.ptr + e.block.size)
  have run : appendLine L line text.length e =
      .ok ⟨⟨lineStored e.heap.mem (e.block.ptr + e.bufferLen) line text.length,
        e.heap.memoryAlreadyInitialized⟩, e.block, e.bufferCapacity,
        e.bufferLen + text.length + 1⟩ := by
    simp only [appendLine, place, len, behind, total]
    exact (bind_of_ok copied).trans (bind_of_ok ended)
  -- what has been stored is behind the text that was there
  have changes := lineStored_changesIn e.heap.mem separate
  refine ⟨_, run, ⟨room, size, ⟨held, bs, inv.after_change fun x _ own => changes x ?_, member⟩,
    ?_⟩, rfl⟩
  · have outside := own _ member
    omega
  · have before := bytesAt_congr
      (changes.agreeOn (Or.inl (Nat.le_refl (e.block.ptr + e.bufferLen)) :
      e.block.ptr + e.bufferLen ≤ _ ∨ _ ≤ e.block.ptr))
    dsimp only
    rw [Nat.add_assoc, bytesAt_add, before, holds.bytes, bytesAt_lineStored e.heap.mem separate,
      stored]

end BufferHolds

theorem Reads.text_eq (reads : Reads L line text m m') : cString (bytesAt m' line 81) = text := by
  have short := reads.short
  have whole : text.length + 1 + (80 - text.length) = 81 := by omega
  have split := bytesAt_add m' line (text.length + 1) (80 - text.length)
  rw [whole, reads.stored, List.append_assoc, List.singleton_append] at split
  rw [split]
  exact Shell.cString_of_ended reads.plain _

theorem Reads.text_stored (reads : Reads L line text m m') :
    bytesAt m' line text.length = text := by
  have stored := reads.stored
  rw [bytesAt_add] at stored
  exact (List.append_inj stored (by rw [length_bytesAt])).1

/-- One step of 150 bytes makes room for every line, so no store misses the block.  The loop is left
    at `.exit` and `.save` only. -/
theorem editRound_holds (holds : BufferHolds L e bytes) (apart : L.Apart line 81)
    (reads : Reads L line text e.heap.mem m) :
    editRound L line (e.withMem m) =
        .error (.kernelpanic "OUT_OF_MEMORY" "There is no sufficient memory for allocation.") ∨
      (editRound L line (e.withMem m) = .ok none ∧ (text = cstr ".exit" ∨ text = cstr ".save")) ∨
      ∃ e', editRound L line (e.withMem m) = .ok (some e') ∧
      BufferHolds L e' (bytes ++ added text) ∧
        e'.bufferCapacity = (TextBuffer.enter ⟨e.bufferCapacity, bytes⟩ text).capacity := by
  have capacity : (e.withMem m).bufferCapacity = e.bufferCapacity := rfl
  have length : bytes.length = e.bufferLen := by rw [← holds.bytes, length_bytesAt]
  have before := holds.afterRead reads.pool
  have text_eq : cString (bytesAt (e.withMem m).heap.mem line 81) = text := reads.text_eq
  have stored : bytesAt (e.withMem m).heap.mem line text.length = text := reads.text_stored
  have short := reads.short
  have range := before.inside
  have fits := before.fits
  have pool := L.poolFits
  have word := L.arch.le_wordSize
  have small : memoryPoolSize = 2 ^ 20 := rfl
  have same : (e.withMem m).bufferLen = e.bufferLen := rfl
  rw [TextBuffer.enter, length, ← capacity, ← same]
  generalize e.withMem m = e at before text_eq stored range fits ⊢
  rw [editRound, text_eq]
  by_cases command : text.head? = some 46
  · rw [added, if_pos command, if_pos command, if_pos command, List.append_nil]
    by_cases leaves : text = cstr ".exit" ∨ text = cstr ".save"
    · exact .inr (.inl ⟨if_pos leaves, leaves⟩)
    · exact .inr (.inr ⟨e, if_neg leaves, before, rfl⟩)
  · have len : L.arch.add e.bufferLen text.length = e.bufferLen + text.length :=
      Arch.add_eq (by omega)
    have total : L.arch.add (e.bufferLen + text.length) 1 = e.bufferLen + text.length + 1 :=
      Arch.add_eq (by omega)
    rw [added, if_neg command, if_neg command, if_neg command, len, total]
    by_cases full : e.bufferLen + text.length + 1 > e.bufferCapacity
    · rw [if_pos full, if_pos full]
      rcases before.grows with panics | ⟨e₁, grown, moved, larger, unmoved, outside⟩
      · exact .inl (bind_of_error panics)
      · have still : bytesAt e₁.heap.mem line text.length = text := by
          refine (bytesAt_congr fun x above below => outside x ?_).trans stored
          rw [Layout.Apart] at apart
          rw [Layout.Outside]
          omega
        obtain ⟨e₂, run, after, kept⟩ := moved.appends apart short still (by omega)
        exact .inr (.inr ⟨e₂, (bind_of_ok grown).trans (bind_of_ok run), after, kept.trans larger⟩)
    · rw [if_neg full, if_neg full]
      obtain ⟨e₂, run, after, kept⟩ := before.appends apart short stored (by omega)
      exact .inr (.inr ⟨e₂, bind_of_ok run, after, kept⟩)

theorem contents_cons (text : CStr) (typed : List CStr) :
    contents (text :: typed) = added text ++ contents typed := by
  rw [contents, contents, added]
  by_cases command : text.head? = some 46
  · rw [if_pos command, List.filter_cons_of_neg (by simpa using command), List.nil_append]
  · rw [if_neg command, List.filter_cons_of_pos (by simpa using command), unlines_cons]
    simp

theorem foldl_enter_bytes (t : TextBuffer) (typed : List CStr) :
    (typed.foldl TextBuffer.enter t).bytes = t.bytes ++ contents typed := by
  induction typed generalizing t with
  | nil => exact (List.append_nil _).symm
  | cons text typed ih =>
      rw [List.foldl_cons, ih, contents_cons, TextBuffer.enter, List.append_assoc]

/-- The first block. -/
theorem tinypadStart_holds {h : State} {held : List Allocation} {bs : List FirstFit.Block}
    (inv : Inv L ⟨h, held⟩ bs) (started : tinypadStart L h = .ok (some e)) :
    BufferHolds L e [] ∧ e.bufferCapacity = 1762 := by
  obtain ⟨⟨p, h'⟩, returned, rest⟩ := bind_eq_ok.mp started
  obtain ⟨nonnull, ⟨bs', inv'⟩, -⟩ := inv.malloc_returns (by decide) returned
  dsimp only at rest
  rw [if_neg nonnull] at rest
  obtain rfl := Option.some.inj (pure_eq_ok.mp rest)
  exact ⟨⟨Nat.zero_le _, rfl, ⟨_, bs', inv', List.mem_cons_self⟩, rfl⟩, rfl⟩

/-- The bytes in memory go through what the rounds do to a text buffer. -/
theorem run_refines {boot : Mem} {s : Session} {e₀ : Editor} {trace : List (Editor × CStr)}
    (heap : Reachable (Step L) (start L boot) s) (started : tinypadStart L s.heap = .ok (some e₀))
    (apart : L.Apart line 81) (run : Run (EditStep L line) e₀ trace e) :
    BufferHolds L e ((trace.map Prod.snd).foldl TextBuffer.enter ⟨1762, []⟩).bytes ∧
      e.bufferCapacity = ((trace.map Prod.snd).foldl TextBuffer.enter ⟨1762, []⟩).capacity := by
  induction run with
  | nil =>
      obtain ⟨bs, inv⟩ := reachable_inv heap
      exact tinypadStart_holds inv started
  | snoc _ taken ih =>
      obtain ⟨holds, capacity⟩ := ih
      cases taken with
      | enter reads entered =>
          rw [List.map_append, List.map_singleton, List.foldl_append, List.foldl_cons,
            List.foldl_nil]
          rcases editRound_holds holds apart reads with
            panics | ⟨leaves, -⟩ | ⟨e', returned, after, larger⟩
          · cases panics.symm.trans entered
          · cases leaves.symm.trans entered
          · obtain rfl := Option.some.inj (Except.ok.inj (returned.symm.trans entered))
            rw [capacity] at larger
            exact ⟨after, larger⟩

/-- Whatever lines are typed, before each of them the buffer is an allocation of its capacity, which
    its length does not exceed, and holds the lines before that are no commands; and no store of
    the round that follows misses the block that it is meant for. -/
theorem tinypad_buffer (L : Layout) (boot : Mem) {s : Session} {e₀ : Editor}
    {trace : List (Editor × CStr)} (heap : Reachable (Step L) (start L boot) s)
    (started : tinypadStart L s.heap = .ok (some e₀)) (apart : L.Apart line 81)
    (run : Run (EditStep L line) e₀ trace e) :
    BufferHolds L e (contents (trace.map Prod.snd)) ∧
      ∀ text m, Reads L line text e.heap.mem m →
      editRound L line (e.withMem m) ≠ .error .invalidAccess := by
  have holds := (run_refines heap started apart run).1
  rw [foldl_enter_bytes, List.nil_append] at holds
  refine ⟨holds, fun text m reads invalid => ?_⟩
  rcases editRound_holds holds apart reads with panics | ⟨leaves, -⟩ | ⟨e', returned, -, -⟩
  · cases panics.symm.trans invalid
  · cases leaves.symm.trans invalid
  · cases returned.symm.trans invalid

/-- Memory with the line `ab` at an address. -/
def withLine (m : Mem) : Mem := fun x =>
  if x = 0x1000 then 97
  else if x = 0x1001 then 98
  else if x = 0x1002 then 0
  else m x

/-- One line is typed. -/
theorem tinypad_buffer_line :
    ∃ e₀ e, tinypadStart exampleLayout (start exampleLayout fun _ => 65).heap = .ok (some e₀) ∧
      Run (EditStep exampleLayout 0x1000) e₀ [(e₀, [97, 98])] e ∧
      BufferHolds exampleLayout e [97, 98, 10] := by
  have value : (do
      match ← tinypadStart exampleLayout (start exampleLayout fun _ => 65).heap with
      | none => return false
      | some e => return (← editRound exampleLayout 0x1000
        (e.withMem (withLine e.heap.mem))).isSome) = .ok true := by
    decide +kernel
  obtain ⟨started, first, value⟩ := bind_eq_ok.mp value
  cases started with
  | none => cases value
  | some e₀ =>
      obtain ⟨entered, second, some⟩ := bind_eq_ok.mp value
      cases entered with
      | none => cases some
      | some e =>
          have reads : Reads exampleLayout 0x1000 [97, 98] e₀.heap.mem (withLine e₀.heap.mem) := by
            refine ⟨by decide, by decide, rfl, fun x inPool => ?_⟩
            have above : 0x200000 ≤ x := by
              rw [Layout.Outside] at inPool
              change ¬ (x < 0x200000 ∨ _) at inPool
              omega
            rw [withLine, if_neg (by omega), if_neg (by omega), if_neg (by omega)]
          have run : Run (EditStep exampleLayout 0x1000) e₀ [(e₀, [97, 98])] e :=
            Run.single (.enter reads second)
          have apart : exampleLayout.Apart 0x1000 81 := Or.inl (by decide)
          exact ⟨e₀, e, first, run,
            (tinypad_buffer exampleLayout (fun _ => 65) (Reachable.refl _) first apart run).1⟩

end AurorOS.Apps
