import AurorOS.Apps.HexCodec
import AurorOS.Devices.Typing
import AurorOS.Exec.AccessBits

/-! # Enter in the hex editor

The editor hands the line editor the dump of the file, with room for all of it.  The room is cut
to 16 bits on the way: from 21845 bytes on, Enter alone shortens the file.
-/

namespace AurorOS.Apps

open Devices Exec Fs Lines Shell

/-- The heap is not exhausted: the four blocks that the editor asks for are free by then. -/
def HeapServes (m : Machine) (n : FsNode) : Prop :=
  ∃ hexdump modified parsed data rest, m.blocks = hexdump :: modified :: parsed :: data :: rest ∧
    Fresh m.fs hexdump ∧ Fresh m.fs modified ∧ Fresh m.fs parsed ∧ Fresh (releaseData m.fs n) data

variable {m m' : Machine} {n : FsNode} {file block currentDir : Ptr} {rest : List Ptr}
  {after : FsState → FsState} {size : Nat} {data text : List UInt8} {userId : UInt64} {path : CStr}

theorem mallocAfter_of_fresh (asked : size ≠ 0) (supply : m.blocks = block :: rest)
    (fresh : Fresh (after m.fs) block) :
    mallocAfter after size m = (.ok block, { m with blocks := rest }) := by
  rw [mallocAfter, if_neg asked, supply, List.headD_cons, if_pos (.inr fresh), List.tail_cons]

/-- The file system's part of a write. -/
theorem emulatedFsWrite_content {s : FsState} (present : s.nodes file = some n)
    (isFile : n.type = .file) (block : Ptr) (data : List UInt8) :
    ∃ s' n', Fs.fsWrite s file data block = .ok s' ∧ s'.nodes file = some n' ∧
    n'.size = data.length ∧ fileData s' n' = .ok data := by
  rw [Fs.fsWrite, emulatedFsWrite, Fs.deref_eq_ok.mpr present]
  refine ⟨_, { n with data := block, size := data.length }, if_neg (not_not.mpr isFile),
    Function.update_self .., rfl, ?_⟩
  refine fileData_of_stored rfl fun nonempty => ?_
  rw [if_neg nonempty]
  exact Function.update_self ..

/-- What a write leaves of the file. -/
theorem fsWrite_content (present : m.fs.nodes file = some n) (isFile : n.type = .file)
    (supply : m.blocks = block :: rest) (fresh : Fresh (releaseData m.fs n) block)
    (data : List UInt8) :
    ∃ m' n', fsWrite file data m = (.ok (), m') ∧ m'.fs.nodes file = some n' ∧
    n'.size = data.length ∧ fileData m'.fs n' = .ok data := by
  obtain ⟨block', blocks, served, given⟩ : ∃ block' blocks,
      mallocAfter (releaseData · n) data.length m = (.ok block', { m with blocks := blocks }) ∧
        ¬ (block' = 0 ∧ data ≠ []) := by
    by_cases empty : data = []
    · refine ⟨0, m.blocks, ?_, fun both => both.2 empty⟩
      rw [empty, mallocAfter, List.length_nil, if_pos rfl]
    · have some_ : data.length ≠ 0 := fun none => empty (List.length_eq_zero_iff.mp none)
      exact ⟨block, rest, mallocAfter_of_fresh some_ supply fresh, fun both => fresh.nonnull both.1⟩
  obtain ⟨s', n', written, there, length, content⟩ :=
    emulatedFsWrite_content present isFile block' data
  refine ⟨{ m with fs := s', blocks := blocks }, n', ?_, there, length, content⟩
  refine (Program.bind_of_ok (Shell.deref_eq_ok.mpr ⟨present, rfl⟩)).trans ?_
  rw [if_neg (not_not.mpr isFile)]
  refine (Program.bind_of_ok served).trans ?_
  rw [if_neg given]
  exact onFs'_eq_ok.mpr ⟨s', written, rfl⟩

/-- What is left of the dump in the line: the room for it is counted in 16 bits. -/
def keptDump (data : List UInt8) (n : FsNode) : CStr :=
  (printHexdump data (hexSize n)).take ((UInt16.ofNat (hexSize n)).toNat - 1)

theorem toNat_uint16_le (k : Nat) : (UInt16.ofNat k).toNat ≤ k := by
  rw [UInt16.toNat_ofNat']
  exact Nat.mod_le k _

theorem hexSize_eq (small : 3 * n.size < 2 ^ 31) : hexSize n = 3 * n.size + 1 := by
  rw [hexSize, Nat.mul_comm, Nat.mod_eq_of_lt (by omega)]

/-- Enter leaves what there is room for in the array. -/
theorem readStr_enter
    (enter : firstKey m.console.keyboard.keyStates m.console.scancodes = some 0x1C)
    (positive : 0 < size) (color : UInt8) (plain : 0 ∉ text) :
    ∃ line console, readStr (freshArray size) (UInt16.ofNat size) false color text m =
      (.ok line, { m with console := console }) ∧
      cString line = text.take ((UInt16.ofNat size).toNat - 1) := by
  have long : (freshArray size).length = size := by
    rw [freshArray]
    exact List.length_replicate
  have room : 0 < (freshArray size).length := long.symm ▸ positive
  have enough : (UInt16.ofNat size).toNat ≤ (freshArray size).length :=
    long.symm ▸ toNat_uint16_le size
  have typing : ∃ console',
      Devices.readStr (freshArray size) (UInt16.ofNat size) false color (some text) m.console =
      (.ok (overlay (text.take ((UInt16.ofNat size).toNat - 1) ++ [0]) (freshArray size)),
        console') :=
    readStr_of_enter enter room enough text
  obtain ⟨console, typed⟩ := typing
  refine ⟨_, console, ?_,
    cString_overlay (fun nul => plain (List.mem_of_mem_take nul)) (freshArray size)⟩
  rw [Shell.readStr, onConsole]
  exact Program.zoom_eq_ok.mpr ⟨console, typed, rfl⟩

/-- What is saved of a file that has bytes; an empty one is not written. -/
theorem hexeditSave_content {parsed : Ptr} (present : m.fs.nodes file = some n)
    (isFile : n.type = .file) (supply : m.blocks = parsed :: block :: rest)
    (freshParsed : Fresh m.fs parsed) (fresh : Fresh (releaseData m.fs n) block) (text : CStr) :
    ∃ m' n', hexeditSave file n text m = (.ok (), m') ∧ m'.fs.nodes file = some n' ∧
      n'.size = (parseHexdumpToBytes text n.size).length ∧
      fileData m'.fs n' = .ok (parseHexdumpToBytes text n.size) := by
  by_cases empty : n.size = 0
  · refine ⟨m, n, ?_, present, ?_, ?_⟩
    · rw [hexeditSave, empty]
      rfl
    · rw [empty, parseHexdumpToBytes]
      rfl
    · rw [empty, parseHexdumpToBytes, fileData, if_pos empty]
  · let m₁ : Machine := { m with blocks := block :: rest }
    have allocated : malloc n.size m = (.ok parsed, m₁) :=
      mallocAfter_of_fresh empty supply freshParsed
    obtain ⟨m', n', written, there, length, stored⟩ :=
      fsWrite_content (m := m₁) present isFile rfl fresh (parseHexdumpToBytes text n.size)
    refine ⟨m', n', ?_, there, length, stored⟩
    refine (Program.bind_of_ok allocated).trans ?_
    rw [if_neg freshParsed.nonnull]
    exact written

/-- The editor is left with the file as the kept part of the dump says. -/
theorem hexeditFile_enter (present : m.fs.nodes file = some n) (isFile : n.type = .file)
    (content : fileData m.fs n = .ok data) (size : data.length = n.size)
    (small : 3 * n.size < 2 ^ 31) (heap : HeapServes m n)
    (enter : firstKey m.console.keyboard.keyStates m.console.scancodes = some 0x1C) :
    ∃ m' n', hexeditFile file n m = (.ok (), m') ∧ m'.fs.nodes file = some n' ∧
      n'.size = (parseHexdumpToBytes (keptDump data n) n.size).length ∧
      fileData m'.fs n' = .ok (parseHexdumpToBytes (keptDump data n) n.size) := by
  obtain ⟨hexdump, modified, parsed, block, rest, supply, fresh₁, fresh₂, fresh₃, fresh₄⟩ := heap
  have room := hexSize_eq small
  have asked : hexSize n ≠ 0 := by omega
  let m₁ : Machine := { m with blocks := modified :: parsed :: block :: rest }
  let m₂ : Machine := { m with blocks := parsed :: block :: rest }
  have first : malloc (hexSize n) m = (.ok hexdump, m₁) := mallocAfter_of_fresh asked supply fresh₁
  have second : malloc (hexSize n) m₁ = (.ok modified, m₂) := mallocAfter_of_fresh asked rfl fresh₂
  have plain : 0 ∉ printHexdump data (hexSize n) := plain_printHexdump data (by omega)
  obtain ⟨line, console, read, kept⟩ :=
    readStr_enter (m := m₂) enter (Nat.pos_of_ne_zero asked) 0x08 plain
  let m₃ : Machine := { m₂ with console := console }
  obtain ⟨m', n', saved, there, length, stored⟩ :=
    hexeditSave_content (m := m₃) present isFile rfl fresh₃ fresh₄ (keptDump data n)
  refine ⟨{ m' with console := { m'.console with
    screen := m'.console.screen.printInfo (cstr "File saved successfully.") } }, n', ?_, there,
    length, stored⟩
  rw [hexeditFile]
  refine (Program.bind_of_ok first).trans ?_
  refine (Program.bind_of_ok second).trans ?_
  rw [if_neg (not_or.mpr ⟨fresh₁.nonnull, fresh₂.nonnull⟩)]
  refine (Program.bind_of_ok (ofFs_eq_ok.mpr ⟨content, rfl⟩)).trans ?_
  refine (Program.bind_of_ok read).trans ?_
  rw [kept]
  exact Program.bind_of_ok saved

/-- Below 21845 bytes the line has room for the whole dump. -/
theorem keptDump_whole (size : data.length = n.size) (short : n.size < 21845) :
    keptDump data n = printHexdump data (hexSize n) := by
  have exact_ := hexSize_eq (n := n) (by omega)
  have capacity : (UInt16.ofNat (hexSize n)).toNat = 3 * n.size + 1 := by
    rw [exact_, UInt16.toNat_ofNat', Nat.mod_eq_of_lt (by omega)]
  refine List.take_of_length_le ?_
  rw [capacity, exact_, printHexdump_eq data (by omega), List.length_dropLast,
    length_flatMap_dump, size]
  omega

/-- The pairs of some digits are at most one for two of them. -/
theorem length_pairUp (digits : List UInt8) : (pairUp digits).length = (digits.length + 1) / 2 := by
  induction digits using pairUp.induct with
  | case1 => rfl
  | case2 high => rw [pairUp, List.length_singleton, List.length_singleton]
  | case3 high low rest ih =>
      rw [pairUp, List.length_cons, ih, List.length_cons, List.length_cons]
      omega

/-- From there on not even the dump of all bytes but the last one is kept. -/
theorem length_parse_keptDump (size : data.length = n.size) (long : ¬ n.size < 21845)
    (small : 3 * n.size < 2 ^ 31) :
    (parseHexdumpToBytes (keptDump data n) n.size).length < n.size := by
  have exact_ := hexSize_eq small
  have nonempty : data ≠ [] := by
    rintro rfl
    rw [List.length_nil] at size
    omega
  have front : data.dropLast.length = n.size - 1 := by rw [List.length_dropLast, size]
  have whole : data.dropLast ++ [data.getLast nonempty] = data :=
    List.dropLast_append_getLast nonempty
  have dumped : printHexdump data (hexSize n) =
      data.dropLast.flatMap dump ++ (dump (data.getLast nonempty)).dropLast := by
    rw [printHexdump_eq data (by omega)]
    nth_rewrite 1 [← whole]
    have three : dump (data.getLast nonempty) ≠ [] := List.cons_ne_nil _ _
    rw [List.flatMap_append, List.flatMap_singleton, List.dropLast_append_of_ne_nil three]
  have capacity : (UInt16.ofNat (hexSize n)).toNat - 1 ≤ (data.dropLast.flatMap dump).length := by
    rw [length_flatMap_dump, front, exact_, UInt16.toNat_ofNat']
    omega
  have kept : (keptDump data n).Sublist (data.dropLast.flatMap dump) := by
    rw [keptDump, dumped, List.take_append_of_le_length capacity]
    exact List.take_sublist _ _
  have fewer : (digitsOf (keptDump data n)).length ≤
      (digitsOf (data.dropLast.flatMap dump)).length :=
    (kept.filterMap digitOf).length_le
  have all : (pairUp (digitsOf (data.dropLast.flatMap dump))).length = n.size - 1 := by
    rw [pairUp_flatMap, front]
  rw [length_pairUp] at all
  rw [parseHexdumpToBytes_eq, List.length_take, length_pairUp]
  omega

/-- With too many bytes the file comes out shorter. -/
theorem hexedit_enter_long (found : fsResolve m.fs path currentDir = .ok file) (nonnull : file ≠ 0)
    (present : m.fs.nodes file = some n) (isFile : n.type = .file) (writable : Writable userId n)
    (content : fileData m.fs n = .ok data) (small : 3 * n.size < 2 ^ 31) (heap : HeapServes m n)
    (enter : firstKey m.console.keyboard.keyStates m.console.scancodes = some 0x1C)
    (long : ¬ n.size < 21845) :
    ∃ m' n', hexeditMain userId (some path) currentDir m = (.ok (), m') ∧
    m'.fs.nodes file = some n' ∧ n'.size < n.size := by
  have size := length_of_fileData content
  obtain ⟨m', n', edited, there, length, -⟩ :=
    hexeditFile_enter present isFile content size small heap enter
  refine ⟨m', n', ?_, there, length.trans_lt (length_parse_keptDump size long small)⟩
  rw [hexeditMain_file found nonnull present isFile, if_pos writable, edited]

/-- Opening a file in the editor and pressing Enter leaves it as it was exactly if it has less than
    21845 bytes. -/
theorem hexedit_enter_iff (found : fsResolve m.fs path currentDir = .ok file) (nonnull : file ≠ 0)
    (present : m.fs.nodes file = some n) (isFile : n.type = .file) (writable : Writable userId n)
    (content : fileData m.fs n = .ok data) (small : 3 * n.size < 2 ^ 31) (heap : HeapServes m n)
    (enter : firstKey m.console.keyboard.keyStates m.console.scancodes = some 0x1C) :
    (∃ m' n', hexeditMain userId (some path) currentDir m = (.ok (), m') ∧
    m'.fs.nodes file = some n' ∧
      n'.size = n.size ∧ fileData m'.fs n' = .ok data) ↔ n.size < 21845 := by
  have size := length_of_fileData content
  constructor
  · rintro ⟨m', n', edited, there, unchanged, -⟩
    by_contra long
    obtain ⟨t, n'', edited', there', shorter⟩ :=
      hexedit_enter_long found nonnull present isFile writable content small heap enter long
    obtain rfl := (Prod.mk.inj (edited.symm.trans edited')).2
    obtain rfl := Option.some.inj (there'.symm.trans there)
    omega
  · intro short
    obtain ⟨m', n', edited, there, length, stored⟩ :=
      hexeditFile_enter present isFile content size small heap enter
    have run : hexeditMain userId (some path) currentDir m = (.ok (), m') := by
      rw [hexeditMain_file found nonnull present isFile, if_pos writable, edited]
    have whole : parseHexdumpToBytes (keptDump data n) n.size = data := by
      rw [keptDump_whole size short, ← size]
      exact parse_printHexdump data (by rw [hexSize, Nat.mod_eq_of_lt (by omega)]; omega)
    rw [whole] at length stored
    exact ⟨m', n', run, there, length.trans size, stored⟩

/-- The file `notes` of the home directory with these bytes. -/
def notesNode (bytes : List UInt8) : FsNode :=
  { leafNode .file (cstr "notes") 0 2 with data := 9, size := bytes.length }

/-- A machine in front of which Enter is pressed. -/
def notesMachine (bytes : List UInt8) : Machine where
  fs := { homeState with
    nodes := Function.update homeState.nodes 3 (some (notesNode bytes))
    bufs := fun p => if p = 9 then some bytes else none }
  console := ⟨⟨fun _ => 0, 0⟩, ⟨false, false, fun _ => false⟩, [0x1C]⟩
  blocks := [100, 101, 102, 103]

theorem notes_heap (bytes : List UInt8) : HeapServes (notesMachine bytes) (notesNode bytes) := by
  have bufs : ∀ p, p ≠ 9 →
      (releaseData (notesMachine bytes).fs (notesNode bytes)).bufs p = none := by
    intro p other
    rw [releaseData]
    split
    · exact (FsState.bufs_freeData_of_ne _ other).trans (if_neg other)
    · exact if_neg other
  have nodes : (releaseData (notesMachine bytes).fs (notesNode bytes)).nodes 103 = none := by
    rw [releaseData]
    split <;> rfl
  refine ⟨100, 101, 102, 103, [], rfl, ?_, ?_, ?_, ⟨by decide, nodes, bufs 103 (by decide)⟩⟩
  · exact ⟨by decide, rfl, rfl⟩
  · exact ⟨by decide, rfl, rfl⟩
  · exact ⟨by decide, rfl, rfl⟩

theorem notes_content (bytes : List UInt8) :
    fileData (notesMachine bytes).fs (notesNode bytes) = .ok bytes :=
  fileData_of_stored rfl fun _ => rfl

theorem notes_writable (bytes : List UInt8) : Writable 0 (notesNode bytes) :=
  show Writable 0 (notesNode []) by decide +kernel

theorem notes_enter (bytes : List UInt8) :
    firstKey (notesMachine bytes).console.keyboard.keyStates
      (notesMachine bytes).console.scancodes = some 0x1C :=
  show firstKey (fun _ => false) [0x1C] = some 0x1C by decide +kernel

theorem notes_found (bytes : List UInt8) :
    fsResolve (notesMachine bytes).fs (cstr "/home/notes") 1 = .ok 3 := rfl

theorem hexedit_enter_iff_notes :
    (∃ m' n', hexeditMain 0 (some (cstr "/home/notes")) 1 (notesMachine [65, 66]) = (.ok (), m') ∧
      m'.fs.nodes 3 = some n' ∧ n'.size = 2 ∧ fileData m'.fs n' = .ok [65, 66]) ↔ 2 < 21845 :=
  hexedit_enter_iff (n := notesNode [65, 66]) (notes_found [65, 66]) (by decide) rfl rfl
    (notes_writable _)
    (notes_content [65, 66]) (by decide) (notes_heap [65, 66]) (notes_enter _)

/-- A file of 21845 bytes is saved with fewer. -/
theorem hexedit_enter_shortens :
    ∃ m' n', hexeditMain 0 (some (cstr "/home/notes")) 1 (notesMachine (List.replicate 21845 65)) =
    (.ok (), m') ∧ m'.fs.nodes 3 = some n' ∧ n'.size < 21845 := by
  have size : ∀ k, (notesNode (List.replicate k 65)).size = k := fun k => List.length_replicate
  have shortens : ∀ k, 3 * k < 2 ^ 31 → ¬ k < 21845 →
      ∃ m' n', hexeditMain 0 (some (cstr "/home/notes")) 1 (notesMachine (List.replicate k 65)) =
      (.ok (), m') ∧
        m'.fs.nodes 3 = some n' ∧ n'.size < k := by
    intro k small long
    have run := hexedit_enter_long (notes_found (List.replicate k 65)) (by decide) rfl rfl
      (notes_writable _)
      (notes_content _) (by rwa [size]) (notes_heap _) (notes_enter _) (by rwa [size])
    rwa [size] at run
  exact shortens 21845 (by decide) (by decide)

end AurorOS.Apps
