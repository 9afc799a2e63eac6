import AurorOS.Apps.SaveTarget
import AurorOS.Devices.Typing
import AurorOS.Fs.Growth
import AurorOS.Shell.Sessions

/-! # What the editor reports

The editor reports a save whatever has become of it.  Where a path goes through a file, the
new file is added to nothing, and the path leads nowhere afterwards.
-/

namespace AurorOS.Apps

open Fs Devices Shell Program

variable {m m' : Machine} {s s' : FsState} {path : CStr} {text : List UInt8}
  {color barcolor : UInt8} {fuel : Nat} {request : SaveRequest}

/-- The editor, asked to save the text under the path that is typed last, reports that it has. -/
def Reports (color barcolor : UInt8) (m : Machine) (path : CStr) (text : List UInt8)
    (m' : Machine) : Prop :=
  (∃ request m₁, typedEdit color barcolor m = (.ok (some (path, request, text)), m₁)) ∧
    tinypadMain color barcolor m = (.ok (), m')

/-- Up to its last component the path leads to the folder, and that component is the name. -/
def Means (s : FsState) (path : CStr) (request : SaveRequest) : Prop :=
  ∃ front, components path = front ++ [request.filename] ∧
    walk s front s.fsRoot = .ok (some request.folder)

theorem saveTarget_walk {folder : Ptr} {filename : CStr} (tree : ConsistentTree m.fs)
    (short : path.length ≤ 255) (returned : saveTarget path m = (.ok (folder, filename), m'))
    (nonnull : folder ≠ 0) :
    ∃ front, components path = front ++ [filename] ∧
    walk m.fs front m.fs.fsRoot = .ok (some folder) := by
  rcases splitAtLastSlash_cases path with noSlash | ⟨front, back, rfl, noSlash⟩
  · rw [saveTarget_noSlash noSlash] at returned
    obtain ⟨value, rfl⟩ := Prod.mk.inj returned
    obtain ⟨rfl, rfl⟩ := Prod.mk.inj (Except.ok.inj value)
    exact ⟨[], components_of_noSlash noSlash, rfl⟩
  · rw [List.length_append, List.length_cons] at short
    rw [saveTarget_slash tree noSlash (by omega)] at returned
    cases leads : walk m.fs (components front) m.fs.fsRoot with
    | error fault =>
        rw [leads] at returned
        cases (Prod.mk.inj returned).1
    | ok found =>
        rw [leads] at returned
        obtain ⟨value, rfl⟩ := Prod.mk.inj returned
        obtain ⟨rfl, rfl⟩ := Prod.mk.inj (Except.ok.inj value)
        cases found with
        | none => exact absurd rfl nonnull
        | some dir => exact ⟨components front, components_last front noSlash, leads⟩

theorem means_of_answered (answered : Answered s path request) (tree : ConsistentTree s) :
    Means s path request := by
  obtain ⟨u, v, rfl, target⟩ := answered.target
  exact saveTarget_walk tree answered.short target answered.hasFolder

theorem Means.noSlash (means : Means s path request) : slash ∉ request.filename := by
  obtain ⟨front, parts, _⟩ := means
  exact noSlash_of_component (parts ▸ List.mem_append_right front List.mem_cons_self)

/-- The path leads where the name leads from the folder. -/
theorem Means.resolve (means : Means s path request) :
    fsResolve s path s.fsRoot = fsResolve s request.filename request.folder := by
  have noSlash := means.noSlash
  obtain ⟨front, parts, leads⟩ := means
  rw [resolve_token noSlash, fsResolve_eq_walk, startOf_root, parts, walk_append_some leads,
    walk_single]

/-- The path leads from the root to a file with the text, and every other file has the data that it
    had. -/
def SavedAt (s s' : FsState) (path : CStr) (text : List UInt8) : Prop :=
  ∃ p n, fsResolve s' path s'.fsRoot = .ok p ∧ s'.nodes p = some n ∧ n.type = .file ∧
    fileData s' n = .ok text ∧
    ∀ x k, x ≠ p → s.nodes x = some k → k.type = .file →
      ∃ k', s'.nodes x = some k' ∧ k'.type = .file ∧ fileData s' k' = fileData s k

theorem SavedAt.unique {text' : List UInt8} (saved : SavedAt s s' path text)
    (saved' : SavedAt s s' path text') :
    text = text' := by
  obtain ⟨p, n, leads, here, _, content, _⟩ := saved
  obtain ⟨p', n', leads', here', _, content', _⟩ := saved'
  obtain rfl := Except.ok.inj (leads.symm.trans leads')
  obtain rfl := Option.some.inj (here.symm.trans here')
  exact Except.ok.inj (content.symm.trans content')

theorem fileData_of_contentOf {n : FsNode} (same : s'.contentOf n = s.contentOf n) :
    fileData s' n = fileData s n := by
  rw [fileData, fileData]
  by_cases empty : n.size = 0
  · rw [if_pos empty, if_pos empty]
  · rw [FsState.contentOf, FsState.contentOf, if_neg empty, if_neg empty] at same
    rw [if_neg empty, if_neg empty, same]

theorem fileData_of_written {file block : Ptr} {data : List UInt8} {n : FsNode}
    (written : Written s s' file data block n) :
    fileData s' { n with data := block, size := data.length } = .ok data := by
  refine fileData_of_stored rfl fun nonempty => ?_
  rw [written.bufs, if_neg nonempty]
  exact Function.update_self ..

/-- A file that an action leaves alone keeps its data. -/
theorem file_kept {a : Action} {x : Ptr} {k : FsNode} (acts : Acts s a s') (wf : WellFormed s)
    (inPlace : a.InPlace s) (files : FilesOk s) (grown : Grows s s') (present : s.nodes x = some k)
    (isFile : k.type = .file) (untouched : ¬ a.Touches s x) :
    s'.nodes x = some k ∧ fileData s' k = fileData s k := by
  obtain ⟨k', still, _⟩ := grown x k present
  obtain ⟨kept, content⟩ := acts.frame wf inPlace files present (still ▸ nofun) untouched
  exact ⟨kept, fileData_of_contentOf (content isFile)⟩

/-- A write saves the data under every path that leads to the file. -/
theorem savedAt_of_write {file block : Ptr} {data : List UInt8} (wf : WellFormed s)
    (files : FilesOk s) (acts : Acts s (.write file data block) s')
    (leads : fsResolve s path s.fsRoot = .ok file) (nonnull : file ≠ 0) :
    SavedAt s s' path data := by
  obtain ⟨n, present, written⟩ := written_of_acts acts
  have grown := written.grows present
  refine ⟨file, { n with data := block, size := data.length }, ?_, ?_, written.isFile,
    fileData_of_written written, ?_⟩
  · have walked := walk_grows grown (walk_of_resolve leads nonnull)
    rw [startOf_root, ← written.root, ← startOf_root s' path] at walked
    exact fsResolve_eq_ok.mpr ⟨some file, walked, rfl⟩
  · rw [written.nodes, Function.update_self]
  · intro x k other here isFile
    obtain ⟨kept, content⟩ := file_kept acts wf trivial files grown here isFile other
    exact ⟨k, kept, isFile, content⟩

theorem stepInto_file {token : CStr} {current : Ptr} {d : FsNode} (short : token.length < 32)
    (nonempty : token ≠ []) (notDot : token ≠ dot) (notDotDot : token ≠ dotDot)
    (here : s.nodes current = some d) (notDir : d.type ≠ .dir) :
    stepInto s token current = .ok none := by
  rw [stepInto, if_pos short, if_neg (not_or.mpr ⟨nonempty, notDot⟩), if_neg notDotDot,
    emulatedFsFindIn, Fs.deref_eq_ok.mpr here]
  simp only [bind, Except.bind, if_pos notDir]
  rfl

theorem stepInto_of_missing {token : CStr} {current : Ptr} (tree : ConsistentTree s)
    (inTree : s.InTree current) (noSlash : slash ∉ token)
    (missing : fsResolve s token current = .ok 0) : stepInto s token current = .ok none := by
  obtain ⟨found, leads, null⟩ := fsResolve_eq_ok.mp missing
  rw [startOf_noSlash s current noSlash, components_of_noSlash noSlash] at leads
  cases found with
  | none => exact walk_single s token current ▸ leads
  | some p => exact absurd null (tree.nonnull p (walk_place tree inTree leads))

section Created

variable {block block' : Ptr} {d : FsNode} {data : List UInt8} {s₁ : FsState} (wf : WellFormed s)
  (files : FilesOk s) (nothing : s.nodes 0 = none) (means : Means s path request)
  (folder : s.InTree request.folder) (here : s.nodes request.folder = some d)
  (missing : fsResolve s request.filename request.folder = .ok 0)
  (create : Acts s (.create .file request.filename request.folder 1001 request.folder block) s₁)
  (write : Acts s₁ (.write block data block') s')

include wf means folder here missing create

/-- In a directory, the path leads to the file that is created. -/
theorem resolve_created (isDir : d.type = .dir) : fsResolve s₁ path s₁.fsRoot = .ok block := by
  obtain ⟨d', here', made⟩ := created_of_acts create
  obtain rfl := Option.some.inj (here.symm.trans here')
  have noSlash := means.noSlash
  obtain ⟨front, parts, leads⟩ := means
  have tree := wf.consistentTree
  have wf₁ := create.wellFormed wf folder
  have step := stepInto_of_missing tree folder noSlash missing
  obtain ⟨short, nonempty, notDot, notDotDot, untaken⟩ := stepInto_none tree folder step
  have found := find_created made here isDir tree folder untaken wf₁.consistentTree
    (create.inTree wf folder folder nofun)
  have walked := walk_grows (made.grows here) leads
  rw [← made.root] at walked
  refine fsResolve_eq_ok.mpr ⟨some block, ?_, rfl⟩
  rw [startOf_root, parts, walk_append_some walked, walk_single]
  exact stepInto_found short nonempty notDot notDotDot found made.fresh.nonnull

include files write

theorem savedAt_of_created (isDir : d.type = .dir) : SavedAt s s' path data := by
  obtain ⟨d', here', made⟩ := created_of_acts create
  obtain rfl := Option.some.inj (here.symm.trans here')
  have leads := resolve_created wf means folder here missing create isDir
  obtain ⟨p, n, leads', there, type, content, others⟩ := savedAt_of_write
    (create.wellFormed wf folder)
    (create.filesOk wf folder files) write leads made.fresh.nonnull
  refine ⟨p, n, leads', there, type, content, ?_⟩
  intro x k other present isFile
  have untouched : ¬ (Action.create .file request.filename request.folder 1001 request.folder
      block).Touches s x := by
    rintro ⟨rfl, -⟩
    obtain rfl := Option.some.inj (here.symm.trans present)
    cases isDir.symm.trans isFile
  obtain ⟨kept, same⟩ := file_kept create wf folder files (made.grows here) present isFile untouched
  obtain ⟨k', there', type', content'⟩ := others x k other kept isFile
  exact ⟨k', there', type', content'.trans same⟩

omit files in
include nothing in
/-- In a file, the path leads nowhere afterwards. -/
theorem not_savedAt_of_created (notDir : d.type ≠ .dir) : ¬ SavedAt s s' path text := by
  obtain ⟨d', here', made⟩ := created_of_acts create
  obtain rfl := Option.some.inj (here.symm.trans here')
  obtain ⟨n, atBlock, written⟩ := written_of_acts write
  have noSlash := means.noSlash
  obtain ⟨front, parts, leads⟩ := means
  have tree := wf.consistentTree
  have isFile : d.type = .file := by
    cases type : d.type with
    | file => rfl
    | dir => exact absurd type notDir
  have step := stepInto_of_missing tree folder noSlash missing
  obtain ⟨short, nonempty, notDot, notDotDot, _⟩ := stepInto_none tree folder step
  have still : s'.nodes request.folder = some d := by
    have other : request.folder ≠ block := by
      intro same
      rw [same, made.fresh.noNode] at here
      cases here
    rw [written.nodes, Function.update_of_ne other]
    exact made.atFile isFile
  have walked := walk_grows (written.grows atBlock) (walk_grows (made.grows here) leads)
  rw [← made.root, ← written.root] at walked
  have nowhere : fsResolve s' path s'.fsRoot = .ok 0 := by
    refine resolve_nowhere ?_
    rw [startOf_root, parts, walk_append_some walked, walk_single]
    exact stepInto_file short nonempty notDot notDotDot still notDir
  have nothing' := write.null (create.wellFormed wf folder) trivial (create.null wf folder nothing)
  rintro ⟨p, n, found, there, _⟩
  obtain rfl := Except.ok.inj (nowhere.symm.trans found)
  rw [nothing'] at there
  cases there

end Created

/-- Up to its last component the path leads from the root to a directory. -/
def FolderIsDir (s : FsState) (path : CStr) : Prop :=
  ∃ dir d, walk s (components path).dropLast s.fsRoot = .ok (some dir) ∧ s.nodes dir = some d ∧
    d.type = .dir

theorem Means.folderIsDir_iff {d : FsNode} (means : Means s path request)
    (here : s.nodes request.folder = some d) :
    FolderIsDir s path ↔ d.type = .dir := by
  obtain ⟨front, parts, leads⟩ := means
  have before : (components path).dropLast = front := by rw [parts, List.dropLast_concat]
  rw [FolderIsDir, before]
  constructor
  · rintro ⟨dir, d', leads', here', isDir⟩
    obtain rfl := Option.some.inj (Except.ok.inj (leads.symm.trans leads'))
    obtain rfl := Option.some.inj (here.symm.trans here')
    exact isDir
  · exact fun isDir => ⟨request.folder, d, leads, here, isDir⟩

/-- A report comes after a save to what the path means. -/
theorem Reports.parts (report : Reports color barcolor m path text m') :
    ∃ request m₁ m₂, m₁.fs = m.fs ∧ Answered m.fs path request ∧
    saveText request text m₁ = (.ok (), m₂) ∧ m'.fs = m₂.fs := by
  obtain ⟨⟨request, m₁, typed⟩, ran⟩ := report
  obtain ⟨quiet, answered⟩ := typedEdit_answered typed
  have edited : tinypadEdit color barcolor m = (.ok (some (request, text)), m₁) := by
    rw [tinypadEdit_eq]
    exact map_eq_ok.mpr ⟨_, typed, rfl⟩
  rw [tinypadMain] at ran
  obtain ⟨saved, u, first, ran⟩ := bind_eq_ok.mp ran
  obtain ⟨value, rfl⟩ := Prod.mk.inj (edited.symm.trans first)
  obtain rfl := Except.ok.inj value
  obtain ⟨_, m₂, wrote, ran⟩ := bind_eq_ok.mp ran
  obtain ⟨_, m₃, said, cleared⟩ := bind_eq_ok.mp ran
  exact ⟨request, m₁, m₂, quiet, answered path request text rfl, wrote,
    (leaves_onScreen _ _ _ _ cleared).trans (leaves_onScreen _ _ _ _ said)⟩

theorem take_mod_eq_self : text.take (text.length % 2 ^ 32) = text ↔ text.length < 2 ^ 32 := by
  simp only [List.take_eq_self_iff]
  omega

/-- What 32 bits of the length count is saved, or nothing can be found under the path. -/
theorem Reports.outcome (wf : WellFormed m.fs) (nothing : m.fs.nodes 0 = none)
    (files : FilesOk m.fs) (report : Reports color barcolor m path text m') :
    SavedAt m.fs m'.fs path (text.take (text.length % 2 ^ 32)) ∧
        (fsResolve m.fs path m.fs.fsRoot ≠ .ok 0 ∨ FolderIsDir m.fs path) ∨
      (∀ text', ¬ SavedAt m.fs m'.fs path text') ∧
        ¬ (fsResolve m.fs path m.fs.fsRoot ≠ .ok 0 ∨ FolderIsDir m.fs path) := by
  obtain ⟨request, m₁, m₂, quiet, answered, wrote, last⟩ := report.parts
  have means := means_of_answered answered wf.consistentTree
  have requested := answered.requested wf nothing
  obtain ⟨_, d, here, _⟩ := wf.live requested.folder
  have done :=
    saveText_effect (m := m₁) (quiet ▸ nothing) (quiet ▸ here) (quiet ▸ requested.isFile) wrote
  rw [quiet] at done
  rw [means.resolve, requested.found, means.folderIsDir_iff here, last]
  rcases done with ⟨missing, block, block', s₁, create, write⟩ | ⟨present, block, write⟩
  · have unfound := missing ▸ requested.found
    by_cases isDir : d.type = .dir
    · exact .inl ⟨savedAt_of_created wf files means requested.folder here unfound create write
        isDir, .inr isDir⟩
    · have never : ∀ text', ¬ SavedAt m.fs m₂.fs path text' := fun _ =>
        not_savedAt_of_created wf nothing means requested.folder here unfound create write isDir
      refine .inr ⟨never, ?_⟩
      rw [missing, not_or, not_not]
      exact ⟨rfl, isDir⟩
  · refine .inl ⟨savedAt_of_write wf files write (means.resolve.trans requested.found) present,
      .inl ?_⟩
    exact fun null => present (Except.ok.inj null)

/-- What the editor reports to be saved is saved if and only if its length fits 32 bits and
    the path leads to a file already or is to be created in a directory. -/
theorem savedAt_iff (wf : WellFormed m.fs) (nothing : m.fs.nodes 0 = none) (files : FilesOk m.fs)
    (report : Reports color barcolor m path text m') :
    SavedAt m.fs m'.fs path text ↔
      text.length < 2 ^ 32 ∧ (fsResolve m.fs path m.fs.fsRoot ≠ .ok 0 ∨ FolderIsDir m.fs path) := by
  rcases report.outcome wf nothing files with ⟨saved, condition⟩ | ⟨never, otherwise⟩
  · rw [and_iff_left condition, ← take_mod_eq_self]
    exact ⟨fun whole => saved.unique whole, fun whole => whole ▸ saved⟩
  · exact ⟨fun saved => absurd saved (never text), fun both => absurd both.2 otherwise⟩

/-- A line with an `a` is typed, `.save`, and the path behind the slash that is there. -/
def savingMachine (path : String) : Machine :=
  ⟨homeState, ⟨⟨fun _ => 0, 0⟩, ⟨false, false, fun _ => false⟩,
    typed "a" ++ typed ".save" ++ typed path⟩, [4, 5, 6]⟩

/-- What the editor is asked to save, in the form that evaluation can settle. -/
def asked (m : Machine) : Option (CStr × List UInt8) :=
  match (typedEdit 0x07 0x9F m).1 with
  | .ok (some (path, _, text)) => some (path, text)
  | _ => none

theorem reports_of_run (edited : asked m = some (path, text))
    (ran : (tinypadMain 0x07 0x9F m).1 = .ok ()) :
    Reports 0x07 0x9F m path text (tinypadMain 0x07 0x9F m).2 := by
  refine ⟨?_, Prod.ext ran rfl⟩
  rw [asked] at edited
  cases run : typedEdit 0x07 0x9F m with
  | mk result m₁ =>
      rw [run] at edited
      cases result with
      | error e => cases edited
      | ok saved =>
          cases saved with
          | none => cases edited
          | some parts =>
              obtain ⟨path', request, text'⟩ := parts
              obtain ⟨rfl, rfl⟩ := Prod.mk.inj (Option.some.inj edited)
              exact ⟨request, m₁, rfl⟩

/-- `/home/x` is saved. -/
theorem savedAt_iff_home :
    SavedAt homeState (tinypadMain 0x07 0x9F (savingMachine "home/x")).2.fs
      (cstr "/home/x") [97, 10] ↔
      2 < 2 ^ 32 ∧ (fsResolve homeState (cstr "/home/x") 1 ≠ .ok 0 ∨
      FolderIsDir homeState (cstr "/home/x")) :=
  savedAt_iff homeState_wellFormed rfl homeState_filesOk
    (reports_of_run (m := savingMachine "home/x") (by decide +kernel) (by decide +kernel))

/-- `/home/notes/x` is not, where `notes` is a file. -/
theorem not_savedAt :
    ¬ ∀ m path text m', WellFormed m.fs → m.fs.nodes 0 = none → FilesOk m.fs →
    (∀ t ∈ components path, t.length < 32) →
      Reports 0x07 0x9F m path text m' → SavedAt m.fs m'.fs path text := by
  intro always
  have short : ∀ t ∈ components (cstr "/home/notes/x"), t.length < 32 := by
    have parts : components (cstr "/home/notes/x") = [[], cstr "home", cstr "notes", [120]] := by
      decide +kernel
    rw [parts]
    decide +kernel
  obtain ⟨p, n, leads, here, _⟩ := always (savingMachine "home/notes/x")
    (cstr "/home/notes/x") [97, 10] _
    homeState_wellFormed rfl homeState_filesOk short
      (reports_of_run (by decide +kernel) (by decide +kernel))
  have nowhere : fsResolve (tinypadMain 0x07 0x9F (savingMachine "home/notes/x")).2.fs
      (cstr "/home/notes/x")
      (tinypadMain 0x07 0x9F (savingMachine "home/notes/x")).2.fs.fsRoot = .ok 0 := by
        decide +kernel
  have nothing : ((tinypadMain 0x07 0x9F (savingMachine "home/notes/x")).2.fs.nodes 0).isNone =
      true := by
    decide +kernel
  obtain rfl := Except.ok.inj (nowhere.symm.trans leads)
  rw [here] at nothing
  cases nothing

end AurorOS.Apps
