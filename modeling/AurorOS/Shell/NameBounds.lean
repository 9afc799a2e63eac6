import AurorOS.Shell.Mkdir

/-! # Components that do not fit

A component of a path goes into `token[32]`, and a new node's name into `name[32]`,
with no test of its length.  Components that are never come to do no harm: the path
leads nowhere before.
-/

namespace AurorOS.Shell

open Fs Devices Apps Program

/-- `mkdir` comes to create a node, to which it copies the name. -/
def MkdirCopies (s : FsState) (cur : Ptr) (path : CStr) : Prop :=
  path ≠ [] ∧ fsBasename path ≠ [] ∧ fsResolve s path cur = .ok 0 ∧
    ∃ parent, mkdirParent s cur path = .ok parent ∧ ¬ (parent = 0 ∧ (splitAtLastSlash path).isSome)

/-- A save comes to create a file with this name. -/
def SaveCopies (m : Machine) (path filename : CStr) : Prop :=
  ∃ folder m', saveTarget path m = (.ok (folder, filename), m') ∧ folder ≠ 0 ∧
    fsResolve m'.fs filename folder = .ok 0

def HasLongComponent (path : CStr) : Prop := ∃ c ∈ components path, 32 ≤ c.length

/-- The resolver and `mkdir` keep to the bounds with the path, and with what is in front of
    its last slash. -/
structure MkdirBounded (m : Machine) (cur : Ptr) (path : CStr) (owner : UInt64) : Prop where
  token : ∀ pos ∈ resolverWrites m.fs path cur, pos < 32
  parentToken : ∀ parts, splitAtLastSlash path = some parts →
    ∀ pos ∈ resolverWrites m.fs (parts.1.take 255) cur, pos < 32
  -- the terminator is copied as well
  name : MkdirCopies m.fs cur path → (fsBasename path).length + 1 ≤ 32
  refused : HasLongComponent path → ∃ m', shcMkdir cur (some path) owner m = (.ok (), m') ∧
    m'.fs = m.fs

/-- The editor keeps to them when it is told to save to the path; it asks for another one
    where it finds no folder. -/
structure SaveBounded (m : Machine) (path : CStr) : Prop where
  token : ∀ pos ∈ saveWrites path m, pos < 32
  name : ∀ filename, SaveCopies m path filename → filename.length + 1 ≤ 32
  refused : HasLongComponent path → ∃ filename, saveTarget path m = (.ok (0, filename), m)

/-- The path leads nowhere, but the 255 characters to which `mkdir` cuts what is in front
    of the last slash lead to a directory. -/
def CutShort (s : FsState) (cur : Ptr) (path : CStr) : Prop :=
  fsResolve s path cur = .ok 0 ∧ ∃ front back parent d, path = front ++ slash :: back ∧
    slash ∉ back ∧
    255 < front.length ∧ fsResolve s (front.take 255) cur = .ok parent ∧ s.nodes parent = some d ∧
    d.type = .dir

/-- Every component fits that the walk along the path comes to, and where `mkdir` cuts a
    path short, every component and the name fit. -/
structure MkdirFits (s : FsState) (cur : Ptr) (path : CStr) : Prop where
  walked : ∀ c, ComesTo s (components path) (startOf s path cur) c → c.length < 32
  cut : CutShort s cur path → ¬ HasLongComponent path ∧ (fsBasename path).length < 32

variable {m m' : Machine} {s : FsState} {d : FsNode} {cur parent start p : Ptr}
  {path front back name : CStr} {tokens : List CStr} {owner : UInt64}

/-- With a component that does not fit and is not come to, a path leads nowhere. -/
theorem walk_nowhere (tree : ConsistentTree s) (inTree : s.InTree start)
    (fit : ∀ c, ComesTo s tokens start c → c.length < 32) (long : ∃ c ∈ tokens, 32 ≤ c.length) :
    walk s tokens start = .ok none := by
  rcases walk_inTree tree inTree fit with nowhere | ⟨dir, leads, _⟩
  · exact nowhere
  · obtain ⟨c, member, tooLong⟩ := long
    have short := fit c (comesTo_of_mem leads member)
    omega

/-- Where a path fits, so does the front of it. -/
theorem front_fits
    (fit : ∀ c, ComesTo s (components (front ++ back)) (startOf s (front ++ back) cur) c →
    c.length < 32) (name : CStr) (comes : ComesTo s (components front) (startOf s front cur) name) :
    name.length < 32 := by
  by_cases empty : front = []
  · subst empty
    rw [components_of_noSlash List.not_mem_nil, comesTo_single] at comes
    subst comes
    decide
  · obtain ⟨c, later, longer⟩ : ∃ c,
      ComesTo s (components (front ++ back)) (startOf s front cur) c ∧
        name.length ≤ c.length := comesTo_front comes
    rw [← startOf_append s back cur empty] at later
    exact Nat.lt_of_le_of_lt longer (fit c later)

/-- It leads to a place in the tree or nowhere. -/
theorem resolve_front (tree : ConsistentTree s) (inTree : s.InTree cur)
    (fit : ∀ c, ComesTo s (components (front ++ back)) (startOf s (front ++ back) cur) c →
    c.length < 32) :
    ∃ q, fsResolve s front cur = .ok q ∧ (q = 0 ∨ s.InTree q) := by
  rcases walk_inTree tree (startOf_inTree front inTree) (front_fits fit) with
    nowhere | ⟨dir, leads, place⟩
  · exact ⟨0, resolve_nowhere nowhere, .inl rfl⟩
  · exact ⟨dir, fsResolve_eq_ok.mpr ⟨some dir, leads, rfl⟩, .inr place⟩

/-- The name that is copied fits. -/
theorem MkdirFits.name_fits (fits : MkdirFits s cur path) (tree : ConsistentTree s)
    (copies : MkdirCopies s cur path) : (fsBasename path).length < 32 := by
  obtain ⟨nonempty, _, missing, parent, asked, valid⟩ := copies
  rcases splitAtLastSlash_cases path with noSlash | ⟨front, back, rfl, noSlash⟩
  · rw [fsBasename_noSlash noSlash nonempty]
    exact fits.walked path (comesTo_noSlash noSlash)
  have nonnull : parent ≠ 0 := by
    rintro rfl
    exact valid ⟨rfl, by rw [splitAtLastSlash_append front noSlash]; rfl⟩
  obtain ⟨resolved, d, present, isDir⟩ := mkdirParent_found noSlash asked nonnull
  by_cases long : 255 < front.length
  · exact (fits.cut ⟨missing, front, back, parent, d, rfl, noSlash, long, resolved, present,
      isDir⟩).2
  rw [List.take_of_length_le (by omega)] at resolved
  by_cases named : back = []
  · -- with a slash at the end the path leads to what `mkdir` takes for its parent
    subst named
    by_cases empty : front = []
    · subst empty
      exact absurd (Except.ok.inj ((resolve_slash s cur).symm.trans missing))
        (tree.nonnull s.fsRoot .refl)
    · rw [resolve_trailing s cur empty] at missing
      exact absurd (Except.ok.inj (resolved.symm.trans missing)) nonnull
  · rw [fsBasename_slash noSlash named]
    refine fits.walked back ?_
    rw [components_last front noSlash, comesTo_concat]
    exact .inr ⟨rfl, front_leads back resolved nonnull⟩

/-- Where a component does not fit that is never come to, `mkdir` finds no parent. -/
theorem MkdirFits.no_parent (fits : MkdirFits s cur (front ++ slash :: back))
    (tree : ConsistentTree s) (inTree : s.InTree cur) (noSlash : slash ∉ back)
    (long : HasLongComponent (front ++ slash :: back)) :
    mkdirParent s cur (front ++ slash :: back) = .ok 0 := by
  -- the front, as far as it is resolved
  have fit := fits.walked
  rw [← List.take_append_drop 255 front, List.append_assoc] at fit
  obtain ⟨q, resolved, place⟩ := resolve_front tree inTree fit
  rcases place with rfl | below
  · exact mkdirParent_nowhere noSlash resolved
  obtain ⟨d, present, _⟩ := tree.live q below
  by_cases isDir : d.type = .dir
  · exfalso
    by_cases tooFar : 255 < front.length
    · have missing := resolve_nowhere (walk_nowhere tree (startOf_inTree _ inTree) fits.walked long)
      exact (fits.cut ⟨missing, front, back, q, d, rfl, noSlash, tooFar, resolved, present,
        isDir⟩).1 long
    · rw [List.take_of_length_le (by omega)] at resolved
      obtain ⟨dir, leads⟩ := front_leads back resolved (tree.nonnull q below)
      obtain ⟨c, member, tooLong⟩ := long
      have walked := fits.walked c
      rw [components_last front noSlash] at member walked
      exact absurd (walked (comesTo_append_of_mem leads member)) (Nat.not_lt_of_le tooLong)
  · rw [mkdirParent_slash noSlash, resolved]
    simp only [bind, Except.bind, if_neg (tree.nonnull q below), Fs.deref_eq_ok.mpr present,
      if_pos isDir]
    rfl

/-- Where a component does not fit that is never come to, `mkdir` refuses. -/
theorem MkdirFits.refuses (fits : MkdirFits m.fs cur path) (wf : WellFormed m.fs)
    (inTree : m.fs.InTree cur) (long : HasLongComponent path) :
    ∃ m', shcMkdir cur (some path) owner m = (.ok (), m') ∧ m'.fs = m.fs := by
  have tree := wf.consistentTree
  have missing := resolve_nowhere (walk_nowhere tree (startOf_inTree path inTree) fits.walked long)
  rcases splitAtLastSlash_cases path with noSlash | ⟨front, back, rfl, noSlash⟩
  · obtain ⟨c, member, tooLong⟩ := long
    rw [components_of_noSlash noSlash] at member
    obtain rfl := List.mem_singleton.mp member
    exact absurd (fits.walked c (comesTo_noSlash noSlash)) (Nat.not_lt_of_le tooLong)
  · have nonempty : front ++ slash :: back ≠ [] :=
      List.append_ne_nil_of_right_ne_nil _ (List.cons_ne_nil _ _)
    have slashes : (splitAtLastSlash (front ++ slash :: back)).isSome := by
      rw [splitAtLastSlash_append front noSlash]
      rfl
    exact shcMkdir_refuses nonempty missing
      (.inr ⟨fits.no_parent tree inTree noSlash long, slashes⟩)

/-- A directory that is created changes the file system. -/
theorem mkdir_changes (nothing : m.fs.nodes 0 = none) (nonempty : path ≠ [])
    (missing : fsResolve m.fs path cur = .ok 0) (asked : mkdirParent m.fs cur path = .ok parent)
    (nonnull : parent ≠ 0) (present : m.fs.nodes parent = some d)
    (returned : shcMkdir cur (some path) owner m = (.ok (), m')) : m'.fs ≠ m.fs := by
  rw [shcMkdir_eq nonempty missing asked, if_neg fun invalid => nonnull invalid.1] at returned
  obtain ⟨newDir, m₁, created, added⟩ := bind_eq_ok.mp returned
  obtain ⟨d', _, made⟩ :=
    created_of_acts (acts_of_createAdd created added nothing (.inr ⟨d, present⟩))
  obtain ⟨par, leaf⟩ := made.atBlock
  intro same
  rw [same, made.fresh.noNode] at leaf
  cases leaf

/-- The resolver and `mkdir` keep to their bounds if and only if the path fits. -/
theorem mkdirBounded_iff (wf : WellFormed m.fs) (nothing : m.fs.nodes 0 = none)
    (inTree : m.fs.InTree cur) :
    MkdirBounded m cur path owner ↔ MkdirFits m.fs cur path := by
  constructor
  · intro bounded
    refine ⟨(resolverWrites_iff _ _ _).mp bounded.token, ?_⟩
    rintro ⟨missing, front, back, parent, d, rfl, noSlash, far, resolved, present, isDir⟩
    have nonempty : front ++ slash :: back ≠ [] :=
      List.append_ne_nil_of_right_ne_nil _ (List.cons_ne_nil _ _)
    have nonnull : parent ≠ 0 := by
      rintro rfl
      cases nothing.symm.trans present
    have asked := mkdirParent_dir noSlash resolved nonnull present isDir
    have copies : MkdirCopies m.fs cur (front ++ slash :: back) :=
      ⟨nonempty, fsBasename_ne_nil nonempty, missing, parent, asked,
        fun invalid => nonnull invalid.1⟩
    refine ⟨fun long => ?_, Nat.lt_of_succ_le (bounded.name copies)⟩
    obtain ⟨m', returned, same⟩ := bounded.refused long
    exact mkdir_changes nothing nonempty missing asked nonnull present returned same
  · intro fits
    refine ⟨(resolverWrites_iff _ _ _).mpr fits.walked, ?_,
      fun copies => Nat.succ_le_of_lt (fits.name_fits wf.consistentTree copies),
      fun long => fits.refuses wf inTree long⟩
    intro parts cut
    rcases splitAtLastSlash_cases path with noSlash | ⟨front, back, rfl, noSlash⟩
    · cases (splitAtLastSlash_none noSlash).symm.trans cut
    · obtain rfl := Option.some.inj ((splitAtLastSlash_append front noSlash).symm.trans cut)
      have fit := fits.walked
      rw [← List.take_append_drop 255 front, List.append_assoc] at fit
      exact (resolverWrites_iff _ _ _).mpr (front_fits fit)

/-- The name of a file that is created has been looked up before. -/
theorem SaveCopies.name_fits (copies : SaveCopies m path name) (tree : ConsistentTree m.fs)
    (short : path.length ≤ 255) : name.length < 32 := by
  obtain ⟨folder, m', target, nonnull, missing⟩ := copies
  have fitting : ∀ {s : FsState} {dir : Ptr} {token : CStr}, slash ∉ token →
      fsResolve s token dir = .ok 0 →
      token.length < 32 := by
    intro s dir token noSlash resolved
    by_contra long
    rw [resolve_token noSlash, stepInto_long (Nat.le_of_not_lt long)] at resolved
    cases resolved
  rcases splitAtLastSlash_cases path with noSlash | ⟨front, back, rfl, noSlash⟩
  · rw [saveTarget_noSlash noSlash] at target
    obtain ⟨same, _⟩ := Prod.mk.inj target
    obtain ⟨_, rfl⟩ := Prod.mk.inj (Except.ok.inj same)
    exact fitting noSlash missing
  · rw [List.length_append, List.length_cons] at short
    rw [saveTarget_slash tree noSlash (by omega)] at target
    split at target
    · cases (Prod.mk.inj target).1
    · obtain ⟨same, _⟩ := Prod.mk.inj target
      obtain ⟨_, rfl⟩ := Prod.mk.inj (Except.ok.inj same)
      exact fitting noSlash missing

/-- The editor keeps to its bounds if and only if every component fits that the walk from
    the root comes to. -/
theorem saveBounded_iff (wf : WellFormed m.fs) (short : path.length ≤ 255) :
    SaveBounded m path ↔ ∀ c, ComesTo m.fs (components path) m.fs.fsRoot c → c.length < 32 := by
  have tree := wf.consistentTree
  constructor
  · intro bounded
    exact (saveWrites_iff tree short).mp bounded.token
  · intro fit
    refine ⟨(saveWrites_iff tree short).mpr fit,
      fun name copies => Nat.succ_le_of_lt (copies.name_fits tree short), ?_⟩
    rintro ⟨c, member, tooLong⟩
    rcases splitAtLastSlash_cases path with noSlash | ⟨front, back, rfl, noSlash⟩
    · rw [components_of_noSlash noSlash] at member
      obtain rfl := List.mem_singleton.mp member
      exact absurd (fit c (comesTo_noSlash noSlash)) (Nat.not_lt_of_le tooLong)
    · rw [List.length_append, List.length_cons] at short
      rw [components_last front noSlash] at member fit
      refine ⟨back, ?_⟩
      rw [saveTarget_slash tree noSlash (by omega)]
      rcases walk_inTree tree .refl fun c comes => fit c (comesTo_concat.mpr (.inl comes)) with
        stops | ⟨dir, leads, _⟩
      · rw [stops]
        rfl
      · exfalso
        exact absurd (fit c (comesTo_append_of_mem leads member)) (Nat.not_lt_of_le tooLong)

/-- The resolver and the name of a new node stay in bounds, and what does not fit is
    refused, if and only if every component fits that is come to, from the current directory
    or, for a path typed into the editor's buffer, from the root; a path that `mkdir` cuts
    short has to fit altogether. -/
theorem names_bounded_iff (m : Machine) (cur : Ptr) (path : CStr) (owner : UInt64)
    (wf : WellFormed m.fs) (nothing : m.fs.nodes 0 = none) (inTree : m.fs.InTree cur) :
    (MkdirBounded m cur path owner ∧ (path.length ≤ 255 → SaveBounded m path)) ↔
      MkdirFits m.fs cur path ∧
        (path.length ≤ 255 → ∀ c, ComesTo m.fs (components path) m.fs.fsRoot c → c.length < 32) :=
  and_congr (mkdirBounded_iff wf nothing inTree)
    (imp_congr_right fun short => saveBounded_iff wf short)

/-- The name `a` in `home` and at the root. -/
theorem names_bounded_iff_home :
    MkdirBounded (homeSession 2 "").machine 2 [97] 0 ∧
    SaveBounded (homeSession 2 "").machine [97] := by
  have home : homeState.InTree 2 := .tail .refl (List.mem_singleton.mpr rfl)
  have noSlash : slash ∉ ([97] : CStr) := by decide
  have fit : ∀ start c, ComesTo homeState (components [97]) start c → c.length < 32 := by
    intro start c comes
    rw [components_of_noSlash noSlash, comesTo_single] at comes
    subst comes
    decide
  have whole : ¬ CutShort homeState 2 [97] := by
    rintro ⟨_, front, back, _, _, parts, _⟩
    exact noSlash (parts ▸ List.mem_append_right front List.mem_cons_self)
  obtain ⟨mkdir, save⟩ :=
    (names_bounded_iff (homeSession 2 "").machine 2 [97] 0 homeState_wellFormed rfl home).mpr
    ⟨⟨fit _, fun cut => absurd cut whole⟩, fun _ => fit _⟩
  exact ⟨mkdir, save (by decide)⟩

/-- The terminator of a name of 32 characters is written behind the token. -/
theorem not_names_bounded :
    ¬ ∀ (m : Machine) (cur : Ptr) (path : CStr) (owner : UInt64), WellFormed m.fs →
    m.fs.nodes 0 = none →
      m.fs.InTree cur → MkdirBounded m cur path owner ∧
      (path.length ≤ 255 → SaveBounded m path) := by
  intro bounded
  have home : homeState.InTree 2 := .tail .refl (List.mem_singleton.mpr rfl)
  obtain ⟨mkdir, _⟩ :=
    bounded (homeSession 2 "").machine 2 (List.replicate 32 97) 0 homeState_wellFormed rfl home
  have written : 32 ∈ resolverWrites homeState (List.replicate 32 97) 2 := by decide
  exact absurd (mkdir.token 32 written) (by decide)

end AurorOS.Shell
