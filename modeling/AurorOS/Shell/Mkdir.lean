import AurorOS.Apps.SaveTarget
import AurorOS.Fs.Growth
import AurorOS.Shell.Sessions
import Mathlib.Data.List.DropRight

/-! # Making directories

`mkdir` finds the name of the new directory and its parent with two scans of the path.
They fit together unless the path ends in a slash, and the parent is the one that is
meant unless the only slash is the first character or what is in front of the last one
is cut.
-/

namespace AurorOS.Shell

open Fs Devices Apps Program

variable {m m' : Machine} {s s' : FsState} {d n : FsNode} {cur parent new p q c x : Ptr}
  {path front back name token : CStr} {tokens : List CStr} {owner : UInt64} {i left more : Nat}

theorem fsBasename_noSlash (noSlash : slash ∉ name) (nonempty : name ≠ []) :
    fsBasename name = name := by
  have other := other_of_noSlash (mt List.mem_reverse.mp noSlash)
  obtain ⟨c, rest, turned⟩ := List.exists_cons_of_ne_nil (List.reverse_ne_nil_iff.mpr nonempty)
  have kept : name.reverse.dropWhile (· = slash) = name.reverse := by
    have first : c ≠ slash := of_decide_eq_true (other c (turned ▸ List.mem_cons_self))
    rw [turned, List.dropWhile_cons_of_neg (by simp [first])]
  rw [fsBasename, kept]
  split
  · rfl
  · rename_i body
    rw [List.dropWhile_eq_nil_iff.mpr other]
    rfl

theorem fsBasename_slash (noSlash : slash ∉ back) (nonempty : back ≠ []) :
    fsBasename (front ++ slash :: back) = back := by
  have other := other_of_noSlash (mt List.mem_reverse.mp noSlash)
  have turned : (front ++ slash :: back).reverse = back.reverse ++ slash :: front.reverse := by simp
  obtain ⟨c, rest, tail⟩ := List.exists_cons_of_ne_nil (List.reverse_ne_nil_iff.mpr nonempty)
  have kept : (front ++ slash :: back).reverse.dropWhile (· = slash) =
      back.reverse ++ slash :: front.reverse := by
    have first : c ≠ slash := of_decide_eq_true (other c (tail ▸ List.mem_cons_self))
    rw [turned, tail, List.cons_append, List.dropWhile_cons_of_neg (by simp [first])]
  rw [fsBasename, kept]
  split
  · rename_i empty
    exact absurd empty (List.append_ne_nil_of_right_ne_nil _ (List.cons_ne_nil _ _))
  · rw [List.dropWhile_append_of_pos other, List.dropWhile_cons_of_neg (by simp), List.length_cons,
      List.length_reverse, List.append_cons, ← List.length_singleton, ← List.length_append]
    exact List.drop_left

/-- A path that ends in a slash gives a name that does so. -/
theorem fsBasename_trailing (front : CStr) :
    ∃ before, fsBasename (front ++ [slash]) = before ++ [slash] := by
  have turned : (front ++ [slash]).reverse = slash :: front.reverse := by simp
  rw [fsBasename, turned, List.dropWhile_cons_of_pos (by simp)]
  split
  · exact ⟨front, rfl⟩
  · rename_i body
    refine ⟨front.drop ((front.reverse.dropWhile (· = slash)).dropWhile (· ≠ slash)).length, ?_⟩
    refine List.drop_append_of_le_length ?_
    calc ((front.reverse.dropWhile (· = slash)).dropWhile (· ≠ slash)).length
        ≤ (front.reverse.dropWhile (· = slash)).length := (List.dropWhile_sublist _).length_le
      _ ≤ front.reverse.length := (List.dropWhile_sublist _).length_le
      _ = front.length := List.length_reverse

/-- The ways in which a path can end. -/
theorem path_cases (nonempty : path ≠ []) :
    slash ∉ path ∨ (∃ front back, path = front ++ slash :: back ∧ slash ∉ back ∧ back ≠ []) ∨
      ∃ front, path = front ++ [slash] := by
  rcases splitAtLastSlash_cases path with noSlash | ⟨front, back, rfl, noSlash⟩
  · exact .inl noSlash
  · by_cases empty : back = []
    · exact .inr (.inr ⟨front, by rw [empty]⟩)
    · exact .inr (.inl ⟨front, back, rfl, noSlash, empty⟩)

theorem fsBasename_ne_nil (nonempty : path ≠ []) : fsBasename path ≠ [] := by
  rcases path_cases nonempty with noSlash | ⟨front, back, rfl, noSlash, some⟩ | ⟨front, rfl⟩
  · rwa [fsBasename_noSlash noSlash nonempty]
  · rwa [fsBasename_slash noSlash some]
  · obtain ⟨before, same⟩ := fsBasename_trailing front
    rw [same]
    exact List.append_ne_nil_of_right_ne_nil _ (List.cons_ne_nil _ _)

theorem mkdirParent_noSlash (noSlash : slash ∉ path) : mkdirParent s cur path = .ok cur := by
  rw [mkdirParent, splitAtLastSlash_none noSlash]
  rfl

/-- What is in front of the last slash leads to a directory or to none. -/
theorem mkdirParent_slash (noSlash : slash ∉ back) :
    mkdirParent s cur (front ++ slash :: back) = (do
      let parent ← fsResolve s (front.take 255) cur
      if parent = 0 then return 0
      let n ← s.deref parent
      return if n.type ≠ .dir then 0 else parent) := by
  rw [mkdirParent, splitAtLastSlash_append front noSlash]

theorem mkdirParent_dir (noSlash : slash ∉ back)
    (resolved : fsResolve s (front.take 255) cur = .ok parent) (nonnull : parent ≠ 0)
    (present : s.nodes parent = some d) (isDir : d.type = .dir) :
    mkdirParent s cur (front ++ slash :: back) = .ok parent := by
  rw [mkdirParent_slash noSlash, resolved]
  simp only [bind, Except.bind, if_neg nonnull, Fs.deref_eq_ok.mpr present,
    if_neg (not_not.mpr isDir)]
  rfl

theorem mkdirParent_nowhere (noSlash : slash ∉ back)
    (nowhere : fsResolve s (front.take 255) cur = .ok 0) :
    mkdirParent s cur (front ++ slash :: back) = .ok 0 := by
  rw [mkdirParent_slash noSlash, nowhere]
  rfl

/-- A parent that is found is a directory that the path in front of the last slash leads
    to. -/
theorem mkdirParent_found (noSlash : slash ∉ back)
    (asked : mkdirParent s cur (front ++ slash :: back) = .ok parent) (nonnull : parent ≠ 0) :
    fsResolve s (front.take 255) cur = .ok parent ∧ ∃ d, s.nodes parent = some d ∧
    d.type = .dir := by
  rw [mkdirParent_slash noSlash] at asked
  obtain ⟨q, resolved, asked⟩ := Outcome.bind_eq_ok.mp asked
  split at asked
  · exact absurd (Outcome.pure_eq_ok.mp asked).symm nonnull
  · obtain ⟨d, present, asked⟩ := Outcome.bind_eq_ok.mp asked
    rw [Fs.deref_eq_ok] at present
    have value := Outcome.pure_eq_ok.mp asked
    by_cases isDir : d.type = .dir
    · rw [if_neg (not_not.mpr isDir)] at value
      subst value
      exact ⟨resolved, d, present, isDir⟩
    · rw [if_pos isDir] at value
      exact absurd value.symm nonnull

/-- What is in front of a slash, if it leads to a place, is walked first. -/
theorem walk_front (resolved : fsResolve s front cur = .ok p) (nonnull : p ≠ 0)
    (nonempty : front ≠ []) :
    walk s (components front) (startOf s (front ++ slash :: back) cur) = .ok (some p) := by
  rw [startOf_append s _ cur nonempty]
  exact walk_of_resolve resolved nonnull

/-- In front of a slash, what leads to a place or is empty does not end the walk. -/
theorem front_leads (back : CStr) (resolved : fsResolve s front cur = .ok p) (nonnull : p ≠ 0) :
    ∃ dir, walk s (components front) (startOf s (front ++ slash :: back) cur) = .ok (some dir) := by
  by_cases empty : front = []
  · subst empty
    exact ⟨_, rfl⟩
  · exact ⟨p, walk_front resolved nonnull empty⟩

theorem resolve_slash (s : FsState) (cur : Ptr) : fsResolve s [slash] cur = .ok s.fsRoot := rfl

/-- A slash at the end changes nothing. -/
theorem resolve_trailing (s : FsState) (cur : Ptr) (nonempty : front ≠ []) :
    fsResolve s (front ++ [slash]) cur = fsResolve s front cur := by
  rw [fsResolve_eq_walk, fsResolve_eq_walk, startOf_append s _ cur nonempty,
    components_last front (List.not_mem_nil (a := slash)), walk_append]
  cases walk s (components front) (startOf s front cur) with
  | error fault => rfl
  | ok found => cases found <;> rfl

/-- With its checks passed, `mkdir` creates the directory. -/
theorem shcMkdir_eq (nonempty : path ≠ []) (missing : fsResolve m.fs path cur = .ok 0)
    (asked : mkdirParent m.fs cur path = .ok parent) :
    shcMkdir cur (some path) owner m =
      (if parent = 0 ∧ (splitAtLastSlash path).isSome then printError "Invalid parent directory"
        else do
          let newDir ← fsCreateNode .dir (fsBasename path) parent owner
          fsAddChild parent newDir) m := by
  have given : ¬ Shell.missing (some path) = true :=
    Bool.eq_false_iff.mp (missing_eq_false.mpr nonempty)
  have resolved : resolve path cur m = (.ok 0, m) := resolve_eq_ok.mpr ⟨missing, rfl⟩
  have placed : ofFs (mkdirParent · cur path) m = (.ok parent, m) := ofFs_eq_ok.mpr ⟨asked, rfl⟩
  rw [shcMkdir, if_neg given]
  dsimp only [Option.getD_some]
  rw [if_neg (fsBasename_ne_nil nonempty)]
  refine (bind_of_ok resolved).trans ?_
  rw [if_neg (not_not.mpr rfl)]
  exact bind_of_ok placed

/-- Where the path exists, or its parent does not, nothing is created. -/
theorem shcMkdir_refuses (nonempty : path ≠ []) (resolved : fsResolve m.fs path cur = .ok p)
    (refused : p ≠ 0 ∨ mkdirParent m.fs cur path = .ok 0 ∧ (splitAtLastSlash path).isSome) :
    ∃ m', shcMkdir cur (some path) owner m = (.ok (), m') ∧ m'.fs = m.fs := by
  have prints : ∀ text, ∃ m', printError text m = (.ok (), m') ∧ m'.fs = m.fs :=
    fun text => ⟨_, rfl, rfl⟩
  by_cases there : p ≠ 0
  · have given : ¬ Shell.missing (some path) = true :=
      Bool.eq_false_iff.mp (missing_eq_false.mpr nonempty)
    have found : resolve path cur m = (.ok p, m) := resolve_eq_ok.mpr ⟨resolved, rfl⟩
    obtain ⟨m', said, same⟩ := prints "Directory already exists"
    refine ⟨m', ?_, same⟩
    rw [shcMkdir, if_neg given]
    dsimp only [Option.getD_some]
    rw [if_neg (fsBasename_ne_nil nonempty)]
    refine (bind_of_ok found).trans ?_
    rw [if_pos there]
    exact said
  · obtain ⟨asked, slashes⟩ := refused.resolve_left there
    rw [not_not] at there
    subst there
    obtain ⟨m', said, same⟩ := prints "Invalid parent directory"
    refine ⟨m', ?_, same⟩
    rw [shcMkdir_eq nonempty resolved asked, if_pos ⟨rfl, slashes⟩]
    exact said

/-- A directory that is served its memory is created in a parent with room. -/
theorem shcMkdir_creates (owner : UInt64) (nothing : m.fs.nodes 0 = none)
    (served : Fresh m.fs (m.blocks.headD 0)) (nonempty : path ≠ [])
    (missing : fsResolve m.fs path cur = .ok 0) (asked : mkdirParent m.fs cur path = .ok parent)
    (fits : (fsBasename path).length < 32) (present : m.fs.nodes parent = some d)
    (isDir : d.type = .dir) (room : d.childCount < 64) :
    ∃ m', shcMkdir cur (some path) owner m = (.ok (), m') ∧
      Acts m.fs (.create .dir (fsBasename path) parent owner parent (m.blocks.headD 0)) m'.fs ∧
      m'.fs.nodes (m.blocks.headD 0) = some (leafNode .dir (fsBasename path) owner parent) := by
  have nonnull : parent ≠ 0 := by
    rintro rfl
    cases nothing.symm.trans present
  obtain ⟨s₁, s₂, created, added, atBlock, _⟩ :=
    create_add_eq .dir (fsBasename path) parent owner fits served present isDir room
  refine ⟨{ m with fs := s₂, blocks := m.blocks.tail }, ?_, .create present served created added,
    atBlock⟩
  have allocated : malloc 1 m = (.ok (m.blocks.headD 0), { m with blocks := m.blocks.tail }) := by
    rw [malloc, mallocAfter, if_neg one_ne_zero]
    exact if_pos (.inr served)
  have made : fsCreateNode .dir (fsBasename path) parent owner m =
      (.ok (m.blocks.headD 0), { m with fs := s₁, blocks := m.blocks.tail }) := by
    refine (bind_of_ok allocated).trans ?_
    rw [if_neg served.nonnull]
    exact onFs_eq_ok.mpr ⟨s₁, created, rfl⟩
  rw [shcMkdir_eq nonempty missing asked, if_neg fun invalid => nonnull invalid.1]
  exact (bind_of_ok made).trans (onFs'_eq_ok.mpr ⟨s₂, added, rfl⟩)

/-- The path without its last component, and without slashes behind that; the slash in
    front of it stays, so that what is left of an absolute path is absolute. -/
def withoutLast (path : CStr) : CStr := (path.rdropWhile (· = slash)).rdropWhile (· ≠ slash)

/-- The path now leads to a new empty directory of the owner in `parent`, and everything
    else is as it was. -/
structure MadeDir (s s' : FsState) (cur : Ptr) (path : CStr) (owner : UInt64) (parent new : Ptr)
    (d : FsNode) :
    Prop where
  resolves : fsResolve s' path cur = .ok new
  unused : s.nodes new = none
  dir : ∃ n, s'.nodes new = some n ∧ n.type = .dir ∧ n.owner = owner ∧ n.parent = parent ∧
    n.childCount = 0
  child : s'.nodes parent = some (d.adding new)
  kept : ∀ x, x ≠ new → x ≠ parent → s'.nodes x = s.nodes x
  bufs : s'.bufs = s.bufs
  root : s'.fsRoot = s.fsRoot
  distinct : DistinctSiblings s → DistinctSiblings s'

def MakesDir (m : Machine) (cur : Ptr) (path : CStr) (owner : UInt64) (parent : Ptr)
    (d : FsNode) : Prop :=
  ∃ m' new, shcMkdir cur (some path) owner m = (.ok (), m') ∧
    MadeDir m.fs m'.fs cur path owner parent new d

/-- There is memory for the directory, the path does not end in a slash, a path whose only
    slash is its first character is used at the root, and where more than 255 characters
    are in front of the last slash, the first 255 of them lead to the parent. -/
structure Straight (m : Machine) (cur : Ptr) (path : CStr) (parent : Ptr) : Prop where
  served : m.blocks.headD 0 ≠ 0
  noTrailing : path.getLast? ≠ some slash
  fromRoot : ∀ name, path = slash :: name → slash ∉ name → cur = m.fs.fsRoot
  whole : ∀ front name, path = front ++ slash :: name → slash ∉ name → 255 < front.length →
    fsResolve m.fs (front.take 255) cur = .ok parent

theorem withoutLast_noSlash (noSlash : slash ∉ path) : withoutLast path = [] := by
  rw [withoutLast, List.rdropWhile_eq_nil_iff]
  intro c member
  exact other_of_noSlash noSlash c ((List.rdropWhile_prefix _ path).subset member)

theorem withoutLast_slash (front : CStr) (noSlash : slash ∉ back) (nonempty : back ≠ []) :
    withoutLast (front ++ slash :: back) = front ++ [slash] := by
  have kept : (front ++ slash :: back).rdropWhile (· = slash) = front ++ slash :: back := by
    refine List.rdropWhile_eq_self_iff.mpr fun _ => ?_
    rw [List.getLast_append_of_ne_nil _ (List.cons_ne_nil slash back), List.getLast_cons nonempty]
    exact fun same => noSlash (of_decide_eq_true same ▸ List.getLast_mem nonempty)
  have turned : (front ++ slash :: back).reverse = back.reverse ++ slash :: front.reverse := by simp
  rw [withoutLast, kept, List.rdropWhile, turned,
    List.dropWhile_append_of_pos (other_of_noSlash (mt List.mem_reverse.mp noSlash)),
    List.dropWhile_cons_of_neg (by simp)]
  simp

/-- With a straight path, the two scans of `mkdir` and the walk along the path come to the
    same name in the same parent. -/
theorem Straight.scans (straight : Straight m cur path parent) (nothing : m.fs.nodes 0 = none)
    (nonempty : path ≠ []) (asked : fsResolve m.fs (withoutLast path) cur = .ok parent)
    (present : m.fs.nodes parent = some d) (isDir : d.type = .dir) :
    ∃ tokens, slash ∉ fsBasename path ∧ components path = tokens ++ [fsBasename path] ∧
      walk m.fs tokens (startOf m.fs path cur) = .ok (some parent) ∧
      mkdirParent m.fs cur path = .ok parent := by
  have nonnull : parent ≠ 0 := by
    rintro rfl
    cases nothing.symm.trans present
  rcases path_cases nonempty with noSlash | ⟨front, back, rfl, noSlash, named⟩ | ⟨front, rfl⟩
  · rw [withoutLast_noSlash noSlash] at asked
    obtain rfl := Except.ok.inj asked
    rw [fsBasename_noSlash noSlash nonempty, components_of_noSlash noSlash,
      startOf_noSlash m.fs cur noSlash]
    exact ⟨[], noSlash, rfl, rfl, mkdirParent_noSlash noSlash⟩
  · rw [withoutLast_slash front noSlash named] at asked
    rw [fsBasename_slash noSlash named]
    refine ⟨components front, noSlash, components_last front noSlash, ?_⟩
    by_cases empty : front = []
    · subst empty
      obtain rfl := straight.fromRoot back rfl noSlash
      obtain rfl := Except.ok.inj asked
      exact ⟨rfl, mkdirParent_dir noSlash rfl nonnull present isDir⟩
    · rw [resolve_trailing m.fs cur empty] at asked
      refine ⟨walk_front asked nonnull empty, mkdirParent_dir noSlash ?_ nonnull present isDir⟩
      by_cases long : 255 < front.length
      · exact straight.whole front back rfl noSlash long
      · rwa [List.take_of_length_le (by omega)]
  · exact absurd (List.getLast?_concat ..) straight.noTrailing

/-- Where a path leads nowhere, but all of it up to the last component does, that one is
    missing. -/
theorem step_missing (tree : ConsistentTree s) (inTree : s.InTree cur)
    (parts : components path = tokens ++ [name])
    (leads : walk s tokens (startOf s path cur) = .ok (some parent))
    (missing : fsResolve s path cur = .ok 0) :
    stepInto s name parent = .ok none := by
  obtain ⟨found, walked, null⟩ := fsResolve_eq_ok.mp missing
  rw [parts, walk_append_some leads, walk_single] at walked
  cases found with
  | none => exact walked
  | some q =>
      rw [← walk_single] at walked
      have below : s.InTree parent := walk_place tree (startOf_inTree path inTree) leads
      exact absurd null (tree.nonnull q (walk_place tree below walked))

/-- What `malloc` returns is a new block, if it is one at all. -/
theorem fresh_head (honest : ∀ block, m.blocks.head? = some block → block = 0 ∨ Fresh m.fs block)
    (served : m.blocks.headD 0 ≠ 0) : Fresh m.fs (m.blocks.headD 0) := by
  cases supply : m.blocks with
  | nil =>
      rw [supply] at served
      exact absurd rfl served
  | cons block rest =>
      rw [supply] at served honest
      exact (honest block rfl).resolve_left served

theorem Straight.makes (straight : Straight m cur path parent) (wf : WellFormed m.fs)
    (nothing : m.fs.nodes 0 = none) (inTree : m.fs.InTree cur)
    (honest : ∀ block, m.blocks.head? = some block → block = 0 ∨ Fresh m.fs block)
    (nonempty : path ≠ []) (missing : fsResolve m.fs path cur = .ok 0)
    (asked : fsResolve m.fs (withoutLast path) cur = .ok parent)
    (present : m.fs.nodes parent = some d) (isDir : d.type = .dir) (room : d.childCount < 64) :
    MakesDir m cur path owner parent d := by
  have tree := wf.consistentTree
  obtain ⟨tokens, noSlash, parts, leads, placed⟩ :=
    straight.scans nothing nonempty asked present isDir
  have below : m.fs.InTree parent := walk_place tree (startOf_inTree path inTree) leads
  -- the name is looked for in the parent, in vain
  have unknown := step_missing tree inTree parts leads missing
  obtain ⟨short, notEmpty, notDot, notDotDot, others⟩ := stepInto_none tree below unknown
  have served := fresh_head honest straight.served
  obtain ⟨m', returned, acts, leaf⟩ :=
    shcMkdir_creates owner nothing served nonempty missing placed short present isDir room
  generalize m.blocks.headD 0 = new at served acts leaf
  obtain ⟨d', present', made⟩ := created_of_acts acts
  obtain rfl := Option.some.inj (present.symm.trans present')
  have tree' := (acts.wellFormed wf below).consistentTree
  have search :=
    find_created made present isDir tree below others tree' (acts.inTree wf below below nofun)
  -- and found there from now on
  have found := stepInto_found short notEmpty notDot notDotDot search served.nonnull
  have start : startOf m'.fs path cur = startOf m.fs path cur := by rw [startOf, startOf, made.root]
  have resolves : fsResolve m'.fs path cur = .ok new := by
    refine fsResolve_eq_ok.mpr ⟨some new, ?_, rfl⟩
    have grown := made.grows present
    rw [start, parts, walk_append_some (walk_grows grown leads), walk_single]
    exact found
  exact ⟨m', new, returned, resolves, served.noNode, ⟨_, leaf, rfl, rfl, rfl, rfl⟩,
    (made.atDir isDir).2, made.kept, made.bufs, made.root,
    distinct_of_created made present isDir tree below others⟩

/-- A walk that starts elsewhere does not come to a node without children whose name holds
    a slash. -/
theorem walk_avoids (tree : ConsistentTree s) (empty : s.kids new = [])
    (present : s.nodes new = some n) (holds : slash ∈ n.name) (inTree : s.InTree cur)
    (other : cur ≠ new) (noSlash : ∀ c ∈ tokens, slash ∉ c)
    (leads : walk s tokens cur = .ok (some x)) : x ≠ new := by
  induction tokens generalizing cur with
  | nil => rwa [← Option.some.inj (Except.ok.inj leads)]
  | cons token tokens ih =>
      rw [walk] at leads
      obtain ⟨next, step, leads⟩ := Outcome.bind_eq_ok.mp leads
      cases next with
      | none => cases Outcome.pure_eq_ok.mp leads
      | some next =>
          have place : s.InTree next := by
            rw [← walk_single] at step
            exact walk_place tree inTree step
          refine ih place ?_ (fun c member => noSlash c (List.mem_cons_of_mem token member)) leads
          rintro rfl
          rcases stepInto_cases tree inTree step with stays | up | ⟨_, n', here, named⟩
          · exact other stays.symm
          · rw [empty] at up
            cases up
          · obtain rfl := Option.some.inj (here.symm.trans present)
            exact noSlash token List.mem_cons_self (named ▸ holds)

/-- A directory that has been made has been created in the parent, with the last component
    for its name. -/
theorem MadeDir.acts (made : MadeDir m.fs m'.fs cur path owner parent new d) (wf : WellFormed m.fs)
    (nothing : m.fs.nodes 0 = none) (inTree : m.fs.InTree cur)
    (present : m.fs.nodes parent = some d)
    (returned : shcMkdir cur (some path) owner m = (.ok (), m')) :
    mkdirParent m.fs cur path = .ok parent ∧ m.fs.InTree parent ∧
      Acts m.fs (.create .dir (fsBasename path) parent owner parent new) m'.fs := by
  obtain ⟨n, here, _⟩ := made.dir
  rcases shcMkdir_effect wf nothing (.inr inTree) returned with
    same | ⟨a, causes, inPlace, acts⟩ | saves
  · rw [same, made.unused] at here
    cases here
  · cases causes with
    | @mkdir _ dir block _ _ _ placed =>
        obtain ⟨d', present', created⟩ := created_of_acts acts
        have atParent : parent = dir := by
          by_contra other
          have live : parent ≠ block := by
            rintro rfl
            cases created.fresh.noNode.symm.trans present
          have unchanged := (made.child.symm.trans (created.kept parent live other)).trans present
          have counts := congrArg FsNode.childCount (Option.some.inj unchanged)
          exact absurd counts (Nat.succ_ne_self d.childCount)
        subst atParent
        have atBlock : new = block := by
          by_contra other
          have elsewhere : new ≠ parent := by
            rintro rfl
            cases made.unused.symm.trans present
          rw [created.kept new other elsewhere, made.unused] at here
          cases here
        subst atBlock
        exact ⟨placed, inPlace, acts⟩
  · cases saves

/-- Without a block, `mkdir` does not return. -/
theorem shcMkdir_served (nonempty : path ≠ []) (missing : fsResolve m.fs path cur = .ok 0)
    (placed : mkdirParent m.fs cur path = .ok parent) (nonnull : parent ≠ 0)
    (returned : shcMkdir cur (some path) owner m = (.ok (), m')) : m.blocks.headD 0 ≠ 0 := by
  intro unserved
  rw [shcMkdir_eq nonempty missing placed, if_neg fun invalid => nonnull invalid.1] at returned
  obtain ⟨newDir, m₁, first, _⟩ := bind_eq_ok.mp returned
  have allocated : malloc 1 m = (.ok 0, { m with blocks := m.blocks.tail }) := by
    rw [malloc, mallocAfter, if_neg one_ne_zero, unserved]
    exact if_pos (.inl rfl)
  rw [fsCreateNode, bind_of_ok allocated, if_pos rfl] at first
  exact stop_ne_ok first

/-- No path leads to a new directory whose name holds a slash. -/
theorem not_resolves_of_slash (wf : WellFormed s) (inTree : s.InTree cur) (below : s.InTree parent)
    (acts : Acts s (.create .dir name parent owner parent new) s') (holds : slash ∈ name) :
    fsResolve s' path cur ≠ .ok new := by
  intro resolves
  obtain ⟨_, _, created⟩ := created_of_acts acts
  obtain ⟨par, leaf⟩ := created.atBlock
  have leads := walk_of_resolve resolves created.fresh.nonnull
  have start : startOf s' path cur = startOf s path cur := by rw [startOf, startOf, created.root]
  have grows : s'.InTree cur := acts.inTree wf below inTree fun p same => by cases same
  have stays := startOf_inTree path grows
  have other : startOf s' path cur ≠ new := by
    intro same
    rw [start] at same
    obtain ⟨_, n', live, _⟩ := wf.live (startOf_inTree path inTree)
    rw [same, created.fresh.noNode] at live
    cases live
  exact walk_avoids (acts.wellFormed wf below).consistentTree (kids_of leaf) leaf holds stays other
    (fun c member => noSlash_of_component member) leads rfl

theorem MakesDir.straight (makes : MakesDir m cur path owner parent d) (wf : WellFormed m.fs)
    (nothing : m.fs.nodes 0 = none) (inTree : m.fs.InTree cur) (nonempty : path ≠ [])
    (missing : fsResolve m.fs path cur = .ok 0)
    (asked : fsResolve m.fs (withoutLast path) cur = .ok parent)
    (present : m.fs.nodes parent = some d) : Straight m cur path parent := by
  obtain ⟨m', new, returned, made⟩ := makes
  obtain ⟨placed, below, acts⟩ := made.acts wf nothing inTree present returned
  have nonnull : parent ≠ 0 := by
    rintro rfl
    cases nothing.symm.trans present
  refine ⟨shcMkdir_served nonempty missing placed nonnull returned, ?_, ?_, ?_⟩
  · intro trailing
    obtain ⟨front, rfl⟩ := List.getLast?_eq_some_iff.mp trailing
    obtain ⟨before, name⟩ := fsBasename_trailing front
    have holds : slash ∈ fsBasename (front ++ [slash]) := by
      rw [name]
      exact List.mem_append_right before List.mem_cons_self
    exact not_resolves_of_slash wf inTree below acts holds made.resolves
  · rintro name rfl noSlash
    rw [← List.nil_append (slash :: name)] at placed
    obtain ⟨atCur, _⟩ := mkdirParent_found noSlash placed nonnull
    have named : name ≠ [] := by
      rintro rfl
      exact absurd (Except.ok.inj ((resolve_slash m.fs cur).symm.trans missing)) (wf.live .refl).1
    have atRoot : withoutLast (slash :: name) = [slash] := withoutLast_slash [] noSlash named
    rw [atRoot] at asked
    exact (Except.ok.inj atCur).trans (Except.ok.inj asked).symm
  · rintro front name rfl noSlash _
    exact (mkdirParent_found noSlash placed nonnull).1

/-- `mkdir` makes the directory that it was asked for if and only if the path is straight. -/
theorem mkdir_makes_iff (m : Machine) (cur : Ptr) (path : CStr) (owner : UInt64) (parent : Ptr)
    (d : FsNode) (wf : WellFormed m.fs) (nothing : m.fs.nodes 0 = none) (inTree : m.fs.InTree cur)
    (honest : ∀ block, m.blocks.head? = some block → block = 0 ∨ Fresh m.fs block)
    (nonempty : path ≠ []) (missing : fsResolve m.fs path cur = .ok 0)
    (asked : fsResolve m.fs (withoutLast path) cur = .ok parent)
    (present : m.fs.nodes parent = some d) (isDir : d.type = .dir) (room : d.childCount < 64) :
    MakesDir m cur path owner parent d ↔ Straight m cur path parent :=
  ⟨fun makes => makes.straight wf nothing inTree nonempty missing asked present,
    fun straight => straight.makes wf nothing inTree honest nonempty missing asked present
      isDir room⟩

theorem homeSession_honest (line : String) (block : Ptr)
    (next : (homeSession 2 line).machine.blocks.head? = some block) :
    block = 0 ∨ Fresh homeState block := by
  obtain rfl := Option.some.inj next
  exact .inr ⟨by decide, rfl, rfl⟩

/-- `mkdir a` in `home`. -/
theorem mkdir_makes_iff_home :
    ∃ d, homeState.nodes 2 = some d ∧ MakesDir (homeSession 2 "").machine 2 [97] 0 2 d := by
  have home : homeState.InTree 2 := .tail .refl (List.mem_singleton.mpr rfl)
  have noSlash : slash ∉ ([97] : CStr) := by decide
  have asked : fsResolve homeState (withoutLast [97]) 2 = .ok 2 := by
    rw [withoutLast_noSlash noSlash]
    rfl
  refine ⟨_, rfl,
    (mkdir_makes_iff (homeSession 2 "").machine 2 [97] 0 2 _ homeState_wellFormed rfl home
    (homeSession_honest "") (by decide) (by decide) asked rfl rfl (by decide)).mpr ⟨by decide, by
      decide, ?_, ?_⟩⟩
  · rintro name parts _
    exact absurd (List.cons.inj parts).1 (by decide)
  · rintro front name parts _ _
    exact absurd (parts ▸ List.mem_append_right front List.mem_cons_self) noSlash

/-- `mkdir /a` in `home` makes the directory in `home`. -/
theorem not_mkdir_makes :
    ¬ ∀ (m : Machine) (cur : Ptr) (path : CStr) (owner : UInt64) (parent : Ptr) (d : FsNode),
    WellFormed m.fs → m.fs.nodes 0 = none → m.fs.InTree cur →
      (∀ block, m.blocks.head? = some block → block = 0 ∨ Fresh m.fs block) → path ≠ [] →
      (∀ c ∈ components path, c.length < 32) → fsResolve m.fs path cur = .ok 0 →
      fsResolve m.fs (withoutLast path) cur = .ok parent → m.fs.nodes parent = some d →
      d.type = .dir → d.childCount < 64 → MakesDir m cur path owner parent d := by
  intro always
  have home : homeState.InTree 2 := .tail .refl (List.mem_singleton.mpr rfl)
  have noSlash : slash ∉ ([97] : CStr) := by decide
  have missing : fsResolve homeState [47, 97] 2 = .ok 0 := by decide
  have asked : fsResolve homeState (withoutLast [47, 97]) 2 = .ok 1 := by
    have atRoot : withoutLast [47, 97] = [slash] := withoutLast_slash [] noSlash (by decide)
    rw [atRoot]
    rfl
  have short : ∀ c ∈ components [47, 97], c.length < 32 := by
    have parts : components [47, 97] = [[], [97]] := components_last [] noSlash
    rw [parts]
    decide
  have makes := always (homeSession 2 "").machine 2 [47, 97] 0 1 _ homeState_wellFormed rfl home
    (homeSession_honest "") (by decide) short missing asked rfl rfl (by decide)
  have straight := makes.straight homeState_wellFormed rfl home (by decide) missing asked rfl
  exact absurd (straight.fromRoot [97] rfl noSlash) (by decide)

end AurorOS.Shell
