import AurorOS.Fs.Paths

/-! # Paths as lists of components

Resolving a path is a walk along what is between its slashes.  In a tree, such a walk
fails only at a component that does not fit into `token`.
-/

namespace AurorOS.Fs

open FsState Outcome

/-- What is between the slashes, which is nothing at a slash at either end. -/
def components (path : CStr) : List CStr := path.splitOn slash

/-- One component after the other. -/
def walk (s : FsState) : List CStr → Ptr → Except Fault (Option Ptr)
  | [], current => .ok (some current)
  | token :: rest, current => do
      match ← stepInto s token current with
      | none => return none
      | some next => walk s rest next

/-- Where the walk along a path begins. -/
def startOf (s : FsState) (path : CStr) (current : Ptr) : Ptr :=
  if path.head? = some slash then s.fsRoot else current

/-- The walk along `tokens` comes to the component `c`. -/
def ComesTo (s : FsState) (tokens : List CStr) (start : Ptr) (c : CStr) : Prop :=
  ∃ front back dir, tokens = front ++ c :: back ∧ walk s front start = .ok (some dir)

variable {s : FsState} {n d : FsNode} {p c current start : Ptr}
  {path front back rest token name c' : CStr} {tokens more : List CStr} {found : Option Ptr}
  {i left : Nat}

theorem components_of_noSlash (noSlash : slash ∉ name) : components name = [name] :=
  List.splitOn_eq_singleton noSlash

theorem components_slash (rest : CStr) : components (slash :: rest) = [] :: components rest := by
  rw [components, List.splitOn_cons_eq_if_modifyHead, if_pos (beq_self_eq_true slash), components]

theorem components_other {c : UInt8} (noSlash : c ≠ slash) (rest : CStr) :
    components (c :: rest) = (components rest).modifyHead (c :: ·) := by
  rw [components, List.splitOn_cons_eq_if_modifyHead, if_neg (mt beq_iff_eq.mp noSlash), components]

theorem components_plain (path : CStr) :
    (components path).modifyHead ([] ++ ·) = components path := by
  cases components path <;> rfl

theorem components_cons (path : CStr) : ∃ first others, components path = first :: others :=
  List.exists_cons_of_ne_nil (List.splitOn_ne_nil slash path)

/-- A component goes on in what is appended to it. -/
theorem components_gather (noSlash : slash ∉ name) (rest : CStr) :
    components (name ++ rest) = (components rest).modifyHead (name ++ ·) := by
  induction name with
  | nil => exact (components_plain rest).symm
  | cons c name ih =>
      rw [List.mem_cons, not_or] at noSlash
      obtain ⟨first, others, split⟩ := components_cons rest
      rw [List.cons_append, components_other (Ne.symm noSlash.1), ih noSlash.2, split]
      rfl

theorem noSlash_of_component (member : name ∈ components path) : slash ∉ name := by
  induction path generalizing name with
  | nil =>
      obtain rfl := List.mem_singleton.mp member
      exact List.not_mem_nil
  | cons c rest ih =>
      by_cases atSlash : c = slash
      · rw [atSlash, components_slash] at member
        rcases List.mem_cons.mp member with rfl | later
        · exact List.not_mem_nil
        · exact ih later
      · obtain ⟨first, others, split⟩ := components_cons rest
        rw [components_other atSlash, split, List.modifyHead_cons] at member
        rcases List.mem_cons.mp member with rfl | later
        · rw [List.mem_cons, not_or]
          exact ⟨Ne.symm atSlash, ih (split ▸ List.mem_cons_self)⟩
        · exact ih (split ▸ List.mem_cons_of_mem first later)

theorem components_append (front back : CStr) :
    components (front ++ slash :: back) = components front ++ components back :=
    List.splitOn_append_cons_self ..

theorem components_last (front : CStr) (noSlash : slash ∉ back) :
    components (front ++ slash :: back) = components front ++ [back] := by
  rw [components_append, components_of_noSlash noSlash]

theorem walk_append (s : FsState) (tokens more : List CStr) (current : Ptr) :
    walk s (tokens ++ more) current = (do
      match ← walk s tokens current with
      | none => return none
      | some next => walk s more next) := by
  induction tokens generalizing current with
  | nil => rfl
  | cons token tokens ih =>
      rw [List.cons_append, walk, walk]
      cases step : stepInto s token current with
      | error fault => rfl
      | ok next =>
          cases next with
          | none => rfl
          | some next => exact ih next

theorem walk_single (s : FsState) (token : CStr) (current : Ptr) :
    walk s [token] current = stepInto s token current := by
  rw [walk]
  cases step : stepInto s token current with
  | error fault => rfl
  | ok next => cases next <;> rfl

theorem walk_append_some {dir : Ptr} (before : walk s tokens current = .ok (some dir)) :
    walk s (tokens ++ more) current = walk s more dir := by
  rw [walk_append, before]
  rfl

theorem stepInto_long (long : 32 ≤ token.length) :
    stepInto s token current = .error .invalidAccess :=
  if_neg (by omega)

theorem stepInto_found (short : token.length < 32) (nonempty : token ≠ []) (notDot : token ≠ dot)
    (notDotDot : token ≠ dotDot) (search : emulatedFsFindIn s current token = .ok p)
    (nonnull : p ≠ 0) :
    stepInto s token current = .ok (some p) := by
  rw [stepInto, if_pos short, if_neg (not_or.mpr ⟨nonempty, notDot⟩), if_neg notDotDot, search]
  simp only [bind, Except.bind, if_neg nonnull]
  rfl

theorem stepInto_nil (s : FsState) (current : Ptr) : stepInto s [] current = .ok (some current) :=
  rfl

/-- The resolver walks along the components, the first of which begins with what
    `token` holds. -/
theorem resolveLoop_eq_walk (s : FsState) (path token : CStr) (current : Ptr) :
    resolveLoop s path token current =
    walk s ((components path).modifyHead (token ++ ·)) current := by
  induction path generalizing token current with
  | nil =>
      have parts : (components []).modifyHead (token ++ ·) = [token] := by simp [components]
      rw [parts, walk_single, resolveLoop]
  | cons c rest ih =>
      rw [resolveLoop]
      by_cases atSlash : c = slash
      · rw [if_pos atSlash, atSlash, components_slash, List.modifyHead_cons, walk, List.append_nil]
        cases stepInto s token current with
        | error fault => rfl
        | ok next =>
            cases next with
            | none => rfl
            | some next =>
                exact (ih [] next).trans (congrArg (walk s · next) (components_plain rest))
      · obtain ⟨first, others, split⟩ := components_cons rest
        rw [if_neg atSlash, components_other atSlash, split]
        by_cases room : token.length < 32
        · rw [if_pos room, ih, split]
          simp
        · have long : 32 ≤ (token ++ c :: first).length := by
            rw [List.length_append]
            omega
          rw [if_neg room, List.modifyHead_cons, List.modifyHead_cons, walk, stepInto_long long]
          rfl

/-- Resolving a path is a walk along its components from the root or from the current
    directory. -/
theorem fsResolve_eq_walk (s : FsState) (path : CStr) (current : Ptr) :
    fsResolve s path current =
    (do return (← walk s (components path) (startOf s path current)).getD 0) := by
  have looped : ∀ path start, resolveLoop s path [] start = walk s (components path) start := by
    intro path start
    rw [resolveLoop_eq_walk, components_plain]
  unfold fsResolve emulatedFsResolve
  split
  · rename_i c rest
    split
    · rename_i atSlash
      have begins : startOf s (c :: rest) current = s.fsRoot := if_pos (congrArg some atSlash)
      rw [looped, begins, atSlash, components_slash, walk, stepInto_nil]
      rfl
    · rename_i noSlash
      have begins : startOf s (c :: rest) current = current :=
        if_neg fun same => noSlash (Option.some.inj same)
      rw [looped, begins]
  · rw [looped]
    rfl

theorem fsResolve_eq_ok :
    fsResolve s path current = .ok p ↔
      ∃ found, walk s (components path) (startOf s path current) = .ok found ∧
      found.getD 0 = p := by
  rw [fsResolve_eq_walk, bind_eq_ok]
  exact exists_congr fun found => and_congr_right fun _ => pure_eq_ok

theorem startOf_noSlash (s : FsState) (current : Ptr) (noSlash : slash ∉ path) :
    startOf s path current = current :=
  if_neg fun first => noSlash (List.mem_of_head? first)

theorem startOf_root (s : FsState) (path : CStr) : startOf s path s.fsRoot = s.fsRoot := ite_self _

/-- What is in front of the first slash decides where a walk begins, if there is
    anything. -/
theorem startOf_append (s : FsState) (back : CStr) (current : Ptr) (nonempty : front ≠ []) :
    startOf s (front ++ back) current = startOf s front current := by
  cases front with
  | nil => exact absurd rfl nonempty
  | cons c front => rfl

/-- The positions of `token` that the loop of `emulated_fs_resolve` writes, in order.  The source
    tests no index, so they are written down as they come. -/
def tokenWrites (s : FsState) : CStr → CStr → Ptr → List Nat
  | [], token, _ => [token.length]
  | c :: rest, token, current =>
      token.length ::
        if c = slash then
          match stepInto s token current with
          | .ok (some next) => tokenWrites s rest [] next
          | _ => []
        else tokenWrites s rest (token ++ [c]) current

def resolverWrites (s : FsState) (path : CStr) (current : Ptr) : List Nat :=
  match path with
  | c :: rest => if c = slash then tokenWrites s rest [] s.fsRoot else tokenWrites s path [] current
  | [] => tokenWrites s path [] current

theorem comesTo_cons :
    ComesTo s (token :: tokens) start c' ↔
      c' = token ∨ ∃ next, stepInto s token start = .ok (some next) ∧ ComesTo s tokens next c' := by
  constructor
  · rintro ⟨front, back, dir, parts, before⟩
    cases front with
    | nil => exact .inl (List.cons.inj parts).1.symm
    | cons first front =>
        obtain ⟨rfl, others⟩ := List.cons.inj parts
        rw [walk] at before
        obtain ⟨next, step, before⟩ := bind_eq_ok.mp before
        cases next with
        | none => cases pure_eq_ok.mp before
        | some next => exact .inr ⟨next, step, front, back, dir, others, before⟩
  · rintro (rfl | ⟨next, step, front, back, dir, rfl, before⟩)
    · exact ⟨[], tokens, start, rfl, rfl⟩
    · refine ⟨token :: front, back, dir, rfl, ?_⟩
      rw [walk, step]
      exact before

theorem comesTo_single : ComesTo s [token] start c' ↔ c' = token := by
  rw [comesTo_cons, or_iff_left]
  rintro ⟨next, _, front, back, _, parts, _⟩
  exact absurd parts.symm (List.append_ne_nil_of_right_ne_nil front (List.cons_ne_nil c' back))

theorem comesTo_concat :
    ComesTo s (tokens ++ [name]) start c' ↔
      ComesTo s tokens start c' ∨ c' = name ∧ ∃ dir, walk s tokens start = .ok (some dir) := by
  induction tokens generalizing start with
  | nil =>
      have empty : ¬ ComesTo s [] start c' :=
        fun ⟨front, back, _, parts, _⟩ => List.append_ne_nil_of_right_ne_nil front
          (List.cons_ne_nil c' back) parts.symm
      rw [List.nil_append, comesTo_single, or_iff_right empty]
      exact ⟨fun same => ⟨same, start, rfl⟩, fun both => both.1⟩
  | cons token tokens ih =>
      rw [List.cons_append, comesTo_cons, comesTo_cons, walk]
      simp only [ih]
      cases step : stepInto s token start with
      | error fault => simp [bind, Except.bind]
      | ok next => cases next <;> simp [bind, Except.bind, pure, Except.pure, or_assoc]

/-- What a walk comes to in the front of a path is the beginning of what it comes to in the
    path. -/
theorem comesTo_front (comes : ComesTo s (components front) start name) :
    ∃ c, ComesTo s (components (front ++ back)) start c ∧ name.length ≤ c.length := by
  induction size : front.length using Nat.strong_induction_on generalizing front start with
  | _ k ih => ?_
  by_cases present : slash ∈ front
  · obtain ⟨token, rest, rfl, noSlash⟩ := List.eq_append_cons_of_mem present
    rw [components_append, components_of_noSlash noSlash, List.singleton_append,
      comesTo_cons] at comes
    have parts : components (token ++ slash :: rest ++ back) =
        token :: components (rest ++ back) := by
      rw [List.append_assoc, List.cons_append, components_append, components_of_noSlash noSlash,
        List.singleton_append]
    rw [parts]
    rcases comes with rfl | ⟨next, step, further⟩
    · exact ⟨name, comesTo_cons.mpr (.inl rfl), le_rfl⟩
    · have shorter : rest.length < k := by
        rw [← size, List.length_append, List.length_cons]
        omega
      obtain ⟨c, later, long⟩ := ih rest.length shorter further rfl
      exact ⟨c, comesTo_cons.mpr (.inr ⟨next, step, later⟩), long⟩
  · rw [components_of_noSlash present, comesTo_single] at comes
    obtain ⟨first, others, split⟩ := components_cons back
    refine ⟨front ++ first, ?_, ?_⟩
    · rw [components_gather present, split, List.modifyHead_cons]
      exact comesTo_cons.mpr (.inl rfl)
    · rw [comes, List.length_append]
      omega

/-- A walk that leads somewhere comes to every component. -/
theorem comesTo_of_mem {dir : Ptr} (leads : walk s tokens start = .ok (some dir))
    (member : name ∈ tokens) :
    ComesTo s tokens start name := by
  obtain ⟨front, back, rfl⟩ := List.append_of_mem member
  rw [walk_append] at leads
  obtain ⟨next, before, leads⟩ := bind_eq_ok.mp leads
  cases next with
  | none => cases pure_eq_ok.mp leads
  | some next => exact ⟨front, back, next, rfl, before⟩

/-- One more component is come to behind them. -/
theorem comesTo_append_of_mem (leads : walk s tokens start = .ok (some dir))
    (member : name ∈ tokens ++ [token]) :
    ComesTo s (tokens ++ [token]) start name := by
  cases List.mem_append.mp member with
  | inl earlier => exact comesTo_concat.mpr (.inl (comesTo_of_mem leads earlier))
  | inr last => exact comesTo_concat.mpr (.inr ⟨List.mem_singleton.mp last, dir, leads⟩)

/-- A path without a slash is its own component. -/
theorem comesTo_noSlash (noSlash : slash ∉ path) : ComesTo s (components path) start path := by
  rw [components_of_noSlash noSlash]
  exact comesTo_single.mpr rfl

/-- The writes are in bounds if and only if every component fits that is come to. -/
theorem tokenWrites_iff (s : FsState) (path token : CStr) (current : Ptr) :
    (∀ pos ∈ tokenWrites s path token current, pos < 32) ↔
      ∀ c, ComesTo s ((components path).modifyHead (token ++ ·)) current c → c.length < 32 := by
  induction path generalizing token current with
  | nil =>
      have parts : (components []).modifyHead (token ++ ·) = [token] := by simp [components]
      rw [parts, tokenWrites]
      simp [comesTo_single]
  | cons c rest ih =>
      rw [tokenWrites, List.forall_mem_cons]
      by_cases atSlash : c = slash
      · rw [if_pos atSlash, atSlash, components_slash, List.modifyHead_cons, List.append_nil]
        simp only [comesTo_cons]
        cases step : stepInto s token current with
        | error fault => simp
        | ok next =>
            cases next with
            | none => simp
            | some next =>
                have onward := ih [] next
                rw [components_plain] at onward
                simp [onward, or_imp, forall_and]
      · obtain ⟨first, others, split⟩ := components_cons rest
        have onward := ih (token ++ [c]) current
        rw [split, List.modifyHead_cons, List.append_assoc, List.singleton_append] at onward
        rw [if_neg atSlash, components_other atSlash, split, List.modifyHead_cons,
          List.modifyHead_cons, onward]
        refine and_iff_right_of_imp fun fit => ?_
        have head := fit (token ++ c :: first) (comesTo_cons.mpr (.inl rfl))
        rw [List.length_append] at head
        omega

theorem resolverWrites_iff (s : FsState) (path : CStr) (current : Ptr) :
    (∀ pos ∈ resolverWrites s path current, pos < 32) ↔
      ∀ c, ComesTo s (components path) (startOf s path current) c → c.length < 32 := by
  have looped : ∀ path start, (∀ pos ∈ tokenWrites s path [] start, pos < 32) ↔
      ∀ c, ComesTo s (components path) start c → c.length < 32 := by
    intro path start
    rw [tokenWrites_iff, components_plain]
  unfold resolverWrites
  split
  · rename_i c rest
    split
    · rename_i atSlash
      have begins : startOf s (c :: rest) current = s.fsRoot := if_pos (congrArg some atSlash)
      rw [looped, begins, atSlash, components_slash]
      simp [comesTo_cons, stepInto_nil]
    · rename_i noSlash
      have begins : startOf s (c :: rest) current = current :=
        if_neg fun same => noSlash (Option.some.inj same)
      rw [looped, begins]
  · rw [looped]
    rfl

/-- The loop finds an entry with the name, or there is none. -/
theorem findLoop_search (name : CStr)
    (live : ∀ k < i + left, d.children k ≠ 0 ∧ ∃ m, s.nodes (d.children k) = some m)
    (fits : i + left ≤ 64) :
    (∃ k m, i ≤ k ∧ k < i + left ∧ findLoop s d name left i = .ok (d.children k) ∧
      s.nodes (d.children k) = some m ∧ m.name = name) ∨
    (findLoop s d name left i = .ok 0 ∧
      ∀ k m, i ≤ k → k < i + left → s.nodes (d.children k) = some m → m.name ≠ name) := by
  induction left generalizing i with
  | zero => exact .inr ⟨rfl, fun k m above below => absurd above (by omega)⟩
  | succ left ih =>
      obtain ⟨_, m, here⟩ := live i (by omega)
      have read : readChild d i = .ok (d.children i) := if_pos (by omega)
      have round : findLoop s d name (left + 1) i =
          if m.name = name then .ok (d.children i) else findLoop s d name left (i + 1) := by
        rw [findLoop, read]
        simp only [bind, Except.bind, Fs.deref_eq_ok.mpr here]
        rfl
      by_cases same : m.name = name
      · rw [if_pos same] at round
        exact .inl ⟨i, m, le_rfl, by omega, round, here, same⟩
      · rw [if_neg same] at round
        rw [round]
        rcases @ih (i + 1) (fun k below => live k (by omega)) (by omega) with
          ⟨k, m', above, below, found, present, named⟩ | ⟨nothing, others⟩
        · exact .inl ⟨k, m', by omega, by omega, found, present, named⟩
        · refine .inr ⟨nothing, fun k m' above below present => ?_⟩
          by_cases first : k = i
          · subst first
            obtain rfl := Option.some.inj (here.symm.trans present)
            exact same
          · exact others k m' (by omega) (by omega) present

/-- A search of a place in the tree finds a child with the name, or it has none. -/
theorem emulatedFsFindIn_search (tree : ConsistentTree s) (inTree : s.InTree p) (name : CStr) :
    (∃ c m, c ∈ s.kids p ∧ emulatedFsFindIn s p name = .ok c ∧ s.nodes c = some m ∧ m.name = name) ∨
    (emulatedFsFindIn s p name = .ok 0 ∧ ∀ c m, c ∈ s.kids p → s.nodes c = some m →
    m.name ≠ name) := by
  obtain ⟨d, here, fits, leaf⟩ := tree.live p inTree
  have children : s.kids p = d.childList := kids_of here
  rw [emulatedFsFindIn, Fs.deref_eq_ok.mpr here]
  simp only [bind, Except.bind]
  by_cases isDir : d.type = .dir
  · rw [if_neg (not_not.mpr isDir)]
    have listed : ∀ k < 0 + d.childCount, d.children k ∈ s.kids p := by
      intro k below
      rw [children, FsNode.childList]
      exact List.mem_map.mpr ⟨k, List.mem_range.mpr (by omega), rfl⟩
    have live : ∀ k < 0 + d.childCount, d.children k ≠ 0 ∧
        ∃ m, s.nodes (d.children k) = some m := by
      intro k below
      have kid := inTree.tail (listed k below)
      obtain ⟨m, present, _⟩ := tree.live _ kid
      exact ⟨tree.nonnull _ kid, m, present⟩
    rcases findLoop_search name live (by omega) with
      ⟨k, m, _, below, found, present, named⟩ | ⟨nothing, others⟩
    · exact .inl ⟨_, m, listed k below, found, present, named⟩
    · refine .inr ⟨nothing, fun c m kid present => ?_⟩
      rw [children, FsNode.childList] at kid
      obtain ⟨k, inRange, rfl⟩ := List.mem_map.mp kid
      exact others k m (Nat.zero_le k) (by rw [Nat.zero_add]; exact List.mem_range.mp inRange)
        present
  · rw [if_pos isDir]
    have isFile : d.type = .file := by
      cases type : d.type with
      | file => rfl
      | dir => exact absurd type isDir
    refine .inr ⟨rfl, fun c m kid => ?_⟩
    rw [children, childList_eq_nil.mpr (leaf isFile)] at kid
    cases kid

/-- A component that fits leads to a place in the tree or nowhere. -/
theorem stepInto_inTree (tree : ConsistentTree s) (inTree : s.InTree current)
    (short : token.length < 32) :
    stepInto s token current = .ok none ∨ ∃ next, stepInto s token current = .ok (some next) ∧
    s.InTree next := by
  rw [stepInto, if_pos short]
  split
  · exact .inr ⟨current, rfl, inTree⟩
  split
  · obtain ⟨n, here, _⟩ := tree.live current inTree
    rw [Fs.deref_eq_ok.mpr here]
    refine .inr ⟨_, rfl, ?_⟩
    split
    · rename_i hasParent
      rw [← parent_of here] at hasParent ⊢
      cases inTree with
      | refl => exact absurd tree.rootParent hasParent
      | tail above listed =>
          rw [tree.parents _ current above listed]
          exact above
    · exact inTree
  · rcases emulatedFsFindIn_search tree inTree token with ⟨c, _, listed, found, _⟩ | ⟨nothing, _⟩
    · have below := inTree.tail listed
      refine .inr ⟨c, ?_, below⟩
      simp only [found, bind, Except.bind, if_neg (tree.nonnull c below)]
      rfl
    · refine .inl ?_
      simp only [nothing, bind, Except.bind, if_true]
      rfl

/-- A step stays, goes to the parent, or goes to a child that has the name. -/
theorem stepInto_cases {next : Ptr} (tree : ConsistentTree s) (inTree : s.InTree current)
    (step : stepInto s token current = .ok (some next)) :
    next = current ∨ current ∈ s.kids next ∨ next ∈ s.kids current ∧ ∃ n, s.nodes next = some n ∧
    n.name = token := by
  rw [stepInto] at step
  split at step
  case isFalse => cases step
  split at step
  · exact .inl (Option.some.inj (Except.ok.inj step)).symm
  split at step
  · obtain ⟨n, here, step⟩ := bind_eq_ok.mp step
    rw [Fs.deref_eq_ok] at here
    have value := Option.some.inj (pure_eq_ok.mp step)
    split at value
    · rename_i hasParent
      rw [← parent_of here] at hasParent value
      cases inTree with
      | refl => exact absurd tree.rootParent hasParent
      | tail above listed =>
          rw [tree.parents _ current above listed] at value
          exact .inr (.inl (value ▸ listed))
    · exact .inl value.symm
  · obtain ⟨found, search, step⟩ := bind_eq_ok.mp step
    have value := pure_eq_ok.mp step
    split at value
    · cases value
    · rename_i present
      obtain rfl := Option.some.inj value
      obtain ⟨_, n, _, _, listed, here, named⟩ := emulatedFsFindIn_found search present
      exact .inr (.inr ⟨listed, n, here, named⟩)

/-- Where a step leads nowhere, the component is a name that is looked for in vain. -/
theorem stepInto_none (tree : ConsistentTree s) (inTree : s.InTree current)
    (step : stepInto s token current = .ok none) :
    token.length < 32 ∧ token ≠ [] ∧ token ≠ dot ∧ token ≠ dotDot ∧
      ∀ c m, c ∈ s.kids current → s.nodes c = some m → m.name ≠ token := by
  rw [stepInto] at step
  split at step
  case isFalse => cases step
  rename_i short
  split at step
  · cases step
  rename_i proper
  rw [not_or] at proper
  split at step
  · obtain ⟨n, _, step⟩ := bind_eq_ok.mp step
    cases pure_eq_ok.mp step
  rename_i notDotDot
  refine ⟨short, proper.1, proper.2, notDotDot, ?_⟩
  rcases emulatedFsFindIn_search tree inTree token with ⟨c, _, listed, found, _⟩ | ⟨_, others⟩
  · rw [found] at step
    have value := pure_eq_ok.mp step
    rw [if_neg (tree.nonnull c (inTree.tail listed))] at value
    cases value
  · exact others

/-- Where every component fits that a walk comes to, it leads to a place in the tree or
    nowhere. -/
theorem walk_inTree (tree : ConsistentTree s) (inTree : s.InTree start)
    (fit : ∀ c, ComesTo s tokens start c → c.length < 32) :
    walk s tokens start = .ok none ∨ ∃ dir, walk s tokens start = .ok (some dir) ∧
    s.InTree dir := by
  induction tokens generalizing start with
  | nil => exact .inr ⟨start, rfl, inTree⟩
  | cons token tokens ih =>
      have short : token.length < 32 := fit token ⟨[], tokens, start, rfl, rfl⟩
      rw [walk]
      rcases stepInto_inTree tree inTree short with nowhere | ⟨next, leads, below⟩
      · rw [nowhere]
        exact .inl rfl
      · rw [leads]
        refine ih below ?_
        rintro c ⟨front, back, dir, parts, before⟩
        refine fit c ⟨token :: front, back, dir, congrArg (token :: ·) parts, ?_⟩
        rw [walk, leads]
        exact before

/-- A walk that comes to a component that does not fit fails. -/
theorem walk_long (comes : ComesTo s tokens start name) (long : 32 ≤ name.length) :
    walk s tokens start = .error .invalidAccess := by
  obtain ⟨front, back, dir, rfl, before⟩ := comes
  rw [walk_append_some before, walk, stepInto_long long]
  rfl

theorem walk_fits (leads : walk s tokens start = .ok found) (comes : ComesTo s tokens start name) :
    name.length < 32 := by
  by_contra long
  rw [walk_long comes (Nat.le_of_not_lt long)] at leads
  cases leads

/-- A walk in the tree that does not fail leads to a place in the tree or nowhere. -/
theorem walk_place {dir : Ptr} (tree : ConsistentTree s) (inTree : s.InTree start)
    (leads : walk s tokens start = .ok (some dir)) : s.InTree dir := by
  rcases walk_inTree tree inTree fun c comes => walk_fits leads comes with
    nowhere | ⟨dir', leads', place⟩
  · cases leads.symm.trans nowhere
  · obtain rfl := Option.some.inj (Except.ok.inj (leads.symm.trans leads'))
    exact place

theorem startOf_inTree (path : CStr) (inTree : s.InTree current) :
    s.InTree (startOf s path current) := by
  rw [startOf]
  split
  · exact .refl
  · exact inTree

theorem resolve_nowhere (nowhere : walk s (components path) (startOf s path current) = .ok none) :
    fsResolve s path current = .ok 0 := fsResolve_eq_ok.mpr ⟨none, nowhere, rfl⟩

theorem walk_of_resolve (resolved : fsResolve s path current = .ok p) (nonnull : p ≠ 0) :
    walk s (components path) (startOf s path current) = .ok (some p) := by
  obtain ⟨found, leads, value⟩ := fsResolve_eq_ok.mp resolved
  cases found with
  | none => exact absurd value.symm nonnull
  | some q => exact value ▸ leads

/-- With short components, the resolver leads to a place in the tree or nowhere. -/
theorem resolve_inTree (tree : ConsistentTree s) (inTree : s.InTree current)
    (short : ∀ c ∈ components path, c.length < 32) :
    fsResolve s path current = .ok 0 ∨ ∃ r, fsResolve s path current = .ok r ∧ s.InTree r := by
  have fit : ∀ c, ComesTo s (components path) (startOf s path current) c → c.length < 32 := by
    rintro c ⟨front, back, _, parts, _⟩
    exact short c (parts ▸ List.mem_append_right front List.mem_cons_self)
  rcases walk_inTree tree (startOf_inTree path inTree) fit with nowhere | ⟨dir, leads, place⟩
  · exact .inl (resolve_nowhere nowhere)
  · exact .inr ⟨dir, fsResolve_eq_ok.mpr ⟨some dir, leads, rfl⟩, place⟩

/-- A path followed by a slash and a relative one leads where the second one leads from
    where the first one does, and nowhere if that is nowhere. -/
theorem resolve_compositional (s : FsState) (tree : ConsistentTree s) (c : Ptr)
    (inTree : s.InTree c) (p q : CStr) (nonempty : p ≠ []) (relative : q.head? ≠ some slash)
    (shortP : ∀ t ∈ components p, t.length < 32) (shortQ : ∀ t ∈ components q, t.length < 32) :
    ∃ r v, fsResolve s p c = .ok r ∧ fsResolve s (p ++ slash :: q) c = .ok v ∧
      (r ≠ 0 → fsResolve s q r = .ok v) ∧ (r = 0 → v = 0) := by
  have begins : startOf s (p ++ slash :: q) c = startOf s p c :=
    startOf_append s (slash :: q) c nonempty
  rcases resolve_inTree tree inTree shortP with nowhere | ⟨r, resolved, place⟩
  · obtain ⟨found, leads, null⟩ := fsResolve_eq_ok.mp nowhere
    have stops : found = none := by
      cases found with
      | none => rfl
      | some dir =>
          exact absurd null (tree.nonnull dir (walk_place tree (startOf_inTree p inTree) leads))
    subst stops
    refine ⟨0, 0, nowhere, resolve_nowhere ?_, fun nonnull => absurd rfl nonnull, fun _ => rfl⟩
    rw [components_append, begins, walk_append, leads]
    rfl
  · have nonnull := tree.nonnull r place
    have leads := walk_of_resolve resolved nonnull
    have onward : fsResolve s (p ++ slash :: q) c = fsResolve s q r := by
      rw [fsResolve_eq_walk, fsResolve_eq_walk, components_append, begins, walk_append_some leads,
        startOf, if_neg relative]
    rcases resolve_inTree tree place shortQ with ends | ⟨v, ends, _⟩
    · exact ⟨r, 0, resolved, onward.trans ends, fun _ => ends, fun null => absurd null nonnull⟩
    · exact ⟨r, v, resolved, onward.trans ends, fun _ => ends, fun null => absurd null nonnull⟩

/-- `home` and then `notes`, from the root. -/
theorem resolve_compositional_home :
    ∃ r v, fsResolve homeState [104, 111, 109, 101] 1 = .ok r ∧
      fsResolve homeState ([104, 111, 109, 101] ++ slash :: [110, 111, 116, 101, 115]) 1 = .ok v ∧
      (r ≠ 0 → fsResolve homeState [110, 111, 116, 101, 115] r = .ok v) ∧ (r = 0 → v = 0) := by
  have single : ∀ {name : CStr}, slash ∉ name → name.length < 32 →
      ∀ t ∈ components name, t.length < 32 := by
    intro name noSlash short t member
    rw [components_of_noSlash noSlash] at member
    rwa [List.mem_singleton.mp member]
  exact resolve_compositional homeState homeState_wellFormed.consistentTree 1 .refl _ _ (by decide)
    (by decide)
    (single (by decide) (by decide)) (single (by decide) (by decide))

end AurorOS.Fs
