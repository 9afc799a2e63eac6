import AurorOS.Fs.Tree
import AurorOS.Lib.Outcome

/-! # Path resolution

C strings are lists of bytes without their terminator.  `emulated_fs_resolve`
collects the characters of a component in `token[32]` and acts on it at each slash
and at the end; `NULL` for a missing entry ends it at once.  The tree has one root:
`fs_root` and `emulated_fs_root` point at the same node.
-/

namespace AurorOS.Fs

open FsState Outcome

/-- A C string without its terminator. -/
abbrev CStr := List UInt8

/-- `'/'`. -/
def slash : UInt8 := 47

/-- `"."`. -/
def dot : CStr := [46]

/-- `".."`. -/
def dotDot : CStr := [46, 46]

/-- The loop of `emulated_fs_find_in` from index `i` on, with `left` rounds left. -/
def findLoop (s : FsState) (d : FsNode) (name : CStr) : Nat → Nat → Except Fault Ptr
  | 0, _ => .ok 0
  | left + 1, i => do
      let child ← readChild d i
      let c ← s.deref child
      if c.name = name then return child
      findLoop s d name left (i + 1)

def emulatedFsFindIn (s : FsState) (dir : Ptr) (name : CStr) : Except Fault Ptr := do
  let d ← s.deref dir
  if d.type ≠ .dir then return 0
  findLoop s d name d.childCount 0

/-- What a component does to `current`; `none` where the source returns `NULL`. -/
def stepInto (s : FsState) (token : CStr) (current : Ptr) : Except Fault (Option Ptr) := do
  -- the terminator goes to `token[pos]`
  if token.length < 32 then
    if token = [] ∨ token = dot then return some current
    else if token = dotDot then
      let n ← s.deref current
      return some (if n.parent ≠ 0 then n.parent else current)
    else
      let found ← emulatedFsFindIn s current token
      return if found = 0 then none else some found
  else .error .invalidAccess

/-- The loop of `emulated_fs_resolve` over the rest of the path, with the characters
    that `token` holds. -/
def resolveLoop (s : FsState) : CStr → CStr → Ptr → Except Fault (Option Ptr)
  | [], token, current => stepInto s token current
  | c :: rest, token, current =>
      if c = slash then do
        match ← stepInto s token current with
        | none => return none
        | some next => resolveLoop s rest [] next
      else if token.length < 32 then resolveLoop s rest (token ++ [c]) current
      else .error .invalidAccess

def emulatedFsResolve (s : FsState) (path : CStr) (currentDir : Ptr) : Except Fault Ptr := do
  let found ← match path with
    | c :: rest =>
        if c = slash then resolveLoop s rest [] s.fsRoot else resolveLoop s path [] currentDir
    | [] => resolveLoop s path [] currentDir
  return found.getD 0

def fsResolve := emulatedFsResolve

variable {s : FsState} {n d : FsNode} {p q r c x dir current : Ptr} {path rest token name : CStr}
  {i left : Nat}

theorem readChild_eq_ok : readChild d i = .ok p ↔ i < 64 ∧ d.children i = p := by
  rw [readChild]
  by_cases inside : i < 64 <;> simp [inside]

/-- A found entry is one of the children and has the name. -/
theorem findLoop_found (found : findLoop s d name left i = .ok p) (present : p ≠ 0) :
    ∃ k, i ≤ k ∧ k < i + left ∧ d.children k = p ∧ ∃ m, s.nodes p = some m ∧ m.name = name := by
  induction left generalizing i with
  | zero => exact absurd (Except.ok.inj found).symm present
  | succ left ih =>
      obtain ⟨child, read, rest⟩ := bind_eq_ok.mp found
      obtain ⟨m, here, rest⟩ := bind_eq_ok.mp rest
      rw [readChild_eq_ok] at read
      rw [deref_eq_ok] at here
      by_cases same : m.name = name
      · rw [if_pos same] at rest
        obtain rfl := Except.ok.inj rest
        exact ⟨i, le_rfl, by omega, read.2, m, here, same⟩
      · rw [if_neg same] at rest
        obtain ⟨k, above, below, listed, named⟩ := ih rest
        exact ⟨k, by omega, by omega, listed, named⟩

theorem emulatedFsFindIn_found (found : emulatedFsFindIn s dir name = .ok p) (present : p ≠ 0) :
    ∃ d m, s.nodes dir = some d ∧ d.type = .dir ∧ p ∈ s.kids dir ∧ s.nodes p = some m ∧
    m.name = name := by
  obtain ⟨d, here, rest⟩ := bind_eq_ok.mp found
  rw [deref_eq_ok] at here
  by_cases isDir : d.type = .dir
  · rw [if_neg (not_not.mpr isDir)] at rest
    obtain ⟨k, _, below, child, m, presentChild, named⟩ := findLoop_found rest present
    refine ⟨d, m, here, isDir, ?_, presentChild, named⟩
    rw [kids_of here, FsNode.childList]
    exact List.mem_map.mpr ⟨k, List.mem_range.mpr (by omega), child⟩
  · rw [if_pos isDir] at rest
    exact absurd (Except.ok.inj rest).symm present

/-- A slash ends a component: what is in front of it is resolved first. -/
theorem resolveLoop_append (s : FsState) (front rest token : CStr) (current : Ptr) :
    resolveLoop s (front ++ slash :: rest) token current = (do
      match ← resolveLoop s front token current with
      | none => return none
      | some next => resolveLoop s rest [] next) := by
  induction front generalizing token current with
  | nil =>
      rw [List.nil_append]
      exact if_pos rfl
  | cons c front ih =>
      rw [List.cons_append, resolveLoop, resolveLoop]
      by_cases atSlash : c = slash
      · rw [if_pos atSlash, if_pos atSlash]
        cases step : stepInto s token current with
        | error fault => rfl
        | ok next =>
            cases next with
            | none => rfl
            | some next => exact ih [] next
      · rw [if_neg atSlash, if_neg atSlash]
        by_cases room : token.length < 32
        · rw [if_pos room, if_pos room]
          exact ih (token ++ [c]) current
        · rw [if_neg room, if_neg room]
          rfl

/-- Characters other than a slash gather in the token. -/
theorem resolveLoop_gather (noSlash : slash ∉ name) (room : token.length + name.length ≤ 32) :
    resolveLoop s (name ++ rest) token current = resolveLoop s rest (token ++ name) current := by
  induction name generalizing token with
  | nil => rw [List.nil_append, List.append_nil]
  | cons c name ih =>
      rw [List.mem_cons, not_or] at noSlash
      rw [List.length_cons] at room
      have moved : (token ++ [c]).length + name.length ≤ 32 := by
        rw [List.length_append, List.length_singleton]
        omega
      rw [List.cons_append, resolveLoop, if_neg (Ne.symm noSlash.1), if_pos (by omega),
        ih noSlash.2 moved, List.append_assoc, List.singleton_append]

theorem resolveLoop_name (noSlash : slash ∉ name) (short : name.length < 32) :
    resolveLoop s name [] current = stepInto s name current := by
  have gathered : resolveLoop s (name ++ []) [] current = resolveLoop s [] ([] ++ name) current :=
    resolveLoop_gather noSlash (by rw [List.length_nil]; omega)
  rwa [List.append_nil, List.nil_append, resolveLoop] at gathered

/-- What holds of the directory a path starts from and is kept by going to a parent
    and by going to a child holds of what the path resolves to. -/
theorem resolveLoop_invariant {P : Ptr → Prop}
    (up : ∀ x n, P x → s.nodes x = some n → n.parent ≠ 0 → P n.parent)
    (down : ∀ x y, P x → y ∈ s.kids x → P y)
    (start : P current) (resolved : resolveLoop s path token current = .ok (some p)) : P p := by
  have step : ∀ token current next, P current → stepInto s token current = .ok (some next) →
      P next := by
    intro token current next before stepped
    rw [stepInto] at stepped
    split at stepped
    · split at stepped
      · obtain rfl := Option.some.inj (Except.ok.inj stepped)
        exact before
      split at stepped
      · obtain ⟨n, here, stepped⟩ := bind_eq_ok.mp stepped
        rw [deref_eq_ok] at here
        obtain rfl := Option.some.inj (pure_eq_ok.mp stepped)
        split
        · rename_i hasParent
          exact up current n before here hasParent
        · exact before
      · obtain ⟨found, search, stepped⟩ := bind_eq_ok.mp stepped
        have result := pure_eq_ok.mp stepped
        split at result
        · cases result
        · rename_i present
          obtain rfl := Option.some.inj result
          obtain ⟨_, _, _, _, listed, _⟩ := emulatedFsFindIn_found search present
          exact down current found before listed
    · cases stepped
  induction path generalizing token current with
  | nil => exact step token current p start resolved
  | cons c rest ih =>
      rw [resolveLoop] at resolved
      split at resolved
      · obtain ⟨next, stepped, resolved⟩ := bind_eq_ok.mp resolved
        cases next with
        | none => cases pure_eq_ok.mp resolved
        | some next => exact ih (step token current next start stepped) resolved
      · split at resolved
        · exact ih start resolved
        · cases resolved

theorem deref_returns (s : FsState) (p : Ptr) : s.deref p ≠ .error .outOfFuel := by
  intro endless
  rw [deref] at endless
  split at endless
  · cases endless
  · cases endless

/-- Reading the array of children returns, too. -/
theorem readChild_returns (d : FsNode) (i : Nat) : readChild d i ≠ .error .outOfFuel := by
  intro endless
  rw [readChild] at endless
  split at endless
  · cases endless
  · cases endless

theorem findLoop_returns (s : FsState) (d : FsNode) (name : CStr) (left i : Nat) :
    findLoop s d name left i ≠ .error .outOfFuel := by
  induction left generalizing i with
  | zero =>
      intro endless
      cases endless
  | succ left ih =>
      refine bind_ne_error (readChild_returns d i) fun child _ =>
        bind_ne_error (deref_returns s child) fun c _ => ?_
      split
      · intro endless
        cases endless
      · exact ih (i + 1)

theorem stepInto_returns (s : FsState) (token : CStr) (current : Ptr) :
    stepInto s token current ≠ .error .outOfFuel := by
  rw [stepInto]
  split
  · split
    · exact nofun
    split
    · exact bind_ne_error (deref_returns s current) fun n _ => nofun
    · refine bind_ne_error (bind_ne_error (deref_returns s current) fun d _ => ?_)
        fun found _ => nofun
      split
      · exact nofun
      · exact findLoop_returns s d token d.childCount 0
  · exact nofun

theorem resolveLoop_returns (s : FsState) (path token : CStr) (current : Ptr) :
    resolveLoop s path token current ≠ .error .outOfFuel := by
  induction path generalizing token current with
  | nil => exact stepInto_returns s token current
  | cons c rest ih =>
      rw [resolveLoop]
      split
      · refine bind_ne_error (stepInto_returns s token current) fun next _ => ?_
        cases next with
        | none => exact nofun
        | some next => exact ih [] next
      · split
        · exact ih (token ++ [c]) current
        · exact nofun

/-- A path is resolved or runs into a fault; it is never walked forever. -/
theorem fsResolve_returns (s : FsState) (path : CStr) (current : Ptr) :
    fsResolve s path current ≠ .error .outOfFuel := by
  have started : ∀ path start,
      (do return (← resolveLoop s path [] start).getD 0) ≠ .error .outOfFuel :=
    fun path start => bind_ne_error (resolveLoop_returns s path [] start) fun found _ => nofun
  unfold fsResolve emulatedFsResolve
  split
  · split
    · exact started _ _
    · exact started _ _
  · exact started _ _

end AurorOS.Fs
