import AurorOS.Fs.Bytes.Refinement
import AurorOS.Fs.Resolve

/-! # Path resolution in memory

`emulated_fs_find_in` and `emulated_fs_resolve` follow pointers that they load and compare
names character by character.  They come to the node that the abstract functions come to.
-/

namespace AurorOS.Fs.Bytes

open ByteMemory Heap FsState Outcome

/-- `streql` of the string at an address and another one. -/
def streql (m : Mem) : Nat → CStr → Bool
  | a, [] => m a = 0
  | a, c :: rest => if m a = 0 then false else if m a ≠ c then false else streql m (a + 1) rest

/-- The loop of `emulated_fs_find_in` from index `i` on, with `left` rounds left. -/
def findLoop (arch : Arch) (m : Mem) (dir : Ptr) (name : CStr) : Nat → Nat → Ptr
  | 0, _ => 0
  | left + 1, i =>
      if streql m (get arch m dir (.child i)) name then get arch m dir (.child i)
      else findLoop arch m dir name left (i + 1)

def emulatedFsFindIn (arch : Arch) (m : Mem) (dir : Ptr) (name : CStr) : Ptr :=
  if get arch m dir .type ≠ typeCode .dir then 0
  else findLoop arch m dir name (get arch m dir .childCount) 0

/-- What a component does to `current`; `none` where the source returns `NULL`. -/
def stepInto (arch : Arch) (m : Mem) (token : CStr) (current : Ptr) : Except Fault (Option Ptr) :=
  if token.length < 32 then
    if token = [] ∨ token = dot then .ok (some current)
    else if token = dotDot then
      .ok (some (if get arch m current .parent ≠ 0 then get arch m current .parent else current))
    else
      let found := emulatedFsFindIn arch m current token
      .ok (if found = 0 then none else some found)
  else .error .invalidAccess

/-- The loop of `emulated_fs_resolve` over the rest of the path, with the characters that
    `token` holds. -/
def resolveLoop (arch : Arch) (m : Mem) : CStr → CStr → Ptr → Except Fault (Option Ptr)
  | [], token, current => stepInto arch m token current
  | c :: rest, token, current =>
      if c = slash then do
        match ← stepInto arch m token current with
        | none => return none
        | some next => resolveLoop arch m rest [] next
      else if token.length < 32 then resolveLoop arch m rest (token ++ [c]) current
      else .error .invalidAccess

def emulatedFsResolve (arch : Arch) (m : Mem) (root : Ptr) (path : CStr) (currentDir : Ptr) :
    Except Fault Ptr := do
  let found ← match path with
    | c :: rest =>
        if c = slash then resolveLoop arch m rest [] root
        else resolveLoop arch m path [] currentDir
    | [] => resolveLoop arch m path [] currentDir
  return found.getD 0

variable {L : Layout} {arch : Arch} {h : State} {held : List Allocation} {s : FsState} {m : Mem}
  {n d : FsNode} {p dir current : Ptr} {name name' token path : CStr} {i left : Nat}
  {found : Option Ptr}

/-- Strings without a null character inside are compared as lists. -/
theorem streql_iff {a : Nat} (there : bytesAt m a (name.length + 1) = name ++ [0])
    (proper : 0 ∉ name) (proper' : 0 ∉ name') : streql m a name' = true ↔ name = name' := by
  induction name generalizing a name' with
  | nil =>
      have first : m a = 0 := by simpa [bytesAt] using there
      cases name' with
      | nil => simp [streql, first]
      | cons c rest => simp [streql, first]
  | cons b name ih =>
      rw [List.length_cons, Nat.add_comm (name.length + 1) 1, bytesAt_add,
        List.cons_append] at there
      have first : m a = b := by simpa [bytesAt] using (List.cons.inj there).1
      have behind : bytesAt m (a + 1) (name.length + 1) = name ++ [0] := (List.cons.inj there).2
      rw [List.mem_cons, not_or] at proper
      have nonzero : m a ≠ 0 := by
        rw [first]
        exact Ne.symm proper.1
      cases name' with
      | nil => simp [streql, nonzero]
      | cons c rest =>
          rw [List.mem_cons, not_or] at proper'
          rw [streql, if_neg nonzero, first, List.cons.injEq]
          by_cases same : b = c
          · rw [if_neg (not_not.mpr same), ih behind proper.2 proper'.2]
            exact ⟨fun rest => ⟨same, rest⟩, And.right⟩
          · rw [if_pos same]
            simp [same]

namespace Represents

variable (rep : Represents L h held s)

include rep

/-- A node that is represented has the name in its first bytes. -/
theorem streql_iff (present : s.nodes p = some n) (proper : 0 ∉ name) :
    streql h.mem p name = true ↔ n.name = name := by
  obtain ⟨_, node⟩ := rep.nodes p n present
  exact Bytes.streql_iff node.name node.proper proper

theorem findLoop_eq (present : s.nodes dir = some d) (proper : 0 ∉ name)
    (found : Fs.findLoop s d name left i = .ok p) : findLoop L.arch h.mem dir name left i = p := by
  induction left generalizing i with
  | zero => exact Except.ok.inj found
  | succ left ih =>
      obtain ⟨child, read, rest⟩ := bind_eq_ok.mp found
      obtain ⟨c, here, rest⟩ := bind_eq_ok.mp rest
      rw [deref_eq_ok] at here
      obtain ⟨inArray, rfl⟩ := readChild_eq_ok.mp read
      have loaded : get L.arch h.mem dir (.child i) = d.children i :=
        (rep.nodes dir d present).2.fields (.child i) inArray
      rw [findLoop, loaded]
      by_cases same : c.name = name
      · rw [if_pos same] at rest
        rw [if_pos ((rep.streql_iff here proper).mpr same)]
        exact Except.ok.inj rest
      · rw [if_neg same] at rest
        rw [if_neg (mt (rep.streql_iff here proper).mp same)]
        exact ih rest

theorem emulatedFsFindIn_eq (proper : 0 ∉ name) (found : Fs.emulatedFsFindIn s dir name = .ok p) :
    emulatedFsFindIn L.arch h.mem dir name = p := by
  obtain ⟨d, present, rest⟩ := bind_eq_ok.mp found
  rw [deref_eq_ok] at present
  obtain ⟨_, node⟩ := rep.nodes dir d present
  have code : get L.arch h.mem dir .type = typeCode d.type := node.fields .type trivial
  have count : get L.arch h.mem dir .childCount = d.childCount := node.fields .childCount trivial
  rw [emulatedFsFindIn, code, count]
  cases type : d.type with
  | dir =>
      rw [if_neg (not_not.mpr type)] at rest
      rw [if_neg (not_not.mpr rfl)]
      exact rep.findLoop_eq present proper rest
  | file =>
      rw [if_pos (by rw [type]; exact NodeType.noConfusion)] at rest
      rw [if_pos (by decide)]
      exact Except.ok.inj rest

theorem stepInto_eq (proper : 0 ∉ token) (stepped : Fs.stepInto s token current = .ok found) :
    stepInto L.arch h.mem token current = .ok found := by
  rw [Fs.stepInto] at stepped
  rw [stepInto]
  by_cases short : token.length < 32
  · rw [if_pos short] at stepped ⊢
    by_cases stays : token = [] ∨ token = dot
    · rw [if_pos stays] at stepped ⊢
      exact stepped
    rw [if_neg stays] at stepped ⊢
    by_cases up : token = dotDot
    · rw [if_pos up] at stepped ⊢
      obtain ⟨n, present, rest⟩ := bind_eq_ok.mp stepped
      rw [deref_eq_ok] at present
      have above : get L.arch h.mem current .parent = n.parent :=
        (rep.nodes current n present).2.fields .parent trivial
      rw [above]
      exact rest
    · rw [if_neg up] at stepped ⊢
      obtain ⟨q, search, rest⟩ := bind_eq_ok.mp stepped
      rw [rep.emulatedFsFindIn_eq proper search]
      exact rest
  · rw [if_neg short] at stepped
    cases stepped

theorem resolveLoop_eq (properPath : 0 ∉ path) (proper : 0 ∉ token)
    (resolved : Fs.resolveLoop s path token current = .ok found) :
    resolveLoop L.arch h.mem path token current = .ok found := by
  induction path generalizing token current with
  | nil => exact rep.stepInto_eq proper resolved
  | cons c rest ih =>
      rw [List.mem_cons, not_or] at properPath
      rw [Fs.resolveLoop] at resolved
      rw [resolveLoop]
      by_cases atSlash : c = slash
      · rw [if_pos atSlash] at resolved ⊢
        obtain ⟨next, stepped, resolved⟩ := bind_eq_ok.mp resolved
        rw [bind_of_ok (rep.stepInto_eq proper stepped)]
        cases next with
        | none => exact resolved
        | some next => exact ih properPath.2 List.not_mem_nil resolved
      · rw [if_neg atSlash] at resolved ⊢
        by_cases room : token.length < 32
        · rw [if_pos room] at resolved ⊢
          refine ih properPath.2 ?_ resolved
          rw [List.mem_append, List.mem_singleton, not_or]
          exact ⟨proper, properPath.1⟩
        · rw [if_neg room] at resolved
          cases resolved

/-- A path comes to the same node. -/
theorem emulatedFsResolve_eq (proper : 0 ∉ path)
    (resolved : Fs.emulatedFsResolve s path current = .ok p) :
    emulatedFsResolve L.arch h.mem s.fsRoot path current = .ok p := by
  have loop : ∀ rest start, 0 ∉ rest →
      (do return (← Fs.resolveLoop s rest [] start).getD 0) = Except.ok (ε := Fault) p →
      (do return (← resolveLoop L.arch h.mem rest [] start).getD 0) = Except.ok (ε := Fault) p := by
    intro rest start properRest resolved
    obtain ⟨next, walked, returned⟩ := bind_eq_ok.mp resolved
    exact bind_eq_ok.mpr ⟨next, rep.resolveLoop_eq properRest List.not_mem_nil walked, returned⟩
  unfold Fs.emulatedFsResolve at resolved
  unfold emulatedFsResolve
  cases path with
  | nil => exact loop [] current proper resolved
  | cons c rest =>
      dsimp only at resolved ⊢
      by_cases atSlash : c = slash
      · rw [if_pos atSlash] at resolved ⊢
        exact loop rest s.fsRoot (fun member => proper (List.mem_cons_of_mem c member)) resolved
      · rw [if_neg atSlash] at resolved ⊢
        exact loop (c :: rest) current proper resolved

end Represents

end AurorOS.Fs.Bytes
