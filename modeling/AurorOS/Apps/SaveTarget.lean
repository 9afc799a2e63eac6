import AurorOS.Apps.Tinypad
import AurorOS.Fs.Components
import AurorOS.Lib.Lines
import Mathlib.Data.List.TakeWhile

/-! # Where the editor saves

`resolve_folder` cuts a path with `strtok` and resolves one token after the other.  In a
tree it finds what the resolver finds from the root.
-/

namespace AurorOS.Apps

open Fs Devices Shell

variable {s : FsState} {m : Machine} {path front back token rest : CStr} {current dir : Ptr}
  {fuel : Nat}

theorem other_of_noSlash (noSlash : slash ∉ token) : ∀ c ∈ token, decide (c ≠ slash) = true :=
  fun _ member => decide_eq_true fun same => noSlash (same ▸ member)

theorem splitAtLastSlash_append (front : CStr) (noSlash : slash ∉ back) :
    splitAtLastSlash (front ++ slash :: back) = some (front, back) := by
  have other := other_of_noSlash (mt List.mem_reverse.mp noSlash)
  have turned : (front ++ slash :: back).reverse = back.reverse ++ slash :: front.reverse := by simp
  rw [splitAtLastSlash, turned, List.dropWhile_append_of_pos other,
    List.takeWhile_append_of_pos other, List.dropWhile_cons_of_neg (by simp),
    List.takeWhile_cons_of_neg (by simp)]
  simp

theorem splitAtLastSlash_none (noSlash : slash ∉ path) : splitAtLastSlash path = none := by
  have other := other_of_noSlash (mt List.mem_reverse.mp noSlash)
  rw [splitAtLastSlash, List.dropWhile_eq_nil_iff.mpr other]

/-- A path has a last slash or none. -/
theorem splitAtLastSlash_cases (path : CStr) :
    slash ∉ path ∨ ∃ front back, path = front ++ slash :: back ∧ slash ∉ back := by
  by_cases present : slash ∈ path
  · obtain ⟨back, front, turned, first⟩ := List.eq_append_cons_of_mem (List.mem_reverse.mpr present)
    refine .inr ⟨front.reverse, back.reverse, ?_, mt List.mem_reverse.mp first⟩
    rw [← List.reverse_reverse path, turned]
    simp
  · exact .inl present

theorem strtok_last (noSlash : slash ∉ token) (nonempty : token ≠ []) :
    strtok (some token) slash = some (token, none) := by
  have other := other_of_noSlash noSlash
  cases token with
  | nil => exact absurd rfl nonempty
  | cons c more =>
      rw [strtok]
      simp only [List.takeWhile_eq_self_iff.mpr other, List.dropWhile_eq_nil_iff.mpr other]

theorem strtok_slash (noSlash : slash ∉ token) (rest : CStr) :
    strtok (some (token ++ slash :: rest)) slash = some (token, some rest) := by
  have other := other_of_noSlash noSlash
  have cut : (token ++ slash :: rest).takeWhile (· ≠ slash) = token := by
    rw [List.takeWhile_append_of_pos other, List.takeWhile_cons_of_neg (by simp), List.append_nil]
  have left : (token ++ slash :: rest).dropWhile (· ≠ slash) = slash :: rest := by
    rw [List.dropWhile_append_of_pos other, List.dropWhile_cons_of_neg (by simp)]
  obtain ⟨c, more, whole⟩ := List.exists_cons_of_ne_nil
    (List.append_ne_nil_of_right_ne_nil token (List.cons_ne_nil slash rest))
  rw [whole] at cut left ⊢
  rw [strtok]
  simp only [cut, left]

/-- A token is resolved as one component. -/
theorem resolve_token (noSlash : slash ∉ token) :
    fsResolve s token current = (do return (← stepInto s token current).getD 0) := by
  rw [fsResolve_eq_walk, components_of_noSlash noSlash, walk_single,
    startOf_noSlash s current noSlash]

/-- A round of the loop takes a step for its token. -/
theorem folderLoop_round {ptr more : Option CStr} (tree : ConsistentTree m.fs)
    (inTree : m.fs.InTree current) (cut : strtok ptr slash = some (token, more))
    (noSlash : slash ∉ token) :
    folderLoop (fuel + 1) ptr current m =
      match stepInto m.fs token current with
      | .error fault => (.error (.fault fault), m)
      | .ok none => (.ok 0, m)
      | .ok (some next) => folderLoop fuel more next m := by
  rw [folderLoop, cut]
  by_cases short : token.length < 32
  · rcases stepInto_inTree tree inTree short with nowhere | ⟨next, leads, below⟩
    · have resolved : resolve token current m = (.ok 0, m) := by
        rw [resolve, ofFs, resolve_token noSlash, nowhere]
        rfl
      rw [nowhere]
      exact Program.bind_of_ok resolved
    · have resolved : resolve token current m = (.ok next, m) := by
        rw [resolve, ofFs, resolve_token noSlash, leads]
        rfl
      rw [leads]
      refine (Program.bind_of_ok resolved).trans ?_
      rw [if_neg (tree.nonnull next below)]
  · have long : stepInto m.fs token current = .error .invalidAccess :=
      stepInto_long (Nat.le_of_not_lt short)
    have failed : resolve token current m = (.error (.fault .invalidAccess), m) := by
      rw [resolve, ofFs, resolve_token noSlash, long]
      rfl
    rw [long]
    exact Program.bind_of_error failed

/-- `resolve_folder` goes where the walk along the components goes. -/
theorem folderLoop_eq (tree : ConsistentTree m.fs) (inTree : m.fs.InTree current)
    (enough : path.length < fuel) :
    folderLoop fuel (some path) current m =
      ofFs (fun s => do return (← walk s (components path) current).getD 0) m := by
  induction fuel generalizing path current with
  | zero => omega
  | succ fuel ih =>
      rw [ofFs]
      rcases Lines.first_line slash path with noSlash | ⟨token, rest, rfl, noSlash⟩
      · by_cases empty : path = []
        · subst empty
          rfl
        · have some_left : 0 < path.length := List.length_pos_iff.mpr empty
          obtain ⟨fuel, rfl⟩ : ∃ k, fuel = k + 1 := ⟨fuel - 1, by omega⟩
          rw [components_of_noSlash noSlash, walk_single,
            folderLoop_round tree inTree (strtok_last noSlash empty) noSlash]
          cases step : stepInto m.fs path current with
          | error fault => rfl
          | ok next => cases next <;> rfl
      · rw [List.length_append, List.length_cons] at enough
        have parts : components (token ++ slash :: rest) = token :: components rest := by
          rw [components_append, components_of_noSlash noSlash, List.singleton_append]
        rw [parts, walk, folderLoop_round tree inTree (strtok_slash noSlash rest) noSlash]
        by_cases short : token.length < 32
        · rcases stepInto_inTree tree inTree short with nowhere | ⟨next, leads, below⟩
          · rw [nowhere]
            rfl
          · rw [leads]
            exact ih below (by omega)
        · rw [stepInto_long (Nat.le_of_not_lt short)]
          rfl

/-- In a tree, `resolve_folder` finds what the resolver finds from the root, provided that
    its copy holds the path. -/
theorem resolveFolder_eq (tree : ConsistentTree m.fs) (short : path.length ≤ 255) :
    resolveFolder path m = resolve path m.fs.fsRoot m := by
  have enough : path.length < path.length + 1 := Nat.lt_succ_self path.length
  have walked := folderLoop_eq tree .refl enough
  rw [resolveFolder, List.take_of_length_le short]
  refine (Program.bind_of_ok rfl).trans (walked.trans ?_)
  rw [resolve, ofFs, ofFs, fsResolve_eq_walk, startOf_root]

/-- Both return, and the same node, for a path of short components. -/
theorem resolveFolder_agrees (m : Machine) (tree : ConsistentTree m.fs) (path : CStr)
    (short : path.length ≤ 255) (fits : ∀ t ∈ components path, t.length < 32) :
    ∃ v, resolveFolder path m = (.ok v, m) ∧ fsResolve m.fs path m.fs.fsRoot = .ok v := by
  have value : ∃ v, fsResolve m.fs path m.fs.fsRoot = .ok v := by
    rcases resolve_inTree tree .refl fits with nowhere | ⟨v, leads, _⟩
    · exact ⟨0, nowhere⟩
    · exact ⟨v, leads⟩
  obtain ⟨v, leads⟩ := value
  refine ⟨v, ?_, leads⟩
  rw [resolveFolder_eq tree short, resolve, ofFs, leads]

/-- `//home/.` in a tree with `home`. -/
theorem resolveFolder_agrees_home :
    ∃ v, resolveFolder [47, 47, 104, 111, 109, 101, 47, 46]
        ⟨homeState, ⟨⟨fun _ => 0, 0⟩, ⟨false, false, fun _ => false⟩, []⟩, []⟩ =
      (.ok v, ⟨homeState, ⟨⟨fun _ => 0, 0⟩, ⟨false, false, fun _ => false⟩, []⟩, []⟩) ∧
      fsResolve homeState [47, 47, 104, 111, 109, 101, 47, 46] homeState.fsRoot = .ok v := by
  have parts : components [47, 47, 104, 111, 109, 101, 47, 46] =
      [[], [], [104, 111, 109, 101], [46]] := rfl
  have short : ∀ t ∈ components [47, 47, 104, 111, 109, 101, 47, 46], t.length < 32 := by
    rw [parts]
    decide
  exact resolveFolder_agrees ⟨homeState, ⟨⟨fun _ => 0, 0⟩, ⟨false, false, fun _ => false⟩, []⟩, []⟩
    homeState_wellFormed.consistentTree _ (by decide) short

theorem saveTarget_noSlash (noSlash : slash ∉ path) :
    saveTarget path m = (.ok (m.fs.fsRoot, path), m) := by
  rw [saveTarget, splitAtLastSlash_none noSlash]
  rfl

/-- The folder of a save is where the walk along what is in front of the last slash
    leads from the root. -/
theorem saveTarget_slash (tree : ConsistentTree m.fs) (noSlash : slash ∉ back)
    (short : front.length ≤ 255) :
    saveTarget (front ++ slash :: back) m =
      match walk m.fs (components front) m.fs.fsRoot with
      | .error fault => (.error (.fault fault), m)
      | .ok found => (.ok (found.getD 0, back), m) := by
  have resolved : resolveFolder front m =
      ofFs (fun s => do return (← walk s (components front) m.fs.fsRoot).getD 0) m := by
    rw [resolveFolder_eq tree short, resolve, ofFs, ofFs, fsResolve_eq_walk, startOf_root]
  rw [ofFs] at resolved
  rw [saveTarget, splitAtLastSlash_append front noSlash]
  cases leads : walk m.fs (components front) m.fs.fsRoot with
  | error fault =>
      rw [leads] at resolved
      exact Program.bind_of_error resolved
  | ok found =>
      rw [leads] at resolved
      exact Program.bind_of_ok resolved

/-- The positions of the resolver's token that its calls in `resolve_folder` write. -/
def folderWrites (s : FsState) : Nat → Option CStr → Ptr → List Nat
  | 0, _, _ => []
  | fuel + 1, ptr, current =>
      match strtok ptr slash with
      | none => []
      | some (token, ptr) =>
          resolverWrites s token current ++
            match fsResolve s token current with
            | .ok child => if child = 0 then [] else folderWrites s fuel ptr child
            | .error _ => []

/-- Those of a save to `fullpath`. -/
def saveWrites (fullpath : CStr) (m : Machine) : List Nat :=
  (match splitAtLastSlash fullpath with
    | some (before, _) => folderWrites m.fs (before.length + 1) (some (before.take 255)) m.fs.fsRoot
    | none => []) ++
  match (saveTarget fullpath m).1 with
  | .ok (folder, filename) => if folder = 0 then [] else resolverWrites m.fs filename folder
  | .error _ => []

theorem resolverWrites_token (noSlash : slash ∉ token) :
    (∀ pos ∈ resolverWrites s token current, pos < 32) ↔ token.length < 32 := by
  rw [resolverWrites_iff, components_of_noSlash noSlash]
  simp [comesTo_single]

theorem folderWrites_round {ptr more : Option CStr} (tree : ConsistentTree s)
    (inTree : s.InTree current) (cut : strtok ptr slash = some (token, more))
    (noSlash : slash ∉ token) :
    (∀ pos ∈ folderWrites s (fuel + 1) ptr current, pos < 32) ↔
      token.length < 32 ∧ ∀ next, stepInto s token current = .ok (some next) →
        ∀ pos ∈ folderWrites s fuel more next, pos < 32 := by
  rw [folderWrites, cut]
  dsimp only
  rw [List.forall_mem_append, resolverWrites_token noSlash, resolve_token noSlash]
  refine and_congr_right fun short => ?_
  rcases stepInto_inTree tree inTree short with nowhere | ⟨next, leads, below⟩
  · rw [nowhere]
    simp [bind, Except.bind, pure, Except.pure]
  · rw [leads]
    simp [bind, Except.bind, pure, Except.pure, tree.nonnull next below]

theorem folderWrites_iff (tree : ConsistentTree s) (inTree : s.InTree current)
    (enough : path.length < fuel) :
    (∀ pos ∈ folderWrites s fuel (some path) current, pos < 32) ↔
      ∀ c, ComesTo s (components path) current c → c.length < 32 := by
  induction fuel generalizing path current with
  | zero => omega
  | succ fuel ih =>
      rcases Lines.first_line slash path with noSlash | ⟨token, rest, rfl, noSlash⟩
      · rw [components_of_noSlash noSlash]
        simp only [comesTo_single, forall_eq]
        by_cases empty : path = []
        · subst empty
          simp [folderWrites, strtok]
        · have some_left : 0 < path.length := List.length_pos_iff.mpr empty
          obtain ⟨fuel, rfl⟩ : ∃ k, fuel = k + 1 := ⟨fuel - 1, by omega⟩
          rw [folderWrites_round tree inTree (strtok_last noSlash empty) noSlash]
          refine and_iff_left fun next _ pos member => ?_
          rw [folderWrites] at member
          cases member
      · rw [List.length_append, List.length_cons] at enough
        have parts : components (token ++ slash :: rest) = token :: components rest := by
          rw [components_append, components_of_noSlash noSlash, List.singleton_append]
        rw [parts, folderWrites_round tree inTree (strtok_slash noSlash rest) noSlash]
        simp only [comesTo_cons, or_imp, forall_and, forall_eq]
        refine and_congr_right fun short => ?_
        rcases stepInto_inTree tree inTree short with nowhere | ⟨next, leads, below⟩
        · simp [nowhere]
        · simp [leads, ih below (by omega : rest.length < fuel)]

/-- A save stays within its tokens if and only if every component fits that the walk from
    the root comes to. -/
theorem saveWrites_iff (tree : ConsistentTree m.fs) (short : path.length ≤ 255) :
    (∀ pos ∈ saveWrites path m, pos < 32) ↔
      ∀ c, ComesTo m.fs (components path) m.fs.fsRoot c → c.length < 32 := by
  rw [saveWrites, List.forall_mem_append]
  rcases splitAtLastSlash_cases path with noSlash | ⟨front, back, rfl, noSlash⟩
  · rw [splitAtLastSlash_none noSlash, saveTarget_noSlash noSlash, components_of_noSlash noSlash]
    simp [tree.nonnull _ .refl, resolverWrites_token noSlash, comesTo_single]
  · rw [List.length_append, List.length_cons] at short
    have enough : (front.take 255).length < front.length + 1 := by
      rw [List.length_take]
      omega
    have whole : front.take 255 = front := List.take_of_length_le (by omega)
    rw [splitAtLastSlash_append front noSlash, saveTarget_slash tree noSlash (by omega),
      components_last front noSlash]
    simp only [comesTo_concat, or_imp, forall_and]
    rw [folderWrites_iff tree .refl enough, whole]
    refine and_congr_right fun fit => ?_
    rcases walk_inTree tree .refl fit with nowhere | ⟨dir, leads, place⟩
    · simp [nowhere]
    · simp [leads, tree.nonnull dir place, resolverWrites_token noSlash]

end AurorOS.Apps
