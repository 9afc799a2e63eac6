import Mathlib.Tactic

/-! # Leftmost occurrences

A scan from the left cuts a text into occurrences of a pattern that do not overlap and the
elements in between.  Replacing the pattern and counting it are two uses of the scan.
-/

namespace Replacement

variable {α : Type} [DecidableEq α]

/-- The scan, with the elements of an occurrence that it has still to pass; `none` stands for
    an occurrence. -/
def scanFrom (what : List α) : Nat → List α → List (Option α)
  | _, [] => []
  | skip + 1, _ :: rest => scanFrom what skip rest
  | 0, c :: rest =>
      if what.isPrefixOf (c :: rest) then none :: scanFrom what (what.length - 1) rest
      else some c :: scanFrom what 0 rest

def scan (what text : List α) : List (Option α) := scanFrom what 0 text

/-- The text with the occurrences replaced. -/
def replace (what repl text : List α) : List α :=
  (scan what text).flatMap fun piece => piece.elim repl fun c => [c]

/-- How many occurrences the scan finds. -/
def occurrences (what text : List α) : Nat := (scan what text).count none

variable {what repl text front behind out : List α} {c : α}

theorem scanFrom_append (what passed rest : List α) :
    scanFrom what passed.length (passed ++ rest) = scan what rest := by
  induction passed with
  | nil => rfl
  | cons c passed ih => exact ih

/-- The scan finds an occurrence where one begins. -/
theorem scan_occurrence (nonempty : what ≠ []) (behind : List α) :
    scan what (what ++ behind) = none :: scan what behind := by
  cases what with
  | nil => exact absurd rfl nonempty
  | cons c rest =>
      have here : (c :: rest).isPrefixOf (c :: (rest ++ behind)) = true :=
        List.isPrefixOf_iff_prefix.mpr (List.prefix_append (c :: rest) behind)
      rw [scan, List.cons_append, scanFrom, if_pos here, List.length_cons, Nat.add_sub_cancel,
        scanFrom_append]

theorem scan_cons (other : ¬ what <+: c :: text) :
    scan what (c :: text) = some c :: scan what text := by
  have here : ¬ what.isPrefixOf (c :: text) = true :=
    fun same => other (List.isPrefixOf_iff_prefix.mp same)
  rw [scan, scanFrom, if_neg here, scan]

/-- Induction along the scan. -/
theorem induction_on_scan (nonempty : what ≠ []) {motive : List α → Prop} (nil : motive [])
    (cons : ∀ c text, ¬ what <+: c :: text → motive text → motive (c :: text))
    (occurrence : ∀ behind, motive behind → motive (what ++ behind)) (text : List α) :
    motive text := by
  induction count : text.length using Nat.strongRecOn generalizing text with
  | ind n ih =>
      cases text with
      | nil => exact nil
      | cons c rest =>
          by_cases here : what <+: c :: rest
          · obtain ⟨behind, same⟩ := here
            have positive := List.length_pos_of_ne_nil nonempty
            have shorter := congrArg List.length same
            rw [List.length_append] at shorter
            rw [← same]
            exact occurrence behind (ih behind.length (by omega) behind rfl)
          · exact cons c rest here
              (ih rest.length (by rw [← count]; exact Nat.lt_succ_self _) rest rfl)

theorem replace_nil (what repl : List α) : replace what repl [] = [] := rfl

theorem replace_cons (other : ¬ what <+: c :: text) :
    replace what repl (c :: text) = c :: replace what repl text := by
  rw [replace, scan_cons other, List.flatMap_cons]
  rfl

theorem replace_occurrence (nonempty : what ≠ []) (repl behind : List α) :
    replace what repl (what ++ behind) = repl ++ replace what repl behind := by
  rw [replace, scan_occurrence nonempty, List.flatMap_cons]
  rfl

theorem occurrences_nil (what : List α) : occurrences what [] = 0 := rfl

theorem occurrences_cons (other : ¬ what <+: c :: text) :
    occurrences what (c :: text) = occurrences what text := by
  rw [occurrences, scan_cons other, List.count_cons_of_ne (Option.some_ne_none c)]
  rfl

theorem occurrences_occurrence (nonempty : what ≠ []) (behind : List α) :
    occurrences what (what ++ behind) = occurrences what behind + 1 := by
  rw [occurrences, scan_occurrence nonempty, List.count_cons_self]
  rfl

/-- Each occurrence gives its elements away for those that replace it. -/
theorem length_replace (nonempty : what ≠ []) (repl text : List α) :
    (replace what repl text).length + occurrences what text * what.length =
      text.length + occurrences what text * repl.length := by
  induction text using induction_on_scan nonempty with
  | nil => rw [replace_nil, occurrences_nil, Nat.zero_mul, Nat.zero_mul]
  | cons c text other ih =>
      rw [replace_cons other, occurrences_cons other, List.length_cons, List.length_cons]
      omega
  | occurrence behind ih =>
      rw [replace_occurrence nonempty, occurrences_occurrence nonempty, List.length_append,
        List.length_append, Nat.add_mul, Nat.add_mul, Nat.one_mul, Nat.one_mul]
      omega

omit [DecidableEq α]

/-- `out` is the text with the pattern replaced where it occurs first, then where it occurs
    first behind that, and so on. -/
inductive Replaced (what repl : List α) : List α → List α → Prop where
  | none {text : List α} (absent : ¬ what <:+: text) : Replaced what repl text text
  | first {front behind out : List α} (leftmost : ∀ k < front.length,
      ¬ what <+: (front ++ what ++ behind).drop k)
      (later : Replaced what repl behind out) : Replaced what repl (front ++ what ++ behind)
        (front ++ repl ++ out)

/-- No occurrence begins with the element in front. -/
theorem Replaced.cons (replaced : Replaced what repl text out) (other : ¬ what <+: c :: text) :
    Replaced what repl (c :: text) (c :: out) := by
  cases replaced with
  | none absent =>
      refine .none fun present => ?_
      rcases List.infix_cons_iff.mp present with here | later
      · exact other here
      · exact absent later
  | @first front behind out leftmost later =>
      refine @Replaced.first α what repl (c :: front) behind out ?_ later
      intro k inside
      cases k with
      | zero => exact other
      | succ k => exact leftmost k (Nat.lt_of_succ_lt_succ inside)

theorem replaced_replace [DecidableEq α] (nonempty : what ≠ []) (repl text : List α) :
    Replaced what repl text (replace what repl text) := by
  induction text using induction_on_scan nonempty with
  | nil => exact .none fun present => nonempty (List.infix_nil.mp present)
  | cons c text other ih =>
      rw [replace_cons other]
      exact ih.cons other
  | occurrence behind ih =>
      rw [replace_occurrence nonempty]
      exact @Replaced.first α what repl [] behind _
        (fun k inside => absurd inside (Nat.not_lt_zero k)) ih

end Replacement
