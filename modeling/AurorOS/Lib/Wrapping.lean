import AurorOS.Lib.Lines
import Mathlib.Data.List.GetD

/-! # Text in rows

A text is laid out in rows of a fixed width: a new row starts behind a row that is full
and at each separator.  Only the last row can still grow, so that characters can be put
on the page one after the other.
-/

namespace Wrapping

open Lines

variable {α : Type}

/-- A page: the rows that are complete and the one that is being filled. -/
structure Page (α : Type) where
  above : List (List α)
  last : List α

def Page.rows (page : Page α) : List (List α) := page.above ++ [page.last]

/-- What stands in a row and a column; outside the text there is `filler`. -/
def entryAt (filler : α) (rows : List (List α)) (row col : Nat) : α :=
  (rows.getD row []).getD col filler

theorem entryAt_concat_nil (filler : α) (rows : List (List α)) (row col : Nat) :
    entryAt filler (rows ++ [[]]) row col = entryAt filler rows row col := by
  rw [entryAt, entryAt]
  congr 1
  rcases lt_trichotomy row rows.length with before | rfl | behind
  · rw [List.getD_append _ _ _ _ before]
  · simp
  · rw [List.getD_eq_default _ _ (by simpa using behind),
      List.getD_eq_default _ _ (le_of_lt behind)]

/-- The rows from `top` on. -/
theorem entryAt_drop (filler : α) (rows : List (List α)) (top row col : Nat) :
    entryAt filler (rows.drop top) row col = entryAt filler rows (top + row) col := by
  simp [entryAt, List.getD_eq_getElem?_getD]

theorem entryAt_concat (filler : α) (above : List (List α)) (last : List α) (col : Nat) :
    entryAt filler (above ++ [last]) above.length col = last.getD col filler := by
  simp [entryAt]

theorem entryAt_concat_of_ne (filler : α) (above : List (List α)) (last last' : List α) {row : Nat}
    (other : row ≠ above.length) (col : Nat) :
    entryAt filler (above ++ [last]) row col = entryAt filler (above ++ [last']) row col := by
  rw [entryAt, entryAt]
  congr 1
  rcases lt_or_gt_of_ne other with before | behind
  · rw [List.getD_append _ _ _ _ before, List.getD_append _ _ _ _ before]
  · rw [List.getD_eq_default _ _ (by simpa using behind),
      List.getD_eq_default _ _ (by simpa using behind)]

section Layout

variable [DecidableEq α]

/-- The rows of a text, the first of which has `col` characters already. -/
def layoutFrom (width : Nat) (sep : α) : Nat → List α → List (List α)
  | _, [] => [[]]
  | col, c :: rest =>
      if c = sep then [] :: layoutFrom width sep 0 rest
      else if col + 1 = width then [c] :: layoutFrom width sep 0 rest
      else consHead c (layoutFrom width sep (col + 1) rest)

/-- The rows of a text. -/
def layout (width : Nat) (sep : α) (text : List α) : List (List α) := layoutFrom width sep 0 text

/-- The next character of the text. -/
def Page.put (width : Nat) (sep : α) (page : Page α) (c : α) : Page α :=
  if c = sep then ⟨page.above ++ [page.last], []⟩
  else if page.last.length + 1 = width then ⟨page.above ++ [page.last ++ [c]], []⟩
  else ⟨page.above, page.last ++ [c]⟩

variable {width : Nat} {sep c : α} {page : Page α}

theorem put_sep (page : Page α) : page.put width sep sep = ⟨page.above ++ [page.last], []⟩ :=
  if_pos rfl

theorem put_full (other : c ≠ sep) (full : page.last.length + 1 = width) :
    page.put width sep c = ⟨page.above ++ [page.last ++ [c]], []⟩ := by
  rw [Page.put, if_neg other, if_pos full]

theorem put_room (other : c ≠ sep) (room : page.last.length + 1 ≠ width) :
    page.put width sep c = ⟨page.above, page.last ++ [c]⟩ := by
  rw [Page.put, if_neg other, if_neg room]

/-- Characters in front of the first row. -/
def prependHead (front : List α) : List (List α) → List (List α)
  | [] => [front]
  | row :: more => (front ++ row) :: more

omit [DecidableEq α] in
theorem prependHead_consHead (front : List α) (c : α) (rows : List (List α)) :
    prependHead front (consHead c rows) = prependHead (front ++ [c]) rows := by
  cases rows with
  | nil => rfl
  | cons row more =>
      rw [consHead, prependHead, prependHead, List.append_assoc, List.singleton_append]

omit [DecidableEq α] in
theorem prependHead_nil {rows : List (List α)} (some : rows ≠ []) : prependHead [] rows = rows := by
  cases rows with
  | nil => exact absurd rfl some
  | cons row more => rfl

theorem layoutFrom_ne_nil (col : Nat) (text : List α) : layoutFrom width sep col text ≠ [] := by
  cases text with
  | nil => exact List.cons_ne_nil _ _
  | cons c rest =>
      rw [layoutFrom]
      split
      · exact List.cons_ne_nil _ _
      split
      · exact List.cons_ne_nil _ _
      · cases layoutFrom width sep (col + 1) rest <;> exact List.cons_ne_nil _ _

/-- Putting a text on a page lays it out behind what is there. -/
theorem rows_foldl_put (page : Page α) (text : List α) :
    (text.foldl (Page.put width sep) page).rows =
      page.above ++ prependHead page.last (layoutFrom width sep page.last.length text) := by
  induction text generalizing page with
  | nil => rw [layoutFrom, prependHead, List.append_nil, List.foldl_nil, Page.rows]
  | cons c rest ih =>
      rw [List.foldl_cons, ih, layoutFrom]
      have fresh : prependHead [] (layoutFrom width sep 0 rest) = layoutFrom width sep 0 rest :=
        prependHead_nil (layoutFrom_ne_nil 0 rest)
      by_cases newline : c = sep
      · subst newline
        rw [put_sep, if_pos rfl, prependHead, List.append_nil, List.length_nil, fresh]
        simp
      rw [if_neg newline]
      by_cases full : page.last.length + 1 = width
      · rw [put_full newline full, if_pos full, prependHead, List.length_nil, fresh]
        simp
      · rw [put_room newline full, if_neg full, prependHead_consHead, List.length_append,
          List.length_singleton]

/-- A text that is put on an empty page is laid out. -/
theorem rows_put_empty (text : List α) :
    (text.foldl (Page.put width sep) ⟨[], []⟩).rows = layout width sep text := by
  rw [rows_foldl_put, List.nil_append, List.length_nil, prependHead_nil (layoutFrom_ne_nil 0 text)]
  rfl

end Layout

end Wrapping
