import AurorOS.Devices.Cursor
import AurorOS.Lib.Wrapping
import Mathlib.Data.FinEnum

/-! # The screen as a window

What is printed forms a page with rows of 80 columns, of which the screen shows the last
25.  The characters of the cells and the cursor are those of that window.
-/

namespace AurorOS.Devices

open Screen Wrapping

/-- The character in a cell. -/
def character (value : UInt16) : UInt8 := value.toUInt8

theorem character_cell (color c : UInt8) : character (cell color c) = c := by
  have high : ∀ color : UInt8, (color.toUInt16 <<< 8).toUInt8 = 0 := by decide +kernel
  have low : ∀ c : UInt8, c.toInt8.toInt16.toUInt16.toUInt8 = c := by decide +kernel
  rw [character, cell, UInt16.toUInt8_or, high, low, UInt8.zero_or]

theorem character_blank (color : UInt8) : character (blank color) = 0x20 := by
  have high : ∀ color : UInt8, (color.toUInt16 <<< 8).toUInt8 = 0 := by decide +kernel
  rw [character, blank, UInt16.toUInt8_or, high, UInt8.or_zero]
  rfl

/-- The rows of the page that fit on the screen. -/
def window (rows : List (List UInt8)) : List (List UInt8) := rows.drop (rows.length - 25)

/-- The screen has the characters of these rows, and spaces elsewhere; the cursor is behind the
    last one. -/
def Displays (rows : List (List UInt8)) (s : Screen) : Prop :=
  (∀ row < 25, ∀ col < 80, character (s.videoMemory (row * 80 + col)) =
    (rows.getD row []).getD col 0x20) ∧
    s.cursorPos.toNat = (rows.length - 1) * 80 + (rows.getLast?.getD []).length

/-- The screen shows the page from row `top` on; the cursor can be past its end. -/
structure Shows (top : Nat) (page : Page UInt8) (s : Screen) : Prop where
  top_le : top ≤ page.above.length
  room : page.last.length < 80
  cursor : s.cursorPos.toNat = (page.above.length - top) * 80 + page.last.length
  cells : ∀ row col, row < 25 → col < 80 →
    character (s.videoMemory (row * 80 + col)) = entryAt 0x20 page.rows (top + row) col

variable {top : Nat} {page : Page UInt8} {s : Screen} {c : UInt8}

theorem toNat_newline (small : s.cursorPos.toNat < 2000) (color : UInt8) :
    (s.put 10 color).cursorPos.toNat = s.cursorPos.toNat + (80 - s.cursorPos.toNat % 80) := by
  have width : screenWidth.toNat = 80 := rfl
  have le : s.cursorPos % screenWidth ≤ screenWidth := by
    rw [UInt16.le_iff_toNat_le, UInt16.toNat_mod, width]
    omega
  rw [Screen.put, if_pos rfl, UInt16.toNat_add, UInt16.toNat_sub_of_le _ _ le,
    UInt16.toNat_mod, width, Nat.mod_eq_of_lt (by omega)]

theorem toNat_next (small : s.cursorPos.toNat < 2000) (other : c ≠ 10) (color : UInt8) :
    (s.put c color).cursorPos.toNat = s.cursorPos.toNat + 1 := by
  have one : (1 : UInt16).toNat = 1 := rfl
  rw [Screen.put, if_neg other, UInt16.toNat_add, one, Nat.mod_eq_of_lt (by omega)]

namespace Shows

/-- A character on the page and at the cursor. -/
theorem put (shows : Shows top page s) (within : page.above.length - top ≤ 24) (c color : UInt8) :
    Shows top (page.put 80 10 c) (s.put c color) := by
  obtain ⟨top_le, room, cursor, cells⟩ := shows
  have small : s.cursorPos.toNat < 2000 := by omega
  by_cases newline : c = 10
  · subst newline
    rw [put_sep]
    refine ⟨?_, Nat.succ_pos 79, ?_, ?_⟩
    · rw [List.length_append]
      omega
    · rw [toNat_newline small, List.length_append, List.length_singleton, List.length_nil]
      omega
    · intro row col below inside
      rw [Page.rows, entryAt_concat_nil]
      exact cells row col below inside
  -- the row that is written to, and the others
  have written : ∀ row col, row < 25 → col < 80 →
      character ((s.put c color).videoMemory (row * 80 + col)) =
      entryAt 0x20 (page.above ++ [page.last ++ [c]]) (top + row) col := by
    intro row col below inside
    rw [Screen.put, if_neg newline]
    dsimp only
    by_cases here : top + row = page.above.length
    · rw [here, entryAt_concat]
      by_cases there : col = page.last.length
      · have same : row * 80 + col = s.cursorPos.toNat := by omega
        rw [same, Function.update_self, character_cell, there]
        simp
      · have other : row * 80 + col ≠ s.cursorPos.toNat := by omega
        rw [Function.update_of_ne other, cells row col below inside, here, Page.rows,
          entryAt_concat]
        rcases lt_or_gt_of_ne there with before | behind
        · rw [List.getD_append _ _ _ _ before]
        · rw [List.getD_eq_default _ _ (le_of_lt behind),
            List.getD_eq_default _ _ (by simpa using behind)]
    · have other : row * 80 + col ≠ s.cursorPos.toNat := by omega
      rw [Function.update_of_ne other, cells row col below inside, Page.rows]
      exact entryAt_concat_of_ne 0x20 page.above _ _ here col
  by_cases full : page.last.length + 1 = 80
  · rw [put_full newline full]
    refine ⟨?_, Nat.succ_pos 79, ?_, ?_⟩
    · rw [List.length_append]
      omega
    · rw [toNat_next small newline, List.length_append, List.length_singleton, List.length_nil]
      omega
    · intro row col below inside
      rw [Page.rows, entryAt_concat_nil]
      exact written row col below inside
  · rw [put_room newline full]
    refine ⟨top_le, ?_, ?_, written⟩
    · rw [List.length_append, List.length_singleton]
      omega
    · rw [toNat_next small newline, List.length_append, List.length_singleton]
      dsimp only
      omega

/-- Scrolling brings the row below the screen in sight. -/
theorem scroll (shows : Shows top page s) (below : page.above.length - top = 25)
    (fresh : page.last = []) :
    Shows (top + 1) page s.scroll := by
  obtain ⟨top_le, room, cursor, cells⟩ := shows
  refine ⟨by omega, room, ?_, ?_⟩
  · have last : s.scroll.cursorPos.toNat = 1920 := rfl
    rw [last, fresh, List.length_nil]
    omega
  · intro row col inside within
    have memory : s.scroll.videoMemory (row * 80 + col) =
        if row * 80 + col < 24 * 80 then s.videoMemory (row * 80 + col + 80) else
        if row * 80 + col < 25 * 80 then blank 0x07 else s.videoMemory (row * 80 + col) := rfl
    rw [memory]
    by_cases upper : row * 80 + col < 24 * 80
    · have next : row * 80 + col + 80 = (row + 1) * 80 + col := by omega
      have shift : top + 1 + row = top + (row + 1) := by omega
      rw [if_pos upper, next, cells (row + 1) col (by omega) within, shift]
    · have last : top + 1 + row = page.above.length := by omega
      rw [if_neg upper, if_pos (by omega), character_blank, last, Page.rows, entryAt_concat, fresh]
      rfl

/-- The screen shows the last 25 rows. -/
theorem printchar (shows : Shows (page.above.length - 24) page s) (c color : UInt8) :
    Shows ((page.put 80 10 c).above.length - 24) (page.put 80 10 c) (s.printchar c color) := by
  have next := shows.put (by omega) c color
  have cursor := next.cursor
  have room := next.room
  -- the page gets one more row at most, and then that row is empty
  have grown : (page.put 80 10 c).above.length = page.above.length ∨
      (page.put 80 10 c).above.length = page.above.length + 1 ∧ (page.put 80 10 c).last = [] := by
    unfold Page.put
    split
    · exact .inr ⟨List.length_append, rfl⟩
    split
    · exact .inr ⟨List.length_append, rfl⟩
    · exact .inl rfl
  rw [printchar_eq]
  by_cases past : (s.put c color).cursorPos ≥ screenWidth * screenHeight
  · rw [if_pos past]
    rw [not_inside] at past
    rcases grown with same | ⟨more, fresh⟩
    · omega
    · have top : (page.put 80 10 c).above.length - 24 = page.above.length - 24 + 1 := by omega
      rw [top]
      exact next.scroll (by omega) fresh
  · rw [if_neg past]
    rw [not_inside] at past
    have top : (page.put 80 10 c).above.length - 24 = page.above.length - 24 := by omega
    rwa [top]

theorem printstr (shows : Shows (page.above.length - 24) page s) (str : List UInt8)
    (color : UInt8) :
    Shows ((str.foldl (Page.put 80 10) page).above.length - 24) (str.foldl (Page.put 80 10) page)
      (s.printstr str color) := by
  induction str generalizing page s with
  | nil => exact shows
  | cons c rest ih => exact ih (shows.printchar c color)

theorem clearscreen (s : Screen) : Shows 0 ⟨[], []⟩ s.clearscreen := by
  refine ⟨le_rfl, Nat.succ_pos 79, rfl, ?_⟩
  intro row col below inside
  have memory : s.clearscreen.videoMemory (row * 80 + col) = blank 0x07 :=
    if_pos ⟨Nat.zero_le _, by omega⟩
  rw [memory, character_blank, entryAt]
  cases row <;> rfl

/-- What is shown from the right row on is the window. -/
theorem displays (shows : Shows (page.above.length - 24) page s) :
    Displays (window page.rows) s := by
  have length : page.rows.length = page.above.length + 1 := List.length_append
  have top : page.rows.length - 25 = page.above.length - 24 := by omega
  have last : (window page.rows).getLast? = some page.last := by
    rw [window, top, Page.rows, List.drop_append_of_le_length (Nat.sub_le _ _),
      List.getLast?_concat]
  refine ⟨?_, ?_⟩
  · intro row below col inside
    rw [shows.cells row col below inside, window, top]
    exact (entryAt_drop 0x20 page.rows (page.above.length - 24) row col).symm
  · rw [shows.cursor, last, window, List.length_drop, length]
    congr 2
    omega

end Shows

/-- A text of any length that is printed on a clear screen is shown as the last 25 rows of its
    layout, with the cursor behind them. -/
theorem printstr_displays (screen : Screen) (str : List UInt8) (color : UInt8) :
    Displays (window (layout 80 10 str)) (screen.clearscreen.printstr str color) := by
  let empty : Page UInt8 := ⟨[], []⟩
  have start : Shows (empty.above.length - 24) empty screen.clearscreen := Shows.clearscreen screen
  rw [← rows_put_empty]
  exact (start.printstr str color).displays

end AurorOS.Devices
