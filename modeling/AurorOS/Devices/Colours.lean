import AurorOS.Devices.Terminal

/-! # The colour of what is printed

Which characters of a text are on the screen when it has been printed, and in which cells,
depends on the cursor alone.  The cells have the characters of the text, but not always
the colour that was asked for: `char` is signed, and the bits of its sign cover the colour.
-/

namespace AurorOS.Devices

open Screen

/-- The colour of a cell. -/
def colour (value : UInt16) : UInt8 := (value >>> 8).toUInt8

theorem colour_cell (color c : UInt8) :
    colour (cell color c) = color ||| if c < 0x80 then 0 else 0xFF := by
  have own : ∀ color : UInt8, ((color.toUInt16 <<< 8) >>> 8).toUInt8 = color := by decide +kernel
  have sign : ∀ c : UInt8, (c.toInt8.toInt16.toUInt16 >>> 8).toUInt8 = if c < 0x80 then 0
      else 0xFF := by
    decide +kernel
  rw [colour, cell, UInt16.shiftRight_or, UInt16.toUInt8_or, own, sign]

/-- The sign of a character below 0x80 is zero, and one colour has all bits anyway. -/
theorem colour_cell_iff {color c : UInt8} :
    colour (cell color c) = color ↔ color = 0xFF ∨ c < 0x80 := by
  rw [colour_cell]
  by_cases plain : c < 0x80
  · simp [plain]
  · have all : ∀ color : UInt8, color ||| 0xFF = color ↔ color = 0xFF := by decide +kernel
    rw [if_neg plain, all, or_iff_left plain]

/-- The characters of a text that are on the screen, by their cells, and the cursor. -/
structure Trail where
  marks : Nat → Option UInt8
  cursor : UInt16

namespace Trail

/-- Before a text is printed none of its characters is on the screen. -/
def start (cursor : UInt16) : Trail := ⟨fun _ => none, cursor⟩

/-- A character is put in the cell at the cursor. -/
def mark (trail : Trail) (c : UInt8) : Trail :=
  ⟨Function.update trail.marks trail.cursor.toNat (some c), trail.cursor + 1⟩

/-- All rows go up by one, the first is lost. -/
def scroll (trail : Trail) : Trail :=
  ⟨fun i =>
      if i < 24 * 80 then trail.marks (i + 80) else if i < 25 * 80 then none else trail.marks i,
    (screenHeight - 1) * screenWidth⟩

/-- A newline leaves the row, any other character takes a cell. -/
def advance (trail : Trail) (c : UInt8) : Trail :=
  if c = 10 then { trail with cursor := trail.cursor + (screenWidth - trail.cursor % screenWidth) }
  else trail.mark c

/-- A character is printed, and behind the last row the screen scrolls. -/
def put (trail : Trail) (c : UInt8) : Trail :=
  if (trail.advance c).cursor ≥ screenWidth * screenHeight then (trail.advance c).scroll
    else trail.advance c

end Trail

/-- The three ways to print a text in a colour. -/
inductive Output where
  | printstr (str : List UInt8) (color : UInt8)
  | printlnLimit (data : List UInt8) (color : UInt8)
  | printct (str : List UInt8) (color : UInt8)

namespace Output

def color : Output → UInt8
  | printstr _ color | printlnLimit _ color | printct _ color => color

def run : Output → Screen → Except Fault Screen
  | printstr str color, s => .ok (s.printstr str color)
  | printlnLimit data color, s => .ok (s.printlnLimit data color)
  | printct str color, s => s.printct str color

/-- The cells that have a character of the text in the end, for the cursor before. -/
def trail : Output → UInt16 → Trail
  | printstr str _, cursor => str.foldl Trail.put (Trail.start cursor)
  | printlnLimit data _, cursor =>
      ((data.takeWhile (· ≠ 0)).foldl Trail.put (Trail.start cursor)).put 10
  | printct str _, cursor =>
      str.foldl Trail.mark
        (Trail.start (cursor / screenWidth * screenWidth + UInt16.ofNat ((80 - str.length) / 2)))

/-- `printct` has room for a line. -/
def HasRoom : Output → Prop
  | printct str _ => str.length ≤ 80
  | _ => True

/-- The output comes back, and the cells with a character of the text have its byte and the
    colour that was asked for. -/
def Coloured (output : Output) (s : Screen) : Prop :=
  ∃ t, output.run s = .ok t ∧ ∀ i < 80 * 25, ∀ c, (output.trail s.cursorPos).marks i = some c →
    colour (t.videoMemory i) = output.color ∧ character (t.videoMemory i) = c

/-- The characters that are still on the screen are below 0x80. -/
def ShowsAscii (output : Output) (cursor : UInt16) : Prop :=
  ∀ i < 80 * 25, ∀ c, (output.trail cursor).marks i = some c → c < 0x80

end Output

/-- The cells have the characters of the text in the representation of the code. -/
structure Follows (color : UInt8) (trail : Trail) (s : Screen) : Prop where
  cursor : s.cursorPos = trail.cursor
  cells : ∀ i c, trail.marks i = some c → s.videoMemory i = cell color c

namespace Follows

variable {color c : UInt8} {trail : Trail} {s : Screen}

theorem start (color : UInt8) (s : Screen) : Follows color (.start s.cursorPos) s := ⟨rfl, nofun⟩

theorem mark (follows : Follows color trail s) (c : UInt8) :
    Follows color (trail.mark c)
      { videoMemory := Function.update s.videoMemory s.cursorPos.toNat (cell color c),
        cursorPos := s.cursorPos + 1 } := by
  refine ⟨congrArg (· + 1) follows.cursor, ?_⟩
  intro i c' marked
  rw [Trail.mark] at marked
  dsimp only at marked ⊢
  rw [follows.cursor]
  by_cases here : i = trail.cursor.toNat
  · subst here
    rw [Function.update_self] at marked ⊢
    rw [Option.some.inj marked]
  · rw [Function.update_of_ne here] at marked ⊢
    exact follows.cells i c' marked

theorem scroll (follows : Follows color trail s) : Follows color trail.scroll s.scroll := by
  refine ⟨rfl, ?_⟩
  intro i c marked
  rw [Trail.scroll] at marked
  have memory : s.scroll.videoMemory i =
      if i < 24 * 80 then s.videoMemory (i + 80) else if i < 25 * 80 then blank 0x07
        else s.videoMemory i := rfl
  rw [memory]
  dsimp only at marked
  by_cases upper : i < 24 * 80
  · rw [if_pos upper] at marked ⊢
    exact follows.cells (i + 80) c marked
  rw [if_neg upper] at marked ⊢
  by_cases last : i < 25 * 80
  · rw [if_pos last] at marked
    cases marked
  · rw [if_neg last] at marked ⊢
    exact follows.cells i c marked

theorem printchar (follows : Follows color trail s) (c : UInt8) :
    Follows color (trail.put c) (s.printchar c color) := by
  have put : Follows color (trail.advance c) (s.put c color) := by
    unfold Screen.put Trail.advance
    by_cases newline : c = 10
    · rw [if_pos newline, if_pos newline]
      refine ⟨?_, follows.cells⟩
      rw [follows.cursor]
    · rw [if_neg newline, if_neg newline]
      exact follows.mark c
  rw [printchar_eq, Trail.put, put.cursor]
  by_cases past : (trail.advance c).cursor ≥ screenWidth * screenHeight
  · rw [if_pos past, if_pos past]
    exact put.scroll
  · rw [if_neg past, if_neg past]
    exact put

theorem printstr (follows : Follows color trail s) (str : List UInt8) :
    Follows color (str.foldl Trail.put trail) (s.printstr str color) := by
  induction str generalizing trail s with
  | nil => exact follows
  | cons c rest ih => exact ih (follows.printchar c)

theorem putAll (follows : Follows color trail s) (str : List UInt8) :
    Follows color (str.foldl Trail.mark trail) (s.putAll str color) := by
  induction str generalizing trail s with
  | nil => exact follows
  | cons c rest ih => exact ih (follows.mark c)

end Follows

/-- An output that has room for its text leaves its characters in the cells of its trail. -/
theorem Output.run_follows (output : Output) (s : Screen) (room : output.HasRoom) :
    ∃ t, output.run s = .ok t ∧ Follows output.color (output.trail s.cursorPos) t := by
  cases output with
  | printstr str color => exact ⟨_, rfl, (Follows.start color s).printstr str⟩
  | printlnLimit data color =>
      exact ⟨_, rfl, ((Follows.start color s).printstr (data.takeWhile (· ≠ 0))).printchar 10⟩
  | printct str color =>
      refine ⟨_, printct_of_le room, ?_⟩
      exact (Follows.start color { s with cursorPos := centre s str.length }).putAll str

theorem Output.hasRoom_of_run {output : Output} {s t : Screen} (returned : output.run s = .ok t) :
    output.HasRoom := by
  cases output with
  | printstr | printlnLimit => trivial
  | printct str color =>
      by_contra long
      have long : ¬ str.length ≤ 80 := long
      rw [Output.run, Screen.printct, if_neg long] at returned
      cases returned

theorem Output.coloured_of_plain {output : Output} {s : Screen} (room : output.HasRoom)
    (plain : output.color = 0xFF ∨ output.ShowsAscii s.cursorPos) : output.Coloured s := by
  obtain ⟨t, returned, follows⟩ := output.run_follows s room
  refine ⟨t, returned, ?_⟩
  intro i inside c marked
  rw [follows.cells i c marked, colour_cell_iff]
  refine ⟨?_, character_cell _ c⟩
  rcases plain with all | plain
  · exact .inl all
  · exact .inr (plain i inside c marked)

/-- The cells with a character of the text have its byte, and they have the colour if and only if
    that is 0xFF or no character on the screen has its sign bit set. -/
theorem coloured_iff (output : Output) (s : Screen) :
    output.Coloured s ↔ output.HasRoom ∧ (output.color = 0xFF ∨ output.ShowsAscii s.cursorPos) := by
  constructor
  · rintro ⟨t, returned, each⟩
    have room := Output.hasRoom_of_run returned
    refine ⟨room, ?_⟩
    obtain ⟨t', again, follows⟩ := output.run_follows s room
    obtain rfl := Except.ok.inj (returned.symm.trans again)
    by_cases all : output.color = 0xFF
    · exact .inl all
    · refine .inr ?_
      intro i inside c marked
      have own := (each i inside c marked).1
      rw [follows.cells i c marked, colour_cell_iff] at own
      exact own.resolve_left all
  · rintro ⟨room, plain⟩
    exact Output.coloured_of_plain room plain

/-- A letter of code page 437 that is printed in grey on black. -/
theorem not_coloured : ¬ (Output.printstr [0x84] 0x07).Coloured ⟨fun _ => 0, 0⟩ := by
  rintro ⟨t, returned, each⟩
  obtain rfl := Except.ok.inj returned
  have cell := (each 0 (by decide) 0x84 rfl).1
  exact absurd cell (by decide +kernel)

end AurorOS.Devices
