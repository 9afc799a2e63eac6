import AurorOS.Machine

/-! # The screen

Text mode, 25 rows of 80 cells, a cell being a colour and a character.  Positions in
the video memory count through the rows.  Strings are lists of bytes without their
terminator.
-/

namespace AurorOS.Devices

/-- The bytes of a string literal. -/
def cstr (s : String) : List UInt8 := s.toList.map fun c => c.toNat.toUInt8

def screenWidth : UInt16 := 80

def screenHeight : UInt16 := 25

/-- `video_memory` and `cursor_pos`. -/
structure Screen where
  videoMemory : Nat → UInt16
  cursorPos : UInt16

/-- `' ' | (color << 8)`. -/
def blank (color : UInt8) : UInt16 := (0x20 : UInt16) ||| (color.toUInt16 <<< 8)

/-- `(color << 8) | c`, where `c` is a signed `char`. -/
def cell (color c : UInt8) : UInt16 := (color.toUInt16 <<< 8) ||| c.toInt8.toInt16.toUInt16

namespace Screen

/-- The cells from position `start` on, `count` of them, become `value`. -/
def fill (s : Screen) (start count : Nat) (value : UInt16) : Screen :=
  { s with
    videoMemory := fun i => if start ≤ i ∧ i < start + count then value else s.videoMemory i }

def scroll (s : Screen) : Screen where
  videoMemory := fun i =>
    if i < 24 * 80 then s.videoMemory (i + 80) else if i < 25 * 80 then blank 0x07
      else s.videoMemory i
  cursorPos := (screenHeight - 1) * screenWidth

def printchar (c color : UInt8) (s : Screen) : Screen :=
  let s :=
    if c = 10 then { s with cursorPos := s.cursorPos + (screenWidth - s.cursorPos % screenWidth) }
    else
      { videoMemory := Function.update s.videoMemory s.cursorPos.toNat (cell color c)
        cursorPos := s.cursorPos + 1 }
  if s.cursorPos ≥ screenWidth * screenHeight then s.scroll else s

def printstr (str : List UInt8) (color : UInt8) (s : Screen) : Screen :=
  str.foldl (fun s c => s.printchar c color) s

def delchar (s : Screen) : Screen :=
  let pos := if s.cursorPos > 0 then s.cursorPos - 1 else s.cursorPos
  { videoMemory := Function.update s.videoMemory pos.toNat (blank 0x07), cursorPos := pos }

def clearscreen (s : Screen) : Screen := { s.fill 0 (25 * 80) (blank 0x07) with cursorPos := 0 }

def paintscreen (color : UInt8) (s : Screen) : Screen :=
  { s.fill 0 (25 * 80) (blank color) with cursorPos := 0 }

def clearline (line : UInt16) (s : Screen) : Screen :=
  if line ≥ screenHeight then s
  else
    let s := s.fill (line.toNat * 80) 80 (blank 0x07)
    if s.cursorPos / screenWidth = line then { s with cursorPos := line * screenWidth } else s

def paintline (line : UInt16) (color : UInt8) (s : Screen) : Screen :=
  if line ≥ screenHeight then s
  else
    let s := s.fill (line.toNat * 80) 80 (blank color)
    if s.cursorPos / screenWidth = line then { s with cursorPos := line * screenWidth } else s

/-- The string is copied to `temp[81]` before its characters are stored in a row. -/
def printct (str : List UInt8) (color : UInt8) (s : Screen) : Except Fault Screen :=
  if str.length ≤ 80 then
    let col := (80 - str.length) / 2
    let s := { s with cursorPos := s.cursorPos / screenWidth * screenWidth + UInt16.ofNat col }
    .ok (str.foldl (fun s c =>
      { videoMemory := Function.update s.videoMemory s.cursorPos.toNat (cell color c),
        cursorPos := s.cursorPos + 1 }) s)
  else .error .invalidAccess

def print := printstr

def println (str : List UInt8) (color : UInt8) (s : Screen) : Screen :=
  (s.printstr str color).printchar 10 color

/-- Prints the bytes up to the first zero or, at the latest, the end. -/
def printlnLimit (data : List UInt8) (color : UInt8) (s : Screen) : Screen :=
  (s.printstr (data.takeWhile (· ≠ 0)) color).printchar 10 color

/-- `print_error`, `print_info` and their like: a tag in its colour and the message. -/
def printTagged (tag : List UInt8) (color : UInt8) (str : List UInt8) (s : Screen) : Screen :=
  ((((s.printstr (cstr "[ ") 0x07).printstr tag color).printstr (cstr " ] ") 0x07).printstr str
    0x07).printstr
    (cstr "\n") 0x07

def printError := printTagged (cstr "ERROR") 0x04

def printInfo := printTagged (cstr "INFO") 0x01

def printWarn := printTagged (cstr "WARNING") 0x0E

end Screen

end AurorOS.Devices
