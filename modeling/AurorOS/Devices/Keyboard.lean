import AurorOS.Devices.Screen
import AurorOS.Lib.Lines
import AurorOS.Lib.Program
import Mathlib.Data.List.TakeWhile

/-! # The keyboard

`read_str` edits a line: it polls the scancodes, keeps track of the keys that are held
and echoes what it stores.  The scancodes to come are part of the state; after the
last of them the kernel waits.
-/

namespace AurorOS.Devices

open Screen Lines

/-- Why a program of the kernel stops. -/
inductive Stop where
  | fault (f : Fault)
  /-- No more keys are pressed. -/
  | waiting
  /-- The supply of blocks has one that is in use. -/
  | unserved
  deriving DecidableEq, Repr

/-- The shift flags and `key_states`. -/
structure Keyboard where
  shiftLeftPressed : Bool
  shiftRightPressed : Bool
  keyStates : UInt8 → Bool

/-- What the two devices are to a program: the screen, the keyboard, and the values
    that `read_scancode` is going to return. -/
structure Console where
  screen : Screen
  keyboard : Keyboard
  scancodes : List UInt8

/-- A table of characters as bytes. -/
def table (chars : List Char) : List UInt8 := chars.map fun c => c.toNat.toUInt8

/-- The entries up to the last that is not zero. -/
def keymap : List UInt8 := table [
  '\x00', '\x1b', '1', '2', '3', '4', '5', '6', '7', '8', '9', '0', '-', '=', '\x08',
  '\t', 'q', 'w', 'e', 'r', 't', 'y', 'u', 'i', 'o', 'p', '[', ']', '\n', '\x00',
  'a', 's', 'd', 'f', 'g', 'h', 'j', 'k', 'l', ';', '\'', '`', '\x00', '\\', 'z',
  'x', 'c', 'v', 'b', 'n', 'm', ',', '.', '/', '\x00', '*', '\x00', ' ', '\x00', '\x00', '\x00',
  '\x00', '\x00', '\x00', '\x00', '\x00', '\x00', '\x00', '\x00', '\x00', '-', '\x00', '\x00',
  '\x00', '+']

def shiftKeymap : List UInt8 := table [
  '\x00', '\x1b', '!', '@', '#', '$', '%', '^', '&', '*', '(', ')', '_', '+', '\x08',
  '\t', 'Q', 'W', 'E', 'R', 'T', 'Y', 'U', 'I', 'O', 'P', '{', '}', '\n', '\x00',
  'A', 'S', 'D', 'F', 'G', 'H', 'J', 'K', 'L', ':', '"', '~', '\x00', '|', 'Z',
  'X', 'C', 'V', 'B', 'N', 'M', '<', '>', '?', '\x00', '*', '\x00', ' ', '\x00', '\x00', '\x00',
  '\x00', '\x00', '\x00', '\x00', '\x00', '\x00', '\x00', '\x00', '\x00', '-', '\x00', '\x00',
  '\x00', '+']

/-- The character of a key; the tables have 128 entries. -/
def keyChar (keyboard : Keyboard) (key : UInt8) : UInt8 :=
  let map := if keyboard.shiftLeftPressed ∨ keyboard.shiftRightPressed then shiftKeymap else keymap
  map.getD key.toNat 0

/-- The caller's array and the length of the line in it. -/
structure Line where
  buffer : List UInt8
  length : Nat

namespace Line

/-- `buffer[i] = c`. -/
def store (line : Line) (i : Nat) (c : UInt8) : Except Fault Line :=
  if i < line.buffer.length then .ok { line with buffer := line.buffer.set i c }
    else .error .invalidAccess

/-- `buffer[length++] = c; buffer[length] = '\0';` -/
def push (line : Line) (c : UInt8) : Except Fault Line := do
  let line ← line.store line.length c
  let line := { line with length := line.length + 1 }
  line.store line.length 0

end Line

/-- The character that is shown for `c`. -/
def shown (secret : Bool) (c : UInt8) : UInt8 := if secret then 42 else c

/-- The first loop of `read_str`, over the rest of `base_value`. -/
def baseLoop (maxLength : UInt16) (secret : Bool) (color : UInt8) :
    List UInt8 → Line → Screen → Except Fault (Line × Screen)
  | [], line, screen => do return (← line.store line.length 0, screen)
  | c :: rest, line, screen =>
      if line.length + 1 < maxLength.toNat then do
        let line ← line.store line.length c
        baseLoop maxLength secret color rest { line with length := line.length + 1 }
          (screen.printchar (shown secret c) color)
      else do return (← line.store line.length 0, screen)

/-- What one scancode does; the flag says that it was Enter. -/
def keyStep (maxLength : UInt16) (secret : Bool) (color : UInt8) (scancode : UInt8) (line : Line)
    (screen : Screen) (keyboard : Keyboard) : Except Fault (Bool × Line × Screen × Keyboard) := do
  let key := scancode &&& ~~~(0x80 : UInt8)
  if key = 0 then return (false, line, screen, keyboard)
  if scancode &&& 0x80 ≠ 0 then
    return (false, line, screen,
      { shiftLeftPressed := if key = 0x2A then false else keyboard.shiftLeftPressed,
        shiftRightPressed := if key = 0x36 then false else keyboard.shiftRightPressed,
        keyStates := Function.update keyboard.keyStates key false })
  if keyboard.keyStates key then return (false, line, screen, keyboard)
  let keyboard := { keyboard with keyStates := Function.update keyboard.keyStates key true }
  if key = 0x1C then
    return (true, ← line.store line.length 0, screen.println [] 0x07, keyboard)
  if key = 0x0E then
    if line.length > 0 then
      let line := { line with length := line.length - 1 }
      return (false, ← line.store line.length 0, screen.delchar, keyboard)
    else return (false, line, screen, keyboard)
  if key = 0x2A then return (false, line, screen, { keyboard with shiftLeftPressed := true })
  if key = 0x36 then return (false, line, screen, { keyboard with shiftRightPressed := true })
  let c := keyChar keyboard key
  if c = 0 then return (false, line, screen, keyboard)
  if line.length + 1 < maxLength.toNat then
    return (false, ← line.push c, screen.printchar (shown secret c) color, keyboard)
  else return (false, line, screen, keyboard)

/-- The main loop of `read_str`. -/
def keyLoop (maxLength : UInt16) (secret : Bool) (color : UInt8) :
    List UInt8 → Line → Screen → Keyboard → Except Stop (List UInt8) × Console
  | [], _, screen, keyboard => (.error .waiting, ⟨screen, keyboard, []⟩)
  | scancode :: rest, line, screen, keyboard =>
      match keyStep maxLength secret color scancode line screen keyboard with
      | .error f => (.error (.fault f), ⟨screen, keyboard, rest⟩)
      | .ok (true, line, screen, keyboard) => (.ok line.buffer, ⟨screen, keyboard, rest⟩)
      | .ok (false, line, screen, keyboard) =>
          keyLoop maxLength secret color rest line screen keyboard

/-- `buffer` is the caller's array and what it holds before the call; the result is
    what it holds then. -/
def readStr (buffer : List UInt8) (maxLength : UInt16) (secret : Bool) (color : UInt8)
    (baseValue : Option (List UInt8)) :
    Program Console Stop (List UInt8) := fun console =>
  match baseLoop maxLength secret color (baseValue.getD []) ⟨buffer, 0⟩ console.screen with
  | .error f => (.error (.fault f), console)
  | .ok (line, screen) =>
      keyLoop maxLength secret color console.scancodes line screen console.keyboard

/-- An array before anything is stored in it; what it holds is never read. -/
@[irreducible] def freshArray (size : Nat) : List UInt8 := List.replicate size 0

/-- The C string that an array holds. -/
def cString (buffer : List UInt8) : List UInt8 := buffer.takeWhile (· ≠ 0)

/-- The loop of `read_yn`; a round takes a scancode at least. -/
def readYnLoop (text : List UInt8) (color : UInt8) : Nat → Program Console Stop Bool
  | 0 => Program.stop (.fault .outOfFuel)
  | fuel + 1 => do
      Program.modify fun c =>
        { c with screen := (c.screen.print (cstr " ") color).print text color }
      let answer := cString (← readStr [0, 0] 2 false color (some []))
      if answer = cstr "Y" ∨ answer = cstr "y" then return true
      if answer = cstr "N" ∨ answer = cstr "n" then return false
      Program.modify fun c =>
        { c with screen := (c.screen.printError (cstr "Incorrect option!")).print (cstr "\n") 0x07 }
      readYnLoop text color fuel

def readYn (text : List UInt8) (color : UInt8) : Program Console Stop Bool := fun console =>
  readYnLoop text color (console.scancodes.length + 1) console

/-- `a[i] = c`. -/
def storeAt (a : List UInt8) (i : Nat) (c : UInt8) : Except Fault (List UInt8) :=
  if i < a.length then .ok (a.set i c) else .error .invalidAccess

variable {text old rest : List UInt8}

theorem storeAt_overlay (room : text.length < old.length) (c : UInt8) :
    storeAt (overlay text old) text.length c = .ok (overlay (text ++ [c]) old) := by
  rw [storeAt, length_overlay (Nat.le_of_lt room), if_pos room, set_overlay room]

/-- Nothing is read behind the terminator of a text. -/
theorem takeWhile_overlay (ended : 0 ∈ text) :
    (overlay text old ++ rest).takeWhile (· ≠ 0) = text.takeWhile (· ≠ 0) := by
  rw [overlay, List.append_assoc, List.takeWhile_append]
  refine if_neg fun whole => ?_
  have all : text.takeWhile (· ≠ 0) = text := (List.takeWhile_prefix _).eq_of_length whole
  exact absurd rfl (decide_eq_true_eq.mp (List.takeWhile_eq_self_iff.mp all 0 ended))

theorem cString_overlay (plain : 0 ∉ text) (old : List UInt8) :
    cString (overlay (text ++ [0]) old) = text := by
  have each : ∀ c ∈ text, decide (c ≠ 0) = true := by
    intro c member
    refine decide_eq_true ?_
    rintro rfl
    exact plain member
  have read : (overlay (text ++ [0]) old ++ []).takeWhile (· ≠ 0) =
      (text ++ [0]).takeWhile (· ≠ 0) :=
    takeWhile_overlay (List.mem_append_right text (List.mem_singleton_self 0))
  rw [List.append_nil, List.takeWhile_append_of_pos each] at read
  rw [cString, read]
  exact List.append_nil text

end AurorOS.Devices
