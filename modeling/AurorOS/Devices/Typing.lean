import AurorOS.Devices.Keyboard
import AurorOS.Lib.Outcome
import Mathlib.Data.List.TakeWhile

/-! # What is typed

`read_str` starts with as much of its base value as there is room for, and the first key
that goes down comes next: if it is Enter, the line is the base value.  Whatever is typed,
Enter stores a terminator into the array.
-/

namespace AurorOS.Devices

open Lines Outcome

/-- The first key that goes down, with the keys that are held. -/
def firstKey (keyStates : UInt8 → Bool) : List UInt8 → Option UInt8
  | [] => none
  | scancode :: rest =>
      let key := scancode &&& ~~~(0x80 : UInt8)
      if key = 0 then firstKey keyStates rest
      else if scancode &&& 0x80 ≠ 0 then firstKey (Function.update keyStates key false) rest
      else if keyStates key then firstKey keyStates rest
      else some key

variable {maxLength : UInt16} {secret : Bool} {color : UInt8} {text old done : List UInt8}
  {scancodes : List UInt8} {line : Line} {screen : Screen} {keyboard : Keyboard}
  {buffer : List UInt8} {console : Console}

theorem store_overlay (room : text.length < old.length) (c : UInt8) (length : Nat) :
    (Line.mk (overlay text old) length).store text.length c =
    .ok ⟨overlay (text ++ [c]) old, length⟩ := by
  have inside : text.length < (overlay text old).length := by
    rwa [length_overlay (Nat.le_of_lt room)]
  rw [Line.store, if_pos inside, set_overlay room]

/-- The first loop stores what of the base value leaves room for the terminator. -/
theorem baseLoop_eq (secret : Bool) (color : UInt8) (text done : List UInt8) (screen : Screen)
    (room : done.length < old.length) (enough : maxLength.toNat ≤ old.length) :
    ∃ screen', baseLoop maxLength secret color text ⟨overlay done old, done.length⟩ screen =
      .ok (⟨overlay (done ++ text.take (maxLength.toNat - 1 - done.length) ++ [0]) old,
        (done ++ text.take (maxLength.toNat - 1 - done.length)).length⟩, screen') := by
  induction text generalizing done screen with
  | nil =>
      rw [List.take_nil, List.append_nil, baseLoop, store_overlay room]
      exact ⟨screen, rfl⟩
  | cons c rest ih =>
      rw [baseLoop]
      by_cases short : done.length + 1 < maxLength.toNat
      · rw [if_pos short]
        have one : (done ++ [c]).length = done.length + 1 := List.length_append
        obtain ⟨screen', run⟩ :=
          ih (done ++ [c]) (screen.printchar (shown secret c) color) (by omega)
        rw [one] at run
        have cut : maxLength.toNat - 1 - done.length = maxLength.toNat - 1 - (done.length + 1) +
            1 := by omega
        refine ⟨screen', ?_⟩
        rw [cut, List.take_succ_cons, List.append_cons done c, store_overlay room]
        exact run
      · rw [if_neg short]
        have none : maxLength.toNat - 1 - done.length = 0 := by omega
        rw [none, List.take_zero, List.append_nil, store_overlay room]
        exact ⟨screen, rfl⟩

/-- Enter ends the line as it is. -/
theorem keyLoop_of_enter (maxLength : UInt16) (secret : Bool) (color : UInt8) (line : Line)
    (screen : Screen) (enter : firstKey keyboard.keyStates scancodes = some 0x1C)
    (room : line.length < line.buffer.length) :
    ∃ console, keyLoop maxLength secret color scancodes line screen keyboard =
      (.ok (line.buffer.set line.length 0), console) := by
  induction scancodes generalizing keyboard with
  | nil => cases enter
  | cons scancode rest ih =>
      have round : ∀ {keyboard'}, firstKey keyboard'.keyStates rest = some 0x1C →
          keyStep maxLength secret color scancode line screen keyboard =
          .ok (false, line, screen, keyboard') →
          ∃ console, keyLoop maxLength secret color (scancode :: rest) line screen keyboard =
            (.ok (line.buffer.set line.length 0), console) := by
        intro keyboard' later step
        rw [keyLoop, step]
        exact ih later
      rw [firstKey] at enter
      by_cases noKey : scancode &&& ~~~(0x80 : UInt8) = 0
      · rw [if_pos noKey] at enter
        exact round enter (by rw [keyStep, if_pos noKey]; rfl)
      rw [if_neg noKey] at enter
      by_cases released : scancode &&& 0x80 ≠ 0
      · rw [if_pos released] at enter
        have step : keyStep maxLength secret color scancode line screen keyboard =
            .ok (false, line, screen,
            { shiftLeftPressed := if scancode &&& ~~~(0x80 : UInt8) = 0x2A then false
              else keyboard.shiftLeftPressed,
              shiftRightPressed :=
                if scancode &&& ~~~(0x80 : UInt8) = 0x36 then false else keyboard.shiftRightPressed,
              keyStates :=
                Function.update keyboard.keyStates (scancode &&& ~~~(0x80 : UInt8)) false }) := by
          rw [keyStep, if_neg noKey, if_pos released]
          rfl
        exact round enter step
      rw [if_neg released] at enter
      by_cases held : keyboard.keyStates (scancode &&& ~~~(0x80 : UInt8)) = true
      · rw [if_pos held] at enter
        exact round enter (by rw [keyStep, if_neg noKey, if_neg released, if_pos held]; rfl)
      rw [if_neg held] at enter
      have isEnter := Option.some.inj enter
      have stored : line.store line.length 0 =
          .ok { line with buffer := line.buffer.set line.length 0 } := if_pos room
      have step : ∃ keyboard', keyStep maxLength secret color scancode line screen keyboard =
          .ok (true, { line with buffer := line.buffer.set line.length 0 }, screen.println [] 0x07,
            keyboard') := by
        rw [keyStep, if_neg noKey, if_neg released, if_neg held, if_pos isEnter, stored]
        exact ⟨_, rfl⟩
      obtain ⟨keyboard', step⟩ := step
      rw [keyLoop, step]
      exact ⟨_, rfl⟩

/-- The base value is taken as far as there is room for it. -/
theorem readStr_of_enter (enter : firstKey console.keyboard.keyStates console.scancodes = some 0x1C)
    (room : 0 < buffer.length) (enough : maxLength.toNat ≤ buffer.length) (text : List UInt8) :
    ∃ console', readStr buffer maxLength secret color (some text) console =
      (.ok (overlay (text.take (maxLength.toNat - 1) ++ [0]) buffer), console') := by
  obtain ⟨screen, base⟩ := baseLoop_eq secret color text [] console.screen room enough
  rw [overlay_nil, List.length_nil, List.nil_append, Nat.sub_zero] at base
  have short : (text.take (maxLength.toNat - 1)).length < buffer.length := by
    rw [List.length_take]
    omega
  have inside : (text.take (maxLength.toNat - 1)).length <
      (overlay (text.take (maxLength.toNat - 1) ++ [0]) buffer).length := by
    rw [length_overlay]
    · exact short
    · rw [List.length_append]
      exact short
  obtain ⟨console', ended⟩ := keyLoop_of_enter maxLength secret color
    ⟨overlay (text.take (maxLength.toNat - 1) ++ [0]) buffer, _⟩ screen enter inside
  rw [set_overlay_concat short] at ended
  rw [readStr, Option.getD_some, base]
  exact ⟨console', ended⟩

theorem store_eq_ok {line' : Line} {i : Nat} {c : UInt8} :
    line.store i c = .ok line' ↔
    i < line.buffer.length ∧ { line with buffer := line.buffer.set i c } = line' := by
  rw [Line.store]
  by_cases inside : i < line.buffer.length <;> simp [inside]

theorem push_length {line' : Line} {c : UInt8} (pushed : line.push c = .ok line') :
    line'.buffer.length = line.buffer.length := by
  obtain ⟨stored, first, second⟩ := bind_eq_ok.mp pushed
  obtain ⟨_, rfl⟩ := store_eq_ok.mp first
  obtain ⟨_, rfl⟩ := store_eq_ok.mp second
  rw [List.length_set, List.length_set]

theorem baseLoop_length {line' : Line} {screen' : Screen}
    (returned : baseLoop maxLength secret color text line screen = .ok (line', screen')) :
    line'.buffer.length = line.buffer.length := by
  induction text generalizing line screen with
  | nil =>
      obtain ⟨stored, first, value⟩ := bind_eq_ok.mp returned
      obtain ⟨_, rfl⟩ := store_eq_ok.mp first
      obtain ⟨rfl, _⟩ := Prod.mk.inj (pure_eq_ok.mp value)
      exact List.length_set
  | cons c rest ih =>
      rw [baseLoop] at returned
      split at returned
      · obtain ⟨stored, first, later⟩ := bind_eq_ok.mp returned
        obtain ⟨_, rfl⟩ := store_eq_ok.mp first
        rw [ih later]
        exact List.length_set
      · obtain ⟨stored, first, value⟩ := bind_eq_ok.mp returned
        obtain ⟨_, rfl⟩ := store_eq_ok.mp first
        obtain ⟨rfl, _⟩ := Prod.mk.inj (pure_eq_ok.mp value)
        exact List.length_set

/-- A scancode leaves the array as long as it is, and Enter stores a terminator. -/
theorem keyStep_line {scancode : UInt8} {ended : Bool} {line' : Line} {screen' : Screen}
    {keyboard' : Keyboard}
    (returned : keyStep maxLength secret color scancode line screen keyboard =
    .ok (ended, line', screen', keyboard')) :
    line'.buffer.length = line.buffer.length ∧ (ended = true → 0 ∈ line'.buffer) := by
  -- a round that leaves the line alone
  have stays : ∀ {screen₁ : Screen} {keyboard₁ : Keyboard},
      (pure (false, line, screen₁, keyboard₁) : Except Fault (Bool × Line × Screen × Keyboard)) =
        .ok (ended, line', screen', keyboard') →
      line'.buffer.length = line.buffer.length ∧ (ended = true → 0 ∈ line'.buffer) := by
    intro screen₁ keyboard₁ value
    obtain ⟨rfl, more⟩ := Prod.mk.inj (pure_eq_ok.mp value)
    obtain ⟨rfl, _⟩ := Prod.mk.inj more
    exact ⟨rfl, nofun⟩
  rw [keyStep] at returned
  split at returned
  · exact stays returned
  split at returned
  · exact stays returned
  split at returned
  · exact stays returned
  dsimp only at returned
  split at returned
  · obtain ⟨stored, first, value⟩ := bind_eq_ok.mp returned
    obtain ⟨inside, rfl⟩ := store_eq_ok.mp first
    obtain ⟨_, more⟩ := Prod.mk.inj (pure_eq_ok.mp value)
    obtain ⟨rfl, _⟩ := Prod.mk.inj more
    exact ⟨List.length_set, fun _ => List.mem_set inside 0⟩
  split at returned
  · split at returned
    · obtain ⟨stored, first, value⟩ := bind_eq_ok.mp returned
      obtain ⟨_, rfl⟩ := store_eq_ok.mp first
      obtain ⟨rfl, more⟩ := Prod.mk.inj (pure_eq_ok.mp value)
      obtain ⟨rfl, _⟩ := Prod.mk.inj more
      exact ⟨List.length_set, nofun⟩
    · exact stays returned
  split at returned
  · exact stays returned
  split at returned
  · exact stays returned
  split at returned
  · exact stays returned
  split at returned
  · obtain ⟨pushed, first, value⟩ := bind_eq_ok.mp returned
    obtain ⟨rfl, more⟩ := Prod.mk.inj (pure_eq_ok.mp value)
    obtain ⟨rfl, _⟩ := Prod.mk.inj more
    exact ⟨push_length first, nofun⟩
  · exact stays returned

theorem keyLoop_line {line' : List UInt8} {console' : Console}
    (returned : keyLoop maxLength secret color scancodes line screen keyboard =
    (.ok line', console')) :
    line'.length = line.buffer.length ∧ 0 ∈ line' := by
  induction scancodes generalizing line screen keyboard with
  | nil => cases (Prod.mk.inj returned).1
  | cons scancode rest ih =>
      rw [keyLoop] at returned
      split at returned
      · cases (Prod.mk.inj returned).1
      · rename_i step
        obtain ⟨same, ended⟩ := keyStep_line step
        obtain rfl := Except.ok.inj (Prod.mk.inj returned).1
        exact ⟨same, ended rfl⟩
      · rename_i step
        obtain ⟨same, ended⟩ := ih returned
        exact ⟨same.trans (keyStep_line step).1, ended⟩

/-- The line that is typed is shorter than its array. -/
theorem length_readStr {baseValue : Option (List UInt8)} {line' : List UInt8} {console' : Console}
    (returned : readStr buffer maxLength secret color baseValue console = (.ok line', console')) :
    (cString line').length < buffer.length := by
  rw [readStr] at returned
  split at returned
  · cases (Prod.mk.inj returned).1
  · rename_i base
    obtain ⟨same, ended⟩ := keyLoop_line returned
    rw [← baseLoop_length base, ← same, cString]
    refine Nat.lt_of_le_of_ne (List.takeWhile_prefix _).length_le fun whole => ?_
    have all := List.takeWhile_eq_self_iff.mp ((List.takeWhile_prefix _).eq_of_length whole) 0 ended
    exact absurd rfl (of_decide_eq_true all)

end AurorOS.Devices
