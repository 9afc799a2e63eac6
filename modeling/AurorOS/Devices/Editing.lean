import AurorOS.Devices.Typing
import AurorOS.Lib.Runs

/-! # The line as a list of edits

Scancodes say which keys go down and up.  The presses among them, that is the make codes
of keys that are not held, edit a text of limited length, one after the other.  `read_str`
keeps that text in the caller's array.
-/

namespace AurorOS.Devices

open Lines Outcome Runs

/-- A key that goes down, and whether a shift key is in effect then. -/
structure Press where
  key : UInt8
  shifted : Bool
  deriving DecidableEq, Repr

namespace Press

def enter (press : Press) : Prop := press.key = 0x1C

instance (press : Press) : Decidable press.enter := inferInstanceAs (Decidable (_ = _))

/-- The character that the key stands for, zero if for none. -/
def char (press : Press) : UInt8 :=
  (if press.shifted then shiftKeymap else keymap).getD press.key.toNat 0

/-- What a press does to a text of at most `room` characters. -/
def edit (press : Press) (room : Nat) (text : List UInt8) : List UInt8 :=
  if press.key = 0x0E then text.dropLast
  else if press.char ≠ 0 ∧ text.length < room then text ++ [press.char]
  else text

end Press

/-- A text after some presses. -/
def edited (room : Nat) (text : List UInt8) (presses : List Press) : List UInt8 :=
  presses.foldl (fun text press => press.edit room text) text

/-- The seven bits that name a key. -/
def keyOf (scancode : UInt8) : UInt8 := scancode &&& ~~~(0x80 : UInt8)

/-- Whether a scancode says that a key goes up. -/
def releases (scancode : UInt8) : Bool := scancode &&& 0x80 ≠ 0

namespace Keyboard

def shifted (keyboard : Keyboard) : Bool := keyboard.shiftLeftPressed || keyboard.shiftRightPressed

/-- The press that a scancode is. -/
def press (keyboard : Keyboard) (scancode : UInt8) : Option Press :=
  if keyOf scancode = 0 ∨ releases scancode ∨ keyboard.keyStates (keyOf scancode) then none
  else some ⟨keyOf scancode, keyboard.shifted⟩

/-- The keys that are held and the shift flags after a scancode. -/
def after (keyboard : Keyboard) (scancode : UInt8) : Keyboard :=
  let key := keyOf scancode
  if key = 0 then keyboard
  else if releases scancode then
    { shiftLeftPressed := if key = 0x2A then false else keyboard.shiftLeftPressed,
      shiftRightPressed := if key = 0x36 then false else keyboard.shiftRightPressed,
      keyStates := Function.update keyboard.keyStates key false }
  else if keyboard.keyStates key then keyboard
  else
    { shiftLeftPressed := if key = 0x2A then true else keyboard.shiftLeftPressed,
      shiftRightPressed := if key = 0x36 then true else keyboard.shiftRightPressed,
      keyStates := Function.update keyboard.keyStates key true }

def afterAll (keyboard : Keyboard) (scancodes : List UInt8) : Keyboard :=
  scancodes.foldl after keyboard

end Keyboard

/-- The presses in a sequence of scancodes. -/
def presses : Keyboard → List UInt8 → List Press
  | _, [] => []
  | keyboard, scancode :: rest =>
      (keyboard.press scancode).toList ++ presses (keyboard.after scancode) rest

theorem presses_concat (keyboard : Keyboard) (scancodes : List UInt8) (scancode : UInt8) :
    presses keyboard (scancodes ++ [scancode]) =
      presses keyboard scancodes ++ ((keyboard.afterAll scancodes).press scancode).toList := by
  induction scancodes generalizing keyboard with
  | nil => simp [presses, Keyboard.afterAll]
  | cons first rest ih =>
      rw [List.cons_append, presses, ih, presses, List.append_assoc]
      rfl

theorem afterAll_concat (keyboard : Keyboard) (scancodes : List UInt8) (scancode : UInt8) :
    keyboard.afterAll (scancodes ++ [scancode]) = (keyboard.afterAll scancodes).after scancode := by
  simp [Keyboard.afterAll]

/-- What the loop does when a key goes down. -/
def pressStep (maxLength : UInt16) (secret : Bool) (color : UInt8) (press : Press) (line : Line)
    (screen : Screen) :
    Except Fault (Bool × Line × Screen) := do
  if press.enter then return (true, ← line.store line.length 0, screen.println [] 0x07)
  if press.key = 0x0E then
    if line.length > 0 then
      let line := { line with length := line.length - 1 }
      return (false, ← line.store line.length 0, screen.delchar)
    else return (false, line, screen)
  if press.char = 0 then return (false, line, screen)
  if line.length + 1 < maxLength.toNat then
    return (false, ← line.push press.char, screen.printchar (shown secret press.char) color)
  else return (false, line, screen)

variable {maxLength : UInt16} {secret : Bool} {color scancode : UInt8} {line : Line}
  {screen : Screen} {keyboard : Keyboard} {p : Press}

/-- Without a press only the keyboard changes. -/
theorem keyStep_of_none (none : keyboard.press scancode = none) :
    keyStep maxLength secret color scancode line screen keyboard =
      .ok (false, line, screen, keyboard.after scancode) := by
  unfold keyStep Keyboard.after
  change (if keyOf scancode = 0 then _ else _) = _
  by_cases noKey : keyOf scancode = 0
  · rw [if_pos noKey, if_pos noKey]
    rfl
  rw [if_neg noKey, if_neg noKey]
  by_cases released : releases scancode = true
  · rw [if_pos released, if_pos (decide_eq_true_eq.mp released)]
    rfl
  rw [if_neg released, if_neg fun up => released (decide_eq_true_eq.mpr up)]
  have held : keyboard.keyStates (keyOf scancode) = true := by
    simpa [Keyboard.press, noKey, released] using none
  rw [if_pos held]
  change (if keyboard.keyStates (keyOf scancode) = true then _ else _) = _
  rw [if_pos held]
  rfl

theorem keyStep_of_press (pressed : keyboard.press scancode = some p) :
    keyStep maxLength secret color scancode line screen keyboard =
      (pressStep maxLength secret color p line screen).map fun after =>
        (after.1, after.2.1, after.2.2, keyboard.after scancode) := by
  unfold Keyboard.press at pressed
  split at pressed
  · cases pressed
  rename_i down
  obtain ⟨noKey, released, held⟩ : ¬ keyOf scancode = 0 ∧ ¬ releases scancode = true ∧
      ¬ keyboard.keyStates (keyOf scancode) = true := by simpa only [not_or] using down
  obtain rfl := Option.some.inj pressed
  rw [Keyboard.after, if_neg noKey, if_neg released, if_neg held]
  unfold keyStep pressStep
  have name : scancode &&& ~~~(0x80 : UInt8) = keyOf scancode := rfl
  rw [name, if_neg noKey, if_neg fun up => released (decide_eq_true_eq.mpr up), if_neg held]
  -- from here on only the key counts
  generalize keyOf scancode = key
  change (if key = 0x1C then _ else _) = Except.map _ (if key = 0x1C then _ else _)
  by_cases enter : key = 0x1C
  · subst enter
    rw [if_pos rfl, if_pos rfl]
    cases line.store line.length 0 <;> rfl
  rw [if_neg enter, if_neg enter]
  change (if key = 0x0E then _ else _) = Except.map _ (if key = 0x0E then _ else _)
  by_cases erase : key = 0x0E
  · subst erase
    rw [if_pos rfl, if_pos rfl]
    by_cases some : line.length > 0
    · rw [if_pos some, if_pos some]
      dsimp only
      cases Line.store ⟨line.buffer, line.length - 1⟩ (line.length - 1) 0 <;> rfl
    · rw [if_neg some, if_neg some]
      rfl
  rw [if_neg erase, if_neg erase]
  by_cases left : key = 0x2A
  · subst left
    have none : (Press.mk 0x2A keyboard.shifted).char = 0 := by cases keyboard.shifted <;> rfl
    rw [if_pos rfl, if_pos none]
    rfl
  by_cases right : key = 0x36
  · subst right
    have none : (Press.mk 0x36 keyboard.shifted).char = 0 := by cases keyboard.shifted <;> rfl
    rw [if_neg left, if_pos rfl, if_pos none]
    rfl
  rw [if_neg left, if_neg right, if_neg left, if_neg right]
  have same : keyChar { keyboard with
      keyStates := Function.update keyboard.keyStates key true } key =
      (Press.mk key keyboard.shifted).char := by
    simp [keyChar, Press.char, Keyboard.shifted]
  dsimp only
  rw [same]
  generalize (Press.mk key keyboard.shifted).char = c
  by_cases none : c = 0
  · rw [if_pos none, if_pos none]
    rfl
  rw [if_neg none, if_neg none]
  by_cases room : line.length + 1 < maxLength.toNat
  · rw [if_pos room, if_pos room]
    cases line.push c <;> rfl
  · rw [if_neg room, if_neg room]
    rfl

/-- The array starts with the text and its terminator; it is as it was from `maxLength`
    on. -/
structure Holds (maxLength : Nat) (old text : List UInt8) (line : Line) : Prop where
  length : line.length = text.length
  bounded : text.length + 1 ≤ maxLength
  stored : ∃ rest, line.buffer = text ++ 0 :: rest
  size : line.buffer.length = old.length
  beyond : line.buffer.drop maxLength = old.drop maxLength

namespace Holds

variable {old text : List UInt8} {capacity : Nat}

theorem ended (holds : Holds capacity old text line) : line.buffer[line.length]? = some 0 := by
  obtain ⟨rest, stored⟩ := holds.stored
  rw [holds.length, stored, List.getElem?_append_right le_rfl, Nat.sub_self]
  rfl

theorem cString (holds : Holds capacity old text line) (plain : 0 ∉ text) :
    cString line.buffer = text := by
  obtain ⟨rest, stored⟩ := holds.stored
  have each : ∀ c ∈ text, decide (c ≠ 0) = true := by
    intro c member
    refine decide_eq_true ?_
    rintro rfl
    exact plain member
  rw [Devices.cString, stored, List.takeWhile_append_of_pos each]
  exact List.append_nil text

/-- A shorter text is left by a terminator in it. -/
theorem cut (holds : Holds capacity old text line) {short more : List UInt8} {c : UInt8}
    (split : text ++ [0] = short ++ c :: more) :
    ∃ line', (Line.mk line.buffer short.length).store short.length 0 = .ok line' ∧
    Holds capacity old short line' := by
  obtain ⟨rest, stored⟩ := holds.stored
  have whole : line.buffer = short ++ c :: (more ++ rest) := by
    rw [stored, List.append_cons, split, List.append_assoc, List.cons_append]
  have bounded := holds.bounded
  have lengths := congrArg List.length split
  simp only [List.length_append, List.length_cons, List.length_nil] at lengths
  have inside : short.length < line.buffer.length := by simp [whole]
  refine ⟨⟨line.buffer.set short.length 0, short.length⟩, if_pos inside, rfl, by omega,
    ⟨more ++ rest, ?_⟩, ?_, ?_⟩
  · simp [whole]
  · rw [List.length_set, holds.size]
  · rw [List.drop_set_of_lt (by omega), holds.beyond]

/-- A character that there is room for is put behind the text. -/
theorem push (holds : Holds capacity old text line) (enough : capacity ≤ old.length)
    (room : text.length + 1 < capacity) (c : UInt8) :
    ∃ line', line.push c = .ok line' ∧ Holds capacity old (text ++ [c]) line' := by
  obtain ⟨rest, stored⟩ := holds.stored
  have size := holds.size
  have one : line.length < line.buffer.length := by
    rw [holds.length]
    omega
  have two : line.length + 1 < (line.buffer.set line.length c).length := by
    rw [List.length_set, holds.length]
    omega
  have pushed : line.push c =
      .ok ⟨(line.buffer.set line.length c).set (line.length + 1) 0, line.length + 1⟩ := by
    rw [Line.push, Line.store, if_pos one]
    exact if_pos two
  refine ⟨_, pushed, ?_, ?_, ?_, ?_, ?_⟩
  · simp [holds.length]
  · simpa using room
  · cases rest with
    | nil =>
        rw [stored, List.length_append, List.length_singleton] at size
        omega
    | cons next rest =>
        refine ⟨rest, ?_⟩
        simp [stored, holds.length]
  · simp [size]
  · have far : line.length + 1 < capacity := by rwa [holds.length]
    rw [List.drop_set_of_lt far, List.drop_set_of_lt (by omega), holds.beyond]

end Holds

variable {old text : List UInt8}

/-- Enter leaves the text as it is. -/
theorem pressStep_enter (secret : Bool) (color : UInt8) (screen : Screen) (enter : p.enter)
    (holds : Holds maxLength.toNat old text line) :
    ∃ line', pressStep maxLength secret color p line screen =
    .ok (true, line', screen.println [] 0x07) ∧ Holds maxLength.toNat old text line' := by
  obtain ⟨line', stored, same⟩ := holds.cut rfl
  rw [← holds.length] at stored
  refine ⟨line', ?_, same⟩
  rw [pressStep, if_pos enter]
  exact bind_of_ok stored

/-- Any other press edits it. -/
theorem pressStep_edit (secret : Bool) (color : UInt8) (screen : Screen) (other : ¬ p.enter)
    (enough : maxLength.toNat ≤ old.length) (holds : Holds maxLength.toNat old text line) :
    ∃ line' screen', pressStep maxLength secret color p line screen = .ok (false, line', screen') ∧
      Holds maxLength.toNat old (p.edit (maxLength.toNat - 1) text) line' := by
  have length := holds.length
  rw [pressStep, if_neg other, Press.edit]
  by_cases erase : p.key = 0x0E
  · rw [if_pos erase, if_pos erase]
    rcases List.eq_nil_or_concat text with rfl | ⟨short, c, rfl⟩
    · rw [if_neg (by simp [length])]
      exact ⟨line, screen, rfl, holds⟩
    · have split : short.concat c ++ [0] = short ++ c :: [0] := by simp
      obtain ⟨line', stored, same⟩ := holds.cut split
      have one : line.length - 1 = short.length := by simp [length]
      rw [if_pos (by simp [length]), one]
      refine ⟨line', screen.delchar, bind_of_ok stored, ?_⟩
      simpa using same
  rw [if_neg erase, if_neg erase]
  by_cases none : p.char = 0
  · rw [if_pos none, if_neg fun both => both.1 none]
    exact ⟨line, screen, rfl, holds⟩
  rw [if_neg none]
  by_cases room : line.length + 1 < maxLength.toNat
  · rw [length] at room
    obtain ⟨line', pushed, longer⟩ := holds.push enough room p.char
    have also : text.length < maxLength.toNat - 1 := by omega
    rw [if_pos (by rwa [length]), if_pos ⟨none, also⟩]
    exact ⟨line', _, bind_of_ok pushed, longer⟩
  · rw [if_neg room]
    rw [length] at room
    rw [if_neg fun both => room (by have := both.2; omega)]
    exact ⟨line, screen, rfl, holds⟩

/-- The base value as far as there is room. -/
theorem baseLoop_holds (positive : 1 ≤ maxLength.toNat) (enough : maxLength.toNat ≤ old.length)
    (secret : Bool) (color : UInt8) (text : List UInt8) (screen : Screen) :
    ∃ line screen', baseLoop maxLength secret color text ⟨old, 0⟩ screen = .ok (line, screen') ∧
      Holds maxLength.toNat old (text.take (maxLength.toNat - 1)) line := by
  obtain ⟨screen', run⟩ :=
    baseLoop_eq secret color text [] screen (Nat.lt_of_lt_of_le positive enough) enough
  rw [overlay_nil, List.length_nil, List.nil_append, Nat.sub_zero] at run
  have short : (text.take (maxLength.toNat - 1)).length + 1 ≤ maxLength.toNat := by
    rw [List.length_take]
    omega
  have whole : (text.take (maxLength.toNat - 1) ++ [0]).length ≤ maxLength.toNat := by
    rwa [List.length_append, List.length_singleton]
  refine ⟨_, screen', run, rfl, short,
    ⟨old.drop (text.take (maxLength.toNat - 1) ++ [0]).length, ?_⟩, ?_, ?_⟩
  · simp [overlay]
  · exact length_overlay (le_trans whole enough)
  · rw [overlay, List.drop_append, List.drop_eq_nil_of_le whole, List.nil_append, List.drop_drop]
    congr 1
    omega

/-- Where the main loop stands between two scancodes. -/
structure Editing where
  line : Line
  screen : Screen
  keyboard : Keyboard

/-- A round that does not end the loop. -/
def Round (maxLength : UInt16) (secret : Bool) (color : UInt8) (before : Editing) (scancode : UInt8)
    (after : Editing) : Prop :=
  keyStep maxLength secret color scancode before.line before.screen before.keyboard =
    .ok (false, after.line, after.screen, after.keyboard)

/-- What a scancode does to an array that holds a text. -/
theorem keyStep_holds (enough : maxLength.toNat ≤ old.length)
    (holds : Holds maxLength.toNat old text line) (secret : Bool) (color scancode : UInt8)
    (screen : Screen) (keyboard : Keyboard) :
    ∃ line' screen',
      (keyStep maxLength secret color scancode line screen keyboard =
          .ok (false, line', screen', keyboard.after scancode) ∧
        (∀ p ∈ keyboard.press scancode, ¬ p.enter) ∧
        Holds maxLength.toNat old
          (edited (maxLength.toNat - 1) text (keyboard.press scancode).toList) line') ∨
      (keyStep maxLength secret color scancode line screen keyboard =
          .ok (true, line', screen', keyboard.after scancode) ∧
        (∃ p ∈ keyboard.press scancode, p.enter) ∧ Holds maxLength.toNat old text line') := by
  cases pressed : keyboard.press scancode with
  | none => exact ⟨line, screen, .inl ⟨keyStep_of_none pressed, nofun, holds⟩⟩
  | some p =>
      rw [keyStep_of_press pressed]
      by_cases enter : p.enter
      · obtain ⟨line', step, same⟩ := pressStep_enter secret color screen enter holds
        refine ⟨line', screen.println [] 0x07, .inr ⟨?_, ⟨p, rfl, enter⟩, same⟩⟩
        rw [step]
        rfl
      · obtain ⟨line', screen', step, next⟩ :=
          pressStep_edit secret color screen enter enough holds
        refine ⟨line', screen', .inl ⟨?_, ?_, next⟩⟩
        · rw [step]
          rfl
        · intro other same
          obtain rfl := Option.some.inj same
          exact enter

/-- After any number of rounds the array holds the text with the edits so far. -/
theorem rounds_hold {start t : Editing} {trace : List (Editing × UInt8)}
    (enough : maxLength.toNat ≤ old.length) (holds : Holds maxLength.toNat old text start.line)
    (run : Run (Round maxLength secret color) start trace t) :
    t.keyboard = start.keyboard.afterAll (trace.map Prod.snd) ∧
      Holds maxLength.toNat old
        (edited (maxLength.toNat - 1) text (presses start.keyboard (trace.map Prod.snd)))
          t.line := by
  induction run with
  | nil => exact ⟨rfl, holds⟩
  | @snoc trace t scancode u _ taken ih =>
      obtain ⟨same, here⟩ := ih
      rw [Round] at taken
      rw [List.map_append, List.map_singleton, afterAll_concat, presses_concat, ← same]
      obtain ⟨line', screen', ⟨step, _, next⟩ | ⟨step, _⟩⟩ :=
        keyStep_holds enough here secret color scancode t.screen t.keyboard
      · rw [step] at taken
        simp only [Except.ok.injEq, Prod.mk.injEq, true_and] at taken
        obtain ⟨rfl, _, keyboard⟩ := taken
        refine ⟨keyboard.symm, ?_⟩
        rwa [edited, List.foldl_append]
      · rw [step] at taken
        simp at taken

/-- The presses before the first Enter. -/
def beforeEnter (presses : List Press) : List Press := presses.takeWhile fun p => ¬ p.enter

/-- The lines that have been typed, without the Enter that ends each and without what is behind
    the last. -/
def typedLines : List Press → List (List Press)
  | [] => []
  | p :: rest =>
      if p.enter then [] :: typedLines rest
      else
        match typedLines rest with
        | [] => []
        | line :: later => (p :: line) :: later

theorem typedLines_of_noEnter {presses : List Press} (never : ∀ p ∈ presses, ¬ p.enter) :
    typedLines presses = [] := by
  induction presses with
  | nil => rfl
  | cons p rest ih =>
      rw [typedLines, if_neg (never p List.mem_cons_self),
        ih fun q member => never q (List.mem_cons_of_mem _ member)]

theorem typedLines_append {presses later : List Press} {line : List Press}
    {lines : List (List Press)} (never : ∀ p ∈ presses, ¬ p.enter)
    (typed : typedLines later = line :: lines) :
    typedLines (presses ++ later) = (presses ++ line) :: lines := by
  induction presses with
  | nil => exact typed
  | cons p rest ih =>
      rw [List.cons_append, typedLines, if_neg (never p List.mem_cons_self),
        ih fun q member => never q (List.mem_cons_of_mem _ member)]
      rfl

theorem length_typedLines_le (presses : List Press) :
    (typedLines presses).length ≤ presses.length := by
  induction presses with
  | nil => exact Nat.le_refl 0
  | cons p rest ih =>
      rw [typedLines, List.length_cons]
      split
      · exact Nat.succ_le_succ ih
      · split
        · exact Nat.zero_le _
        · rename_i line later typed
          rw [typed] at ih
          exact ih.trans (Nat.le_succ _)

theorem length_presses_le (keyboard : Keyboard) (scancodes : List UInt8) :
    (presses keyboard scancodes).length ≤ scancodes.length := by
  induction scancodes generalizing keyboard with
  | nil => exact Nat.le_refl 0
  | cons scancode rest ih =>
      have one : (keyboard.press scancode).toList.length ≤ 1 := by
        cases keyboard.press scancode with
        | none => exact Nat.zero_le 1
        | some p => exact Nat.le_refl 1
      rw [presses, List.length_append, List.length_cons]
      have later := ih (keyboard.after scancode)
      omega

/-- The presses that are still to come. -/
def Console.presses (console : Console) : List Press :=
  Devices.presses console.keyboard console.scancodes

/-- Without Enter the loop waits for more; with it the array holds the edited text, and the
    lines behind are left. -/
theorem keyLoop_holds (enough : maxLength.toNat ≤ old.length)
    (holds : Holds maxLength.toNat old text line) (secret : Bool) (color : UInt8)
    (scancodes : List UInt8) (screen : Screen) (keyboard : Keyboard) :
    ((∀ p ∈ presses keyboard scancodes, ¬ p.enter) ∧
      ∃ console, keyLoop maxLength secret color scancodes line screen keyboard =
      (.error .waiting, console)) ∨ ((∃ p ∈ presses keyboard scancodes, p.enter) ∧
      ∃ line' console, keyLoop maxLength secret color scancodes line screen keyboard =
      (.ok line'.buffer, console) ∧ Holds maxLength.toNat old
          (edited (maxLength.toNat - 1) text (beforeEnter (presses keyboard scancodes))) line' ∧
        typedLines (presses keyboard scancodes) =
          beforeEnter (presses keyboard scancodes) :: typedLines console.presses) := by
  induction scancodes generalizing text line screen keyboard with
  | nil => exact .inl ⟨nofun, ⟨screen, keyboard, []⟩, rfl⟩
  | cons scancode rest ih =>
      rw [keyLoop, presses]
      obtain ⟨line', screen', ⟨step, noEnter, next⟩ | ⟨step, enter, same⟩⟩ :=
        keyStep_holds enough holds secret color scancode screen keyboard
      · rw [step]
        have here : ∀ p ∈ (keyboard.press scancode).toList, ¬ p.enter := by simpa using noEnter
        rcases ih next screen' (keyboard.after scancode) with
          ⟨never, waits⟩ | ⟨⟨p, later, enter⟩, line'', console, returns, after, lines⟩
        · refine .inl ⟨?_, waits⟩
          intro p member
          rcases List.mem_append.mp member with first | later
          · exact here p first
          · exact never p later
        · refine .inr ⟨⟨p, List.mem_append_right _ later, enter⟩, line'', console, returns, ?_⟩
          have skip : beforeEnter
              ((keyboard.press scancode).toList ++ presses (keyboard.after scancode) rest) =
              (keyboard.press scancode).toList ++
              beforeEnter (presses (keyboard.after scancode) rest) :=
            List.takeWhile_append_of_pos fun p member => decide_eq_true (here p member)
          rw [skip, edited, List.foldl_append]
          exact ⟨after, typedLines_append here lines⟩
      · rw [step]
        obtain ⟨p, pressed, enter⟩ := enter
        rw [Option.mem_def.mp pressed]
        refine .inr ⟨⟨p, List.mem_cons_self, enter⟩, line', _, rfl, ?_⟩
        have none : beforeEnter ((some p).toList ++ presses (keyboard.after scancode) rest) = [] :=
          List.takeWhile_cons_of_neg (by simpa using enter)
        rw [none]
        exact ⟨same, if_pos enter⟩

/-- The second sequence has, besides the scancodes of the first, zeros and make codes of
    keys that are held already. -/
inductive Padded : Keyboard → List UInt8 → List UInt8 → Prop where
  | nil (keyboard : Keyboard) : Padded keyboard [] []
  | zero {keyboard : Keyboard} {few more : List UInt8} : Padded keyboard few more →
      Padded keyboard few (0 :: more)
  | held {keyboard : Keyboard} {few more : List UInt8} {scancode : UInt8} :
      releases scancode = false → keyboard.keyStates (keyOf scancode) = true →
      Padded keyboard few more → Padded keyboard few (scancode :: more)
  | cons {keyboard : Keyboard} {few more : List UInt8} {scancode : UInt8} :
      Padded (keyboard.after scancode) few more →
        Padded keyboard (scancode :: few) (scancode :: more)

/-- A make code of a key that is held changes nothing. -/
theorem keyStep_held (down : releases scancode = false)
    (held : keyboard.keyStates (keyOf scancode) = true) :
    keyStep maxLength secret color scancode line screen keyboard =
    .ok (false, line, screen, keyboard) := by
  have none : keyboard.press scancode = none := by simp [Keyboard.press, held]
  have same : keyboard.after scancode = keyboard := by
    unfold Keyboard.after
    simp [down, held]
  rw [keyStep_of_none none, same]

theorem keyStep_keyboard {ended : Bool} {line' : Line} {screen' : Screen} {keyboard' : Keyboard}
    (returned : keyStep maxLength secret color scancode line screen keyboard =
    .ok (ended, line', screen', keyboard')) :
    keyboard' = keyboard.after scancode := by
  cases pressed : keyboard.press scancode with
  | none =>
      rw [keyStep_of_none pressed] at returned
      simp only [Except.ok.injEq, Prod.mk.injEq] at returned
      exact returned.2.2.2.symm
  | some p =>
      rw [keyStep_of_press pressed] at returned
      cases stepped : pressStep maxLength secret color p line screen with
      | error f =>
          rw [stepped] at returned
          cases returned
      | ok after =>
          rw [stepped] at returned
          simp only [Except.map, Except.ok.injEq, Prod.mk.injEq] at returned
          exact returned.2.2.2.symm

/-- They change neither the result nor the screen nor the keyboard. -/
theorem keyLoop_padded {few more : List UInt8} (padded : Padded keyboard few more)
    (maxLength : UInt16) (secret : Bool) (color : UInt8) (line : Line) (screen : Screen) :
    let run := keyLoop maxLength secret color few line screen keyboard
    let run' := keyLoop maxLength secret color more line screen keyboard
    run'.1 = run.1 ∧ run'.2.screen = run.2.screen ∧ run'.2.keyboard = run.2.keyboard := by
  induction padded generalizing line screen with
  | nil => exact ⟨rfl, rfl, rfl⟩
  | @zero keyboard few more padded ih => exact ih line screen
  | @held keyboard few more scancode down held _ ih =>
      have skip : keyLoop maxLength secret color (scancode :: more) line screen keyboard =
          keyLoop maxLength secret color more line screen keyboard := by
        rw [keyLoop, keyStep_held down held]
      rw [skip]
      exact ih line screen
  | @cons keyboard few more scancode _ ih =>
      rw [keyLoop, keyLoop]
      cases step : keyStep maxLength secret color scancode line screen keyboard with
      | error f => exact ⟨rfl, rfl, rfl⟩
      | ok after =>
          obtain ⟨ended, line', screen', keyboard'⟩ := after
          obtain rfl := keyStep_keyboard step
          cases ended with
          | true => exact ⟨rfl, rfl, rfl⟩
          | false => exact ih line' screen'

/-- No edit puts a zero into the text. -/
theorem zero_notMem_edit {room : Nat} (plain : 0 ∉ text) : 0 ∉ p.edit room text := by
  unfold Press.edit
  split
  · exact fun member => plain (List.mem_of_mem_dropLast member)
  split
  · rename_i char
    rw [List.mem_append, List.mem_singleton]
    rintro (old | new)
    · exact plain old
    · exact char.1 new.symm
  · exact plain

theorem zero_notMem_edited {room : Nat} {presses : List Press} (plain : 0 ∉ text) :
    0 ∉ edited room text presses := by
  induction presses generalizing text with
  | nil => exact plain
  | cons p rest ih => exact ih (zero_notMem_edit plain)

/-- `read_str` waits for more keys, or it leaves the next line, as it has been edited, in the
    array. -/
theorem readStr_outcome {buffer : List UInt8} {maxLength : UInt16} (positive : 1 ≤ maxLength.toNat)
    (array : maxLength.toNat ≤ buffer.length) (secret : Bool) (color : UInt8) (console : Console) :
    (typedLines console.presses = [] ∧
      ∃ console', readStr buffer maxLength secret color (some []) console =
      (.error .waiting, console')) ∨ ∃ presses junk console',
      let text := edited (maxLength.toNat - 1) [] presses
      readStr buffer maxLength secret color (some []) console =
        (.ok (text ++ 0 :: junk), console') ∧
        0 ∉ text ∧ text.length + 1 ≤ maxLength.toNat ∧ (text ++ 0 :: junk).length = buffer.length ∧
        typedLines console.presses = presses :: typedLines console'.presses := by
  obtain ⟨line, screen, began, holds⟩ :=
    baseLoop_holds positive array secret color [] console.screen
  have entered : readStr buffer maxLength secret color (some []) console =
      keyLoop maxLength secret color console.scancodes line screen console.keyboard := by
    unfold readStr
    rw [Option.getD_some, began]
  rw [List.take_nil] at holds
  rcases keyLoop_holds array holds secret color console.scancodes screen console.keyboard with
    ⟨never, console', waits⟩ | ⟨-, line', console', returns, same, lines⟩
  · exact .inl ⟨typedLines_of_noEnter never, console', entered.trans waits⟩
  · obtain ⟨junk, stored⟩ := same.stored
    have size := same.size
    rw [stored] at returns size
    exact .inr ⟨_, junk, console', entered.trans returns, zero_notMem_edited List.not_mem_nil,
      same.bounded, size, lines⟩

/-- `read_str` holds the line within its array in every round, and when Enter is pressed the
    array holds the base value, cut to the room there is, with the edits of the presses
    before.  Zeros and repeated make codes in between make no difference. -/
theorem readStr_edits (buffer : List UInt8) (maxLength : UInt16) (secret : Bool) (color : UInt8)
    (baseValue : Option (List UInt8)) (screen : Screen) (keyboard : Keyboard)
    (scancodes : List UInt8) (positive : 1 ≤ maxLength.toNat)
    (array : maxLength.toNat ≤ buffer.length) (string : 0 ∉ baseValue.getD []) :
    let room := maxLength.toNat - 1
    let base := (baseValue.getD []).take room
    let result := readStr buffer maxLength secret color baseValue ⟨screen, keyboard, scancodes⟩
    (∃ line screen', baseLoop maxLength secret color (baseValue.getD []) ⟨buffer, 0⟩ screen =
      .ok (line, screen') ∧
      ∀ trace t, Run (Round maxLength secret color) ⟨line, screen', keyboard⟩ trace t →
        t.line.length ≤ maxLength.toNat - 1 ∧ t.line.buffer[t.line.length]? = some 0 ∧
        t.line.buffer.length = buffer.length ∧
        t.line.buffer.drop maxLength.toNat = buffer.drop maxLength.toNat ∧
        cString t.line.buffer = edited room base (presses keyboard (trace.map Prod.snd)) ∧
        ∀ scancode, ∃ after,
        keyStep maxLength secret color scancode t.line t.screen t.keyboard = .ok after) ∧
    ((∀ p ∈ presses keyboard scancodes, ¬ p.enter) → result.1 = .error .waiting) ∧
    ((∃ p ∈ presses keyboard scancodes, p.enter) → ∃ line, result.1 = .ok line ∧
      line.length = buffer.length ∧ line.drop maxLength.toNat = buffer.drop maxLength.toNat ∧
      cString line = edited room base (beforeEnter (presses keyboard scancodes))) ∧
    ∀ more, Padded keyboard scancodes more →
      let result' := readStr buffer maxLength secret color baseValue ⟨screen, keyboard, more⟩
      result'.1 = result.1 ∧ result'.2.screen = result.2.screen ∧
        result'.2.keyboard = result.2.keyboard := by
  intro room base result
  obtain ⟨line, screen', began, holds⟩ :=
    baseLoop_holds positive array secret color (baseValue.getD []) screen
  have plain : 0 ∉ base := fun member => string (List.mem_of_mem_take member)
  have entered : ∀ codes,
      readStr buffer maxLength secret color baseValue ⟨screen, keyboard, codes⟩ =
      keyLoop maxLength secret color codes line screen' keyboard := by
    intro codes
    rw [readStr, began]
  have outcome := keyLoop_holds array holds secret color scancodes screen' keyboard
  rw [← entered] at outcome
  refine ⟨⟨line, screen', began, ?_⟩, ?_, ?_, ?_⟩
  · intro trace t run
    obtain ⟨_, here⟩ := rounds_hold array holds run
    have bounded := here.bounded
    rw [← here.length] at bounded
    refine ⟨by omega, here.ended, here.size, here.beyond,
      here.cString (zero_notMem_edited plain), ?_⟩
    intro scancode
    obtain ⟨line', screen'', ⟨step, _⟩ | ⟨step, _⟩⟩ :=
      keyStep_holds array here secret color scancode t.screen t.keyboard
    · exact ⟨_, step⟩
    · exact ⟨_, step⟩
  · intro never
    rcases outcome with ⟨_, console, waits⟩ | ⟨⟨p, pressed, enter⟩, _⟩
    · exact congrArg Prod.fst waits
    · exact absurd enter (never p pressed)
  · rintro ⟨p, pressed, enter⟩
    rcases outcome with ⟨never, _⟩ | ⟨_, line', console, returns, same, -⟩
    · exact absurd enter (never p pressed)
    · refine ⟨line'.buffer, congrArg Prod.fst returns, same.size, same.beyond, ?_⟩
      exact same.cString (zero_notMem_edited plain)
  · intro more padded
    simp only [result, entered]
    exact keyLoop_padded padded maxLength secret color line screen'

/-- The characters a, b and c are typed with the key of a held for long, and c is erased. -/
theorem readStr_edits_typed :
    let keyboard : Keyboard := ⟨false, false, fun _ => false⟩
    let codes : List UInt8 := [0x1E, 0x30, 0x2E, 0x0E, 0x1C]
    let held : List UInt8 := [0x1E, 0x1E, 0, 0x30, 0x2E, 0x0E, 0x1C]
    let read :=
      fun scancodes => readStr [7, 7, 7, 7, 7] 4 false 7 none ⟨⟨fun _ => 0, 0⟩, keyboard, scancodes⟩
    (∃ line, (read codes).1 = .ok line ∧ cString line = [97, 98]) ∧
      (read held).1 = (read codes).1 := by
  intro keyboard codes held read
  obtain ⟨-, -, typed, same⟩ := readStr_edits [7, 7, 7, 7, 7] 4 false 7 none
    ⟨fun _ => 0, 0⟩ keyboard codes
    (by decide) (by decide) (by decide)
  have decoded : presses keyboard codes =
      [⟨0x1E, false⟩, ⟨0x30, false⟩, ⟨0x2E, false⟩, ⟨0x0E, false⟩, ⟨0x1C, false⟩] := by
    decide +kernel
  constructor
  · obtain ⟨line, returned, _, _, text⟩ := typed ⟨⟨0x1C, false⟩, by rw [decoded]; simp, by decide⟩
    refine ⟨line, returned, text.trans ?_⟩
    rw [decoded]
    decide +kernel
  · refine (same held ?_).1
    refine .cons (.held (by decide) (by decide +kernel) (.zero ?_))
    exact .cons (.cons (.cons (.cons (.nil _))))

end AurorOS.Devices
