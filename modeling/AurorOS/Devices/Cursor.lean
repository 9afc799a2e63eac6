import AurorOS.Devices.Screen
import AurorOS.Lib.Runs

/-! # The cursor

Calls that print, erase and clear, one after the other, with the positions of the video
memory that they use and those of the buffer that `printct` copies its text to.
-/

namespace AurorOS.Devices

open Screen Runs

/-- The calls that move the cursor, with their arguments. -/
inductive ScreenCall where
  | printchar (c color : UInt8)
  | printstr (str : List UInt8) (color : UInt8)
  | delchar
  | clearscreen
  | paintscreen (color : UInt8)
  | clearline (line : UInt16)
  | paintline (line : UInt16) (color : UInt8)
  | printct (str : List UInt8) (color : UInt8)

namespace ScreenCall

def run : ScreenCall → Screen → Except Fault Screen
  | printchar c color, s => .ok (s.printchar c color)
  | printstr str color, s => .ok (s.printstr str color)
  | delchar, s => .ok s.delchar
  | clearscreen, s => .ok s.clearscreen
  | paintscreen color, s => .ok (s.paintscreen color)
  | clearline line, s => .ok (s.clearline line)
  | paintline line color, s => .ok (s.paintline line color)
  | printct str color, s => s.printct str color

end ScreenCall

/-- The positions of a row. -/
def rowIndices (row : Nat) : List Nat := (List.range 80).map (row * 80 + ·)

/-- A row takes what is in the next one, and the last row is filled. -/
def scrollIndices : List Nat :=
  ((List.range 24).flatMap fun row => rowIndices row ++ rowIndices (row + 1)) ++ rowIndices 24

def printcharIndices (c : UInt8) (s : Screen) : List Nat :=
  let next := if c = 10 then s.cursorPos + (screenWidth - s.cursorPos % screenWidth)
    else s.cursorPos + 1
  (if c = 10 then [] else [s.cursorPos.toNat]) ++ if next ≥ screenWidth * screenHeight then
    scrollIndices else []

def printstrIndices : List UInt8 → UInt8 → Screen → List Nat
  | [], _, _ => []
  | c :: rest, color, s => printcharIndices c s ++ printstrIndices rest color (s.printchar c color)

def lineIndices (line : UInt16) : List Nat :=
  if line ≥ screenHeight then [] else rowIndices line.toNat

/-- Where `printct` puts its text. -/
def printctIndices (str : List UInt8) (s : Screen) : List Nat :=
  let length := min str.length 80
  let start := s.cursorPos / screenWidth * screenWidth + UInt16.ofNat ((80 - length) / 2)
  (List.range length).map fun i => (start + UInt16.ofNat i).toNat

/-- The positions of the video memory that a call uses. -/
def ScreenCall.videoIndices : ScreenCall → Screen → List Nat
  | printchar c _, s => printcharIndices c s
  | printstr str color, s => printstrIndices str color s
  | delchar, s => [(if s.cursorPos > 0 then s.cursorPos - 1 else s.cursorPos).toNat]
  | clearscreen, _ => List.range (25 * 80)
  | paintscreen _, _ => List.range (25 * 80)
  | clearline line, _ => lineIndices line
  | paintline line _, _ => lineIndices line
  | printct str _, s => printctIndices str s

/-- The positions of `temp` that a call writes to: `strcpy` writes the terminator, too. -/
def ScreenCall.tempIndices : ScreenCall → List Nat
  | printct str _ => List.range (str.length + 1)
  | _ => []

/-- A call comes back with the cursor on the screen, and it has used the video memory and
    `temp` within their bounds. -/
def ScreenCall.Safe (s : Screen) (call : ScreenCall) : Prop :=
  (∃ t, call.run s = .ok t ∧ t.cursorPos < screenWidth * screenHeight) ∧
    (∀ i ∈ call.videoIndices s, i < 80 * 25) ∧ ∀ i ∈ call.tempIndices, i < 81

/-- A text for `printct` is at most a line, and shorter in the last row. -/
def ScreenCall.Fits (s : Screen) : ScreenCall → Prop
  | printct str _ => str.length ≤ 80 ∧
      ¬ (str.length = 80 ∧ s.cursorPos / screenWidth = screenHeight - 1)
  | _ => True

variable {s t : Screen} {c color : UInt8} {str : List UInt8} {line : UInt16} {i : Nat}

theorem mem_rowIndices {row : Nat} : i ∈ rowIndices row ↔ row * 80 ≤ i ∧ i < row * 80 + 80 := by
  simp only [rowIndices, List.mem_map, List.mem_range]
  constructor
  · rintro ⟨col, inside, rfl⟩
    omega
  · intro bounds
    exact ⟨i - row * 80, by omega, by omega⟩

theorem scrollIndices_lt (member : i ∈ scrollIndices) : i < 80 * 25 := by
  simp only [scrollIndices, List.mem_append, List.mem_flatMap, List.mem_range,
    mem_rowIndices] at member
  rcases member with ⟨row, inside, here | next⟩ | last
  · omega
  · omega
  · omega

theorem lineIndices_lt (member : i ∈ lineIndices line) : i < 80 * 25 := by
  unfold lineIndices at member
  split at member
  · cases member
  · rename_i small
    have small : line.toNat < 25 := UInt16.lt_iff_toNat_lt.mp (UInt16.not_le.mp small)
    rw [mem_rowIndices] at member
    omega

/-- The cursor is on the screen. -/
def Screen.Inside (s : Screen) : Prop := s.cursorPos < screenWidth * screenHeight

theorem inside_iff : s.Inside ↔ s.cursorPos.toNat < 2000 := UInt16.lt_iff_toNat_lt

theorem not_inside : s.cursorPos ≥ screenWidth * screenHeight ↔ 2000 ≤ s.cursorPos.toNat :=
  UInt16.le_iff_toNat_le

theorem scroll_inside (s : Screen) : s.scroll.Inside := by
  have last : s.scroll.cursorPos = 1920 := rfl
  rw [inside_iff, last]
  decide

/-- A character is put at the cursor, which may then be past the last cell. -/
def Screen.put (c color : UInt8) (s : Screen) : Screen :=
  if c = 10 then { s with cursorPos := s.cursorPos + (screenWidth - s.cursorPos % screenWidth) }
  else
    { videoMemory := Function.update s.videoMemory s.cursorPos.toNat (cell color c)
      cursorPos := s.cursorPos + 1 }

theorem printchar_eq (c color : UInt8) (s : Screen) : s.printchar c color =
    if (s.put c color).cursorPos ≥ screenWidth * screenHeight then (s.put c color).scroll
      else s.put c color := rfl

theorem printchar_inside (c color : UInt8) (s : Screen) : (s.printchar c color).Inside := by
  rw [printchar_eq]
  generalize s.put c color = t
  by_cases past : t.cursorPos ≥ screenWidth * screenHeight
  · rw [if_pos past]
    exact scroll_inside t
  · rw [if_neg past]
    exact UInt16.not_le.mp past

theorem printstr_inside (str : List UInt8) (color : UInt8) (inside : s.Inside) :
    (s.printstr str color).Inside := by
  induction str generalizing s with
  | nil => exact inside
  | cons c rest ih => exact ih (printchar_inside c color s)

theorem printcharIndices_lt (inside : s.Inside) (member : i ∈ printcharIndices c s) :
    i < 80 * 25 := by
  rw [inside_iff] at inside
  unfold printcharIndices at member
  dsimp only at member
  rcases List.mem_append.mp member with cell | scrolled
  · by_cases newline : c = 10
    · rw [if_pos newline] at cell
      cases cell
    · rw [if_neg newline, List.mem_singleton] at cell
      omega
  · generalize (if c = 10 then _ else _ : UInt16) = next at scrolled
    by_cases past : next ≥ screenWidth * screenHeight
    · rw [if_pos past] at scrolled
      exact scrollIndices_lt scrolled
    · rw [if_neg past] at scrolled
      cases scrolled

theorem printstrIndices_lt (inside : s.Inside) (member : i ∈ printstrIndices str color s) :
    i < 80 * 25 := by
  induction str generalizing s with
  | nil => cases member
  | cons c rest ih =>
      rcases List.mem_append.mp member with first | later
      · exact printcharIndices_lt inside first
      · exact ih (printchar_inside c color s) later

theorem delchar_inside (inside : s.Inside) : s.delchar.Inside := by
  rw [inside_iff] at inside ⊢
  unfold delchar
  dsimp only
  split
  · rename_i some
    have some : 0 < s.cursorPos.toNat := UInt16.lt_iff_toNat_lt.mp some
    have one : (1 : UInt16) ≤ s.cursorPos := UInt16.le_iff_toNat_le.mpr some
    rw [UInt16.toNat_sub_of_le _ _ one]
    omega
  · exact inside

/-- A row is painted, and the cursor goes to its start if it is in it. -/
theorem line_inside (inside : s.Inside) (color : UInt8) :
    (if line ≥ screenHeight then s
      else
        let t := s.fill (line.toNat * 80) 80 (blank color)
        if t.cursorPos / screenWidth = line then { t with cursorPos := line * screenWidth }
          else t).Inside := by
  split
  · exact inside
  · rename_i small
    have small : line.toNat < 25 := UInt16.lt_iff_toNat_lt.mp (UInt16.not_le.mp small)
    dsimp only
    split
    · have width : screenWidth.toNat = 80 := rfl
      have row : line.toNat * 80 < 2 ^ 16 := by omega
      rw [inside_iff, UInt16.toNat_mul, width, Nat.mod_eq_of_lt row]
      omega
    · exact inside

/-- Where a centred text of `length` characters starts. -/
def centre (s : Screen) (length : Nat) : UInt16 :=
  s.cursorPos / screenWidth * screenWidth + UInt16.ofNat ((80 - length) / 2)

/-- Characters in the cells from the cursor on, whatever row they are in. -/
def Screen.putAll (str : List UInt8) (color : UInt8) (s : Screen) : Screen :=
  str.foldl (fun s c =>
    { videoMemory := Function.update s.videoMemory s.cursorPos.toNat (cell color c),
      cursorPos := s.cursorPos + 1 }) s

theorem cursorPos_putAll (str : List UInt8) (color : UInt8) (s : Screen) :
    (s.putAll str color).cursorPos = s.cursorPos + UInt16.ofNat str.length := by
  induction str generalizing s with
  | nil => exact (UInt16.add_zero s.cursorPos).symm
  | cons c rest ih =>
      have one : UInt16.ofNat (rest.length + 1) = UInt16.ofNat rest.length + 1 :=
        UInt16.ofNat_add _ _
      rw [List.length_cons, one]
      refine (ih _).trans ?_
      rw [UInt16.add_assoc, UInt16.add_comm 1]

theorem printct_of_le (short : str.length ≤ 80) :
    s.printct str color = .ok ({ s with cursorPos := centre s str.length }.putAll str color) :=
    if_pos short

/-- On the screen the positions of a centred text do not wrap around. -/
theorem toNat_centre_add (inside : s.Inside) {length : Nat} (short : length ≤ 80) (i : Nat)
    (within : i ≤ length) :
    (centre s length + UInt16.ofNat i).toNat = s.cursorPos.toNat / 80 * 80 + (80 - length) / 2 +
    i := by
  rw [inside_iff] at inside
  have width : screenWidth.toNat = 80 := rfl
  have row : s.cursorPos.toNat / 80 * 80 < 2 ^ 16 := by omega
  have col : (80 - length) / 2 < 2 ^ 16 := by omega
  have more : i < 2 ^ 16 := by omega
  have start : s.cursorPos.toNat / 80 * 80 + (80 - length) / 2 < 2 ^ 16 := by omega
  rw [centre, UInt16.toNat_add, UInt16.toNat_add, UInt16.toNat_mul, UInt16.toNat_div, width,
    UInt16.toNat_ofNat_of_lt' col, UInt16.toNat_ofNat_of_lt' more, Nat.mod_eq_of_lt row,
    Nat.mod_eq_of_lt start, Nat.mod_eq_of_lt (by omega)]

/-- `printct` keeps within its bounds for the texts that fit. -/
theorem printct_safe_iff (inside : s.Inside) (str : List UInt8) (color : UInt8) :
    (ScreenCall.printct str color).Safe s ↔ (ScreenCall.printct str color).Fits s := by
  have place := inside_iff.mp inside
  have lastRow : s.cursorPos / screenWidth = screenHeight - 1 ↔ s.cursorPos.toNat / 80 = 24 := by
    rw [← UInt16.toNat_inj, UInt16.toNat_div]
    exact Iff.rfl
  constructor
  · rintro ⟨⟨t, returned, after⟩, _, temp⟩
    have short : str.length ≤ 80 := by
      have last := temp str.length (by simp [ScreenCall.tempIndices])
      omega
    refine ⟨short, ?_⟩
    rintro ⟨full, row⟩
    rw [lastRow] at row
    rw [ScreenCall.run, printct_of_le short] at returned
    have same := Except.ok.inj returned
    have behind := toNat_centre_add inside short str.length le_rfl
    have off : t.Inside := after
    rw [inside_iff, ← same, cursorPos_putAll] at off
    dsimp only at off
    omega
  · rintro ⟨short, room⟩
    rw [lastRow] at room
    have behind := toNat_centre_add inside short str.length le_rfl
    refine ⟨⟨_, printct_of_le short, ?_⟩, ?_, ?_⟩
    · refine inside_iff.mpr ?_
      rw [cursorPos_putAll]
      dsimp only
      omega
    · intro i member
      simp only [ScreenCall.videoIndices, printctIndices, List.mem_map, List.mem_range,
        min_eq_left short] at member
      obtain ⟨j, before, rfl⟩ := member
      have there := toNat_centre_add inside short j (by omega)
      rw [centre] at there
      omega
    · intro i member
      simp only [ScreenCall.tempIndices, List.mem_range] at member
      omega

theorem mem_scrollIndices (inside : i < 25 * 80) : i ∈ scrollIndices := by
  have here : i ∈ rowIndices (i / 80) := mem_rowIndices.mpr (by omega)
  by_cases last : i / 80 = 24
  · exact List.mem_append_right _ (last ▸ here)
  · refine List.mem_append_left _ (List.mem_flatMap.mpr ⟨i / 80, List.mem_range.mpr (by omega), ?_⟩)
    exact List.mem_append_left _ here

theorem put_changes (elsewhere : i ∉ if c = 10 then [] else [s.cursorPos.toNat]) :
    (s.put c color).videoMemory i = s.videoMemory i := by
  rw [put]
  split
  · rfl
  · rename_i letter
    rw [if_neg letter, List.mem_singleton] at elsewhere
    exact Function.update_of_ne elsewhere _ _

theorem printchar_changes (elsewhere : i ∉ printcharIndices c s) :
    (s.printchar c color).videoMemory i = s.videoMemory i := by
  have next : (s.put c color).cursorPos =
      if c = 10 then s.cursorPos + (screenWidth - s.cursorPos % screenWidth)
        else s.cursorPos + 1 := by
    rw [put]
    split <;> rfl
  rw [printcharIndices, ← next, List.mem_append, not_or] at elsewhere
  obtain ⟨notCell, notScrolled⟩ := elsewhere
  rw [printchar_eq]
  split
  · rename_i past
    rw [if_pos past] at notScrolled
    have outside : ¬ i < 25 * 80 := fun inside => notScrolled (mem_scrollIndices inside)
    rw [scroll]
    dsimp only
    rw [if_neg (by omega), if_neg outside]
    exact put_changes notCell
  · exact put_changes notCell

theorem printstr_changes (elsewhere : i ∉ printstrIndices str color s) :
    (s.printstr str color).videoMemory i = s.videoMemory i := by
  induction str generalizing s with
  | nil => rfl
  | cons c rest ih =>
      rw [printstrIndices, List.mem_append, not_or] at elsewhere
      exact (ih elsewhere.2).trans (printchar_changes elsewhere.1)

theorem putAll_changes (elsewhere : ∀ j < str.length, i ≠ (s.cursorPos + UInt16.ofNat j).toNat) :
    (s.putAll str color).videoMemory i = s.videoMemory i := by
  induction str generalizing s with
  | nil => rfl
  | cons c rest ih =>
      have first : i ≠ s.cursorPos.toNat := by
        have zero : i ≠ (s.cursorPos + 0).toNat := elsewhere 0 (Nat.zero_lt_succ _)
        rwa [UInt16.add_zero] at zero
      refine (ih fun j inside => ?_).trans (Function.update_of_ne first _ _)
      have next := elsewhere (j + 1) (Nat.succ_lt_succ inside)
      rwa [UInt16.ofNat_add, UInt16.add_comm (UInt16.ofNat j), ← UInt16.add_assoc] at next

theorem fill_changes {start count : Nat} {value : UInt16}
    (elsewhere : ¬ (start ≤ i ∧ i < start + count)) :
    (s.fill start count value).videoMemory i = s.videoMemory i := if_neg elsewhere

theorem line_changes (elsewhere : i ∉ lineIndices line) (color : UInt8) :
    (if line ≥ screenHeight then s
      else
        let t := s.fill (line.toNat * 80) 80 (blank color)
        if t.cursorPos / screenWidth = line then { t with cursorPos := line * screenWidth }
          else t).videoMemory i =
      s.videoMemory i := by
  rw [lineIndices] at elsewhere
  split
  · rfl
  · rename_i small
    rw [if_neg small, mem_rowIndices] at elsewhere
    dsimp only
    split <;> exact fill_changes elsewhere

theorem screen_changes (elsewhere : i ∉ List.range (25 * 80)) (color : UInt8) :
    (s.fill 0 (25 * 80) (blank color)).videoMemory i = s.videoMemory i := by
  refine fill_changes fun inside => elsewhere ?_
  rw [List.mem_range]
  omega

/-- A call changes the positions of the video memory that it is said to use, and no others. -/
theorem ScreenCall.run_changes {call : ScreenCall} (returned : call.run s = .ok t)
    (elsewhere : i ∉ call.videoIndices s) : t.videoMemory i = s.videoMemory i := by
  cases call with
  | printchar c color =>
      obtain rfl := Except.ok.inj returned
      exact printchar_changes elsewhere
  | printstr str color =>
      obtain rfl := Except.ok.inj returned
      exact printstr_changes elsewhere
  | delchar =>
      obtain rfl := Except.ok.inj returned
      exact Function.update_of_ne (fun same => elsewhere (List.mem_singleton.mpr same)) _ _
  | clearscreen =>
      obtain rfl := Except.ok.inj returned
      exact screen_changes elsewhere 0x07
  | paintscreen color =>
      obtain rfl := Except.ok.inj returned
      exact screen_changes elsewhere color
  | clearline line =>
      obtain rfl := Except.ok.inj returned
      exact line_changes elsewhere 0x07
  | paintline line color =>
      obtain rfl := Except.ok.inj returned
      exact line_changes elsewhere color
  | printct str color =>
      have short : str.length ≤ 80 := by
        by_contra long
        rw [ScreenCall.run, Screen.printct, if_neg long] at returned
        cases returned
      rw [ScreenCall.run, printct_of_le short] at returned
      obtain rfl := Except.ok.inj returned
      refine putAll_changes fun j inside same => elsewhere ?_
      rw [ScreenCall.videoIndices, printctIndices, min_eq_left short]
      exact List.mem_map.mpr ⟨j, List.mem_range.mpr inside, same.symm⟩

/-- The call faults exactly if it writes behind `temp`. -/
theorem ScreenCall.run_error_iff {call : ScreenCall} :
    (∃ fault, call.run s = .error fault) ↔ ∃ i ∈ call.tempIndices, 81 ≤ i := by
  cases call with
  | printct str color =>
      simp only [ScreenCall.run, ScreenCall.tempIndices, Screen.printct, List.mem_range]
      split
      · refine iff_of_false (fun ⟨_, failed⟩ => ?_) (fun ⟨i, inside, past⟩ => ?_)
        · cases failed
        · omega
      · exact iff_of_true ⟨_, rfl⟩ ⟨81, by omega, le_rfl⟩
  | printchar _ _ | printstr _ _ | delchar | clearscreen | paintscreen _ | clearline _
  | paintline _ _ =>
      refine iff_of_false (fun ⟨_, failed⟩ => ?_) (fun ⟨_, member, _⟩ => ?_)
      · cases failed
      · cases member

/-- A call that comes back. -/
def ScreenCall.Step (s : Screen) (call : ScreenCall) (t : Screen) : Prop := call.run s = .ok t

theorem ScreenCall.safe_of_ok {call : ScreenCall} (returned : call.run s = .ok t) (after : t.Inside)
    (video : ∀ i ∈ call.videoIndices s, i < 80 * 25) (temp : call.tempIndices = []) :
    call.Safe s := by
  refine ⟨⟨t, returned, after⟩, video, ?_⟩
  rw [temp]
  nofun

/-- With the cursor on the screen a call is safe if and only if its text fits. -/
theorem ScreenCall.safe_iff (inside : s.Inside) (call : ScreenCall) :
    call.Safe s ↔ call.Fits s := by
  have start : (0 : UInt16) < screenWidth * screenHeight := by decide
  cases call with
  | printchar c color =>
      refine iff_of_true (ScreenCall.safe_of_ok rfl (printchar_inside c color s) ?_ rfl) trivial
      exact fun i => printcharIndices_lt inside
  | printstr str color =>
      refine iff_of_true (ScreenCall.safe_of_ok rfl (printstr_inside str color inside) ?_ rfl)
        trivial
      exact fun i => printstrIndices_lt inside
  | delchar =>
      refine iff_of_true (ScreenCall.safe_of_ok rfl (delchar_inside inside) ?_ rfl) trivial
      intro i member
      rw [List.mem_singleton.mp member]
      exact inside_iff.mp (delchar_inside inside)
  | clearscreen =>
      refine iff_of_true (ScreenCall.safe_of_ok rfl start ?_ rfl) trivial
      exact fun i => List.mem_range.mp
  | paintscreen color =>
      refine iff_of_true (ScreenCall.safe_of_ok rfl start ?_ rfl) trivial
      exact fun i => List.mem_range.mp
  | clearline line =>
      refine iff_of_true (ScreenCall.safe_of_ok rfl (line_inside inside 0x07) ?_ rfl) trivial
      exact fun i => lineIndices_lt
  | paintline line color =>
      refine iff_of_true (ScreenCall.safe_of_ok rfl (line_inside inside color) ?_ rfl) trivial
      exact fun i => lineIndices_lt
  | printct str color => exact printct_safe_iff inside str color

theorem ScreenCall.Safe.inside {call : ScreenCall} (safe : call.Safe s)
    (step : call.Step s t) : t.Inside := by
  obtain ⟨⟨u, returned, after⟩, _⟩ := safe
  rw [ScreenCall.Step, returned] at step
  cases step
  exact after

/-- In a run of safe calls, and in one of calls that fit, the cursor stays on the screen. -/
theorem ScreenCall.run_inside {trace : List (Screen × ScreenCall)} {screen : Screen}
    (run : Run ScreenCall.Step screen.clearscreen trace t)
    (every : EveryStep ScreenCall.Safe trace ∨ EveryStep ScreenCall.Fits trace) :
    Always Screen.Inside trace t := by
  have start : screen.clearscreen.Inside := (by decide : (0 : UInt16) < screenWidth * screenHeight)
  rcases every with safe | fits
  · exact run.always_of_steps (fun _ _ _ _ safe step => safe.inside step) start safe
  · refine run.always_of_steps (fun _ call _ inside fits step => ?_) start fits
    exact ((call.safe_iff inside).mpr fits).inside step

/-- From `clearscreen` on, all calls and one more are safe if and only if their texts fit. -/
theorem calls_safe_iff (screen t : Screen) (trace : List (Screen × ScreenCall)) (call : ScreenCall)
    (run : Run ScreenCall.Step screen.clearscreen trace t) :
    (EveryStep ScreenCall.Safe trace ∧ call.Safe t) ↔
    (EveryStep ScreenCall.Fits trace ∧ call.Fits t) := by
  constructor
  · rintro ⟨every, last⟩
    obtain ⟨inside, here⟩ := ScreenCall.run_inside run (.inl every)
    refine ⟨fun entry member => ?_, (call.safe_iff here).mp last⟩
    exact (entry.2.safe_iff (inside entry member)).mp (every entry member)
  · rintro ⟨every, last⟩
    obtain ⟨inside, here⟩ := ScreenCall.run_inside run (.inr every)
    refine ⟨fun entry member => ?_, (call.safe_iff here).mpr last⟩
    exact (entry.2.safe_iff (inside entry member)).mpr (every entry member)

/-- The screen before the first call. -/
def dark : Screen := ⟨fun _ => 0, 0⟩

/-- Twenty-four newlines after `clearscreen`. -/
def lastRow : Screen := dark.clearscreen.printstr (List.replicate 24 10) 0x07

theorem calls_safe_iff_last_row :
    (EveryStep ScreenCall.Safe [(dark.clearscreen, .printstr (List.replicate 24 10) 0x07)] ∧
        (ScreenCall.printct (List.replicate 79 120) 0x07).Safe lastRow) ↔
      (EveryStep ScreenCall.Fits [(dark.clearscreen, .printstr (List.replicate 24 10) 0x07)] ∧
        (ScreenCall.printct (List.replicate 79 120) 0x07).Fits lastRow) :=
  calls_safe_iff dark lastRow [(dark.clearscreen, .printstr (List.replicate 24 10) 0x07)]
    (.printct (List.replicate 79 120) 0x07) (Run.single rfl)

/-- In the last row a text of 80 characters puts the cursor behind the last cell, and a longer
    text does not fit into `temp` anywhere. -/
theorem calls_not_safe :
    (Run ScreenCall.Step dark.clearscreen
      [(dark.clearscreen, .printstr (List.replicate 24 10) 0x07)] lastRow ∧
      ∃ t, (ScreenCall.printct (List.replicate 80 120) 0x07).run lastRow = .ok t ∧
      t.cursorPos = 80 * 25) ∧
    81 ∈ (ScreenCall.printct (List.replicate 81 120) 0x07).tempIndices := by
  refine ⟨⟨Run.single rfl, _, rfl, ?_⟩, ?_⟩
  · decide +kernel
  · simp [ScreenCall.tempIndices]

end AurorOS.Devices
