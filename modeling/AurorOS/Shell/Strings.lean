import AurorOS.Numbers.Conversions

/-! # Strings in arrays

`split_str` cuts the text of an array into tokens where it stands, and `strcat` appends to
the text of an array.  A pointer into an array is its offset.
-/

namespace AurorOS.Shell

open Devices Lines Numbers Outcome

/-- What `split_str` returns, what it has stored to `result`, and the array afterwards. -/
structure Split where
  count : Int
  result : List Nat
  str : List UInt8

/-- A token at `pos` in front of what is found behind it; `passed` are its characters and
    the terminator that is stored behind them. -/
def Split.before (pos : Nat) (passed : List UInt8) (s : Split) : Split where
  count := if s.count < 0 then s.count else s.count + 1
  result := pos :: s.result
  str := passed ++ s.str

/-- `split_str` from the offset `pos` on, where `str` is what the array holds from there and
    `left` more tokens are allowed. -/
def splitStr (separator : UInt8) : Nat → Nat → List UInt8 → Except Fault Split
  | 0, _, str => do
      if (← loadAt str 0) = 0 then return ⟨0, [], str⟩
      return ⟨-1, [], str⟩
  | left + 1, pos, str => do
      if (← loadAt str 0) = 0 then return ⟨0, [], str⟩
      let length := (str.takeWhile fun c => c ≠ separator ∧ c ≠ 0).length
      if (← loadAt str length) = separator then
        let rest ← splitStr separator left (pos + length + 1) (str.drop (length + 1))
        return rest.before pos (str.take length ++ [0])
      else
        let rest ← splitStr separator left (pos + length) (str.drop length)
        return rest.before pos (str.take length)

/-- The stores of `strcat`: the characters from `i` on, and a terminator. -/
def storeFrom (a : List UInt8) (i : Nat) : List UInt8 → Except Fault (List UInt8)
  | [] => storeAt a i 0
  | c :: rest => do storeFrom (← storeAt a i c) (i + 1) rest

/-- `strcat` to the text at the offset `dest`. -/
def strcat (a : List UInt8) (dest : Nat) (src : List UInt8) : Except Fault (List UInt8) :=
  storeFrom a (dest + (cString (a.drop dest)).length) src

section Appending

variable {text old src junk : List UInt8}

theorem storeFrom_overlay (src : List UInt8) (within : text.length ≤ old.length) :
    storeFrom (overlay text old) text.length src =
      if text.length + src.length < old.length then .ok (overlay (text ++ src ++ [0]) old)
      else .error .invalidAccess := by
  induction src generalizing text with
  | nil =>
      rw [storeFrom, List.length_nil, Nat.add_zero, List.append_nil]
      by_cases room : text.length < old.length
      · rw [if_pos room, storeAt_overlay room]
      · rw [if_neg room, storeAt, length_overlay within, if_neg room]
  | cons c rest ih =>
      rw [storeFrom]
      by_cases room : text.length < old.length
      · have more := @ih (text ++ [c]) (by rwa [List.length_append, List.length_singleton])
        rw [List.length_append, List.length_singleton, List.append_assoc text,
          List.singleton_append] at more
        refine (bind_of_ok (storeAt_overlay room c)).trans (more.trans ?_)
        rw [List.length_cons, Nat.add_assoc, Nat.add_comm 1]
      · have stop : storeAt (overlay text old) text.length c = .error .invalidAccess := by
          rw [storeAt, length_overlay within, if_neg room]
        rw [if_neg fun fits => room (by omega)]
        exact bind_of_error stop

theorem cString_of_ended (plain : 0 ∉ text) (junk : List UInt8) :
    cString (text ++ 0 :: junk) = text := by
  have read := cString_overlay plain (text ++ 0 :: junk)
  rw [overlay, List.length_append, List.length_singleton, List.drop_length_add_append] at read
  simpa using read

/-- What `strcat` leaves, if the array has room for it. -/
theorem strcat_eq (plain : 0 ∉ text) (junk src : List UInt8) :
    strcat (text ++ 0 :: junk) 0 src =
      if text.length + src.length < (text ++ 0 :: junk).length then
        .ok (overlay (text ++ src ++ [0]) (text ++ 0 :: junk))
      else .error .invalidAccess := by
  have same : overlay text (text ++ 0 :: junk) = text ++ 0 :: junk := by
    rw [overlay, List.drop_left]
  have stored := storeFrom_overlay src (List.sublist_append_left text (0 :: junk)).length_le
  rw [same] at stored
  rw [strcat, List.drop_zero, cString_of_ended plain, Nat.zero_add]
  exact stored

/-- A text that was laid over an array grows there. -/
theorem strcat_overlay (plain : 0 ∉ text) (fits : text.length < old.length) (src : List UInt8) :
    strcat (overlay (text ++ [0]) old) 0 src =
      if (text ++ src).length < old.length then .ok (overlay (text ++ src ++ [0]) old)
      else .error .invalidAccess := by
  have ended : overlay (text ++ [0]) old = text ++ 0 :: old.drop (text ++ [0]).length := by
    simp [overlay]
  have size : (overlay (text ++ [0]) old).length = old.length :=
    length_overlay (by simpa using fits)
  rw [ended] at size
  rw [ended, strcat_eq plain, size, ← ended, overlay_overlay (by simp), List.length_append]

end Appending

section Splitting

variable {separator : UInt8} {line text str junk : List UInt8} {left pos : Nat}

/-- A text whose tokens are all terminated. -/
def cut (separator : UInt8) (text : List UInt8) : List UInt8 :=
  text.map fun c => if c = separator then 0 else c

/-- Where tokens begin that stand one behind the other from `pos` on. -/
def starts : Nat → List (List UInt8) → List Nat
  | _, [] => []
  | pos, token :: more => pos :: starts (pos + token.length + 1) more

theorem cut_of_not_mem (noSep : separator ∉ line) : cut separator line = line := by
  refine (List.map_congr_left fun c member => if_neg ?_).trans (List.map_id line)
  rintro rfl
  exact noSep member

theorem cut_append (noSep : separator ∉ line) (rest : List UInt8) :
    cut separator (line ++ separator :: rest) = line ++ 0 :: cut separator rest := by
  rw [cut, List.map_append, List.map_cons, if_pos rfl, ← cut, ← cut, cut_of_not_mem noSep]

theorem length_cut (separator : UInt8) (text : List UInt8) :
    (cut separator text).length = text.length :=
  List.length_map _

/-- The inner loop of `split_str` stops behind the token. -/
theorem takeWhile_token {stop : UInt8} (noSep : separator ∉ line) (plain : 0 ∉ line)
    (ends : stop = separator ∨ stop = 0) (behind : List UInt8) :
    (line ++ stop :: behind).takeWhile (fun c => c ≠ separator ∧ c ≠ 0) = line := by
  have each : ∀ c ∈ line, decide (c ≠ separator ∧ c ≠ 0) = true := by
    intro c member
    refine decide_eq_true ⟨?_, ?_⟩
    · rintro rfl
      exact noSep member
    · rintro rfl
      exact plain member
  have last : decide (stop ≠ separator ∧ stop ≠ 0) = false := by
    refine decide_eq_false fun other => ?_
    rcases ends with same | same
    · exact other.1 same
    · exact other.2 same
  rw [List.takeWhile_append_of_pos each, List.takeWhile_cons, if_neg (by rw [last]; decide),
    List.append_nil]

theorem splitStr_end (separator : UInt8) (left pos : Nat) (junk : List UInt8) :
    splitStr separator left pos (0 :: junk) = .ok ⟨0, [], 0 :: junk⟩ := by
  cases left with
  | zero => rfl
  | succ left => rfl

theorem splitStr_full {c : UInt8} (other : c ≠ 0) (pos : Nat) (rest : List UInt8) :
    splitStr separator 0 pos (c :: rest) = .ok ⟨-1, [], c :: rest⟩ := by
  have first : loadAt (c :: rest) 0 = .ok c := rfl
  rw [splitStr]
  refine (bind_of_ok first).trans ?_
  rw [if_neg other]
  rfl

/-- A round of the outer loop. -/
theorem splitStr_round {stop : UInt8} (noSep : separator ∉ line) (plain : 0 ∉ line)
    (ends : stop = separator ∨ stop = 0) (more : line ≠ [] ∨ stop ≠ 0) (left pos : Nat)
    (behind : List UInt8) :
    splitStr separator (left + 1) pos (line ++ stop :: behind) =
      if stop = separator then (do
        let rest ← splitStr separator left (pos + line.length + 1) behind
        return rest.before pos (line ++ [0]))
      else (do
        let rest ← splitStr separator left (pos + line.length) (stop :: behind)
        return rest.before pos line) := by
  have first : ∃ c, loadAt (line ++ stop :: behind) 0 = .ok c ∧ c ≠ 0 := by
    cases line with
    | nil => exact ⟨stop, rfl, more.resolve_left fun some => some rfl⟩
    | cons c rest => exact ⟨c, rfl, fun zero => plain (zero ▸ List.mem_cons_self)⟩
  obtain ⟨c, loaded, other⟩ := first
  have tail : (line ++ stop :: behind).drop (line.length + 1) = behind := by
    rw [← List.drop_drop, List.drop_left, List.drop_one, List.tail_cons]
  rw [splitStr, takeWhile_token noSep plain ends]
  refine (bind_of_ok loaded).trans ?_
  rw [if_neg other]
  refine (bind_of_ok (loadAt_middle stop rfl)).trans ?_
  rw [List.take_left, List.drop_left, tail]

/-- Without room a text that is not empty is refused. -/
theorem splitStr_refuses (separator : UInt8) (some : text ≠ []) (plain : 0 ∉ text) (pos : Nat)
    (junk : List UInt8) :
    ∃ s, splitStr separator 0 pos (text ++ 0 :: junk) = .ok s ∧ s.count = -1 := by
  cases text with
  | nil => exact absurd rfl some
  | cons c rest =>
      exact ⟨_, splitStr_full (fun zero => plain (zero ▸ List.mem_cons_self)) pos _, rfl⟩

/-- `split_str` finds the lines of a text, with the separator for the newline, or refuses it. -/
theorem splitStr_eq (nonzero : separator ≠ 0) (plain : 0 ∉ text) (left pos : Nat)
    (junk : List UInt8) :
    ∃ s, splitStr separator left pos (text ++ 0 :: junk) = .ok s ∧
      if (lines separator text).length ≤ left then
        s = ⟨(lines separator text).length, starts pos (lines separator text),
        cut separator text ++ 0 :: junk⟩ else s.count = -1 := by
  induction text using induction_on_lines separator generalizing left pos with
  | nil => exact ⟨_, splitStr_end separator left pos junk, by simp [lines, starts, cut]⟩
  | last line some noSep =>
      rw [lines_last noSep, if_neg some, cut_of_not_mem noSep]
      cases left with
      | zero =>
          obtain ⟨s, ran, refused⟩ := splitStr_refuses separator some plain pos junk
          exact ⟨s, ran, by simpa using refused⟩
      | succ left =>
          have round := splitStr_round noSep plain (.inr rfl) (.inl some) left pos junk
          rw [if_neg (Ne.symm nonzero), splitStr_end] at round
          exact ⟨_, round, by simp [Split.before, starts]⟩
  | line line rest noSep ih =>
      have some : line ++ separator :: rest ≠ [] :=
        List.append_ne_nil_of_right_ne_nil line (List.cons_ne_nil _ _)
      rw [lines_append noSep, cut_append noSep, List.length_cons]
      cases left with
      | zero =>
          obtain ⟨s, ran, refused⟩ := splitStr_refuses separator some plain pos junk
          exact ⟨s, ran, by simpa using refused⟩
      | succ left =>
          simp only [List.mem_append, List.mem_cons, not_or] at plain
          obtain ⟨plain, -, behind⟩ := plain
          rw [List.append_assoc, List.cons_append]
          obtain ⟨s, ran, found⟩ := ih behind left (pos + line.length + 1)
          have round :=
            splitStr_round noSep plain (.inl rfl) (.inr nonzero) left pos (rest ++ 0 :: junk)
          rw [if_pos rfl] at round
          refine ⟨s.before pos (line ++ [0]), round.trans (bind_of_ok ran), ?_⟩
          by_cases few : (lines separator rest).length ≤ left
          · rw [if_pos few] at found
            rw [if_pos (Nat.succ_le_succ few), found]
            simp [Split.before, starts]
          · rw [if_neg few] at found
            rw [if_neg fun fits => few (Nat.le_of_succ_le_succ fits), Split.before, found]
            rfl

theorem mem_of_loadAt {c : UInt8} {i : Nat} (loaded : loadAt str i = .ok c) : c ∈ str := by
  rw [loadAt] at loaded
  split at loaded
  · rename_i found
    exact Except.ok.inj loaded ▸ List.mem_of_getElem? found
  · cases loaded

theorem Split.before_count {s : Split} (passed : List UInt8) (refused : s.count < 0) :
    (s.before pos passed).count < 0 := by
  rw [Split.before, if_pos refused]
  exact refused

/-- Without a terminator no end is found. -/
theorem splitStr_of_not_ended (plain : 0 ∉ str) {s : Split}
    (ran : splitStr separator left pos str = .ok s) :
    s.count < 0 := by
  induction left generalizing pos str s with
  | zero =>
      obtain ⟨c, loaded, rest⟩ := bind_eq_ok.mp ran
      have other : c ≠ 0 := fun zero => plain (zero ▸ mem_of_loadAt loaded)
      rw [if_neg other] at rest
      rw [← pure_eq_ok.mp rest]
      exact Int.negSucc_lt_zero 0
  | succ left ih =>
      obtain ⟨c, loaded, rest⟩ := bind_eq_ok.mp ran
      have other : c ≠ 0 := fun zero => plain (zero ▸ mem_of_loadAt loaded)
      rw [if_neg other] at rest
      obtain ⟨d, -, rest⟩ := bind_eq_ok.mp rest
      split at rest
      · obtain ⟨behind, ranOn, whole⟩ := bind_eq_ok.mp rest
        rw [← pure_eq_ok.mp whole]
        exact Split.before_count _ (ih (fun zero => plain (List.mem_of_mem_drop zero)) ranOn)
      · obtain ⟨behind, ranOn, whole⟩ := bind_eq_ok.mp rest
        rw [← pure_eq_ok.mp whole]
        exact Split.before_count _ (ih (fun zero => plain (List.mem_of_mem_drop zero)) ranOn)

/-- What the offsets of the tokens point to once they are terminated. -/
theorem read_starts (plain : 0 ∉ text) (front junk : List UInt8) :
    (starts front.length (lines separator text)).map (fun p =>
      cString ((front ++ (cut separator text ++ 0 :: junk)).drop p)) = lines separator text := by
  induction text using induction_on_lines separator generalizing front with
  | nil => rfl
  | last line some noSep =>
      rw [lines_last noSep, if_neg some, cut_of_not_mem noSep, starts, starts, List.map_singleton,
        List.drop_left, cString_of_ended plain]
  | line line rest noSep ih =>
      simp only [List.mem_append, List.mem_cons, not_or] at plain
      obtain ⟨plain, -, behind⟩ := plain
      have later := ih behind (front ++ line ++ [0])
      rw [lines_append noSep, cut_append noSep, starts, List.map_cons, List.drop_left,
        List.append_assoc, List.cons_append, cString_of_ended plain]
      simp only [List.length_append, List.length_singleton, List.append_assoc,
        List.singleton_append] at later
      rw [Nat.add_assoc, later]

end Splitting

end AurorOS.Shell
