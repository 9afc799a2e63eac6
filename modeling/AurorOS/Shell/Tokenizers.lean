import AurorOS.Shell.Strings

/-! # Two tokenizers

`split_str` cuts a whole string at once and counts its tokens in an `int`; `strtok` cuts a
token off in each call and keeps its position in between.
-/

namespace AurorOS.Shell

open Devices Lines Numbers Outcome

/-- What `split_str` returns, its stores `result[index] = str`, and the array afterwards. -/
structure Splitting where
  returned : Int32
  stores : List (Int32 × Nat)
  str : List UInt8
  deriving DecidableEq

/-- The outer loop of `split_str` at the offset `pos`; `str` is what the array holds from there. -/
def splitLoop (separator : UInt8) (maxSplits : Int32) :
    Nat → Int32 → Nat → List UInt8 → Except Fault Splitting
  | 0, _, _, _ => .error .outOfFuel
  | fuel + 1, count, pos, str => do
      if (← loadAt str 0) = 0 then return ⟨count, [], str⟩
      if count ≥ maxSplits then return ⟨-1, [], str⟩
      let length := (str.takeWhile fun c => c ≠ separator ∧ c ≠ 0).length
      if (← loadAt str length) = separator then
        let rest ← splitLoop separator maxSplits fuel (count + 1) (pos + length + 1)
          (str.drop (length + 1))
        return ⟨rest.returned, (count, pos) :: rest.stores, str.take length ++ [0] ++ rest.str⟩
      else
        let rest ← splitLoop separator maxSplits fuel (count + 1) (pos + length) (str.drop length)
        return ⟨rest.returned, (count, pos) :: rest.stores, str.take length ++ rest.str⟩

/-- The loop goes at most once for each token that is allowed, and once more. -/
def splitAll (str : List UInt8) (separator : UInt8) (maxSplits : Int32) : Except Fault Splitting :=
  splitLoop separator maxSplits (maxSplits.toInt.toNat + 1) 0 0 str

/-- What `strtok` returns, `NULL` or an offset, `*str_ptr` and the array afterwards. -/
structure Token where
  start : Option Nat
  strPtr : Option Nat
  str : List UInt8

/-- `strtok` for an array and a pointer into it. -/
def strtokIn (sep : UInt8) (str : List UInt8) (strPtr : Option Nat) : Except Fault Token :=
  match strPtr with
  | none => return ⟨none, none, str⟩
  | some start => do
      if (← loadAt str start) = 0 then return ⟨none, some start, str⟩
      let p := start + ((str.drop start).takeWhile fun c => c ≠ sep ∧ c ≠ 0).length
      if (← loadAt str p) = sep then return ⟨some start, some (p + 1), ← storeAt str p 0⟩
      else return ⟨some start, none, str⟩

/-- The strings that `strtok` returns until it returns `NULL`. -/
def strtokLoop (sep : UInt8) : Nat → List UInt8 → Option Nat → Except Fault (List (List UInt8))
  | 0, _, _ => .error .outOfFuel
  | fuel + 1, str, strPtr => do
      let token ← strtokIn sep str strPtr
      match token.start with
      | none => return []
      | some start =>
          let rest ← strtokLoop sep fuel token.str token.strPtr
          return cString (token.str.drop start) :: rest

/-- Each token takes a character at least. -/
def strtokAll (str : List UInt8) (sep : UInt8) : Except Fault (List (List UInt8)) :=
  strtokLoop sep (str.length + 1) str (some 0)

variable {separator sep : UInt8} {maxSplits count : Int32} {text str junk junk' : List UInt8}
  {left pos fuel : Nat} {s : Split}

/-- Consecutive indexes of `result` from `count` on. -/
def numbered (count : Int32) : List Nat → List (Int32 × Nat)
  | [] => []
  | pos :: more => (count, pos) :: numbered (count + 1) more

/-- What the loop does that has counted to `count`, from what `splitStr` does there. -/
def Split.counted (count : Int32) (s : Split) : Splitting where
  returned := if s.count < 0 then -1 else count + Int32.ofInt s.count
  stores := numbered count s.result
  str := s.str

theorem toInt_add_one (below : count < maxSplits) : (count + 1).toInt = count.toInt + 1 := by
  have one : (1 : Int32).toInt = 1 := rfl
  have less := Int32.lt_iff_toInt_lt.mp below
  have lower := count.le_toInt
  have upper := maxSplits.toInt_lt
  rw [Int32.toInt_add, one, Int.bmod_eq_of_le (by omega) (by omega)]

/-- A token more, in either way of counting. -/
theorem counted_before (count : Int32) (s : Split) (pos : Nat) (passed : List UInt8) :
    (s.before pos passed).counted count =
      ⟨(s.counted (count + 1)).returned, (count, pos) :: (s.counted (count + 1)).stores,
        passed ++ (s.counted (count + 1)).str⟩ := by
  rw [Split.before, Split.counted, Split.counted, numbered]
  by_cases refused : s.count < 0
  · rw [if_pos refused, if_pos refused, if_pos refused]
  · have some : ¬ s.count + 1 < 0 := by omega
    have sum : count + Int32.ofInt (s.count + 1) = count + 1 + Int32.ofInt s.count := by
      rw [Int32.ofInt_add, Int32.add_comm (Int32.ofInt s.count), ← Int32.add_assoc]
      rfl
    rw [if_neg refused, if_neg refused, if_neg some, sum]

theorem counted_end (count : Int32) (str : List UInt8) :
    (⟨0, [], str⟩ : Split).counted count = ⟨count, [], str⟩ := by
  rw [Split.counted, if_neg (Int.lt_irrefl 0), numbered]
  simp

/-- The loop does what `splitStr` does with the tokens that it has left. -/
theorem splitLoop_eq (separator : UInt8) (room : left = (maxSplits.toInt - count.toInt).toNat)
    (pos : Nat) (str : List UInt8) :
    splitLoop separator maxSplits (left + 1) count pos str =
      (do return (← splitStr separator left pos str).counted count) := by
  induction left generalizing count pos str with
  | zero =>
      have full : count ≥ maxSplits := Int32.le_iff_toInt_le.mpr (by omega)
      rw [splitLoop, splitStr]
      simp only [bind_assoc]
      refine bind_congr fun c => ?_
      by_cases zero : c = 0
      · rw [if_pos zero, if_pos zero, pure_bind, counted_end]
      · rw [if_neg zero, if_neg zero, if_pos full, pure_bind]
        rfl
  | succ left ih =>
      have below : count < maxSplits := Int32.lt_iff_toInt_lt.mpr (by omega)
      have next := toInt_add_one below
      have more : ∀ pos str, splitLoop separator maxSplits (left + 1) (count + 1) pos str =
          (do return (← splitStr separator left pos str).counted (count + 1)) := by
        exact fun pos str => ih (by omega) pos str
      rw [splitLoop, splitStr]
      simp only [bind_assoc]
      refine bind_congr fun c => ?_
      by_cases zero : c = 0
      · rw [if_pos zero, if_pos zero, pure_bind, counted_end]
      · rw [if_neg zero, if_neg zero, if_neg (Int32.not_le.mpr below), bind_assoc]
        refine bind_congr fun stop => ?_
        by_cases separates : stop = separator
        · rw [if_pos separates, if_pos separates, more, bind_assoc, bind_assoc]
          refine bind_congr fun rest => ?_
          rw [pure_bind, pure_bind, counted_before]
        · rw [if_neg separates, if_neg separates, more, bind_assoc, bind_assoc]
          refine bind_congr fun rest => ?_
          rw [pure_bind, pure_bind, counted_before]

section Tokens

variable {front line behind : List UInt8} {stop : UInt8}

theorem strtokIn_end (sep : UInt8) (front junk : List UInt8) :
    strtokIn sep (front ++ 0 :: junk) (some front.length) =
    .ok ⟨none, some front.length, front ++ 0 :: junk⟩ :=
  bind_of_ok (loadAt_middle 0 rfl)

/-- A call that finds a token, up to the separator or up to the end. -/
theorem strtokIn_token (noSep : sep ∉ line) (plain : 0 ∉ line) (ends : stop = sep ∨ stop = 0)
    (more : line ≠ [] ∨ stop ≠ 0) (front behind : List UInt8) :
    strtokIn sep (front ++ (line ++ stop :: behind)) (some front.length) =
      if stop = sep then
        .ok ⟨some front.length, some (front.length + line.length + 1), front ++ line ++ 0 :: behind⟩
      else .ok ⟨some front.length, none, front ++ (line ++ stop :: behind)⟩ := by
  have first : ∃ c, loadAt (front ++ (line ++ stop :: behind)) front.length = .ok c ∧ c ≠ 0 := by
    cases line with
    | nil => exact ⟨stop, loadAt_middle stop rfl, more.resolve_left fun some => some rfl⟩
    | cons c rest => exact ⟨c, loadAt_middle c rfl, fun zero => plain (zero ▸ List.mem_cons_self)⟩
  obtain ⟨c, loaded, other⟩ := first
  have place : front.length + line.length = (front ++ line).length := List.length_append.symm
  rw [strtokIn, List.drop_left, takeWhile_token noSep plain ends]
  refine (bind_of_ok loaded).trans ?_
  rw [if_neg other, ← List.append_assoc]
  refine (bind_of_ok (loadAt_middle stop place)).trans ?_
  by_cases separates : stop = sep
  · rw [if_pos separates, if_pos separates]
    exact bind_of_ok (storeAt_middle stop 0 place)
  · rw [if_neg separates, if_neg separates]
    rfl

/-- `strtok` finds the lines of a text, with the separator for the newline. -/
theorem strtokLoop_eq (nonzero : sep ≠ 0) (plain : 0 ∉ text) (front : List UInt8)
    (enough : (lines sep text).length < fuel) :
    strtokLoop sep fuel (front ++ (text ++ 0 :: junk)) (some front.length) =
    .ok (lines sep text) := by
  induction text using induction_on_lines sep generalizing front fuel with
  | nil =>
      cases fuel with
      | zero => cases enough
      | succ fuel => exact bind_of_ok (strtokIn_end sep front junk)
  | last line nonempty noSep =>
      rw [lines_last noSep, if_neg nonempty] at enough ⊢
      obtain ⟨fuel, rfl⟩ : ∃ more, fuel = more + 2 :=
        ⟨fuel - 2, by rw [List.length_singleton] at enough; omega⟩
      have token := strtokIn_token noSep plain (.inr rfl) (.inl nonempty) front junk
      rw [if_neg (Ne.symm nonzero)] at token
      have none : strtokLoop sep (fuel + 1) (front ++ (line ++ 0 :: junk)) none = .ok [] := rfl
      refine (bind_of_ok token).trans ((bind_of_ok none).trans ?_)
      rw [List.drop_left, cString_of_ended plain]
      rfl
  | line line rest noSep ih =>
      simp only [List.mem_append, List.mem_cons, not_or] at plain
      obtain ⟨plain, -, behind⟩ := plain
      rw [lines_append noSep] at enough ⊢
      cases fuel with
      | zero => cases enough
      | succ fuel =>
          have token :=
            strtokIn_token noSep plain (.inl rfl) (.inr nonzero) front (rest ++ 0 :: junk)
          rw [if_pos rfl] at token
          have later := ih behind (front ++ line ++ [0]) (Nat.lt_of_succ_lt_succ enough)
          have place : (front ++ line ++ [0]).length = front.length + line.length + 1 := by
            simp [Nat.add_assoc]
          rw [place, List.append_assoc _ [0], List.singleton_append] at later
          rw [List.append_assoc line, List.cons_append]
          refine (bind_of_ok token).trans ((bind_of_ok later).trans ?_)
          rw [List.append_assoc, List.drop_left, cString_of_ended plain]
          rfl

theorem strtokAll_eq (nonzero : sep ≠ 0) (plain : 0 ∉ text) (junk : List UInt8) :
    strtokAll (text ++ 0 :: junk) sep = .ok (lines sep text) := by
  have few := length_lines_le sep text
  refine strtokLoop_eq nonzero plain [] ?_
  rw [List.length_append]
  omega

end Tokens

theorem map_snd_numbered (count : Int32) (ps : List Nat) :
    (numbered count ps).map Prod.snd = ps := by
  induction ps generalizing count with
  | nil => rfl
  | cons pos more ih => rw [numbered, List.map_cons, ih]

theorem map_fst_numbered (n : Nat) (ps : List Nat) :
    (numbered (Int32.ofNat n) ps).map Prod.fst = (List.range' n ps.length).map Int32.ofNat := by
  induction ps generalizing n with
  | nil => rfl
  | cons pos more ih =>
      have next : Int32.ofNat n + 1 = Int32.ofNat (n + 1) := (Int32.ofNat_add n 1).symm
      rw [numbered, next, List.map_cons, ih, List.length_cons, List.range'_succ, List.map_cons]

theorem length_starts (pos : Nat) (ls : List (List UInt8)) :
    (starts pos ls).length = ls.length := by
  induction ls generalizing pos with
  | nil => rfl
  | cons token more ih => rw [starts, List.length_cons, List.length_cons, ih]

/-- There are not more stores than tokens allowed. -/
theorem length_result_le (ran : splitStr separator left pos str = .ok s) :
    s.result.length ≤ left := by
  induction left generalizing pos str s with
  | zero =>
      obtain ⟨c, -, rest⟩ := bind_eq_ok.mp ran
      split at rest
      · rw [← pure_eq_ok.mp rest]
        exact le_rfl
      · rw [← pure_eq_ok.mp rest]
        exact le_rfl
  | succ left ih =>
      obtain ⟨c, -, rest⟩ := bind_eq_ok.mp ran
      split at rest
      · rw [← pure_eq_ok.mp rest]
        exact Nat.zero_le _
      · obtain ⟨d, -, rest⟩ := bind_eq_ok.mp rest
        split at rest
        · obtain ⟨behind, ranOn, whole⟩ := bind_eq_ok.mp rest
          rw [← pure_eq_ok.mp whole]
          exact Nat.succ_le_succ (ih ranOn)
        · obtain ⟨behind, ranOn, whole⟩ := bind_eq_ok.mp rest
          rw [← pure_eq_ok.mp whole]
          exact Nat.succ_le_succ (ih ranOn)

/-- The indexes that are stored to are from zero below the limit. -/
theorem numbered_lt {ps : List Nat} (few : ps.length ≤ maxSplits.toInt.toNat) :
    ∀ store ∈ numbered 0 ps, 0 ≤ store.1 ∧ store.1 < maxSplits := by
  intro store member
  have among := List.mem_map_of_mem (f := Prod.fst) member
  have first : (0 : Int32) = Int32.ofNat 0 := rfl
  rw [first, map_fst_numbered, List.mem_map] at among
  obtain ⟨i, inside, same⟩ := among
  rw [List.mem_range'_1] at inside
  have upper := maxSplits.toInt_lt
  have index : (Int32.ofNat i).toInt = i := Int32.toInt_ofNat_of_lt (by omega)
  have zero : (0 : Int32).toInt = 0 := rfl
  rw [← same, Int32.le_iff_toInt_le, Int32.lt_iff_toInt_lt, index, zero]
  omega

/-- A string is cut into the same tokens by `split_str`, if it is allowed as many, and by calls of
    `strtok` on a copy; joined by the separator, they are the string, but for a separator that
    it ends with.  `split_str` refuses a string that is not empty and has more tokens, and stores
    to no index from the limit on. -/
theorem tokenizers_agree (nonzero : sep ≠ 0) (plain : 0 ∉ text) (maxSplits : Int32)
    (junk junk' : List UInt8) :
    ∃ split tokens, splitAll (text ++ 0 :: junk) sep maxSplits = .ok split ∧
      strtokAll (text ++ 0 :: junk') sep = .ok tokens ∧
      (0 ≤ split.returned → split.returned.toInt = tokens.length ∧
        split.stores.map Prod.fst = (List.range tokens.length).map Int32.ofNat ∧
        split.stores.map (fun store => cString (split.str.drop store.2)) = tokens ∧
        [sep].intercalate tokens = dropTrailing sep text) ∧
      (split.returned < 0 → split.returned = -1) ∧
      (split.returned = -1 ↔ text ≠ [] ∧ maxSplits.toInt < tokens.length) ∧
      ∀ store ∈ split.stores, 0 ≤ store.1 ∧ store.1 < maxSplits := by
  obtain ⟨s, ran, found⟩ := splitStr_eq nonzero plain maxSplits.toInt.toNat 0 junk
  have counted : splitAll (text ++ 0 :: junk) sep maxSplits = .ok (s.counted 0) := by
    have zero : (0 : Int32).toInt = 0 := rfl
    have loop := @splitLoop_eq maxSplits 0 maxSplits.toInt.toNat sep (by rw [zero, Int.sub_zero]) 0
      (text ++ 0 :: junk)
    rw [ran] at loop
    exact loop
  have inside := numbered_lt (length_result_le ran)
  refine ⟨s.counted 0, lines sep text, counted, strtokAll_eq nonzero plain junk', ?_⟩
  by_cases few : (lines sep text).length ≤ maxSplits.toInt.toNat
  · rw [if_pos few] at found
    have upper := maxSplits.toInt_lt
    have value : (s.counted 0).returned = Int32.ofNat (lines sep text).length := by
      rw [found, Split.counted, if_neg (Int.not_lt.mpr (Int.natCast_nonneg _)), Int32.zero_add]
      rfl
    have number : (s.counted 0).returned.toInt = (lines sep text).length := by
      rw [value]
      exact Int32.toInt_ofNat_of_lt (by omega)
    have stores : (s.counted 0).stores = numbered 0 (starts 0 (lines sep text)) := by
      rw [found, Split.counted]
    have str : (s.counted 0).str = cut sep text ++ 0 :: junk := by rw [found, Split.counted]
    have notRefused : (s.counted 0).returned ≠ -1 := by
      intro refused
      rw [refused] at number
      exact absurd number (by change (-1 : Int) ≠ _; omega)
    refine ⟨fun _ => ⟨number, ?_, ?_, intercalate_lines sep text⟩, ?_, iff_of_false notRefused ?_,
      inside⟩
    · have first : (0 : Int32) = Int32.ofNat 0 := rfl
      rw [stores, first, map_fst_numbered, length_starts, List.range_eq_range']
    · have read := @read_starts sep text plain [] junk
      rw [List.nil_append, List.length_nil] at read
      calc (s.counted 0).stores.map (fun store => cString ((s.counted 0).str.drop store.2))
          = ((s.counted 0).stores.map Prod.snd).map (fun p => cString ((s.counted 0).str.drop p)) :=
            by rw [List.map_map, Function.comp_def]
        _ = (starts 0 (lines sep text)).map
          (fun p => cString ((cut sep text ++ 0 :: junk).drop p)) := by
            rw [stores, map_snd_numbered, str]
        _ = lines sep text := read
    · intro negative
      have below := Int32.lt_iff_toInt_lt.mp negative
      rw [number] at below
      exact absurd below (Int.not_lt.mpr (Int.natCast_nonneg _))
    · rintro ⟨nonempty, more⟩
      have some : lines sep text ≠ [] := fun none => nonempty (lines_eq_nil.mp none)
      have positive := List.length_pos_of_ne_nil some
      omega
  · rw [if_neg few] at found
    have refused : (s.counted 0).returned = -1 := by
      rw [Split.counted, found]
      rfl
    refine ⟨fun returned => ?_, fun _ => refused, iff_of_true refused ⟨?_, by omega⟩, inside⟩
    · rw [refused] at returned
      exact absurd returned (by decide)
    · rintro rfl
      exact few (Nat.zero_le _)

/-- Two words with two spaces in between and one behind. -/
theorem tokenizers_agree_words :
    ∃ split tokens, splitAll (cstr "a  b " ++ [0]) 32 10 = .ok split ∧
    strtokAll (cstr "a  b " ++ [0]) 32 = .ok tokens ∧
      (0 ≤ split.returned → split.returned.toInt = tokens.length ∧
        split.stores.map Prod.fst = (List.range tokens.length).map Int32.ofNat ∧
        split.stores.map (fun store => cString (split.str.drop store.2)) = tokens ∧
        [32].intercalate tokens = dropTrailing 32 (cstr "a  b ")) ∧
      (split.returned < 0 → split.returned = -1) ∧
      (split.returned = -1 ↔ cstr "a  b " ≠ [] ∧ (10 : Int32).toInt < tokens.length) ∧
      ∀ store ∈ split.stores, 0 ≤ store.1 ∧ store.1 < 10 :=
  tokenizers_agree (by decide) (by decide) 10 [] []

/-- The empty string has more tokens than a negative limit allows, but is not refused. -/
theorem splitAll_empty :
    splitAll [0] 32 (-1) = .ok ⟨0, [], [0]⟩ ∧ strtokAll [0] 32 = .ok [] ∧
      (-1 : Int32).toInt < ([] : List (List UInt8)).length :=
  ⟨by decide +kernel, by decide +kernel, by decide⟩

end AurorOS.Shell
