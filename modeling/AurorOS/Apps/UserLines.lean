import AurorOS.Apps.Users

/-! # What a line of the users file leaves behind

A line is cut at its colons into an id, a name, a password and the groups; what comes
behind a fourth colon is not looked at.  The entry that the line is read into is given
here as a whole, with what stays of the entry that was there before.
-/

namespace AurorOS.Apps

open Devices Fs Lines

/-- The fields of a line, which colons separate. -/
def fieldsOf (line : List UInt8) : List (List UInt8) := line.splitOn 58

/-- The id that the digits of a field come to; other characters are passed over. -/
def idOf (field : List UInt8) : UInt64 :=
  field.foldl (fun v c => if 48 ≤ c ∧ c ≤ 57 then v * 10 + (c - 48).toUInt64 else v) 0

/-- What is stored for the name, field 1, or the password, field 2: 31 characters at most, and
    a terminator if the field is empty or a colon ends it. -/
def textBytes (fields : List (List UInt8)) (i : Nat) : List UInt8 :=
  match fields[i]? with
  | none => [0]
  | some field => if field = [] ∨ i + 1 < fields.length then field.take 31 ++ [0] else field.take 31

/-- The names of the groups before they are cut to 31 characters: commas end them, and the
    end of the field ends the last one. -/
def groupsOf (fields : List (List UInt8)) : List (List UInt8) := lines 44 (fields.getD 3 [])

/-- The texts with their terminators are stored to the rows. -/
def storeGroups (texts : List (List UInt8)) (rows : List (List UInt8)) : List (List UInt8) :=
  layOver (fun row bytes => overlay bytes row) (texts.map fun text => text.take 31 ++ [0]) rows

/-- The entry that the fields make of `ue`. -/
def entryOf (ue : UserEntry) (fields : List (List UInt8)) : UserEntry where
  userId := idOf (fields.headD [])
  username := overlay (textBytes fields 1) ue.username
  password := overlay (textBytes fields 2) ue.password
  groups := storeGroups (groupsOf fields) ue.groups
  groupCount := (groupsOf fields).length

/-- There is a row for each of the groups. -/
def GroupsFit (line : List UInt8) : Prop := (groupsOf (fieldsOf line)).length ≤ 8

instance (line : List UInt8) : Decidable (GroupsFit line) := inferInstanceAs (Decidable (_ ≤ _))

/-- An entry of the caller's array, as the source declares it. -/
structure UserEntry.Declared (ue : UserEntry) : Prop where
  username : ue.username.length = 32
  password : ue.password.length = 32
  groups : ue.groups.length = 8
  rows : ∀ row ∈ ue.groups, row.length = 32

/-- A line from the state `st` on, to its end. -/
def readLineFrom (line : List UInt8) (st : LineState) : Except Fault UserEntry := do
  (← line.foldlM LineState.step st).finish

/-- A round of the outer loop without the newline. -/
def parseLine (ue : UserEntry) (line : List UInt8) : Except Fault UserEntry := do
  readLineFrom line ⟨← ue.reset, 0, 0, 0, 0⟩

variable {ue e : UserEntry} {st st' : LineState} {line field rest text old : List UInt8}
  {rows : List (List UInt8)} {fields done : List (List UInt8)} {c : UInt8} {i : Nat}

theorem fieldsOf_last (noColon : 58 ∉ field) : fieldsOf field = [field] :=
  List.splitOn_eq_singleton noColon

theorem fieldsOf_append (noColon : 58 ∉ field) (rest : List UInt8) :
    fieldsOf (field ++ 58 :: rest) = field :: fieldsOf rest := by
  rw [fieldsOf, List.splitOn_append_cons_self, List.splitOn_eq_singleton noColon,
    List.singleton_append, fieldsOf]

theorem readLineFrom_append (first : field.foldlM LineState.step st = .ok st') (rest : List UInt8) :
    readLineFrom (field ++ rest) st = readLineFrom rest st' := by
  rw [readLineFrom, List.foldlM_append, first]
  rfl

theorem readLineFrom_cons (first : st.step c = .ok st') (rest : List UInt8) :
    readLineFrom (c :: rest) st = readLineFrom rest st' := by
  rw [readLineFrom, List.foldlM_cons, first]
  rfl

theorem step_colon (ended : st.endField = .ok st') : st.step 58 = .ok st' := by
  rw [LineState.step, if_pos rfl, ended]

theorem readLineFrom_nil (st : LineState) : readLineFrom [] st = st.finish := rfl

/-- From the fourth colon on the entry stays as it is. -/
theorem readLineFrom_rest (behind : 4 ≤ st.field) : readLineFrom text st = .ok st.entry := by
  induction text generalizing st with
  | nil =>
      rw [readLineFrom_nil, LineState.finish, if_neg (by omega)]
      rfl
  | cons c rest ih =>
      have step : ∃ st', st.step c = .ok st' ∧ st'.entry = st.entry ∧ 4 ≤ st'.field := by
        rw [LineState.step]
        by_cases colon : c = 58
        · rw [if_pos colon, LineState.endField, if_neg (by omega), if_neg (by omega),
            if_neg (by omega)]
          exact ⟨_, rfl, rfl, Nat.le_succ_of_le behind⟩
        · rw [if_neg colon, if_neg (by omega), if_neg (by omega), if_neg (by omega)]
          exact ⟨st, rfl, rfl, behind⟩
      obtain ⟨st', stepped, same, behind'⟩ := step
      rw [readLineFrom_cons stepped, ih behind', same]

theorem take_concat_of_lt (short : (text.take 31).length < 31) :
    (text ++ [c]).take 31 = text.take 31 ++ [c] := by
  rw [List.length_take] at short
  have narrow : (text ++ [c]).length ≤ 31 := by
    rw [List.length_append, List.length_singleton]
    omega
  rw [List.take_of_length_le narrow, List.take_of_length_le (by omega)]

theorem take_concat_of_ge (full : ¬ (text.take 31).length < 31) :
    (text ++ [c]).take 31 = text.take 31 := by
  rw [List.length_take] at full
  rw [List.take_append_of_le_length (by omega)]

/-- In the id field, behind the digits that come to `e.userId`. -/
def inId (e : UserEntry) : LineState := ⟨e, 0, 0, 0, 0⟩

theorem foldlM_inId (noColon : 58 ∉ field) :
    field.foldlM LineState.step (inId e) = .ok (inId { e with
      userId := field.foldl
        (fun v c => if 48 ≤ c ∧ c ≤ 57 then v * 10 + (c - 48).toUInt64 else v) e.userId }) := by
  induction field generalizing e with
  | nil => rfl
  | cons c rest ih =>
      obtain ⟨notColon, noColon⟩ := noSep_cons noColon
      have step : (inId e).step c = .ok (inId { e with
          userId := if 48 ≤ c ∧ c ≤ 57 then e.userId * 10 + (c - 48).toUInt64 else e.userId }) := by
        have here : (inId e).field = 0 := rfl
        rw [LineState.step, if_neg notColon, if_neg (by omega), if_neg (by omega)]
        by_cases digit : 48 ≤ c ∧ c ≤ 57
        · rw [if_pos ⟨here, digit⟩, if_pos digit]
          rfl
        · rw [if_neg fun both => digit both.2, if_neg digit]
          rfl
      rw [List.foldlM_cons, Outcome.bind_of_ok step, ih noColon, List.foldl_cons]

theorem endField_inId (e : UserEntry) : (inId e).endField = .ok ⟨e, 1, 0, 0, 0⟩ := rfl

/-- The array of field 1, `username`, or of field 2, `password`. -/
def textOf (e : UserEntry) (i : Nat) : List UInt8 := if i = 1 then e.username else e.password

def putText (e : UserEntry) (i : Nat) (bytes : List UInt8) : UserEntry :=
  if i = 1 then { e with username := bytes } else { e with password := bytes }

/-- In field `i`, with the characters that have been read. -/
def inText (e : UserEntry) (i : Nat) (text : List UInt8) : LineState :=
  ⟨putText e i (overlay (text.take 31) (textOf e i)), i, (text.take 31).length, 0, 0⟩

section Text

variable (either : i = 1 ∨ i = 2) (wide : (textOf e i).length = 32)

include either wide

/-- The 31 characters and the terminator behind them. -/
theorem storeAt_inText (short : (text.take 31).length < 32) (c : UInt8) :
    storeAt (textOf (inText e i text).entry i) (inText e i text).charI c =
      .ok (overlay (text.take 31 ++ [c]) (textOf e i)) := by
  have stored := storeAt_overlay (wide.symm ▸ short) c
  rcases either with rfl | rfl
  · exact stored
  · exact stored

theorem step_inText (noColon : c ≠ 58) :
    (inText e i text).step c = .ok (inText e i (text ++ [c])) := by
  have here : (inText e i text).field = i := rfl
  rw [LineState.step, if_neg noColon, if_neg (by omega), if_pos (by omega)]
  by_cases short : (text.take 31).length < 31
  · have stored := storeAt_inText either wide (Nat.lt_succ_of_lt short) c
    refine (if_pos short).trans ?_
    rw [inText, inText, take_concat_of_lt short, List.length_append]
    rcases either with rfl | rfl
    · exact (if_pos rfl).trans (Outcome.bind_of_ok stored)
    · exact (if_neg (show ¬ 2 = 1 by decide)).trans (Outcome.bind_of_ok stored)
  · refine (if_neg short).trans ?_
    rw [inText, inText, take_concat_of_ge short]
    rfl

theorem foldlM_inText (noColon : 58 ∉ field) :
    field.foldlM LineState.step (inText e i text) = .ok (inText e i (text ++ field)) := by
  induction field generalizing text with
  | nil =>
      rw [List.append_nil]
      rfl
  | cons c rest ih =>
      obtain ⟨notColon, noColon⟩ := noSep_cons noColon
      rw [List.foldlM_cons, Outcome.bind_of_ok (step_inText either wide notColon), ih noColon,
        List.append_assoc]
      rfl

theorem endField_inText :
    (inText e i text).endField =
    .ok ⟨putText e i (overlay (text.take 31 ++ [0]) (textOf e i)), i + 1, 0, 0, 0⟩ := by
  have short : (text.take 31).length < 32 := by
    rw [List.length_take]
    omega
  have stored := storeAt_inText either wide short 0
  rw [LineState.endField]
  rcases either with rfl | rfl
  · rw [if_pos (show (inText e 1 text).field = 1 from rfl)]
    exact Outcome.bind_of_ok stored
  · have other : (inText e 2 text).field ≠ 1 := Nat.succ_ne_self 1
    rw [if_neg other, if_pos (show (inText e 2 text).field = 2 from rfl)]
    exact Outcome.bind_of_ok stored

/-- The line ends in the field. -/
theorem readLineFrom_text_last (noColon : 58 ∉ field) :
    readLineFrom field (inText e i []) =
    .ok (putText e i (overlay (field.take 31) (textOf e i))) := by
  have here : (inText e i field).field = i := rfl
  rw [readLineFrom, Outcome.bind_of_ok (foldlM_inText either wide noColon), List.nil_append,
    LineState.finish, if_neg (by omega)]
  rfl

theorem readLineFrom_text_append (noColon : 58 ∉ field) (rest : List UInt8) :
    readLineFrom (field ++ 58 :: rest) (inText e i []) =
      readLineFrom rest ⟨putText e i (overlay (field.take 31 ++ [0]) (textOf e i)), i + 1, 0, 0,
      0⟩ := by
  rw [readLineFrom_append (foldlM_inText either wide noColon), List.nil_append,
    readLineFrom_cons (step_colon (endField_inText either wide))]

end Text

/-- The bytes from the start of a row. -/
def layRows (bytes : List (List UInt8)) (rows : List (List UInt8)) : List (List UInt8) :=
  layOver (fun row text => overlay text row) bytes rows

/-- In the group field, with the groups that are complete and the characters of the next. -/
def inGroups (e : UserEntry) (rows done : List (List UInt8)) (text : List UInt8) : LineState where
  entry := { e with
    groups := layRows (done.map (fun text => text.take 31 ++ [0]) ++ [text.take 31]) rows,
    groupCount := done.length }
  field := 3
  charI := 0
  groupI := done.length
  groupCharI := (text.take 31).length

/-- Behind the group field, or at the end of the line. -/
def withGroups (e : UserEntry) (rows done : List (List UInt8)) : UserEntry :=
  { e with groups := storeGroups done rows, groupCount := done.length }

/-- A store to the row that comes next, at the end of what is in it. -/
theorem storeGroup_layRows {bytes : List (List UInt8)} {row : List UInt8}
    (laid : e.groups = layRows (bytes ++ [text]) rows)
    (present : rows[bytes.length]? = some row) (room : text.length < row.length) (c : UInt8) :
    e.storeGroup bytes.length text.length c =
    .ok { e with groups := layRows (bytes ++ [text ++ [c]]) rows } := by
  have here : e.groups[bytes.length]? = some (overlay text row) := by
    rw [laid]
    exact getElem?_layOver_of_lt List.getElem?_concat_length present
  have set : e.groups.set bytes.length (overlay (text ++ [c]) row) =
      layRows (bytes ++ [text ++ [c]]) rows := by
    rw [laid]
    exact set_layOver_concat present (text ++ [c])
  rw [UserEntry.storeGroup, here]
  simp only [storeAt_overlay room, bind, Except.bind, set]
  rfl

theorem storeGroups_eq (done rows : List (List UInt8)) :
    storeGroups done rows = layRows (done.map (fun text => text.take 31 ++ [0]) ++ [[]]) rows :=
  (layOver_concat_same fun row => overlay_nil row).symm

/-- The group field starts with the rows as they are. -/
theorem inGroups_nil (none : e.groupCount = 0) : inGroups e e.groups [] [] = ⟨e, 3, 0, 0, 0⟩ := by
  have same : layRows [[]] e.groups = e.groups := by
    rw [layRows, ← List.nil_append [[]], layOver_concat_same fun row => overlay_nil row,
      layOver_nil]
  have entry : (inGroups e e.groups [] []).entry =
      { e with groups := layRows [[]] e.groups, groupCount := 0 } := rfl
  rw [same, ← none] at entry
  exact congrArg (LineState.mk · 3 0 0 0) entry

section Groups

variable (eight : rows.length = 8) (wide : ∀ row ∈ rows, row.length = 32)

include eight wide

/-- A character or a terminator behind the characters of a group. -/
theorem storeGroup_inGroups (room : done.length < 8) (short : (text.take 31).length < 32)
    (c : UInt8) :
    (inGroups e rows done text).entry.storeGroup done.length (text.take 31).length c =
      .ok { (inGroups e rows done text).entry with
        groups :=
        layRows (done.map (fun text => text.take 31 ++ [0]) ++ [text.take 31 ++ [c]]) rows } := by
  have inside : (done.map fun text => text.take 31 ++ [0]).length < rows.length := by
    rw [List.length_map]
    omega
  have width := wide _ (List.getElem_mem inside)
  have laid : (inGroups e rows done text).entry.groups =
      layRows (done.map (fun text => text.take 31 ++ [0]) ++ [text.take 31]) rows := rfl
  have stored := storeGroup_layRows laid (List.getElem?_eq_getElem inside) (by omega) c
  rwa [List.length_map] at stored

theorem endGroup_inGroups (room : done.length < 8) :
    (inGroups e rows done text).endGroup = .ok (inGroups e rows (done ++ [text]) []) := by
  have short : (text.take 31).length < 32 := by
    rw [List.length_take]
    omega
  have stored := storeGroup_inGroups eight wide (e := e) room short 0
  rw [LineState.endGroup]
  refine (Outcome.bind_of_ok stored).trans ?_
  have laid : layRows ((done ++ [text]).map (fun text => text.take 31 ++ [0]) ++
      [List.take 31 []]) rows =
      layRows (done.map (fun text => text.take 31 ++ [0]) ++ [text.take 31 ++ [0]]) rows := by
    rw [List.take_nil, List.map_append]
    exact layOver_concat_same fun row => overlay_nil row
  rw [inGroups, inGroups, laid, List.length_append, List.length_singleton]
  rfl

/-- A character of a group. -/
theorem step_inGroups (room : done.length < 8) (noColon : c ≠ 58) (noComma : c ≠ 44) :
    (inGroups e rows done text).step c = .ok (inGroups e rows done (text ++ [c])) := by
  have field : (inGroups e rows done text).field = 3 := rfl
  rw [LineState.step, if_neg noColon, if_pos field, if_neg fun comma => noComma comma.1]
  by_cases short : (text.take 31).length < 31
  · have stored := storeGroup_inGroups eight wide (e := e) room (Nat.lt_succ_of_lt short) c
    refine (if_pos short).trans ((Outcome.bind_of_ok stored).trans ?_)
    rw [inGroups, inGroups, take_concat_of_lt short, List.length_append]
    rfl
  · refine (if_neg short).trans ?_
    rw [inGroups, inGroups, take_concat_of_ge short]
    rfl

/-- A comma ends a group. -/
theorem step_comma (room : done.length < 8) :
    (inGroups e rows done text).step 44 = .ok (inGroups e rows (done ++ [text]) []) := by
  have field : (inGroups e rows done text).field = 3 := rfl
  have comma : (44 : UInt8) = 44 ∧ (inGroups e rows done text).groupI < 8 := ⟨rfl, room⟩
  rw [LineState.step, if_neg (by decide), if_pos field, if_pos comma]
  exact endGroup_inGroups eight wide room

omit wide in
/-- With eight groups complete, the next character goes behind the array. -/
theorem step_overflow (full : done.length = 8) (noColon : c ≠ 58) :
    (inGroups e rows done []).step c = .error .invalidAccess := by
  have field : (inGroups e rows done []).field = 3 := rfl
  have noRoom : ¬ (c = 44 ∧ (inGroups e rows done []).groupI < 8) :=
    fun comma => Nat.lt_irrefl 8 (full ▸ comma.2)
  have outside : (inGroups e rows done []).entry.groups[(inGroups e rows done []).groupI]? =
      none := by
    refine List.getElem?_eq_none_iff.mpr ?_
    have rowsLeft : (inGroups e rows done []).entry.groups.length = rows.length := length_layOver
    rw [rowsLeft, eight]
    exact full.ge
  have unstored : (inGroups e rows done []).entry.storeGroup (inGroups e rows done []).groupI
      (inGroups e rows done []).groupCharI c = .error .invalidAccess := by
    rw [UserEntry.storeGroup, outside]
  have start : (inGroups e rows done []).groupCharI < 31 := Nat.zero_lt_succ 30
  rw [LineState.step, if_neg noColon, if_pos field, if_neg noRoom, if_pos start]
  exact Outcome.bind_of_error unstored

/-- Characters without a comma. -/
theorem foldlM_inGroups (room : done.length < 8) (noColon : 58 ∉ field) (noComma : 44 ∉ field) :
    field.foldlM LineState.step (inGroups e rows done text) =
    .ok (inGroups e rows done (text ++ field)) := by
  induction field generalizing text with
  | nil =>
      rw [List.append_nil]
      rfl
  | cons c rest ih =>
      obtain ⟨notColon, noColon⟩ := noSep_cons noColon
      obtain ⟨notComma, noComma⟩ := noSep_cons noComma
      rw [List.foldlM_cons, Outcome.bind_of_ok (step_inGroups eight wide room notColon notComma),
        ih noColon noComma, List.append_assoc]
      rfl

/-- The field, from the start of a group on: all goes well until a ninth group. -/
theorem foldlM_groups (few : done.length ≤ 8) (noColon : 58 ∉ field) :
    if done.length + (lines 44 field).length ≤ 8 then
      ∃ complete text, field.foldlM LineState.step (inGroups e rows done []) =
      .ok (inGroups e rows complete text) ∧
        done ++ lines 44 field = complete ++ (if text = [] then [] else [text])
    else field.foldlM LineState.step (inGroups e rows done []) = .error .invalidAccess := by
  induction size : field.length using Nat.strong_induction_on generalizing field done with
  | _ k ih => ?_
  subst size
  have overflows : ∀ c rest, field = c :: rest → done.length = 8 →
      field.foldlM LineState.step (inGroups e rows done []) = .error .invalidAccess := by
    rintro c rest rfl full
    rw [List.foldlM_cons]
    exact Outcome.bind_of_error (step_overflow eight full (noSep_cons noColon).1)
  rcases first_line 44 field with noComma | ⟨group, rest, rfl, noComma⟩
  · rw [lines_last noComma]
    by_cases empty : field = []
    · subst empty
      rw [if_pos rfl, List.length_nil, Nat.add_zero, if_pos few]
      exact ⟨done, [], rfl, rfl⟩
    · rw [if_neg empty, List.length_singleton]
      split
      · exact ⟨done, field,
          foldlM_inGroups eight wide (by omega) noColon noComma, by rw [if_neg empty]⟩
      · obtain ⟨c, rest, whole⟩ := List.exists_cons_of_ne_nil empty
        exact overflows c rest whole (by omega)
  · rw [lines_append noComma, List.length_cons]
    by_cases room : done.length < 8
    · have colons : 58 ∉ group ∧ 58 ∉ rest := by
        rw [List.mem_append, List.mem_cons, not_or, not_or] at noColon
        exact ⟨noColon.1, noColon.2.2⟩
      have first : group.foldlM LineState.step (inGroups e rows done []) =
          .ok (inGroups e rows done ([] ++ group)) :=
        foldlM_inGroups eight wide room colons.1 noComma
      have shorter : rest.length < (group ++ 44 :: rest).length := by
        rw [List.length_append, List.length_cons]
        omega
      have one : (done ++ [group]).length = done.length + 1 := by
        rw [List.length_append, List.length_singleton]
      have few' : (done ++ [group]).length ≤ 8 := by omega
      have onward := ih _ shorter few' colons.2 rfl
      have split : (group ++ 44 :: rest).foldlM LineState.step (inGroups e rows done []) =
          rest.foldlM LineState.step (inGroups e rows (done ++ [group]) []) := by
        rw [List.foldlM_append, Outcome.bind_of_ok first, List.foldlM_cons,
          Outcome.bind_of_ok (step_comma eight wide room), List.nil_append]
      rw [split]
      rw [one, List.append_assoc, List.singleton_append, Nat.add_right_comm,
        Nat.add_assoc] at onward
      exact onward
    · rw [if_neg (by omega)]
      obtain ⟨c, more, whole⟩ := List.exists_cons_of_ne_nil
        (List.append_ne_nil_of_right_ne_nil group (List.cons_ne_nil 44 rest))
      exact overflows c more whole (by omega)

/-- A group that has characters is ended by a colon or by the end of the line. -/
theorem close_inGroups (few : (done ++ if text = [] then [] else [text]).length ≤ 8) :
    (inGroups e rows done text).finish =
    .ok (withGroups e rows (done ++ if text = [] then [] else [text])) ∧
      ∃ st', (inGroups e rows done text).endField = .ok st' ∧ st'.field = 4 ∧
        st'.entry = withGroups e rows (done ++ if text = [] then [] else [text]) := by
  have field : (inGroups e rows done text).field = 3 := rfl
  by_cases empty : text = []
  · subst empty
    have none : ¬ ((inGroups e rows done []).field = 3 ∧ (inGroups e rows done []).groupCharI > 0 ∧
        (inGroups e rows done []).groupI < 8) := fun some => Nat.lt_irrefl 0 some.2.1
    have entry : (inGroups e rows done []).entry = withGroups e rows done := by
      rw [withGroups, storeGroups_eq]
      rfl
    rw [if_pos rfl, List.append_nil, LineState.finish, if_neg none, LineState.endField,
      if_neg (by omega), if_neg (by omega), if_neg none, entry]
    exact ⟨rfl, _, rfl, rfl, entry⟩
  · rw [if_neg empty] at few ⊢
    rw [List.length_append, List.length_singleton] at few
    have some : (inGroups e rows done text).field = 3 ∧ (inGroups e rows done text).groupCharI > 0 ∧
        (inGroups e rows done text).groupI < 8 := by
      refine ⟨rfl, ?_, few⟩
      exact List.length_pos_iff.mpr fun cut =>
        empty ((List.take_eq_nil_iff.mp cut).resolve_left (by decide))
    have ended : (inGroups e rows done text).endGroup = .ok (inGroups e rows (done ++ [text]) []) :=
      endGroup_inGroups eight wide few
    have entry : (inGroups e rows (done ++ [text]) []).entry =
        withGroups e rows (done ++ [text]) := by
      rw [withGroups, storeGroups_eq]
      rfl
    refine ⟨?_, ?_⟩
    · rw [LineState.finish, if_pos some, Outcome.bind_of_ok ended, entry]
      rfl
    · rw [LineState.endField, if_neg (by omega), if_neg (by omega), if_pos some,
        Outcome.bind_of_ok ended]
      exact ⟨_, rfl, rfl, entry⟩

/-- The whole field. -/
theorem foldlM_groupField (noColon : 58 ∉ field) :
    if (lines 44 field).length ≤ 8 then
      ∃ complete text, field.foldlM LineState.step (inGroups e rows [] []) =
      .ok (inGroups e rows complete text) ∧
        lines 44 field = complete ++ (if text = [] then [] else [text])
    else field.foldlM LineState.step (inGroups e rows [] []) = .error .invalidAccess := by
  have few : ([] : List (List UInt8)).length ≤ 8 := Nat.zero_le 8
  have read := foldlM_groups eight wide (e := e) few noColon
  simpa only [List.length_nil, Nat.zero_add, List.nil_append] using read

/-- The group field and what is behind it. -/
theorem readLineFrom_groups (line : List UInt8) :
    readLineFrom line (inGroups e rows [] []) =
      if (lines 44 ((fieldsOf line).headD [])).length ≤ 8 then
        .ok (withGroups e rows (lines 44 ((fieldsOf line).headD [])))
      else .error .invalidAccess := by
  rcases first_line 58 line with noColon | ⟨field, rest, rfl, noColon⟩
  · rw [fieldsOf_last noColon, List.headD_cons, readLineFrom]
    have read := foldlM_groupField eight wide (e := e) noColon
    split at read
    · rename_i fit
      obtain ⟨complete, text, ran, whole⟩ := read
      rw [if_pos fit, Outcome.bind_of_ok ran, whole]
      exact (close_inGroups eight wide (whole ▸ fit)).1
    · rename_i fit
      rw [if_neg fit, Outcome.bind_of_error read]
  · rw [fieldsOf_append noColon, List.headD_cons]
    have read := foldlM_groupField eight wide (e := e) noColon
    split at read
    · rename_i fit
      obtain ⟨complete, text, ran, whole⟩ := read
      obtain ⟨st', ended, behind, entry⟩ := (close_inGroups eight wide (whole ▸ fit)).2
      rw [if_pos fit, readLineFrom_append ran, readLineFrom_cons (step_colon ended),
        readLineFrom_rest (le_of_eq behind.symm), entry, whole]
    · rename_i fit
      rw [if_neg fit, readLineFrom, List.foldlM_append, Outcome.bind_of_error read]
      rfl

end Groups

/-- The entry that a line starts with. -/
def resetEntry (ue : UserEntry) : UserEntry :=
  { ue with
    userId := 0
    username := overlay [0] ue.username
    password := overlay [0] ue.password
    groupCount := 0 }

theorem reset_eq (declared : ue.Declared) : ue.reset = .ok (resetEntry ue) := by
  have stored : ∀ a : List UInt8, a.length = 32 → storeAt a 0 0 = .ok (overlay [0] a) := by
    intro a wide
    have room : ([] : List UInt8).length < a.length := by
      rw [wide]
      decide
    exact storeAt_overlay room 0
  rw [UserEntry.reset, Outcome.bind_of_ok (stored _ declared.username),
    Outcome.bind_of_ok (stored _ declared.password)]
  rfl

/-- The characters of a field go over the terminator that the array starts with. -/
theorem overlay_take (field old : List UInt8) :
    overlay (field.take 31) (overlay [0] old) =
      overlay (if field = [] then field.take 31 ++ [0] else field.take 31) old := by
  cases field with
  | nil => rfl
  | cons c rest =>
      rw [if_neg (List.cons_ne_nil c rest)]
      exact overlay_overlay (Nat.succ_le_succ (Nat.zero_le _))

theorem overlay_take_concat (field old : List UInt8) :
    overlay (field.take 31 ++ [0]) (overlay [0] old) = overlay (field.take 31 ++ [0]) old := by
  refine overlay_overlay ?_
  rw [List.length_append]
  exact Nat.le_add_left 1 _

theorem textBytes_of_last (last : fields[i]? = some field) (ends : fields.length = i + 1) :
    textBytes fields i = if field = [] then field.take 31 ++ [0] else field.take 31 := by
  have none : ¬ i + 1 < fields.length := ends ▸ Nat.lt_irrefl _
  rw [textBytes, last]
  simp only [none, or_false]

theorem textBytes_of_closed (here : fields[i]? = some field) (closed : i + 1 < fields.length) :
    textBytes fields i = field.take 31 ++ [0] := by
  rw [textBytes, here]
  exact if_pos (Or.inr closed)

/-- Without a group field there are no groups. -/
theorem parseLine_of_short (declared : ue.Declared) (split : fieldsOf line = fields)
    (short : fields.length ≤ 3)
    (read : readLineFrom line (inId (resetEntry ue)) = .ok { ue with
      userId := idOf (fields.headD []), username := overlay (textBytes fields 1) ue.username,
      password := overlay (textBytes fields 2) ue.password, groupCount := 0 }) :
    parseLine ue line = if GroupsFit line then .ok (entryOf ue (fieldsOf line))
      else .error .invalidAccess := by
  have none : groupsOf fields = [] := by
    rw [groupsOf, List.getD_eq_getElem?_getD, List.getElem?_eq_none short]
    rfl
  have fit : GroupsFit line := by
    rw [GroupsFit, split, none]
    exact Nat.zero_le 8
  have start : parseLine ue line = readLineFrom line (inId (resetEntry ue)) :=
    Outcome.bind_of_ok (reset_eq declared)
  rw [if_pos fit, start, read, split, entryOf, none, storeGroups, List.map_nil, layOver_nil]
  rfl

/-- Behind the id. -/
def withId (ue : UserEntry) (id : List UInt8) : UserEntry :=
  { resetEntry ue with userId := idOf id }

theorem readLineFrom_id (ue : UserEntry) (noColon : 58 ∉ field) (rest : List UInt8) :
    readLineFrom (field ++ 58 :: rest) (inId (resetEntry ue)) =
    readLineFrom rest (inText (withId ue field) 1 []) := by
  rw [readLineFrom_append (foldlM_inId noColon), readLineFrom_cons (step_colon (endField_inId _))]
  rfl

/-- The entry with the first three fields of a line that has more. -/
def withTexts (ue : UserEntry) (id name password : List UInt8) : UserEntry :=
  putText (putText (withId ue id) 1 (overlay (name.take 31 ++ [0]) (overlay [0] ue.username))) 2
    (overlay (password.take 31 ++ [0]) (overlay [0] ue.password))

/-- With a group field all depends on the number of groups. -/
theorem parseLine_of_long {id name password rest : List UInt8} (declared : ue.Declared)
    (split : fieldsOf line = id :: name :: password :: fieldsOf rest)
    (read : readLineFrom line (inId (resetEntry ue)) =
    readLineFrom rest (inGroups (withTexts ue id name password) ue.groups [] [])) :
    parseLine ue line = if GroupsFit line then .ok (entryOf ue (fieldsOf line))
      else .error .invalidAccess := by
  have start : parseLine ue line = readLineFrom line (inId (resetEntry ue)) :=
    Outcome.bind_of_ok (reset_eq declared)
  obtain ⟨groups, more, parts⟩ : ∃ groups more, fieldsOf rest = groups :: more :=
    List.exists_cons_of_ne_nil (List.splitOn_ne_nil 58 rest)
  rw [parts] at split
  have fit : (lines 44 groups).length ≤ 8 ↔ GroupsFit line := by
    rw [GroupsFit, split]
    rfl
  rw [start, read, readLineFrom_groups declared.groups declared.rows rest, parts,
    List.headD_cons, split]
  refine if_congr fit ?_ rfl
  have closed : textBytes (id :: name :: password :: groups :: more) 1 = name.take 31 ++ [0] :=
    textBytes_of_closed rfl (Nat.succ_lt_succ (Nat.succ_lt_succ (Nat.zero_lt_succ _)))
  have closed' : textBytes (id :: name :: password :: groups :: more) 2 = password.take 31 ++ [0] :=
    textBytes_of_closed rfl
      (Nat.succ_lt_succ (Nat.succ_lt_succ (Nat.succ_lt_succ (Nat.zero_lt_succ _))))
  rw [entryOf, closed, closed', ← overlay_take_concat name, ← overlay_take_concat password]
  rfl

theorem parseLine_eq (declared : ue.Declared) (line : List UInt8) :
    parseLine ue line = if GroupsFit line then .ok (entryOf ue (fieldsOf line))
      else .error .invalidAccess := by
  have wideName : ∀ id, (textOf (withId ue id) 1).length = 32 := by
    intro id
    exact (length_overlay (declared.username.symm ▸ by decide)).trans declared.username
  have widePassword : ∀ id bytes, (textOf (putText (withId ue id) 1 bytes) 2).length = 32 := by
    intro id bytes
    exact (length_overlay (declared.password.symm ▸ by decide)).trans declared.password
  rcases first_line 58 line with noColon | ⟨id, line, rfl, noColon⟩
  · -- the id alone
    exact parseLine_of_short declared (fieldsOf_last noColon) (show 1 ≤ 3 by decide)
      (Outcome.bind_of_ok (foldlM_inId noColon))
  have fields := fieldsOf_append noColon line
  have first := readLineFrom_id ue noColon line
  rcases first_line 58 line with noColon | ⟨name, line, rfl, noColon⟩
  · -- the name comes last
    rw [fieldsOf_last noColon] at fields
    refine parseLine_of_short declared fields (show 2 ≤ 3 by decide) ?_
    rw [textBytes_of_last (i := 1) rfl rfl, ← overlay_take]
    exact first.trans (readLineFrom_text_last (.inl rfl) (wideName id) noColon)
  rw [fieldsOf_append noColon line] at fields
  let named := putText (withId ue id) 1 (overlay (name.take 31 ++ [0]) (overlay [0] ue.username))
  have second : readLineFrom (id ++ 58 :: (name ++ 58 :: line)) (inId (resetEntry ue)) =
      readLineFrom line (inText named 2 []) :=
    first.trans (readLineFrom_text_append (.inl rfl) (wideName id) noColon line)
  rcases first_line 58 line with noColon | ⟨password, line, rfl, noColon⟩
  · -- the password comes last
    rw [fieldsOf_last noColon] at fields
    have closed : textBytes [id, name, line] 1 = name.take 31 ++ [0] :=
      textBytes_of_closed rfl (Nat.lt_succ_self 2)
    refine parseLine_of_short declared fields (show 3 ≤ 3 by decide) ?_
    rw [textBytes_of_last (i := 2) rfl rfl, ← overlay_take, closed, ← overlay_take_concat]
    exact second.trans (readLineFrom_text_last (.inr rfl) (widePassword id _) noColon)
  · -- with groups
    rw [fieldsOf_append noColon line] at fields
    refine parseLine_of_long declared fields (second.trans ?_)
    refine (readLineFrom_text_append (.inr rfl) (widePassword id _) noColon line).trans ?_
    exact congrArg (readLineFrom line) (inGroups_nil rfl).symm

end AurorOS.Apps
