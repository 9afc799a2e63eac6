import AurorOS.Apps.UserLines

/-! # The users file as a whole

The first sixteen lines are read, each into the entry of its place.  All of them are read
within the arrays exactly if none has more groups than an entry has room for; from there
on the entries are known.
-/

namespace AurorOS.Apps

open Fs Lines

/-- The lines that are read. -/
def readLines (buf : List UInt8) : List (List UInt8) := (lines 10 buf).take 16

/-- The entry that a line makes of the one in its place. -/
def lineEntry (ue : UserEntry) (line : List UInt8) : UserEntry := entryOf ue (fieldsOf line)

/-- Each of the lines has entries with room for its groups. -/
def AllFit (ls : List (List UInt8)) : Prop := ∀ line ∈ ls, GroupsFit line

instance (ls : List (List UInt8)) : Decidable (AllFit ls) := List.decidableBAll GroupsFit ls

/-- The caller's array, `UserEntry out[16]`. -/
structure UserArray (out : List UserEntry) : Prop where
  sixteen : out.length = 16
  declared : ∀ ue ∈ out, ue.Declared

/-- An array whose characters are all `c`. -/
def blankUsers (c : UInt8) : List UserEntry :=
  List.replicate 16 ⟨0, List.replicate 32 c, List.replicate 32 c,
    List.replicate 8 (List.replicate 32 c), 0⟩

theorem blankUsers_array (c : UInt8) : UserArray (blankUsers c) where
  sixteen := List.length_replicate
  declared := by
    intro ue member
    obtain rfl := List.eq_of_mem_replicate member
    refine ⟨List.length_replicate, List.length_replicate, List.length_replicate, ?_⟩
    intro row among
    obtain rfl := List.eq_of_mem_replicate among
    exact List.length_replicate

variable {buf line rest : List UInt8} {out old done : List UserEntry} {ue : UserEntry}
  {st : LineState} {left n i : Nat} {result : List UserEntry × Nat}

theorem allFit_nil : AllFit [] := fun _ none => absurd none List.not_mem_nil

theorem lineLoop_last (noNewline : 10 ∉ line) (st : LineState) :
    lineLoop line st = do return ([], ← line.foldlM LineState.step st) := by
  induction line generalizing st with
  | nil => rfl
  | cons c rest ih =>
      obtain ⟨other, noNewline⟩ := noSep_cons noNewline
      rw [lineLoop, if_neg other, List.foldlM_cons, bind_assoc]
      exact bind_congr fun st' => ih noNewline st'

theorem lineLoop_append (noNewline : 10 ∉ line) (rest : List UInt8) (st : LineState) :
    lineLoop (line ++ 10 :: rest) st = do return (10 :: rest, ← line.foldlM LineState.step st) := by
  induction line generalizing st with
  | nil => rfl
  | cons c more ih =>
      obtain ⟨other, noNewline⟩ := noSep_cons noNewline
      rw [List.cons_append, lineLoop, if_neg other, List.foldlM_cons, bind_assoc]
      exact bind_congr fun st' => ih noNewline st'

/-- A round of the outer loop. -/
theorem usersLoop_succ (here : out[n]? = some ue) (nonempty : buf ≠ [])
    (read : ∀ st, lineLoop buf st = do return (rest, ← line.foldlM LineState.step st)) :
    usersLoop (left + 1) buf n out =
      parseLine ue line >>= fun entry => usersLoop left rest.tail (n + 1) (out.set n entry) := by
  simp only [usersLoop, if_neg nonempty, here, read, parseLine, readLineFrom, bind_assoc, pure_bind]

/-- The lines go into the entries that are left, one after the other. -/
theorem usersLoop_eq (buf : List UInt8) (done : List UserEntry) (declared : ∀ ue ∈ old, ue.Declared)
    (room : left ≤ old.length) :
    usersLoop left buf done.length (done ++ old) =
      if AllFit ((lines 10 buf).take left) then
        .ok (done ++ layOver lineEntry ((lines 10 buf).take left) old,
        done.length + ((lines 10 buf).take left).length) else .error .invalidAccess := by
  induction left generalizing buf done old with
  | zero =>
      rw [List.take_zero, layOver_nil, usersLoop, if_pos allFit_nil]
      rfl
  | succ left ih =>
      by_cases empty : buf = []
      · subst empty
        have none : lines (10 : UInt8) [] = [] := rfl
        rw [usersLoop, if_pos rfl, none, List.take_nil, layOver_nil, if_pos allFit_nil]
        rfl
      · have nonempty : old ≠ [] :=
          List.ne_nil_of_length_pos (Nat.lt_of_lt_of_le left.succ_pos room)
        obtain ⟨ue, old, rfl⟩ := List.exists_cons_of_ne_nil nonempty
        have here : (done ++ ue :: old)[done.length]? = some ue := by
          rw [List.getElem?_append_right le_rfl, Nat.sub_self]
          rfl
        obtain ⟨line, rest, cut, read⟩ : ∃ line rest, lines 10 buf = line :: lines 10 rest.tail ∧
            ∀ st, lineLoop buf st = do return (rest, ← line.foldlM LineState.step st) := by
          rcases first_line 10 buf with noNewline | ⟨line, rest, rfl, noNewline⟩
          · refine ⟨buf, [], ?_, lineLoop_last noNewline⟩
            rw [lines_last noNewline, if_neg empty]
            rfl
          · exact ⟨line, 10 :: rest, lines_append noNewline rest, lineLoop_append noNewline rest⟩
        have set : ∀ entry, (done ++ ue :: old).set done.length entry =
            (done ++ [entry]) ++ old := by
          intro entry
          rw [List.set_append_right _ _ le_rfl, Nat.sub_self, List.set_cons_zero, List.append_assoc,
            List.singleton_append]
        rw [usersLoop_succ here empty read, cut, List.take_succ_cons,
          parseLine_eq (declared ue List.mem_cons_self)]
        by_cases fit : GroupsFit line
        · have onward := ih rest.tail (done ++ [entryOf ue (fieldsOf line)])
            (fun ue member => declared ue (List.mem_cons_of_mem _ member))
              (Nat.le_of_succ_le_succ room)
          rw [List.length_append, List.length_singleton] at onward
          rw [if_pos fit, Outcome.bind_of_ok rfl, set, onward]
          refine if_congr ?_ ?_ rfl
          · rw [AllFit, AllFit, List.forall_mem_cons]
            exact ⟨fun behind => ⟨fit, behind⟩, fun all => all.2⟩
          · rw [layOver, List.append_assoc, List.length_cons, Nat.add_right_comm, Nat.add_assoc]
            rfl
        · rw [if_neg fit, Outcome.bind_of_error rfl,
            if_neg fun all => fit (all line List.mem_cons_self)]

theorem parseUsers_eq (array : UserArray out) (buf : List UInt8) :
    parseUsers buf out =
      if AllFit (readLines buf) then .ok (layOver lineEntry (readLines buf) out,
      (readLines buf).length) else .error .invalidAccess := by
  have run := usersLoop_eq buf [] array.declared array.sixteen.ge
  rwa [List.length_nil, Nat.zero_add] at run

theorem length_textBytes_le (fields : List (List UInt8)) (i : Nat) :
    (textBytes fields i).length ≤ 32 := by
  have short : ∀ field : List UInt8, (field.take 31 ++ [0]).length ≤ 32 := by
    intro field
    rw [List.length_append, List.length_singleton]
    exact Nat.succ_le_succ (List.length_take_le 31 field)
  rw [textBytes]
  split
  · decide
  · split
    · exact short _
    · exact (List.length_take_le 31 _).trans (Nat.le_succ 31)

theorem declared_lineEntry (declared : ue.Declared) (line : List UInt8) :
    (lineEntry ue line).Declared where
  username := (length_overlay (declared.username ▸ length_textBytes_le _ 1)).trans declared.username
  password := (length_overlay (declared.password ▸ length_textBytes_le _ 2)).trans declared.password
  groups := length_layOver.trans declared.groups
  rows := by
    refine forall_layOver declared.rows ?_
    intro bytes member row wide
    obtain ⟨text, -, rfl⟩ := List.mem_map.mp member
    refine (length_overlay ?_).trans wide
    rw [wide, List.length_append, List.length_singleton]
    exact Nat.succ_le_succ (List.length_take_le 31 text)

theorem UserArray.read (array : UserArray out) (buf : List UInt8) :
    UserArray (layOver lineEntry (readLines buf) out) where
  sixteen := length_layOver.trans array.sixteen
  declared :=
    forall_layOver array.declared fun line _ _ declared => declared_lineEntry declared line

theorem length_readLines_le (buf : List UInt8) : (readLines buf).length ≤ 16 :=
  List.length_take_le 16 _

/-- The entries of the lines. -/
theorem UserArray.take_read (array : UserArray out) (buf : List UInt8) :
    (layOver lineEntry (readLines buf) out).take (readLines buf).length =
    List.zipWith lineEntry out (readLines buf) :=
  take_layOver (array.sixteen.symm ▸ length_readLines_le buf)

/-- If `parse_users` returns, then within its arrays and with these entries. -/
theorem parseUsers_eq_ok (array : UserArray out) :
    parseUsers buf out = .ok result ↔
      AllFit (readLines buf) ∧
      result = (layOver lineEntry (readLines buf) out, (readLines buf).length) := by
  rw [parseUsers_eq array]
  split
  · rename_i fit
    rw [Except.ok.injEq]
    exact ⟨fun same => ⟨fit, same.symm⟩, fun both => both.2.symm⟩
  · rename_i unfit
    exact ⟨fun returned => (nomatch returned), fun both => absurd both.1 unfit⟩

/-- The number that the digits of a field form. -/
def digitsValue (field : List UInt8) : Nat :=
  (field.filter fun c => 48 ≤ c ∧ c ≤ 57).foldl (fun v c => v * 10 + (c - 48).toNat) 0

/-- It is counted modulo 2^64. -/
theorem idOf_eq (field : List UInt8) : idOf field = UInt64.ofNat (digitsValue field) := by
  have from_ : ∀ v : Nat,
      field.foldl (fun v c => if 48 ≤ c ∧ c ≤ 57 then v * 10 + (c - 48).toUInt64 else v)
        (UInt64.ofNat v) =
        UInt64.ofNat ((field.filter fun c => 48 ≤ c ∧ c ≤ 57).foldl
          (fun v c => v * 10 + (c - 48).toNat) v) := by
    induction field with
    | nil => exact fun _ => rfl
    | cons c rest ih =>
        intro v
        rw [List.foldl_cons, List.filter_cons]
        by_cases digit : 48 ≤ c ∧ c ≤ 57
        · have step : UInt64.ofNat v * 10 + (c - 48).toUInt64 =
              UInt64.ofNat (v * 10 + (c - 48).toNat) := by
            rw [UInt64.ofNat_add, UInt64.ofNat_mul, UInt64.ofNat_uInt8ToNat]
            rfl
          rw [if_pos digit, if_pos (decide_eq_true digit), List.foldl_cons, step, ih]
        · rw [if_neg digit, if_neg (by rw [decide_eq_false digit]; decide), ih]
  exact from_ 0

end AurorOS.Apps
