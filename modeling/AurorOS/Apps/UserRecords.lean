import AurorOS.Apps.UserFile

/-! # Users files that are written from records

A record is rendered as `id:username:password:group,group:`.  What is read from the
lines of up to sixteen records are these records.
-/

namespace AurorOS.Apps

open Devices Fs Lines

/-- A user as the file describes one, with texts that the format can hold. -/
structure UserRecord where
  userId : UInt64
  username : List UInt8
  password : List UInt8
  groups : List (List UInt8)

/-- A text without the separators `seps` that fits with its terminator. -/
structure FieldText (seps : List UInt8) (text : List UInt8) : Prop where
  length : text.length ≤ 31
  plain : ∀ c ∈ seps, c ∉ text

instance (seps text : List UInt8) : Decidable (FieldText seps text) :=
  haveI : Decidable (∀ c ∈ seps, c ∉ text) := List.decidableBAll (fun c => c ∉ text) seps
  decidable_of_iff (text.length ≤ 31 ∧ ∀ c ∈ seps, c ∉ text)
    ⟨fun ⟨length, plain⟩ => ⟨length, plain⟩, fun w => ⟨w.length, w.plain⟩⟩

structure UserRecord.Valid (r : UserRecord) : Prop where
  named : r.username ≠ []
  username : FieldText [58, 10] r.username
  password : FieldText [58, 10] r.password
  few : r.groups.length ≤ 8
  groups : ∀ g ∈ r.groups, g ≠ [] ∧ FieldText [58, 44, 10] g

/-- The decimal digits of an id. -/
def idDigits (id : UInt64) : List UInt8 := (Nat.toDigits 10 id.toNat).map fun c => c.val.toUInt8

def userLine (r : UserRecord) : List UInt8 :=
  idDigits r.userId ++
    58 :: (r.username ++ 58 :: (r.password ++ 58 :: ([44].intercalate r.groups ++ 58 :: [])))

/-- The lines of the records, with a newline behind the last one or without. -/
def usersFile (records : List UserRecord) (newline : Bool) : List UInt8 :=
  [10].intercalate (records.map userLine) ++ if newline then [10] else []

/-- The array holds the text and its terminator. -/
def HoldsText (a text : List UInt8) : Prop := text ++ [0] <+: a

structure UserEntry.Holds (ue : UserEntry) (r : UserRecord) : Prop where
  userId : ue.userId = r.userId
  username : HoldsText ue.username r.username
  password : HoldsText ue.password r.password
  groupCount : ue.groupCount = r.groups.length
  groups : ∀ (g : Nat) (text : List UInt8), r.groups[g]? = some text →
    ∃ row, ue.groups[g]? = some row ∧ HoldsText row text

variable {r : UserRecord} {records : List UserRecord} {ue : UserEntry} {out : List UserEntry}
  {text seps : List UInt8} {groups : List (List UInt8)} {c : UInt8}

/-- The character of a digit is a byte. -/
theorem toUInt8_toNat {digit : Char} (isDigit : digit.isDigit) :
    48 ≤ digit.toNat ∧ digit.toNat ≤ 57 ∧ digit.val.toUInt8.toNat = digit.toNat := by
  rw [Char.isDigit, Bool.and_eq_true, decide_eq_true_eq, decide_eq_true_eq, ge_iff_le,
    UInt32.le_iff_toNat_le, UInt32.le_iff_toNat_le] at isDigit
  have low : 48 ≤ digit.toNat := isDigit.1
  have high : digit.toNat ≤ 57 := isDigit.2
  refine ⟨low, high, ?_⟩
  rw [UInt32.toNat_toUInt8]
  exact Nat.mod_eq_of_lt (show digit.toNat < 256 by omega)

theorem digit_of_mem_idDigits {id : UInt64} (member : c ∈ idDigits id) : 48 ≤ c ∧ c ≤ 57 := by
  obtain ⟨digit, among, rfl⟩ := List.mem_map.mp member
  obtain ⟨low, high, same⟩ :=
    toUInt8_toNat (Nat.isDigit_of_mem_toDigits (by decide) (by decide) among)
  rw [UInt8.le_iff_toNat_le, UInt8.le_iff_toNat_le, same]
  exact ⟨low, high⟩

theorem digitsValue_idDigits (id : UInt64) : digitsValue (idDigits id) = id.toNat := by
  have all : (idDigits id).filter (fun c => 48 ≤ c ∧ c ≤ 57) = idDigits id :=
    List.filter_eq_self.mpr fun c member => decide_eq_true (digit_of_mem_idDigits member)
  rw [digitsValue, all, idDigits, List.foldl_map]
  have digits : ∀ digit ∈ Nat.toDigits 10 id.toNat, digit.isDigit :=
    fun digit among => Nat.isDigit_of_mem_toDigits (by decide) (by decide) among
  have value : ∀ ds : List Char, (∀ digit ∈ ds, digit.isDigit) → ∀ v,
      ds.foldl (fun v digit => v * 10 + (digit.val.toUInt8 - 48).toNat) v =
      Nat.ofDigitChars 10 ds v := by
    intro ds digits
    induction ds with
    | nil => exact fun v => Nat.ofDigitChars_nil.symm
    | cons digit rest ih =>
        intro v
        obtain ⟨low, high, same⟩ := toUInt8_toNat (digits digit List.mem_cons_self)
        have here : (digit.val.toUInt8 - 48).toNat = digit.toNat - 48 := by
          rw [UInt8.toNat_sub_of_le _ _ (by rw [UInt8.le_iff_toNat_le, same]; exact low), same]
          rfl
        rw [List.foldl_cons, ih (fun d member => digits d (List.mem_cons_of_mem digit member)),
          Nat.ofDigitChars_cons, here, Nat.mul_comm]
        rfl
  rw [value _ digits, Nat.ofDigitChars_ten_toDigits]

theorem idOf_idDigits (id : UInt64) : idOf (idDigits id) = id := by
  rw [idOf_eq, digitsValue_idDigits, UInt64.ofNat_toNat]

theorem fieldsOf_userLine (valid : r.Valid) :
    fieldsOf (userLine r) =
      [idDigits r.userId, r.username, r.password, [44].intercalate r.groups, []] := by
  have digits : 58 ∉ idDigits r.userId :=
    fun member => absurd (digit_of_mem_idDigits member) (by decide)
  have groups : 58 ∉ [44].intercalate r.groups :=
    not_mem_intercalate (by decide) fun g among => (valid.groups g among).2.plain 58 (by decide)
  rw [userLine, fieldsOf_append digits, fieldsOf_append (valid.username.plain 58 (by decide)),
    fieldsOf_append (valid.password.plain 58 (by decide)), fieldsOf_append groups,
    fieldsOf_last List.not_mem_nil]

theorem noNewline_userLine (valid : r.Valid) : 10 ∉ userLine r := by
  have digits : 10 ∉ idDigits r.userId :=
    fun member => absurd (digit_of_mem_idDigits member) (by decide)
  have groups : 10 ∉ [44].intercalate r.groups :=
    not_mem_intercalate (by decide) fun g among => (valid.groups g among).2.plain 10 (by decide)
  have username := valid.username.plain 10 (by decide)
  have password := valid.password.plain 10 (by decide)
  simp only [userLine, List.mem_append, List.mem_cons, List.not_mem_nil, digits, groups, username,
    password, or_false, false_or]
  decide

theorem groupsOf_userLine (valid : r.Valid) : groupsOf (fieldsOf (userLine r)) = r.groups := by
  rw [fieldsOf_userLine valid]
  refine lines_intercalate (fun g among => (valid.groups g among).2.plain 44 (by decide)) ?_
  intro last
  exact (valid.groups [] (List.mem_of_getLast? last)).1 rfl

theorem holdsText_overlay (fits : text.length ≤ 31) (a : List UInt8) :
    HoldsText (overlay (text.take 31 ++ [0]) a) text := by
  rw [List.take_of_length_le fits]
  exact List.prefix_append _ _

theorem holds_lineEntry (declared : ue.Declared) (valid : r.Valid) :
    (lineEntry ue (userLine r)).Holds r := by
  have split := fieldsOf_userLine valid
  have groups := groupsOf_userLine valid
  have username : textBytes (fieldsOf (userLine r)) 1 = r.username.take 31 ++ [0] := by
    rw [split]
    exact textBytes_of_closed rfl (show 2 < 5 by decide)
  have password : textBytes (fieldsOf (userLine r)) 2 = r.password.take 31 ++ [0] := by
    rw [split]
    exact textBytes_of_closed rfl (show 3 < 5 by decide)
  refine { userId := ?_, username := ?_, password := ?_, groupCount := ?_, groups := ?_ }
  · rw [lineEntry, entryOf, split]
    exact idOf_idDigits r.userId
  · rw [lineEntry, entryOf, username]
    exact holdsText_overlay valid.username.length _
  · rw [lineEntry, entryOf, password]
    exact holdsText_overlay valid.password.length _
  · rw [lineEntry, entryOf, groups]
  · intro g text here
    have inside : g < ue.groups.length := by
      have named := (List.getElem?_eq_some_iff.mp here).1
      have few := valid.few
      rw [declared.groups]
      omega
    have stored : (r.groups.map fun text => text.take 31 ++ [0])[g]? =
        some (text.take 31 ++ [0]) := by
      rw [List.getElem?_map, here]
      rfl
    refine ⟨_, ?_, holdsText_overlay (valid.groups text (List.mem_of_getElem? here)).2.length
      ue.groups[g]⟩
    rw [lineEntry, entryOf, groups]
    exact getElem?_layOver_of_lt stored (List.getElem?_eq_getElem inside)

theorem groupsFit_userLine (valid : r.Valid) : GroupsFit (userLine r) := by
  rw [GroupsFit, groupsOf_userLine valid]
  exact valid.few

theorem lines_usersFile (valid : ∀ r ∈ records, r.Valid) (nonempty : records ≠ [])
    (newline : Bool) :
    lines 10 (usersFile records newline) = records.map userLine := by
  have plain : ∀ line ∈ records.map userLine, 10 ∉ line := by
    intro line among
    obtain ⟨r, member, rfl⟩ := List.mem_map.mp among
    exact noNewline_userLine (valid r member)
  cases newline with
  | true => exact lines_intercalate_concat plain fun none => nonempty (List.map_eq_nil_iff.mp none)
  | false =>
      rw [usersFile, if_neg (by decide), List.append_nil]
      refine lines_intercalate plain ?_
      intro last
      obtain ⟨r, -, empty⟩ := List.mem_map.mp (List.mem_of_getLast? last)
      exact absurd empty (List.append_ne_nil_of_right_ne_nil _ (List.cons_ne_nil _ _))

/-- A users file of one to sixteen records is read as these records, in their order, whatever
    the caller's array holds. -/
theorem parseUsers_usersFile (records : List UserRecord) (nonempty : records ≠ [])
    (few : records.length ≤ 16) (valid : ∀ r ∈ records, r.Valid) (newline : Bool)
    (out : List UserEntry) (array : UserArray out) :
    ∃ users, parseUsers (usersFile records newline) out = .ok (users, records.length) ∧
      List.Forall₂ UserEntry.Holds (users.take records.length) records := by
  have read : readLines (usersFile records newline) = records.map userLine := by
    rw [readLines, lines_usersFile valid nonempty, List.take_of_length_le]
    rwa [List.length_map]
  have fit : AllFit (readLines (usersFile records newline)) := by
    rw [read]
    intro line among
    obtain ⟨r, member, rfl⟩ := List.mem_map.mp among
    exact groupsFit_userLine (valid r member)
  have count : (readLines (usersFile records newline)).length = records.length := by
    rw [read, List.length_map]
  have entries := array.take_read (usersFile records newline)
  rw [count, read] at entries
  have returned := (parseUsers_eq_ok array).mpr ⟨fit, rfl⟩
  rw [count, read] at returned
  refine ⟨_, returned, ?_⟩
  rw [entries, List.zipWith_map_right]
  refine forall₂_zipWith (array.sixteen.symm ▸ few) ?_
  exact fun ue member r among => holds_lineEntry (array.declared ue member) (valid r among)

/-- The two users of the file that `init_fs` writes. -/
def initialUsers : List UserRecord :=
  [⟨0, cstr "root", cstr "x", []⟩,
    ⟨1001, cstr "liveuser", cstr "x", [cstr "sudo", cstr "sudonopasswd"]⟩]

example :
    usersFile initialUsers false =
    cstr "0:root:x::\n" ++ cstr "1001:liveuser:x:sudo,sudonopasswd:" := by
  decide +kernel

theorem valid_initialUsers : ∀ r ∈ initialUsers, r.Valid := by
  rw [initialUsers, List.forall_mem_cons, List.forall_mem_singleton]
  refine ⟨⟨?_, ?_, ?_, ?_, ?_⟩, ⟨?_, ?_, ?_, ?_, ?_⟩⟩ <;> decide +kernel

theorem parseUsers_usersFile_initial :
    ∃ users, parseUsers (usersFile initialUsers false) (blankUsers 0) = .ok (users, 2) ∧
      List.Forall₂ UserEntry.Holds (users.take 2) initialUsers :=
  parseUsers_usersFile initialUsers (List.cons_ne_nil _ _) (by decide) valid_initialUsers false _
    (blankUsers_array 0)

end AurorOS.Apps
