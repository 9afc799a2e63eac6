import AurorOS.Apps.UserFile

/-! # What the login may rely on

Any user can rewrite `/etc/users`.  For each of three things that the login relies on it
is said for which contents of the file they hold: that no store misses the arrays, that
nothing is left of an earlier reading, and that the id 0 is not given away.
-/

namespace AurorOS.Apps

open Devices Fs Lines

variable {buf line field : List UInt8} {fields : List (List UInt8)} {ue a b : UserEntry}
  {out : List UserEntry} {i : Nat}

/-- All stores are to the arrays, and no entry counts more groups than it has room for. -/
def ReadsSafely (buf : List UInt8) (out : List UserEntry) : Prop :=
  ∃ users n, parseUsers buf out = .ok (users, n) ∧ n ≤ 16 ∧ UserArray users ∧
    ∀ ue ∈ users.take n, ue.groupCount ≤ 8

theorem readsSafely_iff (array : UserArray out) : ReadsSafely buf out ↔ AllFit (readLines buf) := by
  constructor
  · rintro ⟨users, n, returned, -⟩
    exact ((parseUsers_eq_ok array).mp returned).1
  · intro fit
    refine ⟨_, _, (parseUsers_eq_ok array).mpr ⟨fit, rfl⟩, length_readLines_le buf,
      array.read buf, ?_⟩
    rw [array.take_read]
    intro ue member
    obtain ⟨ue, -, line, among, rfl⟩ := mem_zipWith member
    exact fit line among

/-- Reading a file is safe exactly if none of its lines goes on behind eight groups. -/
theorem parseUsers_safe_iff (buf : List UInt8) :
    (∀ out, UserArray out → ReadsSafely buf out) ↔ AllFit (readLines buf) :=
  ⟨fun safe => (readsSafely_iff (blankUsers_array 0)).mp (safe _ (blankUsers_array 0)),
    fun fit _ array => (readsSafely_iff array).mpr fit⟩

/-- A character behind the eighth comma. -/
theorem parseUsers_overflow : ¬ ReadsSafely (cstr "1:a:b:,,,,,,,,x") (blankUsers 0) := by
  rw [readsSafely_iff (blankUsers_array 0)]
  decide +kernel

/-- The C string at `password`. -/
def UserEntry.passwordText (ue : UserEntry) : CStr :=
  (ue.password ++ ue.groups.flatten ++ [UInt8.ofNat ue.groupCount]).takeWhile (· ≠ 0)

/-- The C string at `groups[g]`. -/
def UserEntry.groupText (ue : UserEntry) (g : Nat) : CStr :=
  ((ue.groups.drop g).flatten ++ [UInt8.ofNat ue.groupCount]).takeWhile (· ≠ 0)

/-- Two entries say the same. -/
structure SameEntry (a b : UserEntry) : Prop where
  userId : a.userId = b.userId
  groupCount : a.groupCount = b.groupCount
  name : a.name = b.name
  password : a.passwordText = b.passwordText
  groups : ∀ g < a.groupCount, a.groupText g = b.groupText g

/-- The name and the password end in their arrays. -/
structure Terminated (ue : UserEntry) : Prop where
  username : 0 ∈ ue.username
  password : 0 ∈ ue.password

/-- Readings into two arrays say the same, and every name is found in both or in none. -/
def ForgetsPast (buf : List UInt8) : Prop :=
  ∀ out₁ out₂, UserArray out₁ → UserArray out₂ →
    ∃ users₁ users₂ n, parseUsers buf out₁ = .ok (users₁, n) ∧
    parseUsers buf out₂ = .ok (users₂, n) ∧
      List.Forall₂ SameEntry (users₁.take n) (users₂.take n) ∧
      (∀ ue ∈ users₁.take n, Terminated ue) ∧ (∀ ue ∈ users₂.take n, Terminated ue) ∧
      ∀ name, Option.Rel SameEntry (findUser name users₁ n) (findUser name users₂ n)

/-- What is stored for the field, if the line has it, has an end: the field is empty, a colon
    ends it, or a NUL is among its first 31 characters. -/
def Closed (fields : List (List UInt8)) (i : Nat) : Prop :=
  ∀ field, fields[i]? = some field → field = [] ∨ i + 1 < fields.length ∨ 0 ∈ field.take 31

instance (fields : List (List UInt8)) (i : Nat) : Decidable (Closed fields i) :=
  match here : fields[i]? with
  | none => isTrue fun field some => by rw [here] at some; cases some
  | some field => decidable_of_iff (field = [] ∨ i + 1 < fields.length ∨ 0 ∈ field.take 31)
      ⟨fun ends field' same => by rw [here] at same; exact Option.some.inj same ▸ ends,
        fun closed => closed field here⟩

theorem zero_mem_textBytes : 0 ∈ textBytes fields i ↔ Closed fields i := by
  rw [textBytes, Closed]
  cases here : fields[i]? with
  | none =>
      refine ⟨fun _ field present => ?_, fun _ => List.mem_singleton_self 0⟩
      cases present
  | some field =>
      have one : (∀ field', some field = some field' → field' = [] ∨ i + 1 < fields.length ∨
          0 ∈ field'.take 31) ↔
          field = [] ∨ i + 1 < fields.length ∨ 0 ∈ field.take 31 :=
        ⟨fun all => all field rfl, fun ends field' same => Option.some.inj same ▸ ends⟩
      rw [one]
      by_cases ended : field = [] ∨ i + 1 < fields.length
      · simp only [if_pos ended, List.mem_append, List.mem_singleton, or_true, true_iff]
        exact ended.elim .inl fun closed => .inr (.inl closed)
      · simp only [if_neg ended]
        rw [not_or] at ended
        exact ⟨fun inside => .inr (.inr inside),
          fun ends => (ends.resolve_left ended.1).resolve_left ended.2⟩

theorem name_lineEntry (closed : Closed (fieldsOf line) 1) (ue : UserEntry) :
    (lineEntry ue line).name = (textBytes (fieldsOf line) 1).takeWhile (· ≠ 0) := by
  rw [UserEntry.name, List.append_assoc, List.append_assoc]
  exact takeWhile_overlay (zero_mem_textBytes.mpr closed)

theorem passwordText_lineEntry (closed : Closed (fieldsOf line) 2) (ue : UserEntry) :
    (lineEntry ue line).passwordText = (textBytes (fieldsOf line) 2).takeWhile (· ≠ 0) := by
  rw [UserEntry.passwordText, List.append_assoc]
  exact takeWhile_overlay (zero_mem_textBytes.mpr closed)

theorem groupText_lineEntry {g : Nat} (declared : ue.Declared) (fit : GroupsFit line)
    (inside : g < (groupsOf (fieldsOf line)).length) :
    (lineEntry ue line).groupText g = ((groupsOf (fieldsOf line))[g].take 31 ++ [0]).takeWhile
      (· ≠ 0) := by
  have room : g < ue.groups.length := by
    rw [declared.groups]
    exact Nat.lt_of_lt_of_le inside fit
  have stored : ((groupsOf (fieldsOf line)).map fun text => text.take 31 ++ [0])[g]? =
      some ((groupsOf (fieldsOf line))[g].take 31 ++ [0]) := by
    rw [List.getElem?_map, List.getElem?_eq_getElem inside]
    rfl
  have row : (lineEntry ue line).groups[g]? =
      some (overlay ((groupsOf (fieldsOf line))[g].take 31 ++ [0]) ue.groups[g]) :=
    getElem?_layOver_of_lt stored (List.getElem?_eq_getElem room)
  obtain ⟨here, same⟩ := List.getElem?_eq_some_iff.mp row
  rw [UserEntry.groupText, List.drop_eq_getElem_cons here, List.flatten_cons,
    List.append_assoc, same]
  exact takeWhile_overlay (List.mem_append_right _ (List.mem_singleton_self 0))

/-- What a line leaves of the entry of before cannot be read. -/
theorem sameEntry_lineEntry (first : a.Declared) (second : b.Declared) (fit : GroupsFit line)
    (named : Closed (fieldsOf line) 1) (secret : Closed (fieldsOf line) 2) :
    SameEntry (lineEntry a line) (lineEntry b line) where
  userId := rfl
  groupCount := rfl
  name := by rw [name_lineEntry named, name_lineEntry named]
  password := by rw [passwordText_lineEntry secret, passwordText_lineEntry secret]
  groups g inside := by
    rw [groupText_lineEntry first fit inside, groupText_lineEntry second fit inside]

theorem terminated_lineEntry (named : Closed (fieldsOf line) 1) (secret : Closed (fieldsOf line) 2)
    (ue : UserEntry) :
    Terminated (lineEntry ue line) where
  username := List.mem_append_left _ (zero_mem_textBytes.mpr named)
  password := List.mem_append_left _ (zero_mem_textBytes.mpr secret)

/-- What ends in an array of other characters ends in the text that was stored there. -/
theorem closed_of_zero_mem (ended : 0 ∈ overlay (textBytes fields i) (List.replicate 32 65)) :
    Closed fields i := by
  refine zero_mem_textBytes.mp ((List.mem_append.mp ended).resolve_right fun behind => ?_)
  exact absurd (List.eq_of_mem_replicate (List.mem_of_mem_drop behind)) (by decide)

/-- The same name is looked up in entries that say the same. -/
theorem findUser_same {users₁ users₂ : List UserEntry} {n : Nat}
    (same : List.Forall₂ SameEntry (users₁.take n) (users₂.take n)) (name : CStr) :
    Option.Rel SameEntry (findUser name users₁ n) (findUser name users₂ n) := by
  rw [findUser, findUser]
  generalize users₁.take n = entries₁ at same ⊢
  generalize users₂.take n = entries₂ at same ⊢
  induction same with
  | nil => exact .none
  | @cons a b _ _ here _ ih =>
      rw [List.find?_cons, List.find?_cons, here.name]
      cases decide (b.name = name) with
      | true => exact .some here
      | false => exact ih

theorem closed_of_forgetsPast (forgets : ForgetsPast buf) (member : line ∈ readLines buf) :
    GroupsFit line ∧ Closed (fieldsOf line) 1 ∧ Closed (fieldsOf line) 2 := by
  obtain ⟨users₁, users₂, n, -, returned, -, -, terminated, -⟩ :=
    forgets _ _ (blankUsers_array 0) (blankUsers_array 65)
  obtain ⟨fit, same⟩ := (parseUsers_eq_ok (blankUsers_array 65)).mp returned
  obtain ⟨rfl, rfl⟩ := Prod.mk.inj same
  rw [(blankUsers_array 65).take_read] at terminated
  have room : (readLines buf).length ≤ (blankUsers 65).length := length_readLines_le buf
  obtain ⟨ue, blank, entry⟩ := mem_zipWith_of_mem (g := lineEntry) room member
  obtain rfl := List.eq_of_mem_replicate blank
  obtain ⟨username, password⟩ := terminated _ entry
  exact ⟨fit line member, closed_of_zero_mem username, closed_of_zero_mem password⟩

/-- A reading leaves nothing of an earlier one exactly if on each line the groups have room, and
    the name and the password end. -/
theorem forgetsPast_iff (buf : List UInt8) :
    ForgetsPast buf ↔
      ∀ line ∈ readLines buf, GroupsFit line ∧ Closed (fieldsOf line) 1 ∧
      Closed (fieldsOf line) 2 := by
  constructor
  · exact fun forgets line member => closed_of_forgetsPast forgets member
  · intro each out₁ out₂ first second
    have fit : AllFit (readLines buf) := fun line member => (each line member).1
    have same : List.Forall₂ SameEntry
        ((layOver lineEntry (readLines buf) out₁).take (readLines buf).length)
        ((layOver lineEntry (readLines buf) out₂).take (readLines buf).length) := by
      rw [first.take_read, second.take_read]
      refine forall₂_zipWith_zipWith (first.sixteen.trans second.sixteen.symm) ?_
      intro a left b right line among
      obtain ⟨fits, named, secret⟩ := each line among
      exact sameEntry_lineEntry (first.declared a left) (second.declared b right) fits named secret
    have terminated : ∀ out, UserArray out →
        ∀ ue ∈ (layOver lineEntry (readLines buf) out).take (readLines buf).length,
        Terminated ue := by
      intro out array ue member
      rw [array.take_read] at member
      obtain ⟨ue, -, line, among, rfl⟩ := mem_zipWith member
      exact terminated_lineEntry (each line among).2.1 (each line among).2.2 ue
    exact ⟨_, _, _, (parseUsers_eq_ok first).mpr ⟨fit, rfl⟩,
      (parseUsers_eq_ok second).mpr ⟨fit, rfl⟩, same, terminated out₁ first, terminated out₂ second,
      findUser_same same⟩

/-- A name that the line ends in. -/
theorem forgetsPast_open : ¬ ForgetsPast (cstr "5:bob") := by
  intro forgets
  have first : cstr "5:bob" ∈ readLines (cstr "5:bob") := by decide +kernel
  exact absurd (closed_of_forgetsPast forgets first).2.1 (by decide +kernel)

/-- One or more digits that denote the number 0. -/
def DenotesZero (field : List UInt8) : Prop :=
  field ≠ [] ∧ (∀ c ∈ field, 48 ≤ c ∧ c ≤ 57) ∧ digitsValue field = 0

instance (field : List UInt8) : Decidable (DenotesZero field) :=
  inferInstanceAs (Decidable (_ ∧ _ ∧ _))

/-- Entry by entry, the id 0 is only for a line whose id is a 0. -/
def RootIsMeant (buf : List UInt8) (out : List UserEntry) : Prop :=
  ∃ users n, parseUsers buf out = .ok (users, n) ∧
    List.Forall₂ (fun ue line => ue.userId = 0 → DenotesZero ((fieldsOf line).headD []))
      (users.take n) (readLines buf)

/-- The digits of the id form no multiple of 2^64, or the id is one or more zeros. -/
def IdIsMeant (line : List UInt8) : Prop :=
  ¬ 2 ^ 64 ∣ digitsValue ((fieldsOf line).headD []) ∨
    (fieldsOf line).headD [] ≠ [] ∧ ∀ c ∈ (fieldsOf line).headD [], c = 48

instance (line : List UInt8) : Decidable (IdIsMeant line) := inferInstanceAs (Decidable (_ ∨ _))

theorem idOf_eq_zero_iff (field : List UInt8) : idOf field = 0 ↔ 2 ^ 64 ∣ digitsValue field := by
  rw [idOf_eq, ← UInt64.toNat_inj, UInt64.toNat_ofNat']
  exact (Nat.dvd_iff_mod_eq_zero).symm

/-- Digits that come to 0 are zeros. -/
theorem denotesZero_iff (field : List UInt8) :
    DenotesZero field ↔ field ≠ [] ∧ ∀ c ∈ field, c = 48 := by
  have zeros : ∀ (ds : List UInt8) (v : Nat), (∀ c ∈ ds, 48 ≤ c ∧ c ≤ 57) →
      (ds.foldl (fun v c => v * 10 + (c - 48).toNat) v = 0 ↔ v = 0 ∧ ∀ c ∈ ds, c = 48) := by
    intro ds
    induction ds with
    | nil => exact fun v _ =>
        ⟨fun zero => ⟨zero, fun c none => absurd none List.not_mem_nil⟩, fun both => both.1⟩
    | cons c rest ih =>
        intro v digits
        rw [List.forall_mem_cons] at digits
        have zero : v * 10 + (c - 48).toNat = 0 ↔ v = 0 ∧ c = 48 := by
          have low : (48 : UInt8).toNat ≤ c.toNat := UInt8.le_iff_toNat_le.mp digits.1.1
          rw [UInt8.toNat_sub_of_le _ _ digits.1.1, ← UInt8.toNat_inj]
          change v * 10 + (c.toNat - 48) = 0 ↔ v = 0 ∧ c.toNat = 48
          change 48 ≤ c.toNat at low
          omega
        rw [List.foldl_cons, ih _ digits.2, zero, List.forall_mem_cons, and_assoc]
  constructor
  · rintro ⟨nonempty, digits, zero⟩
    rw [digitsValue, List.filter_eq_self.mpr fun c member =>
      decide_eq_true (digits c member)] at zero
    exact ⟨nonempty, ((zeros field 0 digits).mp zero).2⟩
  · rintro ⟨nonempty, all⟩
    have digits : ∀ c ∈ field, 48 ≤ c ∧ c ≤ 57 := by
      intro c member
      rw [all c member]
      decide
    refine ⟨nonempty, digits, ?_⟩
    rw [digitsValue, List.filter_eq_self.mpr fun c member => decide_eq_true (digits c member)]
    exact (zeros field 0 digits).mpr ⟨rfl, all⟩

theorem idIsMeant_iff (line : List UInt8) :
    IdIsMeant line ↔ (idOf ((fieldsOf line).headD []) = 0 →
    DenotesZero ((fieldsOf line).headD [])) := by
  rw [IdIsMeant, idOf_eq_zero_iff, denotesZero_iff, imp_iff_not_or]

theorem rootIsMeant_iff (array : UserArray out) :
    RootIsMeant buf out ↔ ∀ line ∈ readLines buf, GroupsFit line ∧ IdIsMeant line := by
  constructor
  · rintro ⟨users, n, returned, meant⟩ line member
    obtain ⟨fit, same⟩ := (parseUsers_eq_ok array).mp returned
    obtain ⟨rfl, rfl⟩ := Prod.mk.inj same
    rw [array.take_read] at meant
    obtain ⟨ue, -, here⟩ := of_forall₂_zipWith meant member
    exact ⟨fit line member, (idIsMeant_iff line).mpr here⟩
  · intro each
    refine ⟨_, _, (parseUsers_eq_ok array).mpr ⟨fun line member => (each line member).1, rfl⟩, ?_⟩
    rw [array.take_read]
    refine forall₂_zipWith (array.sixteen.symm ▸ length_readLines_le buf) ?_
    exact fun ue _ line member => (idIsMeant_iff line).mp (each line member).2

/-- The id 0 is given on purpose only exactly if on each line the groups have room, and the digits
    of the id form another number modulo 2^64 unless the id is written as zeros. -/
theorem parseUsers_root_iff (buf : List UInt8) :
    (∀ out, UserArray out → RootIsMeant buf out) ↔ ∀ line ∈ readLines buf, GroupsFit line ∧
    IdIsMeant line :=
  ⟨fun meant => (rootIsMeant_iff (blankUsers_array 0)).mp (meant _ (blankUsers_array 0)),
    fun each _ array => (rootIsMeant_iff array).mpr each⟩

/-- A blank line. -/
theorem parseUsers_blankLine : ¬ RootIsMeant (cstr "\n") (blankUsers 0) := by
  rw [rootIsMeant_iff (blankUsers_array 0)]
  decide +kernel

end AurorOS.Apps
