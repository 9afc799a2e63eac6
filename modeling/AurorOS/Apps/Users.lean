import AurorOS.Devices.Keyboard
import AurorOS.Fs.Resolve

/-! # The users file

Every line of `/etc/users` is an entry `id:username:password:group,group`.
`parse_users` goes through the file once and writes the entries into the caller's
array, over what that array holds from before.
-/

namespace AurorOS.Apps

open Devices Fs

/-- `UserEntry`: `username` and `password` are arrays of 32 characters, `groups` is one of
    8 such arrays. -/
structure UserEntry where
  userId : UInt64
  username : List UInt8
  password : List UInt8
  groups : List (List UInt8)
  groupCount : Nat
  deriving DecidableEq

namespace UserEntry

/-- The four stores that an entry starts with. -/
def reset (ue : UserEntry) : Except Fault UserEntry := do
  let username ← storeAt ue.username 0 0
  let password ← storeAt ue.password 0 0
  return { ue with userId := 0, username := username, password := password, groupCount := 0 }

/-- `groups[g][i] = c`. -/
def storeGroup (ue : UserEntry) (g i : Nat) (c : UInt8) : Except Fault UserEntry :=
  match ue.groups[g]? with
  | some group => do return { ue with groups := ue.groups.set g (← storeAt group i c) }
  | none => .error .invalidAccess

/-- The C string at `username`, which goes on in the fields behind it if there is no
    terminator in the array. -/
def name (ue : UserEntry) : CStr :=
  (ue.username ++ ue.password ++ ue.groups.flatten ++ [UInt8.ofNat ue.groupCount]).takeWhile (· ≠ 0)

end UserEntry

/-- The entry of a line and the four counters. -/
structure LineState where
  entry : UserEntry
  field : Nat
  charI : Nat
  groupI : Nat
  groupCharI : Nat

namespace LineState

/-- The terminator of a group, after which the next one starts. -/
def endGroup (st : LineState) : Except Fault LineState := do
  let entry ← st.entry.storeGroup st.groupI st.groupCharI 0
  return { st with
    entry := { entry with groupCount := entry.groupCount + 1 }, groupI :=
      st.groupI + 1, groupCharI := 0 }

/-- A colon ends the field. -/
def endField (st : LineState) : Except Fault LineState := do
  let st ←
    if st.field = 1 then do
      pure { st with entry := { st.entry with username := ← storeAt st.entry.username st.charI 0 } }
    else if st.field = 2 then do
      pure { st with entry := { st.entry with password := ← storeAt st.entry.password st.charI 0 } }
    else if st.field = 3 ∧ st.groupCharI > 0 ∧ st.groupI < 8 then st.endGroup
    else pure st
  return { st with charI := 0, field := st.field + 1 }

/-- A round of the inner loop. -/
def step (st : LineState) (c : UInt8) : Except Fault LineState := do
  if c = 58 then st.endField
  else if st.field = 3 then
    if c = 44 ∧ st.groupI < 8 then st.endGroup
    else if st.groupCharI < 31 then
      -- with eight groups complete this is behind the array
      let entry ← st.entry.storeGroup st.groupI st.groupCharI c
      return { st with entry := entry, groupCharI := st.groupCharI + 1 }
    else return st
  else if st.field = 1 ∨ st.field = 2 then
    if st.charI < 31 then
      if st.field = 1 then
        return { st with
          entry := { st.entry with username := ← storeAt st.entry.username st.charI c }, charI :=
            st.charI + 1 }
      else
        return { st with
          entry := { st.entry with password := ← storeAt st.entry.password st.charI c }, charI :=
            st.charI + 1 }
    else return st
  else if st.field = 0 ∧ 48 ≤ c ∧ c ≤ 57 then
    return { st with entry := { st.entry with userId := st.entry.userId * 10 + (c - 48).toUInt64 } }
  else return st

/-- What is done behind the inner loop. -/
def finish (st : LineState) : Except Fault UserEntry := do
  if st.field = 3 ∧ st.groupCharI > 0 ∧ st.groupI < 8 then return (← st.endGroup).entry
  else return st.entry

end LineState

/-- The inner loop; the result has what is left from the newline on. -/
def lineLoop : List UInt8 → LineState → Except Fault (List UInt8 × LineState)
  | [], st => .ok ([], st)
  | c :: rest, st => if c = 10 then .ok (c :: rest, st) else do lineLoop rest (← st.step c)

/-- The outer loop, with room for `left` more entries behind the `count` that are done. -/
def usersLoop : Nat → List UInt8 → Nat → List UserEntry → Except Fault (List UserEntry × Nat)
  | 0, _, count, out => .ok (out, count)
  | left + 1, buf, count, out =>
      if buf = [] then .ok (out, count)
      else
        match out[count]? with
        | none => .error .invalidAccess
        | some ue => do
            let (rest, st) ← lineLoop buf ⟨← ue.reset, 0, 0, 0, 0⟩
            usersLoop left rest.tail (count + 1) (out.set count (← st.finish))

/-- The entries that `parse_users` leaves in the caller's array, and their number. -/
def parseUsers (buf : List UInt8) (out : List UserEntry) : Except Fault (List UserEntry × Nat) :=
  usersLoop 16 buf 0 out

/-- `find_user`. -/
def findUser (name : CStr) (users : List UserEntry) (count : Nat) : Option UserEntry :=
  (users.take count).find? fun ue => ue.name = name

end AurorOS.Apps
