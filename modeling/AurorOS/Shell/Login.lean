import AurorOS.Apps.UserRecords
import AurorOS.Apps.CalculatorBuilds
import AurorOS.Apps.LoginSafety
import AurorOS.Shell.Evaluate
import AurorOS.Shell.References

/-! # Logging in

`shell_main` starts in the user's home directory, reads lines and evaluates them until one of
them ends it.  `terminal_main` reads `/etc/users` anew in every round, asks for a name and a
password, and runs a shell for whoever gives those of an entry.  Its array of entries and the name
are kept from round to round.
-/

namespace AurorOS.Shell

open Fs Devices Apps Lines Program Runs

/-- The loop of `shell_main`, `fuel` rounds of it at most. -/
def shellLoop (evaluate : List UInt8 → Ptr → Kernel (EvalResult × Ptr)) (user : CStr) :
    Nat → Ptr → Kernel Nat
  | 0, _ => Program.stop (.fault .outOfFuel)
  | fuel + 1, currentDir => do
      prompt user currentDir
      let buffer ← readStr (freshArray 128) 128 false 0x07 []
      let (result, currentDir) ← evaluate buffer currentDir
      match result with
      | .normal => shellLoop evaluate user fuel currentDir
      | .exitShell => return 0
      | .recursiveNormalExit => return EvalResult.recursiveNormalExit.value
      | .exitKernelMainLoop =>
          Program.stop (.fault (.kernelpanic "KERNEL_MAIN_LOOP_EXITED"
            ("This shall not happen unless you're using\n a developer command 'kptesting' on a beta build of " ++
              "AurorOS.\n If this screen was not issued by that command, please report\n an issue.")))

/-- `fuel` bounds the rounds of a shell, the shells within it and `fs_delete`; what the slots hold
    that a call does not fill may depend on the whole machine. -/
def shellMain (arch : Arch) (leftover : Machine → Nat → Nat → Option CStr) (user : CStr)
    (userId : UInt64) :
    Nat → Kernel Nat
  | 0 => Program.stop (.fault .outOfFuel)
  | fuel + 1 => do
      let currentDir ← ofFs (startDir · user)
      let evaluate := fun buffer currentDir m =>
        shellEvaluateCommand ⟨arch, fuel, userId, shellMain arch leftover user userId fuel⟩
          (leftover m) buffer
          currentDir m
      shellLoop evaluate user fuel currentDir

/-- What `terminal_main` keeps: its array `users`, and the static `username` and
    `welcome_msg_displayed`. -/
structure Terminal where
  users : List UserEntry
  username : List UInt8
  welcomed : Bool

/-- Carries out a store of `emulated_fs_read`. -/
def storeOut (s : FsState) (n : FsNode) (out : List UInt8) : OutStore → Except Fault (List UInt8)
  | .copy i =>
      match (s.bufs n.data).bind (·[i]?) with
      | some c => storeAt out i c
      | none => .error .invalidAccess
  | .terminate i => storeAt out i 0

/-- `fs_read`; the result has what the caller's array holds then. -/
def fsRead (s : FsState) (file : Ptr) (out : List UInt8) (max : UInt32) :
    Except Fault (Int × List UInt8) := do
  let n ← s.deref file
  let (count, stores) := emulatedFsRead n max
  return (count, ← stores.foldlM (storeOut s n) out)

def usersMissing {α : Type} : Kernel α :=
  Program.stop (.fault (.kernelpanic "USERS_MISSING"
    "Cannot read the users file (/etc/users)\n or it is invalid. Login aborted."))

/-- The first part of a round: the characters of `buf` that are parsed. -/
def readUsers : Kernel (List UInt8) := do
  let node ← ofFs fun s => fsResolve s (cstr "/etc/users") s.fsRoot
  if node = 0 then usersMissing
  else
    let (len, buf) ← ofFs (fsRead · node (freshArray 2048) 2047)
    if len < 0 then usersMissing
    else
      let buf ← ofFs fun _ => storeAt buf len.toNat 0
      return buf.take len.toNat

/-- A statement under a condition. -/
def onlyIf (c : Prop) [Decidable c] (x : Kernel Unit) : Kernel Unit := if c then x else pure ()

/-- The switch on `AUROR_BETA_STATE`. -/
def printState (betaState : Nat) : Kernel Unit :=
  match betaState with
  | 1 => printWarn "You are using early build of AurorOS!"
  | 2 => printWarn "You are using public beta build of AurorOS!"
  | 3 => printWarn "You are using release candidate build of AurorOS!"
  | _ => onScreen (·.printTagged (cstr "OK") 0x02
      (cstr "You're running a stable version of AurorOS!"))

/-- `liveuser` says that there is an entry of that name. -/
def welcome (arch : Arch) (autologin liveuser : Bool) : Kernel Unit := do
  println "" 0x07
  printState 1
  onlyIf (arch = .x86_64)
    (printWarn "You are using an architecture that is experimental in AurorOS.")
  println "" 0x07
  println "Welcome to AurorOS!" 0x0a
  onlyIf (liveuser ∧ autologin)
    (println "Automatic login is enabled for the liveuser account." 0x07)
  println "" 0x07

/-- A message between two blank lines. -/
def complain (message : String) : Kernel Unit := do
  println "" 0x07
  printError message
  println "" 0x07

/-- What is shown in front of the password. -/
def askPassword (username : CStr) : Kernel Unit := do
  onScreen (·.print username 0x07)
  print "@" 0x07
  print "auror" 0x07
  print " password: " 0x07

/-- A round up to the shell, with the entry that the shell is for; `autologin` is
    `AUROR_LIVEUSER_AUTOLOGIN`. -/
def reauth (arch : Arch) (autologin : Bool) (t : Terminal) : Kernel (Option UserEntry × Terminal) :=
  do
  let text ← readUsers
  let (users, count) ← ofFs fun _ => parseUsers text t.users
  onlyIf (t.welcomed = false)
    (welcome arch autologin (findUser (cstr "liveuser") users count).isSome)
  print "AurorOS login: " 0x07
  let username ← readStr t.username 32 false 0x07 []
  let t : Terminal := ⟨users, username, true⟩
  if username.headD 0 = 0 then
    complain "An username has to be provided."
    return (none, t)
  else
    let user := findUser (cString username) users count
    askPassword (cString username)
    if user.isSome ∧ cString username = cstr "liveuser" ∧ autologin then
      println "(automatic login)" 0x07
      println "" 0x07
      return (user, t)
    else
      let passwd ← readStr (List.replicate 32 0) 32 true 0x07 []
      if user.all (·.passwordText ≠ cString passwd) then
        complain "Login incorrect"
        return (none, t)
      else
        println "" 0x07
        return (user, t)

/-- The rounds, `fuel` of them at most; there is no way out. -/
def terminalLoop (arch : Arch) (autologin : Bool) (shell : CStr → UInt64 → Kernel Nat) :
    Nat → Terminal → Kernel Empty
  | 0, _ => Program.stop (.fault .outOfFuel)
  | fuel + 1, t => do
      let (user, t) ← reauth arch autologin t
      match user with
      | none => terminalLoop arch autologin shell fuel t
      | some user =>
          let _ ← shell user.name user.userId
          println "" 0x07
          terminalLoop arch autologin shell fuel t

/-- `users` is what the array holds when the function is entered. -/
def terminalMain (arch : Arch) (leftover : Machine → Nat → Nat → Option CStr)
    (users : List UserEntry) (fuel : Nat) :
    Kernel Empty :=
  terminalLoop arch true (fun user userId => shellMain arch leftover user userId fuel) fuel
    ⟨users, List.replicate 32 0, false⟩

/-- What is read of a file into an array with room for 2047 characters. -/
def Content (s : FsState) (n : FsNode) (text : List UInt8) : Prop :=
  if n.data = 0 ∨ n.size = 0 then text = []
  else ∃ data, s.bufs n.data = some data ∧ min n.size 2046 ≤ data.length ∧
    text = data.take (min n.size 2046)

/-- What is read of the users file. -/
def UsersText (s : FsState) (text : List UInt8) : Prop :=
  ∃ p n, fsResolve s (cstr "/etc/users") s.fsRoot = .ok p ∧ p ≠ 0 ∧ s.nodes p = some n ∧
    n.type = .file ∧
    Content s n text

/-- The entries of a text, in an array that was in use before. -/
def entriesOf (past : List UserEntry) (text : List UInt8) : List UserEntry :=
  List.zipWith lineEntry past (readLines text)

/-- What the lines to come make of a round: it waits for more of them, nobody gets in, or somebody
    does. -/
inductive Verdict where
  | waits
  | again (later : List (List Press))
  | enters (user : UserEntry) (later : List (List Press))
  deriving DecidableEq

/-- The next line is compared with the password. -/
def judgePassword (user : Option UserEntry) : List (List Press) → Verdict
  | [] => .waits
  | line :: later =>
      match user with
      | some user => if user.passwordText = edited 31 [] line then .enters user later
          else .again later
      | none => .again later

/-- The first entry with the name that is typed is meant, and `liveuser` need not give a
    password. -/
def judge (autologin : Bool) (entries : List UserEntry) : List (List Press) → Verdict
  | [] => .waits
  | line :: later =>
      let name := edited 31 [] line
      if name = [] then .again later
      else
        match entries.find? (·.name = name) with
        | some user =>
            if name = cstr "liveuser" ∧ autologin then .enters user later
              else judgePassword (some user) later
        | none => judgePassword none later

/-- The state of a terminal: its arrays have their sizes. -/
structure TerminalOk (t : Terminal) : Prop where
  users : UserArray t.users
  username : t.username.length = 32

variable {α : Type} {arch : Arch} {autologin : Bool} {t t' : Terminal} {m m' : Machine}
  {s : FsState} {n : FsNode} {text data out : List UInt8} {x y : Kernel Unit}

/-- The program changes the screen and nothing else. -/
def Prints (x : Kernel Unit) : Prop :=
  ∀ m, ∃ screen, x m = (.ok (), { m with console := { m.console with screen := screen } })

theorem prints_onScreen (f : Screen → Screen) : Prints (onScreen f) :=
  fun m => ⟨f m.console.screen, rfl⟩

theorem prints_print (str : String) (color : UInt8) : Prints (print str color) := prints_onScreen _

theorem prints_println (str : String) (color : UInt8) : Prints (println str color) :=
  prints_onScreen _

namespace Prints

theorem next (first : Prints x) (second : Prints y) : Prints (do x; y) := by
  intro m
  obtain ⟨screen, ran⟩ := first m
  obtain ⟨screen', ran'⟩ := second { m with console := { m.console with screen := screen } }
  exact ⟨screen', (bind_of_ok ran).trans ran'⟩

theorem onlyIf {c : Prop} [Decidable c] (prints : Prints x) : Prints (onlyIf c x) := by
  by_cases holds : c
  · rw [Shell.onlyIf, if_pos holds]
    exact prints
  · rw [Shell.onlyIf, if_neg holds]
    exact fun m => ⟨m.console.screen, rfl⟩

/-- What follows sees the same files, blocks and keys. -/
theorem goes {y : Kernel α} (first : Prints x) (m : Machine) :
    ∃ u : Machine, (x >>= fun _ => y) m = y u ∧ u.fs = m.fs ∧ u.blocks = m.blocks ∧
    Apps.typed u = Apps.typed m := by
  obtain ⟨screen, ran⟩ := first m
  exact ⟨_, bind_of_ok ran, rfl, rfl, rfl⟩

end Prints

theorem prints_printState (betaState : Nat) : Prints (printState betaState) := by
  unfold printState
  split <;> exact prints_onScreen _

theorem prints_welcome (arch : Arch) (autologin liveuser : Bool) :
    Prints (welcome arch autologin liveuser) := by
  refine (prints_onScreen _).next ((prints_printState 1).next (Prints.next ?_ ?_))
  · exact (prints_onScreen _).onlyIf
  · refine (prints_onScreen _).next ((prints_onScreen _).next (Prints.next ?_ (prints_onScreen _)))
    exact (prints_onScreen _).onlyIf

theorem prints_complain (message : String) : Prints (complain message) :=
  (prints_onScreen _).next ((prints_onScreen _).next (prints_onScreen _))

theorem prints_askPassword (username : CStr) : Prints (askPassword username) :=
  (prints_onScreen _).next ((prints_onScreen _).next ((prints_onScreen _).next (prints_onScreen _)))

theorem storeAt_eq_ok {a b : List UInt8} {i : Nat} {c : UInt8} :
    storeAt a i c = .ok b ↔ i < a.length ∧ a.set i c = b := by
  rw [storeAt]
  split
  · rename_i inside
    rw [Except.ok.injEq]
    exact ⟨fun same => ⟨inside, same⟩, fun both => both.2⟩
  · rename_i outside
    exact ⟨fun stored => (by cases stored), fun both => absurd both.1 outside⟩

theorem storeOut_copy_eq_ok {out' : List UInt8} {i : Nat} :
    storeOut s n out (.copy i) = .ok out' ↔
      i < out.length ∧ ∃ c, ((s.bufs n.data).getD [])[i]? = some c ∧ out.set i c = out' := by
  have same : (s.bufs n.data).bind (·[i]?) = ((s.bufs n.data).getD [])[i]? := by
    cases s.bufs n.data with
    | none => rfl
    | some data => rfl
  rw [storeOut, same]
  cases ((s.bufs n.data).getD [])[i]? with
  | none =>
      refine ⟨fun stored => (by cases stored), ?_⟩
      rintro ⟨-, c, none, -⟩
      cases none
  | some c =>
      rw [storeAt_eq_ok]
      refine and_congr_right fun _ => ⟨fun same => ⟨c, rfl, same⟩, ?_⟩
      rintro ⟨_, here, same⟩
      exact Option.some.inj here ▸ same

/-- The stores of `memcpy` go through exactly if the array and the file are long enough. -/
theorem memcpyStores_eq_ok {out' : List UInt8} {k : Nat} :
    (memcpyStores k).foldlM (storeOut s n) out = .ok out' ↔
      k ≤ out.length ∧ k ≤ ((s.bufs n.data).getD []).length ∧
        overlay (((s.bufs n.data).getD []).take k) out = out' := by
  generalize same : (s.bufs n.data).getD [] = data
  induction k generalizing out' with
  | zero =>
      rw [List.take_zero, overlay_nil]
      exact ⟨fun same => ⟨Nat.zero_le _, Nat.zero_le _, Except.ok.inj same⟩,
        fun all => congrArg Except.ok all.2.2⟩
  | succ k ih =>
      have last : memcpyStores (k + 1) = memcpyStores k ++ [.copy k] := by
        rw [memcpyStores, List.range_succ, List.map_append]
        rfl
      rw [last, List.foldlM_append, Outcome.bind_eq_ok]
      simp only [ih, List.foldlM_cons, List.foldlM_nil, bind_pure, storeOut_copy_eq_ok, same]
      constructor
      · rintro ⟨_, ⟨room, enough, rfl⟩, inside, c, here, rfl⟩
        obtain ⟨below, rfl⟩ := List.getElem?_eq_some_iff.mp here
        have length : (data.take k).length = k := List.length_take_of_le enough
        rw [length_overlay (length.symm ▸ room)] at inside
        refine ⟨inside, below, ?_⟩
        have set := @set_overlay _ (data.take k) out (length.symm ▸ inside) data[k]
        rw [length] at set
        rw [set, List.take_succ_eq_append_getElem below]
      · rintro ⟨room, enough, rfl⟩
        have length : (data.take k).length = k := List.length_take_of_le (Nat.le_of_succ_le enough)
        refine ⟨_, ⟨Nat.le_of_succ_le room, Nat.le_of_succ_le enough, rfl⟩, ?_, data[k], ?_, ?_⟩
        · rw [length_overlay (length.symm ▸ Nat.le_of_succ_le room)]
          exact room
        · exact List.getElem?_eq_getElem enough
        · have set := @set_overlay _ (data.take k) out (length.symm ▸ room) data[k]
          rw [length] at set
          rw [set, List.take_succ_eq_append_getElem enough]

theorem Content.length_le (content : Content s n text) : text.length ≤ 2046 := by
  rw [Content] at content
  split at content
  · rw [content]
    exact Nat.zero_le _
  · obtain ⟨data, -, -, rfl⟩ := content
    exact (List.length_take_le _ _).trans (Nat.min_le_right _ _)

/-- The count and the stores of a file with data. -/
theorem emulatedFsRead_file (isFile : n.type = .file) (full : ¬ (n.data = 0 ∨ n.size = 0)) :
    emulatedFsRead n 2047 =
      (((min n.size 2046 : Nat) : Int),
      memcpyStores (min n.size 2046) ++ [.terminate (min n.size 2046)]) := by
  have copied : (toCopy n 2047).toNat = min n.size 2046 := toCopy_eq n (by decide)
  have small : min n.size 2046 < 2 ^ 31 := by omega
  rw [emulatedFsRead, if_neg (not_not.mpr isFile), if_neg full]
  simp only [toInt32, copied, if_pos small]

/-- `fs_read` leaves the content with a terminator, or says that it is no file. -/
theorem fsRead_eq_ok {p : Ptr} {len : Int} {buf : List UInt8} (present : s.nodes p = some n)
    (room : out.length = 2048) :
    fsRead s p out 2047 = .ok (len, buf) ↔
      if n.type = .file then ∃ text, Content s n text ∧ len = text.length ∧
      overlay (text ++ [0]) out = buf else len = -1 ∧ buf = out := by
  rw [fsRead, Outcome.bind_of_ok (Fs.deref_eq_ok.mpr present)]
  by_cases isFile : n.type = .file
  · rw [if_pos isFile]
    by_cases empty : n.data = 0 ∨ n.size = 0
    · have read : emulatedFsRead n 2047 = (0, [.terminate 0]) := by
        rw [emulatedFsRead, if_neg (not_not.mpr isFile), if_pos empty]
        rfl
      have some_ : ([] : List UInt8).length < out.length := by
        rw [room]
        decide
      have stored : storeAt out 0 0 = .ok (overlay ([] ++ [0]) out) := storeAt_overlay some_ 0
      simp only [read, Content, if_pos empty, List.foldlM_cons, List.foldlM_nil, storeOut, stored]
      constructor
      · intro same
        obtain ⟨rfl, rfl⟩ := Prod.mk.inj (Except.ok.inj same)
        exact ⟨[], rfl, rfl, rfl⟩
      · rintro ⟨_, rfl, rfl, rfl⟩
        rfl
    · have some_ : 0 < min n.size 2046 := by omega
      simp only [emulatedFsRead_file isFile empty, Content, if_neg empty, List.foldlM_append,
        List.foldlM_cons, List.foldlM_nil, bind_pure, storeOut, Outcome.bind_eq_ok,
        memcpyStores_eq_ok, Outcome.pure_eq_ok]
      constructor
      · rintro ⟨buf', ⟨_, ⟨_, enough, rfl⟩, stored⟩, same⟩
        obtain ⟨rfl, rfl⟩ := Prod.mk.inj same
        cases here : s.bufs n.data with
        | none =>
            rw [here] at enough
            exact absurd (some_.trans_le enough) (Nat.lt_irrefl 0)
        | some data =>
            simp only [here, Option.getD_some] at enough stored
            have length : (data.take (min n.size 2046)).length = min n.size 2046 :=
              List.length_take_of_le enough
            have ended := @storeAt_overlay (data.take (min n.size 2046)) out (by omega) 0
            rw [length, stored] at ended
            exact ⟨_, ⟨data, rfl, enough, rfl⟩, congrArg Nat.cast length.symm,
              (Except.ok.inj ended).symm⟩
      · rintro ⟨_, ⟨data, here, enough, rfl⟩, rfl, rfl⟩
        have length : (data.take (min n.size 2046)).length = min n.size 2046 :=
          List.length_take_of_le enough
        have ended := @storeAt_overlay (data.take (min n.size 2046)) out (by omega) 0
        simp only [here, Option.getD_some]
        rw [length] at ended ⊢
        exact ⟨_, ⟨_, ⟨by omega, enough, rfl⟩, ended⟩, rfl⟩
  · rw [if_neg isFile, emulatedFsRead, if_pos isFile]
    constructor
    · intro same
      obtain ⟨rfl, rfl⟩ := Prod.mk.inj (Except.ok.inj same)
      exact ⟨rfl, rfl⟩
    · rintro ⟨rfl, rfl⟩
      rfl

/-- The terminator is stored once more. -/
theorem storeAt_again (room : text.length < out.length) :
    storeAt (overlay (text ++ [0]) out) text.length 0 = .ok (overlay (text ++ [0]) out) := by
  have size : (overlay (text ++ [0]) out).length = out.length :=
    length_overlay (by rw [List.length_append, List.length_singleton]; exact room)
  rw [storeAt, size, if_pos room, set_overlay_concat room]

theorem take_overlay_concat (c : UInt8) : (overlay (text ++ [c]) out).take text.length = text := by
  rw [overlay, List.append_assoc, List.take_left]

/-- Reading the users file succeeds with what it holds, and nothing changes. -/
theorem readUsers_eq_ok : readUsers m = (.ok text, m') ↔ m' = m ∧ UsersText m.fs text := by
  have size : (freshArray 2048).length = 2048 := by rw [freshArray, List.length_replicate]
  rw [readUsers, bind_eq_ok]
  constructor
  · rintro ⟨p, u, resolved, rest⟩
    obtain ⟨found, rfl⟩ := ofFs_eq_ok.mp resolved
    split at rest
    · exact absurd rest stop_ne_ok
    rename_i nonnull
    obtain ⟨⟨len, buf⟩, u, ran, rest⟩ := bind_eq_ok.mp rest
    obtain ⟨read, rfl⟩ := ofFs_eq_ok.mp ran
    obtain ⟨n, here, -⟩ := Outcome.bind_eq_ok.mp read
    have present := Fs.deref_eq_ok.mp here
    rw [fsRead_eq_ok present size] at read
    by_cases isFile : n.type = .file
    · rw [if_pos isFile] at read
      obtain ⟨text', content, rfl, rfl⟩ := read
      have short := content.length_le
      dsimp only at rest
      rw [if_neg (by omega)] at rest
      obtain ⟨buf, u, ran, rest⟩ := bind_eq_ok.mp rest
      obtain ⟨stored, rfl⟩ := ofFs_eq_ok.mp ran
      obtain ⟨value, rfl⟩ := pure_eq_ok.mp rest
      rw [Int.toNat_natCast, storeAt_again (by omega)] at stored
      obtain rfl := Except.ok.inj stored
      rw [Int.toNat_natCast, take_overlay_concat] at value
      exact ⟨rfl, p, n, found, nonnull, present, isFile, value ▸ content⟩
    · rw [if_neg isFile] at read
      obtain ⟨rfl, rfl⟩ := read
      dsimp only at rest
      rw [if_pos (by decide)] at rest
      exact absurd rest stop_ne_ok
  · rintro ⟨rfl, p, n, found, nonnull, present, isFile, content⟩
    have short := content.length_le
    have read : fsRead m'.fs p (freshArray 2048) 2047 =
        .ok ((text.length : Int), overlay (text ++ [0]) (freshArray 2048)) := by
      rw [fsRead_eq_ok present size, if_pos isFile]
      exact ⟨text, content, rfl, rfl⟩
    refine ⟨p, m', ofFs_eq_ok.mpr ⟨found, rfl⟩, ?_⟩
    rw [if_neg nonnull, bind_of_ok (ofFs_eq_ok.mpr ⟨read, rfl⟩)]
    dsimp only
    rw [if_neg (by omega), Int.toNat_natCast,
      bind_of_ok (ofFs_eq_ok.mpr ⟨storeAt_again (by omega), rfl⟩), take_overlay_concat]
    rfl

/-- A line of up to 31 characters is the next of the lines that are typed, or there is none. -/
theorem readLine_typed {buffer : List UInt8} (size : buffer.length = 32) (secret : Bool)
    (m : Machine) :
    (Apps.typed m = [] ∧ ∃ m', readStr buffer 32 secret 0x07 [] m = (.error .waiting, m')) ∨
    ∃ line buffer' m', readStr buffer 32 secret 0x07 [] m = (.ok buffer', m') ∧
    buffer'.length = 32 ∧
      cString buffer' = edited 31 [] line ∧ (buffer'.headD 0 = 0 ↔ edited 31 [] line = []) ∧
      Apps.typed m = line :: Apps.typed m' ∧ m'.fs = m.fs ∧ m'.blocks = m.blocks := by
  have positive : 1 ≤ (32 : UInt16).toNat := by decide
  have array : (32 : UInt16).toNat ≤ buffer.length := size.symm ▸ le_rfl
  rcases readStr_outcome positive array secret 0x07 m.console with
    ⟨none, console', waits⟩ | ⟨line, junk, console', returns, plain, -, same, lines⟩
  · refine .inl ⟨none, { m with console := console' }, ?_⟩
    rw [readStr, onConsole, zoom, waits]
  · refine .inr ⟨line, _, { m with console := console' }, ?_, same.trans size,
      cString_of_ended plain junk, ?_, lines, rfl, rfl⟩
    · rw [readStr, onConsole, zoom, returns]
    · change 0 ∉ edited 31 [] line at plain
      change (edited 31 [] line ++ 0 :: junk).headD 0 = 0 ↔ _
      generalize edited 31 [] line = typed at plain ⊢
      cases typed with
      | nil => exact ⟨fun _ => rfl, fun _ => rfl⟩
      | cons c rest =>
          refine ⟨fun zero => absurd ?_ plain, fun none => by cases none⟩
          exact List.mem_cons.mpr (.inl zero.symm)

/-- What the run of a round does if it comes to a verdict. -/
def Verdict.Given (m : Machine)
    (r : Except Stop (Option UserEntry × Terminal) × Machine) : Verdict → Prop
  | .waits => ∃ m', r = (.error .waiting, m')
  | .again later =>
      ∃ t' m', r = (.ok (none, t'), m') ∧ TerminalOk t' ∧ m'.fs = m.fs ∧ m'.blocks = m.blocks ∧
        Apps.typed m' = later
  | .enters user later =>
      ∃ t' m', r = (.ok (some user, t'), m') ∧ TerminalOk t' ∧ m'.fs = m.fs ∧ m'.blocks = m.blocks ∧
        Apps.typed m' = later

namespace Verdict

/-- It depends on the files and the blocks only. -/
theorem Given.of_same {u : Machine} {v : Verdict}
    {r : Except Stop (Option UserEntry × Terminal) × Machine} (given : v.Given u r)
    (files : u.fs = m.fs) (blocks : u.blocks = m.blocks) : v.Given m r := by
  cases v with
  | waits => exact given
  | again later =>
      obtain ⟨t', m', returned, ok, files', blocks', keys⟩ := given
      exact ⟨t', m', returned, ok, files'.trans files, blocks'.trans blocks, keys⟩
  | enters user later =>
      obtain ⟨t', m', returned, ok, files', blocks', keys⟩ := given
      exact ⟨t', m', returned, ok, files'.trans files, blocks'.trans blocks, keys⟩

theorem given_again (ok : TerminalOk t) :
    (again (Apps.typed m)).Given m ((pure (none, t) : Kernel (Option UserEntry × Terminal)) m) :=
  ⟨t, m, rfl, ok, rfl, rfl, rfl⟩

theorem given_enters (user : UserEntry) (ok : TerminalOk t) :
    (enters user (Apps.typed m)).Given m
      ((pure (some user, t) : Kernel (Option UserEntry × Terminal)) m) :=
  ⟨t, m, rfl, ok, rfl, rfl, rfl⟩

/-- Something is printed first. -/
theorem given_printed {v : Verdict} {round : Kernel (Option UserEntry × Terminal)}
    (prints : Prints x) (rest : ∀ u, Apps.typed u = Apps.typed m → v.Given u (round u)) :
    v.Given m ((x >>= fun _ => round) m) := by
  obtain ⟨u, ran, files, blocks, keys⟩ := prints.goes m
  rw [ran]
  exact (rest u keys).of_same files blocks

/-- A line is read first, if there is one. -/
theorem given_line (judged : List (List Press) → Verdict) {buffer : List UInt8}
    {round : List UInt8 → Kernel (Option UserEntry × Terminal)} (size : buffer.length = 32)
    (secret : Bool) (none : judged [] = .waits)
    (rest : ∀ line buffer' u, buffer'.length = 32 → cString buffer' = edited 31 [] line →
      (buffer'.headD 0 = 0 ↔ edited 31 [] line = []) →
      (judged (line :: Apps.typed u)).Given u (round buffer' u)) :
    (judged (Apps.typed m)).Given m ((readStr buffer 32 secret 0x07 [] >>= round) m) := by
  rcases readLine_typed size secret m with
    ⟨nothing, m', waits⟩ | ⟨line, buffer', u, returns, size', read, empty, lines, files, blocks⟩
  · rw [nothing, none]
    exact ⟨m', bind_of_error waits⟩
  · rw [bind_of_ok returns, lines]
    exact (rest line buffer' u size' read empty).of_same files blocks

end Verdict

theorem judge_unnamed {entries : List UserEntry} {line : List Press} {later : List (List Press)}
    (unnamed : edited 31 [] line = []) :
    judge autologin entries (line :: later) = .again later := by
  rw [judge]
  simp only [if_pos unnamed]

theorem judge_auto {entries : List UserEntry} {line : List Press} {later : List (List Press)}
    {user : UserEntry} (named : edited 31 [] line ≠ [])
    (found : entries.find? (·.name = edited 31 [] line) = some user)
    (auto : edited 31 [] line = cstr "liveuser" ∧ autologin = true) :
    judge autologin entries (line :: later) = .enters user later := by
  rw [judge]
  simp only [if_neg named, found, if_pos auto]

theorem judge_asked {entries : List UserEntry} {line : List Press} {later : List (List Press)}
    (named : edited 31 [] line ≠ [])
    (asked : ¬ ((entries.find? (·.name = edited 31 [] line)).isSome = true ∧
    edited 31 [] line = cstr "liveuser" ∧ autologin = true)) :
    judge autologin entries (line :: later) =
    judgePassword (entries.find? (·.name = edited 31 [] line)) later := by
  rw [judge]
  cases found : entries.find? (·.name = edited 31 [] line) with
  | none => simp only [if_neg named]
  | some user =>
      rw [found] at asked
      simp only [if_neg named, if_neg fun auto => asked ⟨rfl, auto⟩]

/-- The end of a round, from the password on. -/
theorem password_given (ok : TerminalOk t) (user : Option UserEntry) :
    (judgePassword user (Apps.typed m)).Given m ((do
      let passwd ← readStr (List.replicate 32 0) 32 true 0x07 []
      if user.all (fun (known : UserEntry) => known.passwordText ≠ cString passwd) then
        complain "Login incorrect"
        return (none, t)
      else
        println "" 0x07
        return (user, t)) m) := by
  refine Verdict.given_line (judgePassword user) List.length_replicate true rfl ?_
  intro secret passwd u _ read _
  rw [read]
  cases user with
  | none =>
      rw [if_pos Option.all_none, judgePassword]
      refine Verdict.given_printed (prints_complain _) fun w keys => ?_
      rw [← keys]
      exact Verdict.given_again ok
  | some user =>
      have differs : (some user).all (·.passwordText ≠ edited 31 [] secret) = true ↔
          user.passwordText ≠ edited 31 [] secret := by rw [Option.all_some, decide_eq_true_eq]
      rw [judgePassword]
      by_cases right : user.passwordText = edited 31 [] secret
      · rw [if_neg (mt differs.mp (not_not_intro right)), if_pos right]
        refine Verdict.given_printed (prints_println _ _) fun w keys => ?_
        rw [← keys]
        exact Verdict.given_enters user ok
      · rw [if_pos (differs.mpr right), if_neg right]
        refine Verdict.given_printed (prints_complain _) fun w keys => ?_
        rw [← keys]
        exact Verdict.given_again ok

/-- A round does what the file and the typed lines come to. -/
theorem reauth_given (ok : TerminalOk t) (stored : UsersText m.fs text)
    (fit : AllFit (readLines text)) :
    (judge autologin (entriesOf t.users text) (Apps.typed m)).Given m
      (reauth arch autologin t m) := by
  have parsed := (parseUsers_eq_ok ok.users).mpr ⟨fit, rfl⟩
  have array := ok.users.read text
  have known : ∀ name,
      findUser name (layOver lineEntry (readLines text) t.users) (readLines text).length =
      (entriesOf t.users text).find? (·.name = name) := by
    intro name
    rw [findUser, ok.users.take_read, entriesOf]
  generalize layOver lineEntry (readLines text) t.users = users at parsed array known
  generalize (readLines text).length = count at parsed known
  rw [reauth, bind_of_ok (readUsers_eq_ok.mpr ⟨rfl, stored⟩),
    bind_of_ok (ofFs_eq_ok.mpr ⟨parsed, rfl⟩)]
  dsimp only
  refine Verdict.given_printed (prints_welcome _ _ _).onlyIf fun u keys => ?_
  refine Verdict.given_printed (prints_print _ _) fun v keys' => ?_
  rw [← keys, ← keys']
  refine Verdict.given_line (judge autologin (entriesOf t.users text)) ok.username false rfl ?_
  intro line username w size read empty
  have after : TerminalOk ⟨users, username, true⟩ := ⟨array, size⟩
  by_cases unnamed : edited 31 [] line = []
  · rw [if_pos (empty.mpr unnamed), judge_unnamed unnamed]
    refine Verdict.given_printed (prints_complain _) fun x keys => ?_
    rw [← keys]
    exact Verdict.given_again after
  · rw [if_neg (mt empty.mp unnamed)]
    refine Verdict.given_printed (prints_askPassword _) fun x keys => ?_
    rw [known, read, ← keys]
    by_cases auto : ((entriesOf t.users text).find? (·.name = edited 31 [] line)).isSome = true ∧
        edited 31 [] line = cstr "liveuser" ∧ autologin = true
    · obtain ⟨user, found⟩ := Option.isSome_iff_exists.mp auto.1
      rw [if_pos auto, judge_auto unnamed found auto.2, found]
      refine Verdict.given_printed (prints_println _ _) fun y keys => ?_
      refine Verdict.given_printed (prints_println _ _) fun z keys' => ?_
      rw [← keys, ← keys']
      exact Verdict.given_enters user after
    · rw [if_neg auto, judge_asked unnamed auto]
      exact password_given after _

/-- A round that returns has read the file. -/
theorem usersText_of_reauth {r : Option UserEntry × Terminal} (ok : TerminalOk t)
    (returned : reauth arch autologin t m = (.ok r, m')) :
    ∃ text, UsersText m.fs text ∧ AllFit (readLines text) := by
  rw [reauth] at returned
  obtain ⟨text, u, read, rest⟩ := bind_eq_ok.mp returned
  obtain ⟨rfl, stored⟩ := readUsers_eq_ok.mp read
  obtain ⟨parsed, _, ran, -⟩ := bind_eq_ok.mp rest
  obtain ⟨parses, rfl⟩ := ofFs_eq_ok.mp ran
  exact ⟨text, stored, ((parseUsers_eq_ok ok.users).mp parses).1⟩

end AurorOS.Shell
