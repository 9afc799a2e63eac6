import AurorOS.Shell.Login

/-! # Who gets a shell

A run of the terminal is a sequence of logins and shells.  Every login is decided by the users
file as it is then and by what is typed then, and over a file that is made of records by the
records alone.
-/

namespace AurorOS.Shell

open Fs Devices Apps Lines Program Runs

variable {arch : Arch} {autologin : Bool} {t t' : Terminal} {m m' : Machine} {text : List UInt8}

/-- The terminal between two logins, or the shell of a user. -/
structure Station where
  terminal : Terminal
  machine : Machine
  user : Option UserEntry

/-- What happens next: a round asks for a name and lets somebody in or nobody, or a shell is
    left. -/
inductive Passage where
  | asks (user : Option UserEntry)
  | leaves

/-- The shell may be any program. -/
inductive Turn (arch : Arch) (autologin : Bool) (shell : CStr → UInt64 → Kernel Nat) :
    Station → Passage → Station → Prop where
  | asks {a : Station} {user : Option UserEntry} {t' : Terminal} {m' : Machine}
      (nobody : a.user = none)
      (asked : reauth arch autologin a.terminal a.machine = (.ok (user, t'), m')) :
      Turn arch autologin shell a (.asks user) ⟨t', m', user⟩
  | leaves {a : Station} {user : UserEntry} {left : Nat} {u m' : Machine}
      (inside : a.user = some user)
      (ran : shell user.name user.userId a.machine = (.ok left, u))
        (ended : println "" 0x07 u = (.ok (), m')) :
      Turn arch autologin shell a .leaves ⟨a.terminal, m', none⟩

/-- A run stops because a round or a shell does, or at the end of the fuel. -/
inductive Stops (arch : Arch) (autologin : Bool) (shell : CStr → UInt64 → Kernel Nat) :
    Station → Except Stop Empty × Machine → Prop where
  | fuel {a : Station} : Stops arch autologin shell a (.error (.fault .outOfFuel), a.machine)
  | round {a : Station} {e : Stop} {m' : Machine} (nobody : a.user = none)
      (asked : reauth arch autologin a.terminal a.machine = (.error e, m')) :
      Stops arch autologin shell a (.error e, m')
  | session {a : Station} {user : UserEntry} {e : Stop} {m' : Machine} (inside : a.user = some user)
      (ran : shell user.name user.userId a.machine = (.error e, m')) : Stops arch autologin shell a
        (.error e, m')

/-- The verdict that a round ended with. -/
def Verdict.ofRound : Option UserEntry → List (List Press) → Verdict
  | none, later => .again later
  | some user, later => .enters user later

/-- Whether a round lets somebody in, and whom, is what the users file as it is then and the
    lines that are typed then come to. -/
def Authenticated (autologin : Bool) (a : Station) : Passage → Prop
  | .leaves => True
  | .asks user => ∃ text later, UsersText a.machine.fs text ∧ AllFit (readLines text) ∧
      judge autologin (entriesOf a.terminal.users text) (Apps.typed a.machine) = .ofRound user later

variable {shell : CStr → UInt64 → Kernel Nat} {a b : Station} {p : Passage}
  {trace : List (Station × Passage)}

theorem reauth_ok {user : Option UserEntry} (ok : TerminalOk t)
    (returned : reauth arch autologin t m = (.ok (user, t'), m')) :
    TerminalOk t' ∧ ∃ text, UsersText m.fs text ∧ AllFit (readLines text) ∧
      judge autologin (entriesOf t.users text) (Apps.typed m) = .ofRound user (Apps.typed m') := by
  obtain ⟨text, stored, fit⟩ := usersText_of_reauth ok returned
  have given := @reauth_given arch autologin _ m _ ok stored fit
  cases judged : judge autologin (entriesOf t.users text) (Apps.typed m) with
  | waits =>
      rw [judged, returned] at given
      obtain ⟨_, same⟩ := given
      cases same
  | again later =>
      rw [judged, returned] at given
      obtain ⟨_, _, same, after, -, -, keys⟩ := given
      cases same
      exact ⟨after, text, stored, fit, keys ▸ judged⟩
  | enters user later =>
      rw [judged, returned] at given
      obtain ⟨_, _, same, after, -, -, keys⟩ := given
      cases same
      exact ⟨after, text, stored, fit, keys ▸ judged⟩

theorem Turn.keeps (turn : Turn arch autologin shell a p b) (ok : TerminalOk a.terminal) :
    TerminalOk b.terminal ∧ Authenticated autologin a p := by
  cases turn with
  | asks nobody asked =>
      obtain ⟨after, text, stored, fit, judged⟩ := reauth_ok ok asked
      exact ⟨after, text, _, stored, fit, judged⟩
  | leaves => exact ⟨ok, trivial⟩

theorem turns_authenticated (run : Run (Turn arch autologin shell) a trace b)
    (ok : TerminalOk a.terminal) :
    EveryStep (Authenticated autologin) trace := by
  have always :=
    run.always (I := fun a => TerminalOk a.terminal) (fun _ _ _ ok turn => (turn.keeps ok).1) ok
  intro entry member
  obtain ⟨next, turn⟩ := run.taken member
  exact (turn.keeps (always.1 entry member)).2

/-- The loop takes turns until one of them stops. -/
theorem terminalLoop_turns (fuel : Nat) (t : Terminal) (m : Machine) :
    ∃ trace last, Run (Turn arch autologin shell) ⟨t, m, none⟩ trace last ∧
      Stops arch autologin shell last (terminalLoop arch autologin shell fuel t m) := by
  induction fuel generalizing t m with
  | zero => exact ⟨[], _, .nil, .fuel⟩
  | succ fuel ih =>
      cases asked : reauth arch autologin t m with
      | mk r u =>
          cases r with
          | error e =>
              refine ⟨[], _, .nil, ?_⟩
              rw [terminalLoop, bind_of_error asked]
              exact .round rfl asked
          | ok r =>
              obtain ⟨user, t'⟩ := r
              have first : Turn arch autologin shell ⟨t, m, none⟩ (.asks user) ⟨t', u, user⟩ :=
                .asks rfl asked
              rw [terminalLoop, bind_of_ok asked]
              cases user with
              | none =>
                  obtain ⟨trace, last, run, stops⟩ := ih t' u
                  exact ⟨_, last, (Run.single first).append run, stops⟩
              | some user =>
                  cases ran : shell user.name user.userId u with
                  | mk r v =>
                      cases r with
                      | error e =>
                          refine ⟨_, _, .single first, ?_⟩
                          change Stops _ _ _ _ ((shell user.name user.userId >>= fun _ => _) u)
                          rw [bind_of_error ran]
                          exact .session rfl ran
                      | ok left =>
                          obtain ⟨screen, ended⟩ := prints_println "" 0x07 v
                          obtain ⟨trace, last, run, stops⟩ :=
                            ih t' { v with console := { v.console with screen := screen } }
                          refine ⟨_, last, ((Run.single first).append
                            (.single (.leaves rfl ran ended))).append run, ?_⟩
                          change Stops _ _ _ _ ((shell user.name user.userId >>= fun _ => _) u)
                          rw [bind_of_ok ran, bind_of_ok ended]
                          exact stops

/-- The users file is made of these records. -/
def Lists (s : FsState) (records : List UserRecord) : Prop :=
  (records ≠ [] ∧ records.length ≤ 16 ∧ ∀ r ∈ records, r.Valid) ∧
    ∃ newline, UsersText s (usersFile records newline)

/-- The first record with the name that is typed, if its password is typed next or need not be. -/
def Admits (autologin : Bool) (records : List UserRecord) (lines : List (List Press))
    (r : UserRecord) : Prop :=
  ∃ line later, lines = line :: later ∧ edited 31 [] line ≠ [] ∧
    records.find? (cString ·.username = edited 31 [] line) = some r ∧
    ((edited 31 [] line = cstr "liveuser" ∧ autologin) ∨
      ∃ secret rest, later = secret :: rest ∧ cString r.password = edited 31 [] secret)

/-- A round lets in whom the records admit, with the record's name and id. -/
def Serves (autologin : Bool) (records : List UserRecord)
    (lines : List (List Press)) : Passage → Prop
  | .leaves => True
  | .asks none => ∀ r, ¬ Admits autologin records lines r
  | .asks (some user) => ∃ r, Admits autologin records lines r ∧ user.userId = r.userId ∧
      user.name = cString r.username

variable {records : List UserRecord} {r : UserRecord} {ue user : UserEntry}
  {entries : List UserEntry} {lines later : List (List Press)}

/-- Nothing is read behind the terminator. -/
theorem takeWhile_holds {array rest : List UInt8} (holds : HoldsText array text) :
    (array ++ rest).takeWhile (· ≠ 0) = cString text := by
  obtain ⟨junk, rfl⟩ := holds
  rw [cString, List.append_assoc, List.append_assoc]
  induction text with
  | nil => rfl
  | cons c text ih =>
      rw [List.cons_append, List.takeWhile_cons, List.takeWhile_cons, ih]

theorem name_holds (holds : ue.Holds r) : ue.name = cString r.username := by
  rw [UserEntry.name, List.append_assoc, List.append_assoc]
  exact takeWhile_holds holds.username

theorem passwordText_holds (holds : ue.Holds r) : ue.passwordText = cString r.password := by
  rw [UserEntry.passwordText, List.append_assoc]
  exact takeWhile_holds holds.password

theorem entriesOf_usersFile (array : UserArray t.users) (nonempty : records ≠ [])
    (few : records.length ≤ 16) (valid : ∀ r ∈ records, r.Valid) (newline : Bool) :
    List.Forall₂ UserEntry.Holds (entriesOf t.users (usersFile records newline)) records := by
  have read : readLines (usersFile records newline) = records.map userLine := by
    rw [readLines, lines_usersFile valid nonempty, List.take_of_length_le]
    rwa [List.length_map]
  rw [entriesOf, read, List.zipWith_map_right]
  refine forall₂_zipWith (array.sixteen.symm ▸ few) ?_
  exact fun ue member r among => holds_lineEntry (array.declared ue member) (valid r among)

/-- An entry and the record that it holds are found alike. -/
theorem find_holds (held : List.Forall₂ UserEntry.Holds entries records) (name : List UInt8) :
    Option.Rel UserEntry.Holds (entries.find? (·.name = name))
      (records.find? (cString ·.username = name)) := by
  induction held with
  | nil => exact .none
  | @cons ue r _ _ here _ ih =>
      rw [List.find?_cons, List.find?_cons, name_holds here]
      cases decide (cString r.username = name) with
      | true => exact .some here
      | false => exact ih

theorem ofRound_eq_again {user : Option UserEntry} {rest : List (List Press)}
    (same : Verdict.again rest = .ofRound user later) : user = none := by
  cases user with
  | none => rfl
  | some user => cases same

theorem ofRound_eq_enters {user : Option UserEntry} {rest : List (List Press)}
    (same : Verdict.enters ue rest = .ofRound user later) : user = some ue := by
  cases user with
  | none => cases same
  | some user =>
      cases same
      rfl

theorem waits_ne_ofRound {user : Option UserEntry} : Verdict.waits ≠ .ofRound user later := by
  intro same
  cases user <;> cases same

/-- Either nothing is found on both sides or an entry and its record are. -/
theorem find_holds_cases (held : List.Forall₂ UserEntry.Holds entries records)
    (name : List UInt8) :
    (entries.find? (·.name = name) = none ∧
      records.find? (cString ·.username = name) = none) ∨
    ∃ ue r, entries.find? (·.name = name) = some ue ∧
      records.find? (cString ·.username = name) = some r ∧ ue.Holds r := by
  have alike := find_holds held name
  generalize entries.find? (·.name = name) = found at alike ⊢
  generalize records.find? (cString ·.username = name) = listed at alike ⊢
  cases alike with
  | none => exact .inl ⟨rfl, rfl⟩
  | some holds => exact .inr ⟨_, _, rfl, rfl, holds⟩

theorem not_admits_of_unnamed {line : List Press} (unnamed : edited 31 [] line = []) :
    ¬ Admits autologin records (line :: later) r := by
  rintro ⟨_, _, same, named, -⟩
  cases same
  exact named unnamed

theorem not_admits_of_unlisted {line : List Press}
    (unlisted : records.find? (cString ·.username = edited 31 [] line) = none) :
    ¬ Admits autologin records (line :: later) r := by
  rintro ⟨_, _, same, -, here, -⟩
  cases same
  cases unlisted.symm.trans here

/-- Where no login is automatic only the record's password admits. -/
theorem Admits.password {r' : UserRecord} {line secret : List Press}
    (admits : Admits autologin records (line :: secret :: later) r')
    (asked : ¬ (edited 31 [] line = cstr "liveuser" ∧ autologin = true))
    (listed : records.find? (cString ·.username = edited 31 [] line) = some r) :
    cString r.password = edited 31 [] secret := by
  obtain ⟨_, _, same, -, here, access⟩ := admits
  cases same
  obtain rfl := Option.some.inj (listed.symm.trans here)
  rcases access with free | ⟨_, _, same, right⟩
  · exact absurd free asked
  · cases same
    exact right

/-- No entry has the name: whatever is typed next, nobody enters. -/
theorem judgePassword_none {user : Option UserEntry}
    (judged : judgePassword none lines = .ofRound user later) : user = none := by
  cases lines with
  | nil => exact absurd judged waits_ne_ofRound
  | cons secret rest => exact ofRound_eq_again judged

/-- The password is typed for the entry of a record. -/
theorem judgePassword_serves {line : List Press} {user : Option UserEntry}
    (named : edited 31 [] line ≠ [])
    (asked : ¬ (edited 31 [] line = cstr "liveuser" ∧ autologin = true))
    (listed : records.find? (cString ·.username = edited 31 [] line) = some r)
    (holds : ue.Holds r) (judged : judgePassword (some ue) lines = .ofRound user later) :
    Serves autologin records (line :: lines) (.asks user) := by
  cases lines with
  | nil => exact absurd judged waits_ne_ofRound
  | cons secret rest =>
      rw [judgePassword, passwordText_holds holds] at judged
      by_cases right : cString r.password = edited 31 [] secret
      · rw [if_pos right] at judged
        obtain rfl := ofRound_eq_enters judged
        exact ⟨r, ⟨line, _, rfl, named, listed, .inr ⟨secret, rest, rfl, right⟩⟩, holds.userId,
          name_holds holds⟩
      · rw [if_neg right] at judged
        obtain rfl := ofRound_eq_again judged
        exact fun r' admits => right (admits.password asked listed)

/-- The verdict over entries is what the records admit. -/
theorem judge_serves (held : List.Forall₂ UserEntry.Holds entries records) {user : Option UserEntry}
    (judged : judge autologin entries lines = .ofRound user later) :
    Serves autologin records lines (.asks user) := by
  cases lines with
  | nil => exact absurd judged waits_ne_ofRound
  | cons line rest =>
      by_cases unnamed : edited 31 [] line = []
      · rw [judge_unnamed unnamed] at judged
        obtain rfl := ofRound_eq_again judged
        exact fun r => not_admits_of_unnamed unnamed
      · rcases find_holds_cases held (edited 31 [] line) with
          ⟨missing, unlisted⟩ | ⟨ue, r, found, listed, holds⟩
        · have asked : judge autologin entries (line :: rest) = _ :=
            judge_asked unnamed (fun both => Option.isSome_iff_ne_none.mp both.1 missing)
          rw [missing] at asked
          obtain rfl := judgePassword_none (asked.symm.trans judged)
          exact fun r => not_admits_of_unlisted unlisted
        · by_cases auto : edited 31 [] line = cstr "liveuser" ∧ autologin = true
          · rw [judge_auto unnamed found auto] at judged
            obtain rfl := ofRound_eq_enters judged
            exact ⟨r, ⟨line, rest, rfl, unnamed, listed, .inl auto⟩, holds.userId,
              name_holds holds⟩
          · have asked : judge autologin entries (line :: rest) = _ :=
              judge_asked unnamed (fun both => auto both.2)
            rw [found] at asked
            exact judgePassword_serves unnamed auto listed holds (asked.symm.trans judged)

theorem UsersText.unique {text' : List UInt8} (first : UsersText m.fs text)
    (second : UsersText m.fs text') :
    text = text' := by
  have one := readUsers_eq_ok.mpr ⟨rfl, first⟩
  exact Except.ok.inj (Prod.mk.inj (one.symm.trans (readUsers_eq_ok.mpr ⟨rfl, second⟩))).1

/-- `/etc/users` as `init_fs` writes it. -/
def usersState : FsState where
  nodes
    | 1 => some { leafNode .dir [] 0 0 with children := fun _ => 2, childCount := 1 }
    | 2 => some { leafNode .dir (cstr "etc") 0 1 with children := fun _ => 3, childCount := 1 }
    | 3 => some { leafNode .file (cstr "users") 0 2 with data := 100, size := 45 }
    | _ => none
  bufs p := if p = 100 then some (usersFile initialUsers false) else none
  fsRoot := 1
  freed := []

/-- A terminal in front of which these lines are going to be typed. -/
def usersStation (lines : List String) : Station where
  terminal := ⟨blankUsers 0, List.replicate 32 0, false⟩
  machine :=
    ⟨usersState, ⟨⟨fun _ => 0, 0⟩, ⟨false, false, fun _ => false⟩, lines.flatMap Shell.typed⟩, []⟩
  user := none

theorem usersStation_ok (lines : List String) : TerminalOk (usersStation lines).terminal :=
  ⟨blankUsers_array 0, List.length_replicate⟩

theorem text_usersState : UsersText usersState (usersFile initialUsers false) := by
  refine ⟨3, _, ?_, by decide, rfl, rfl, ?_⟩
  · decide +kernel
  · rw [Content, if_neg (by decide)]
    refine ⟨_, rfl, ?_, ?_⟩ <;> decide +kernel

theorem lists_usersState : Lists usersState initialUsers :=
  ⟨⟨List.cons_ne_nil _ _, by decide, valid_initialUsers⟩, false, text_usersState⟩

/-- What is made of the line of `root`. -/
def rootEntry : UserEntry := lineEntry blankEntry (cstr "0:root:x::")

theorem judge_root :
    judge true (entriesOf (usersStation []).terminal.users (usersFile initialUsers false))
    (Apps.typed (usersStation ["root", "x"]).machine) = .enters rootEntry [] := by
  decide +kernel

theorem fit_initialUsers : AllFit (readLines (usersFile initialUsers false)) := by
  decide +kernel

/-- Whatever the shells do, `terminal_main` only runs one for a user whom the users file, as it
    was when the round read it, lets in with the name and the password that were typed. -/
theorem terminal_authenticates (arch : Arch) (autologin : Bool) (shell : CStr → UInt64 → Kernel Nat)
    (fuel : Nat) (t : Terminal) (m : Machine) (ok : TerminalOk t) :
    ∃ trace last, Run (Turn arch autologin shell) ⟨t, m, none⟩ trace last ∧
      Stops arch autologin shell last (terminalLoop arch autologin shell fuel t m) ∧
      EveryStep (Authenticated autologin) trace := by
  obtain ⟨trace, last, run, stops⟩ := @terminalLoop_turns arch autologin shell fuel t m
  exact ⟨trace, last, run, stops, turns_authenticated run ok⟩

/-- Two names are typed, of which one is known. -/
theorem terminal_authenticates_root :
    let shell := fun user userId => shellMain .x86 (fun _ _ _ => none) user userId 3
    ∃ trace last, Run (Turn .x86 true shell) (usersStation ["bob", "y", "root", "x"]) trace last ∧
      Stops .x86 true shell last
        (terminalMain .x86 (fun _ _ _ => none) (blankUsers 0) 3
          (usersStation ["bob", "y", "root", "x"]).machine) ∧
      EveryStep (Authenticated true) trace :=
  terminal_authenticates .x86 true _ 3 _ _ (usersStation_ok [])

/-- In every run, whatever was in the array and in the file before, a round over a file of records
    lets in exactly whom the records admit. -/
theorem terminal_serves_records (run : Run (Turn arch autologin shell) a trace b)
    (ok : TerminalOk a.terminal) :
    EveryStep (fun a p => ∀ records, Lists a.machine.fs records →
    Serves autologin records (Apps.typed a.machine) p) trace := by
  have always :=
    run.always (I := fun a => TerminalOk a.terminal) (fun _ _ _ ok turn => (turn.keeps ok).1) ok
  rintro ⟨a, p⟩ member records ⟨⟨nonempty, few, valid⟩, newline, listed⟩
  cases p with
  | leaves => exact trivial
  | asks user =>
      obtain ⟨text, later, stored, -, judged⟩ := turns_authenticated run ok _ member
      obtain rfl := UsersText.unique stored listed
      exact judge_serves (entriesOf_usersFile (always.1 _ member).users nonempty few valid newline)
        judged

theorem terminal_serves_records_root :
    ∃ b, Run (Turn .x86 true fun _ _ => pure 0) (usersStation ["root", "x"])
        [(usersStation ["root", "x"], .asks (some rootEntry))] b ∧
      Serves true initialUsers (Apps.typed (usersStation ["root", "x"]).machine)
        (.asks (some rootEntry)) := by
  have given := @reauth_given .x86 true _ (usersStation ["root", "x"]).machine _
    (usersStation_ok []) text_usersState
    fit_initialUsers
  rw [judge_root] at given
  obtain ⟨t', m', asked, -⟩ := given
  have turn : Turn .x86 true (fun _ _ => pure 0) (usersStation ["root", "x"])
      (.asks (some rootEntry))
      ⟨t', m', some rootEntry⟩ := .asks rfl asked
  have run := Run.single turn
  exact ⟨_, run, terminal_serves_records run (usersStation_ok _) _ (List.mem_singleton_self _) _
    lists_usersState⟩

end AurorOS.Shell
