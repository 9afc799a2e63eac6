import AurorOS.Shell.Commands

/-! # The choice of a command

The first word of a line is compared with the commands.  Most branches take no operand; the
others read `args[1]`, and `chmod` reads `args[2]` after it.
-/

namespace AurorOS.Shell

open Fs Devices

/-- What a command is chosen to do, with the operands it is given. -/
inductive Builtin where
  | ver
  | print
  | cowsay
  | map
  | clear
  | reboot
  | shutdown
  | eclair (option : Option CStr)
  | file (command : Command)
  | help
  | repo
  | sh
  | exit
  | logout
  | kptesting
  | eval
  | pwd
  | id
  | calc
  | unknown
  deriving DecidableEq, Repr

/-- Computations that note which slots of `args` they read. -/
abbrev Noting := StateM (List Nat)

/-- `args[i]` -/
def slot (args : Nat → Option CStr) (i : Nat) : Noting (Option CStr) :=
  fun read => (args i, read ++ [i])

/-- The branches of the comparisons with `args[0]`, in order. -/
def branches (args : Nat → Option CStr) : List (String × Noting Builtin) := [
  ("ver", return .ver),
  ("print", return .print),
  ("cowsay", return .cowsay),
  ("map", return .map),
  ("clear", return .clear),
  ("reboot", return .reboot),
  ("shutdown", return .shutdown),
  ("eclair", do return .eclair (← slot args 1)),
  ("cat", do return .file (.cat (← slot args 1))),
  ("cd", do return .file (.cd (← slot args 1))),
  ("ls", return .file .ls),
  ("mkdir", do return .file (.mkdir (← slot args 1))),
  ("rm", do return .file (.rm (← slot args 1))),
  ("tinypad", return .file .tinypad),
  ("help", return .help),
  ("repo", return .repo),
  ("sh", return .sh),
  ("exit", return .exit),
  ("logout", return .logout),
  -- `AUROR_BETA_STATE` is 1
  ("kptesting", return .kptesting),
  ("eval", return .eval),
  ("pwd", return .pwd),
  ("chmod", do
    let permArg ← slot args 1
    -- the second operand is looked at if the first one is there
    let path ← if permArg = none then pure none else slot args 2
    return .file (.chmod permArg path)),
  ("id", return .id),
  ("hexedit", do return .file (.hexedit (← slot args 1))),
  ("calc", return .calc)]

/-- `if (streql(word, …)) … else if …` -/
def firstMatch (word : CStr) : List (String × Noting Builtin) → Noting Builtin
  | [] => return .unknown
  | (name, branch) :: more => if word = cstr name then branch else firstMatch word more

def choose (args : Nat → Option CStr) : Noting Builtin := do
  let word ← slot args 0
  firstMatch (word.getD []) (branches args)

/-- The commands without operands. -/
def withoutOperand : List (CStr × Builtin) := [
  (cstr "ver", .ver), (cstr "print", .print), (cstr "cowsay", .cowsay), (cstr "map", .map),
  (cstr "clear", .clear), (cstr "reboot", .reboot), (cstr "shutdown", .shutdown),
  (cstr "ls", .file .ls), (cstr "tinypad", .file .tinypad), (cstr "help", .help),
  (cstr "repo", .repo), (cstr "sh", .sh), (cstr "exit", .exit), (cstr "logout", .logout),
  (cstr "kptesting", .kptesting), (cstr "eval", .eval), (cstr "pwd", .pwd), (cstr "id", .id),
  (cstr "calc", .calc)]

/-- The commands with one operand, which is `args[1]`. -/
def withOperand : List (CStr × (Option CStr → Builtin)) := [
  (cstr "eclair", .eclair), (cstr "cat", fun path => .file (.cat path)),
  (cstr "cd", fun path => .file (.cd path)), (cstr "mkdir", fun path => .file (.mkdir path)),
  (cstr "rm", fun path => .file (.rm path)), (cstr "hexedit", fun path => .file (.hexedit path))]

/-- The words that are commands. -/
def commandWords : List CStr := (branches fun _ => none).map fun branch => cstr branch.1

/-- The four ways of a choice. -/
inductive Chosen (args : Nat → Option CStr) (word : CStr) : Builtin → List Nat → Prop where
  | alone {b : Builtin} (known : (word, b) ∈ withoutOperand) : Chosen args word b []
  | operand {build : Option CStr → Builtin} (known : (word, build) ∈ withOperand) :
      Chosen args word (build (args 1)) [1]
  | chmod (known : word = cstr "chmod") :
      Chosen args word (.file (.chmod (args 1) (if args 1 = none then none else args 2)))
        (if args 1 = none then [1] else [1, 2])
  | unknown (known : word ∉ commandWords) : Chosen args word .unknown []

theorem firstMatch_cases (word : CStr) (branches : List (String × Noting Builtin)) :
    (∃ branch, branch ∈ branches ∧ word = cstr branch.1 ∧ firstMatch word branches = branch.2) ∨
      (∀ branch ∈ branches, word ≠ cstr branch.1) ∧ firstMatch word branches = return .unknown := by
  induction branches with
  | nil => exact .inr ⟨List.forall_mem_nil _, rfl⟩
  | cons branch more ih =>
      by_cases same : word = cstr branch.1
      · exact .inl ⟨branch, List.mem_cons_self, same, if_pos same⟩
      · have others : firstMatch word (branch :: more) = firstMatch word more := if_neg same
        rw [others, List.forall_mem_cons]
        rcases ih with ⟨found, member, here, value⟩ | ⟨none, value⟩
        · exact .inl ⟨found, List.mem_cons_of_mem _ member, here, value⟩
        · exact .inr ⟨⟨same, none⟩, value⟩

theorem slot_bind {α : Type} (args : Nat → Option CStr) (i : Nat) (f : Option CStr → Noting α)
    (read : List Nat) :
    (slot args i >>= f).run read = (f (args i)).run (read ++ [i]) := rfl

theorem chosen_of_branch (args : Nat → Option CStr) (read : List Nat) :
    ∀ branch ∈ branches args,
      ∃ b more, branch.2.run read = (b, read ++ more) ∧ Chosen args (cstr branch.1) b more := by
  have plain : ∀ (name : String) (b : Builtin), (cstr name, b) ∈ withoutOperand →
      ∃ b' more, (return b : Noting Builtin).run read = (b', read ++ more) ∧
      Chosen args (cstr name) b' more :=
    fun name b known => ⟨b, [], by rw [List.append_nil]; rfl, .alone known⟩
  have operand : ∀ (name : String) (build : Option CStr → Builtin),
      (cstr name, build) ∈ withOperand →
      ∃ b' more, (do return build (← slot args 1) : Noting Builtin).run read = (b', read ++ more) ∧
        Chosen args (cstr name) b' more :=
    fun name build known => ⟨build (args 1), [1], rfl, .operand known⟩
  have chmod : ∃ b more, (do
      let permArg ← slot args 1
      let path ← if permArg = none then pure none else slot args 2
      return .file (.chmod permArg path) : Noting Builtin).run read = (b, read ++ more) ∧
        Chosen args (cstr "chmod") b more := by
    refine ⟨_, _, ?_, .chmod rfl⟩
    by_cases missing : args 1 = none
    · rw [if_pos missing, if_pos missing, slot_bind, if_pos missing]
      rfl
    · rw [if_neg missing, if_neg missing, slot_bind, if_neg missing]
      exact congrArg _ (List.append_assoc read [1] [2])
  simp only [branches, List.forall_mem_cons]
  refine ⟨plain _ _ ?_, plain _ _ ?_, plain _ _ ?_, plain _ _ ?_, plain _ _ ?_, plain _ _ ?_,
    plain _ _ ?_, operand _ .eclair ?_, operand _ (fun path => .file (.cat path)) ?_,
    operand _ (fun path => .file (.cd path)) ?_, plain _ _ ?_,
    operand _ (fun path => .file (.mkdir path)) ?_, operand _ (fun path => .file (.rm path)) ?_,
    plain _ _ ?_, plain _ _ ?_, plain _ _ ?_, plain _ _ ?_, plain _ _ ?_, plain _ _ ?_,
    plain _ _ ?_, plain _ _ ?_, plain _ _ ?_, chmod, plain _ _ ?_,
    operand _ (fun path => .file (.hexedit path)) ?_, plain _ _ ?_, List.forall_mem_nil _⟩
  all_goals simp only [withoutOperand, withOperand, List.mem_cons, true_or, or_true]

/-- What `choose` returns, and the slots it reads. -/
theorem choose_run (args : Nat → Option CStr) (read : List Nat) :
    ∃ b more, (choose args).run read = (b, read ++ 0 :: more) ∧
    Chosen args ((args 0).getD []) b more := by
  rw [choose, slot_bind]
  rcases firstMatch_cases ((args 0).getD []) (branches args) with
    ⟨branch, member, same, value⟩ | ⟨none, value⟩
  · obtain ⟨b, more, ran, chosen⟩ := chosen_of_branch args (read ++ [0]) branch member
    rw [value, same]
    exact ⟨b, more, by rw [ran, List.append_assoc, List.singleton_append], chosen⟩
  · have names : (branches args).map (fun branch => cstr branch.1) = commandWords := rfl
    have unknown : (args 0).getD [] ∉ commandWords := fun known => by
      rw [← names] at known
      obtain ⟨branch, member, same⟩ := List.mem_map.mp known
      exact none branch member same.symm
    rw [value]
    exact ⟨.unknown, [], rfl, .unknown unknown⟩

/-- The commands that may be given operands: `eclair` and those that work on files and
    directories. -/
def Builtin.OnOperands (b : Builtin) : Prop :=
  (∃ option, b = .eclair option) ∨ ∃ command, b = .file command

theorem builtin_of_mem {word : CStr} {build : Option CStr → Builtin}
    (known : (word, build) ∈ withOperand) (operand : Option CStr) : (build operand).OnOperands := by
  simp only [withOperand, List.mem_cons, Prod.mk.injEq, List.not_mem_nil, or_false] at known
  rcases known with ⟨-, rfl⟩ | ⟨-, rfl⟩ | ⟨-, rfl⟩ | ⟨-, rfl⟩ | ⟨-, rfl⟩ | ⟨-, rfl⟩
  · exact .inl ⟨_, rfl⟩
  all_goals exact .inr ⟨_, rfl⟩

namespace Chosen

variable {args : Nat → Option CStr} {word : CStr} {b : Builtin} {more : List Nat}

theorem eval_iff (chosen : Chosen args word b more) : b = .eval ↔ word = cstr "eval" := by
  cases chosen with
  | alone known =>
      have each : ∀ entry ∈ withoutOperand, entry.2 = .eval ↔ entry.1 = cstr "eval" := by
        decide +kernel
      exact each _ known
  | operand known =>
      have each : ∀ entry ∈ withOperand, entry.1 ≠ cstr "eval" := by decide +kernel
      refine iff_of_false ?_ (each _ known)
      rcases builtin_of_mem known (args 1) with ⟨option, value⟩ | ⟨command, value⟩
      · rw [value]
        exact Builtin.noConfusion
      · rw [value]
        exact Builtin.noConfusion
  | chmod known =>
      refine iff_of_false Builtin.noConfusion ?_
      rw [known]
      decide
  | unknown known =>
      refine iff_of_false Builtin.noConfusion ?_
      rintro rfl
      exact known (by decide +kernel)

theorem unknown_iff (chosen : Chosen args word b more) : b = .unknown ↔ word ∉ commandWords := by
  cases chosen with
  | alone known =>
      have each : ∀ entry ∈ withoutOperand, entry.2 ≠ .unknown ∧ entry.1 ∈ commandWords := by
        decide +kernel
      exact iff_of_false (each _ known).1 fun unknown => unknown (each _ known).2
  | operand known =>
      have each : ∀ entry ∈ withOperand, entry.1 ∈ commandWords := by decide +kernel
      refine iff_of_false ?_ fun unknown => unknown (each _ known)
      rcases builtin_of_mem known (args 1) with ⟨option, value⟩ | ⟨command, value⟩
      · rw [value]
        exact Builtin.noConfusion
      · rw [value]
        exact Builtin.noConfusion
  | chmod known =>
      refine iff_of_false Builtin.noConfusion fun unknown => unknown ?_
      rw [known]
      decide +kernel
  | unknown known => exact iff_of_true rfl known

/-- A known word is one without operand, which tells what is done, or it is not. -/
theorem alone_or (chosen : Chosen args word b more) (known : word ∈ commandWords) :
    (word, b) ∈ withoutOperand ∨ word ∉ withoutOperand.map Prod.fst ∧ b.OnOperands := by
  cases chosen with
  | alone known => exact .inl known
  | operand known =>
      have apart : ∀ entry ∈ withOperand, entry.1 ∉ withoutOperand.map Prod.fst := by decide +kernel
      exact .inr ⟨apart _ known, builtin_of_mem known (args 1)⟩
  | chmod known =>
      rw [known]
      exact .inr ⟨by decide +kernel, .inr ⟨_, rfl⟩⟩
  | unknown unknown => exact absurd known unknown

/-- Whatever else the slots hold, the same word is taken for the same command. -/
theorem agree {args' : Nat → Option CStr} {b' : Builtin} {more' : List Nat}
    (chosen : Chosen args word b more) (chosen' : Chosen args' word b' more') :
    b = b' ∨ b.OnOperands ∧ b'.OnOperands := by
  have once : ∀ entry ∈ withoutOperand, ∀ other ∈ withoutOperand, entry.1 = other.1 →
      entry.2 = other.2 := by
    decide +kernel
  by_cases known : word ∈ commandWords
  · rcases chosen.alone_or known with alone | ⟨other, acts⟩
    · rcases chosen'.alone_or known with alone' | ⟨other', -⟩
      · exact .inl (once _ alone _ alone' rfl)
      · exact absurd (List.mem_map_of_mem alone) other'
    · rcases chosen'.alone_or known with alone' | ⟨-, acts'⟩
      · exact absurd (List.mem_map_of_mem alone') other
      · exact .inr ⟨acts, acts'⟩
  · exact .inl ((chosen.unknown_iff.mpr known).trans (chosen'.unknown_iff.mpr known).symm)

end Chosen

end AurorOS.Shell
