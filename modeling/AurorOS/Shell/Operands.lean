import AurorOS.Shell.Calls

/-! # The operands of commands

Slots of `args` that `split_str` does not fill are never cleared.  A command whose operand is
missing is given what its slot happens to hold.
-/

namespace AurorOS.Shell

open Fs Devices Lines

/-- Each slot that a call reads has been filled or holds `NULL`. -/
def ReadsGiven (leftover : Nat → Nat → Option CStr) (calls : List Invocation) : Prop :=
  ∀ level call, calls[level]? = some call → ∀ i ∈ call.read, i < call.frame.args.length ∨
    leftover level i = none

/-- The command gets what was given, and `NULL` for what was not. -/
def GetsGiven (call : Invocation) : Prop :=
  ∃ more, Chosen (fun i => call.frame.args[i]?) (call.frame.args.headD []) call.builtin more

/-- The commands that take operands. -/
def operandWords : List CStr := cstr "chmod" :: withOperand.map Prod.fst

/-- How often `eval` stands in front of a command, and the command. -/
def depth (words : List CStr) : Nat := (words.takeWhile (· = cstr "eval")).length

def innermost (words : List CStr) : List CStr := words.dropWhile (· = cstr "eval")

/-- The operands that the command takes are given, or `NULL` is in the slot of the first that is
    missing. -/
def OperandsGiven (unfilled : Nat → Option CStr) : List CStr → Prop
  | [] => True
  | word :: operands =>
      (word ∈ operandWords → operands = [] → unfilled 1 = none) ∧
        (word = cstr "chmod" → operands.length = 1 → unfilled 2 = none)

variable {leftover : Nat → Nat → Option CStr} {unfilled : Nat → Option CStr} {capacity : Nat}
  {text junk : List UInt8} {word : CStr} {words operands : List CStr} {call : Invocation}
  {calls : List Invocation}

theorem readsGiven_cons : ReadsGiven leftover (call :: calls) ↔
    (∀ i ∈ call.read, i < call.frame.args.length ∨ leftover 0 i = none) ∧
      ReadsGiven (fun level => leftover (level + 1)) calls := by
  constructor
  · exact fun given => ⟨given 0 call rfl, fun level later there => given (level + 1) later there⟩
  · rintro ⟨here, behind⟩ level other there
    cases level with
    | zero =>
        obtain rfl := Option.some.inj there
        exact here
    | succ level => exact behind level other there

theorem arg_one (here : Call unfilled capacity word operands call) :
    call.frame.arg unfilled 1 = none ↔ operands = [] ∧ unfilled 1 = none := by
  rw [Frame.arg, here.args]
  cases operands with
  | nil => simp
  | cons operand more => simp

/-- What the slots behind the words are looked at for. -/
theorem Call.operands_iff (here : Call unfilled capacity word operands call) {more : List Nat}
    (chosen : Chosen (call.frame.arg unfilled) word call.builtin more) :
    (∀ i ∈ more, i < operands.length + 1 ∨ unfilled i = none) ↔
    OperandsGiven unfilled (word :: operands) := by
  have first : 1 < operands.length + 1 ∨ unfilled 1 = none ↔
      (operands = [] → unfilled 1 = none) := by
    cases operands with
    | nil => simp
    | cons operand more => simp
  rw [OperandsGiven]
  generalize call.builtin = b at chosen
  cases chosen with
  | alone known =>
      have others : ∀ entry ∈ withoutOperand, entry.1 ∉ operandWords ∧ entry.1 ≠ cstr "chmod" := by
        decide +kernel
      exact iff_of_true (List.forall_mem_nil _)
        ⟨fun among => absurd among (others _ known).1, fun same => absurd same (others _ known).2⟩
  | operand known =>
      have others : ∀ entry ∈ withOperand, entry.1 ∈ operandWords ∧ entry.1 ≠ cstr "chmod" := by
        decide +kernel
      obtain ⟨among, other⟩ := others _ known
      rw [List.forall_mem_singleton, first]
      exact ⟨fun given => ⟨fun _ => given, fun same => absurd same other⟩,
        fun given => given.1 among⟩
  | chmod known =>
      have among : word ∈ operandWords := known ▸ List.mem_cons_self
      have missing := arg_one here
      by_cases none : call.frame.arg unfilled 1 = none
      · obtain ⟨empty, cleared⟩ := missing.mp none
        rw [if_pos none, List.forall_mem_singleton, empty]
        exact iff_of_true (.inr cleared) ⟨fun _ _ => cleared, nofun⟩
      · rw [if_neg none, List.forall_mem_cons, List.forall_mem_singleton, first]
        have second (some : operands ≠ []) :
            2 < operands.length + 1 ∨ unfilled 2 = Option.none ↔
              (operands.length = 1 → unfilled 2 = Option.none) := by
          have := List.length_pos_iff.mpr some
          by_cases one : operands.length = 1
          · simp [one]
          · exact iff_of_true (.inl (by omega)) fun same => absurd same one
        constructor
        · rintro ⟨given, later⟩
          refine ⟨fun _ => given, fun _ one => (second ?_).mp later one⟩
          rintro rfl
          cases one
        · rintro ⟨given, later⟩
          have some : operands ≠ [] := fun empty => none (missing.mpr ⟨empty, given among empty⟩)
          exact ⟨given among, (second some).mpr (later known)⟩
  | unknown known =>
      have others : ∀ entry ∈ operandWords, entry ∈ commandWords := by decide +kernel
      have chmod : cstr "chmod" ∈ commandWords := by decide +kernel
      exact iff_of_true (List.forall_mem_nil _)
        ⟨fun among => absurd (others _ among) known, fun same => absurd (same ▸ chmod) known⟩

/-- The slots that are filled need no look. -/
theorem Call.reads_iff (here : Call unfilled capacity word operands call) :
    (∀ i ∈ call.read, i < call.frame.args.length ∨ unfilled i = none) ↔
    OperandsGiven unfilled (word :: operands) := by
  obtain ⟨more, read, chosen⟩ := here.chosen
  have count : call.frame.args.length = operands.length + 1 := by rw [here.args, List.length_cons]
  have filled : (∀ i ∈ call.read, i < call.frame.args.length ∨ unfilled i = none) ↔
      ∀ i ∈ more, i < operands.length + 1 ∨ unfilled i = none := by
    rw [read, count]
    constructor
    · exact fun all i member => all i (List.mem_append_right _ (List.mem_cons_of_mem 0 member))
    · intro behind i member
      rw [List.mem_append, List.mem_cons, List.mem_range'_1] at member
      rcases member with joined | rfl | member
      · exact .inl (by omega)
      · exact .inl (Nat.succ_pos _)
      · exact behind i member
  rw [filled]
  exact here.operands_iff chosen

/-- `eval` looks at no slot but that of its own word. -/
theorem operandsGiven_eval (unfilled : Nat → Option CStr) (operands : List CStr) :
    OperandsGiven unfilled (cstr "eval" :: operands) := by
  have other : cstr "eval" ∉ operandWords ∧ cstr "eval" ≠ cstr "chmod" := by decide +kernel
  exact ⟨fun among => absurd among other.1, fun same => absurd same other.2⟩

theorem Calls.readsGiven_iff (made : Calls leftover capacity words calls) :
    ReadsGiven leftover calls ↔ OperandsGiven (leftover (depth words)) (innermost words) := by
  induction made with
  | none => exact iff_of_true (fun level call there => by cases there) trivial
  | last here other =>
      have nothing : ∀ leftover, ReadsGiven leftover [] :=
        fun leftover level call there => by cases there
      rw [readsGiven_cons, here.reads_iff, depth, innermost,
        List.takeWhile_cons_of_neg (by simpa using other),
        List.dropWhile_cons_of_neg (by simpa using other)]
      exact and_iff_left (nothing _)
  | eval here behind ih =>
      rw [readsGiven_cons, here.reads_iff, ih, depth, innermost, depth, innermost,
        List.takeWhile_cons_of_pos (by simp), List.dropWhile_cons_of_pos (by simp),
        List.length_cons]
      exact and_iff_right (operandsGiven_eval _ _)

/-- A call that reads no more than was given does what it was given. -/
theorem Call.getsGiven (here : Call unfilled capacity word operands call)
    (given : ∀ i ∈ call.read, i < call.frame.args.length ∨ unfilled i = none) : GetsGiven call := by
  obtain ⟨more, read, chosen⟩ := here.chosen
  have same : ∀ i ∈ more, call.frame.arg unfilled i = call.frame.args[i]? := by
    intro i member
    have looked : i ∈ call.read := read ▸ List.mem_append_right _ (List.mem_cons_of_mem 0 member)
    rw [Frame.arg]
    rcases given i looked with inside | nothing
    · rw [List.getElem?_eq_getElem inside, Option.some_or]
    · rw [nothing, Option.or_none]
  have first : call.frame.args.headD [] = word := by
    rw [here.args]
    rfl
  rw [GetsGiven, first]
  generalize call.builtin = b at chosen
  cases chosen with
  | alone known => exact ⟨[], .alone known⟩
  | operand known =>
      rw [same 1 (List.mem_singleton_self 1)]
      exact ⟨[1], .operand known⟩
  | chmod known =>
      by_cases none : call.frame.arg unfilled 1 = none
      · rw [if_pos none] at same ⊢
        rw [same 1 (List.mem_singleton_self 1)] at none ⊢
        have way := @Chosen.chmod (fun i => call.frame.args[i]?) word known
        rw [if_pos none] at way
        exact ⟨_, way⟩
      · rw [if_neg none] at same ⊢
        rw [same 1 List.mem_cons_self] at none ⊢
        rw [same 2 (List.mem_cons_of_mem 1 (List.mem_singleton_self 2))]
        have way := @Chosen.chmod (fun i => call.frame.args[i]?) word known
        rw [if_neg none] at way
        exact ⟨_, way⟩
  | unknown known => exact ⟨[], .unknown known⟩

theorem Calls.getsGiven (made : Calls leftover capacity words calls)
    (given : ReadsGiven leftover calls) :
    ∀ call ∈ calls, GetsGiven call := by
  induction made with
  | none => exact List.forall_mem_nil _
  | last here other =>
      rw [List.forall_mem_singleton]
      exact here.getsGiven (readsGiven_cons.mp given).1
  | eval here behind ih =>
      obtain ⟨first, later⟩ := readsGiven_cons.mp given
      rw [List.forall_mem_cons]
      exact ⟨here.getsGiven first, ih later⟩

/-- For a command whose calls are made, every slot that they read is filled or `NULL` exactly if the
    innermost command has its operands or finds `NULL` where one is missing; then it gets the
    operands that were given, and `NULL` for those that were not. -/
theorem reads_given_iff (leftover : Nat → Nat → Option CStr) (text junk : List UInt8)
    (calls : List Invocation) (plain : 0 ∉ text)
    (made : invocations leftover (text ++ 0 :: junk) = .ok calls) :
    (ReadsGiven leftover calls ↔
      OperandsGiven (leftover (depth (given text))) (innermost (given text))) ∧
    (ReadsGiven leftover calls → ∀ call ∈ calls, GetsGiven call) := by
  obtain ⟨others, same, here⟩ := invocations_calls leftover plain (fits_of_returned plain made) junk
  obtain rfl := Except.ok.inj (made.symm.trans same)
  exact ⟨here.readsGiven_iff, here.getsGiven⟩

theorem reads_given_iff_cat :
    ∃ calls, invocations (fun _ _ => none) (cstr "cat" ++ 0 :: []) = .ok calls ∧
      (ReadsGiven (fun _ _ => none) calls ↔
        OperandsGiven (fun _ => none) (innermost (given (cstr "cat")))) ∧
      (ReadsGiven (fun _ _ => none) calls → ∀ call ∈ calls, GetsGiven call) := by
  obtain ⟨calls, made, -⟩ :=
    @invocations_calls (cstr "cat") (fun _ _ => none) (by decide) (by decide) []
  exact ⟨calls, made, reads_given_iff (fun _ _ => none) (cstr "cat") [] calls (by decide) made⟩

/-- `cat` without an operand reads what its slot happens to hold. -/
theorem not_reads_given :
    ¬ ∀ (leftover : Nat → Nat → Option CStr) (text junk : List UInt8) (calls : List Invocation),
    0 ∉ text →
      invocations leftover (text ++ 0 :: junk) = .ok calls → ReadsGiven leftover calls := by
  intro all
  have words : given (cstr "cat") = [cstr "cat"] := by decide
  obtain ⟨calls, made, here⟩ :=
    @invocations_calls (cstr "cat") (fun _ _ => some (cstr "notes")) (by decide) (by decide) []
  have operands := here.readsGiven_iff.mp (all _ (cstr "cat") [] calls (by decide) made)
  rw [words] at operands
  cases operands.1 (by decide +kernel) rfl

end AurorOS.Shell
