import AurorOS.Shell.Choice
import AurorOS.Shell.Strings

/-! # Words and their frames

A call of the evaluator cuts its command into words and joins the words behind the first
one.  What it points to then, and the array of the command, are its frame.
-/

namespace AurorOS.Shell

open Fs Devices Apps Lines Outcome

/-- What a call has made of its command: the texts that `args` points to, `farg`, and the
    command's array, which is cut. -/
structure Frame where
  args : List CStr
  farg : List UInt8
  command : List UInt8

/-- The loop that joins the words, each with a space behind it. -/
def joinArgs : List CStr → List UInt8 → Except Fault (List UInt8)
  | [], farg => .ok farg
  | arg :: more, farg => do
      let farg ← strcat farg 0 arg
      let farg ← strcat farg 0 (cstr " ")
      joinArgs more farg

/-- There is none if there are no words, or more than `args` has slots for. -/
def frameOf (split : Split) : Except Fault (Option Frame) :=
  if split.count > 0 then do
    let args := split.result.map fun p => cString (split.str.drop p)
    let farg ← joinArgs args.tail (List.replicate 1024 0)
    return some ⟨args, farg, split.str⟩
  else .ok none

def frame (command : List UInt8) : Except Fault (Option Frame) :=
  do frameOf (← splitStr 32 10 0 command)

namespace Frame

/-- `args[i]`, which has been stored or is what the slot held before. -/
def arg (f : Frame) (unfilled : Nat → Option CStr) (i : Nat) : Option CStr :=
  f.args[i]?.or (unfilled i)

/-- The choice and the slots that were read for it, first those that the loop joins. -/
def choice (f : Frame) (unfilled : Nat → Option CStr) : Builtin × List Nat :=
  (choose (f.arg unfilled)).run (List.range' 1 (f.args.length - 1))

end Frame

section Frames

variable {text junk command farg : List UInt8} {word : CStr} {args operands : List CStr} {f : Frame}
  {unfilled : Nat → Option CStr}

/-- The words of a text. -/
abbrev wordsOf (text : CStr) : List CStr := lines 32 text

/-- The words behind the first, each with a space behind it. -/
abbrev joined (operands : List CStr) : CStr := unlines 32 operands

/-- `farg` with a text in it. -/
def fargWith (text : CStr) : List UInt8 := overlay (text ++ [0]) (List.replicate 1024 0)

theorem joinArgs_eq (args : List CStr) (plain : 0 ∉ text) (plainArgs : ∀ arg ∈ args, 0 ∉ arg)
    (fits : text.length < farg.length) :
    joinArgs args (overlay (text ++ [0]) farg) =
      if (text ++ joined args).length < farg.length then
        .ok (overlay (text ++ joined args ++ [0]) farg) else .error .invalidAccess := by
  induction args generalizing text with
  | nil => simp [joinArgs, unlines, fits]
  | cons arg more ih =>
      rw [List.forall_mem_cons] at plainArgs
      have plain' : 0 ∉ text ++ arg := by simp [plain, plainArgs.1]
      have plain'' : 0 ∉ text ++ arg ++ cstr " " := by
        rw [List.mem_append, not_or]
        exact ⟨plain', by decide⟩
      have whole : text ++ joined (arg :: more) = text ++ arg ++ cstr " " ++ joined more := by
        have first : joined (arg :: more) = arg ++ (cstr " " ++ joined more) :=
          unlines_cons 32 arg more
        rw [first, ← List.append_assoc, ← List.append_assoc]
      rw [joinArgs, whole]
      by_cases room : (text ++ arg).length < farg.length
      · refine (bind_of_ok ((strcat_overlay plain fits arg).trans (if_pos room))).trans ?_
        by_cases space : (text ++ arg ++ cstr " ").length < farg.length
        · refine (bind_of_ok ((strcat_overlay plain' room (cstr " ")).trans (if_pos space))).trans
            ?_
          exact ih plain'' plainArgs.2 space
        · rw [if_neg fun all => space (lt_of_le_of_lt (List.sublist_append_left _ _).length_le all)]
          exact bind_of_error ((strcat_overlay plain' room (cstr " ")).trans (if_neg space))
      · rw [if_neg fun all => room (lt_of_le_of_lt ?_ all)]
        · exact bind_of_error ((strcat_overlay plain fits arg).trans (if_neg room))
        · rw [List.append_assoc (text ++ arg)]
          exact (List.sublist_append_left _ _).length_le

/-- The frame of a call for the words of its command. -/
def wordsFrame (text junk : List UInt8) : Frame where
  args := wordsOf text
  farg := fargWith (joined (wordsOf text).tail)
  command := cut 32 text ++ 0 :: junk

theorem plain_wordsOf (plain : 0 ∉ text) : ∀ word ∈ wordsOf text, 0 ∉ word :=
  fun _ member inside => plain (mem_of_mem_lines (by decide) member inside)

/-- What is made of a split that has found the words of the text. -/
theorem frameOf_words (plain : 0 ∉ text) (some : text ≠ []) (junk : List UInt8) :
    frameOf ⟨(wordsOf text).length, starts 0 (wordsOf text), cut 32 text ++ 0 :: junk⟩ =
      if (joined (wordsOf text).tail).length < 1024 then .ok (Option.some (wordsFrame text junk))
      else .error .invalidAccess := by
  have positive : (0 : Int) < (wordsOf text).length :=
    Int.natCast_pos.mpr (List.length_pos_iff.mpr fun none => some (lines_eq_nil.mp none))
  have read := @read_starts 32 text plain [] junk
  have room : ([] : CStr).length < (List.replicate 1024 (0 : UInt8)).length := by
    rw [List.length_replicate]
    exact Nat.succ_pos 1023
  have joins : joinArgs (wordsOf text).tail (List.replicate 1024 0) = _ :=
    @joinArgs_eq [] (List.replicate 1024 0) (wordsOf text).tail List.not_mem_nil
      (fun word member => plain_wordsOf plain word (List.mem_of_mem_tail member)) room
  rw [frameOf, if_pos positive]
  simp only [List.length_nil, List.nil_append] at read
  simp only [read]
  rw [joins, List.nil_append, List.length_replicate]
  split
  · rfl
  · rfl

/-- The words are in a frame if there are some and not too many, and `farg` has room. -/
theorem frame_eq (plain : 0 ∉ text) (junk : List UInt8) :
    frame (text ++ 0 :: junk) =
      if text = [] ∨ (wordsOf text).length > 10 then .ok none
      else if (joined (wordsOf text).tail).length < 1024 then .ok (some (wordsFrame text junk))
      else .error .invalidAccess := by
  obtain ⟨s, ran, found⟩ := @splitStr_eq 32 text (by decide) plain 10 0 junk
  refine (bind_of_ok ran).trans ?_
  by_cases few : (wordsOf text).length ≤ 10
  · rw [if_pos few] at found
    rw [found]
    by_cases empty : text = []
    · rw [if_pos (Or.inl empty), empty]
      rfl
    · rw [if_neg (by simp [empty, few]), frameOf_words plain empty]
  · rw [if_neg few] at found
    rw [if_pos (Or.inr (by omega)), frameOf, found]
    rfl

/-- A call that has a frame has found a text in its array. -/
theorem frame_some (some : frame command = .ok (some f)) :
    ∃ text junk, command = text ++ 0 :: junk ∧ 0 ∉ text ∧ text ≠ [] ∧ (wordsOf text).length ≤ 10 ∧
      (joined (wordsOf text).tail).length < 1024 ∧ f = wordsFrame text junk := by
  by_cases ended : 0 ∈ command
  · obtain ⟨text, junk, rfl, plain⟩ := List.eq_append_cons_of_mem ended
    rw [frame_eq plain] at some
    by_cases nothing : text = [] ∨ (wordsOf text).length > 10
    · rw [if_pos nothing] at some
      cases some
    · rw [if_neg nothing] at some
      simp only [not_or, not_lt] at nothing
      by_cases room : (joined (wordsOf text).tail).length < 1024
      · rw [if_pos room] at some
        exact ⟨text, junk, rfl, plain, nothing.1, nothing.2, room,
          (Option.some.inj (Except.ok.inj some)).symm⟩
      · rw [if_neg room] at some
        cases some
  · obtain ⟨s, ran, framed⟩ := bind_eq_ok.mp some
    have refused := splitStr_of_not_ended ended ran
    rw [frameOf, if_neg (by omega)] at framed
    cases framed

theorem cString_fargWith (plain : 0 ∉ text) : cString (fargWith text) = text :=
  cString_overlay plain _

theorem plain_joined (plain : 0 ∉ text) : 0 ∉ joined (wordsOf text).tail := by
  intro inside
  obtain ⟨word, member, among⟩ := List.mem_flatMap.mp inside
  rw [List.mem_append, List.mem_singleton] at among
  refine plain_wordsOf plain word (List.mem_of_mem_tail member) (among.resolve_right (by decide))

/-- What is joined is shorter than the text by the first word, or as long. -/
theorem length_joined_le {word : CStr} {operands : List CStr}
    (words : wordsOf text = word :: operands) :
    word.length + (joined operands).length ≤ text.length := by
  have whole := length_unlines_lines_le (32 : UInt8) text
  have first : unlines 32 (lines 32 text) = word ++ 32 :: joined operands := by
    rw [← unlines_cons, ← words]
  rw [first, List.length_append, List.length_cons] at whole
  omega

/-- The choice in a frame of words. -/
theorem choice_of_words {word : CStr} {operands : List CStr} (words : f.args = word :: operands)
    (unfilled : Nat → Option CStr) :
    ∃ b more, f.choice unfilled = (b, List.range' 1 operands.length ++ 0 :: more) ∧
      Chosen (f.arg unfilled) word b more := by
  obtain ⟨b, more, ran, chosen⟩ := choose_run (f.arg unfilled) (List.range' 1 (f.args.length - 1))
  have first : f.arg unfilled 0 = some word := by
    rw [Frame.arg, words]
    rfl
  rw [first] at chosen
  refine ⟨b, more, ?_, chosen⟩
  rw [Frame.choice, ran, words]
  rfl

/-- `eval` gets a shorter command. -/
theorem shorter_of_eval (some : frame command = .ok (some f))
    (eval : (f.choice unfilled).1 = .eval) :
    (cString f.farg).length < (cString command).length := by
  obtain ⟨text, junk, rfl, plain, nonempty, -, -, rfl⟩ := frame_some some
  have some : wordsOf text ≠ [] := fun none => nonempty (lines_eq_nil.mp none)
  obtain ⟨word, operands, words⟩ := List.exists_cons_of_ne_nil some
  obtain ⟨b, more, chosen, way⟩ :=
    @choice_of_words (wordsFrame text junk) word operands words unfilled
  rw [chosen] at eval
  have length := length_joined_le words
  have four : word.length = 4 := by
    rw [way.eval_iff.mp eval]
    rfl
  have farg : cString (wordsFrame text junk).farg = joined (wordsOf text).tail :=
    cString_fargWith (plain_joined plain)
  rw [farg, cString_of_ended plain, words, List.tail_cons]
  omega

end Frames

end AurorOS.Shell
