import AurorOS.Shell.Evaluate

/-! # The calls of the evaluator

What a call does is told by the words of its command.  A call of `eval` makes one for the
words behind the first, in an array of its own.
-/

namespace AurorOS.Shell

open Fs Devices Lines Outcome

variable {caller : Caller} {leftover : Nat → Nat → Option CStr} {command text junk : List UInt8}
  {cur : Ptr} {f : Frame} {word : CStr} {words operands : List CStr} {calls : List Invocation}

theorem shellEvaluateCommand_of_none (framed : frame command = .ok none) :
    shellEvaluateCommand caller leftover command cur = pure (.normal, cur) := by
  rw [shellEvaluateCommand]
  split
  · rename_i fault failed
    cases framed.symm.trans failed
  · rfl
  · rename_i f found
    cases framed.symm.trans found

theorem shellEvaluateCommand_of_frame (framed : frame command = .ok (some f)) :
    shellEvaluateCommand caller leftover command cur =
      if (f.choice (leftover 0)).1 = .eval then
        shellEvaluateCommand caller (fun level => leftover (level + 1)) f.farg cur
      else runBuiltin caller cur f (f.choice (leftover 0)).1 := by
  rw [shellEvaluateCommand]
  split
  · rename_i fault failed
    cases framed.symm.trans failed
  · rename_i nothing
    cases framed.symm.trans nothing
  · rename_i g found
    cases framed.symm.trans found
    rfl

theorem invocations_of_error {fault : Fault} (framed : frame command = .error fault) :
    invocations leftover command = .error fault := by
  rw [invocations]
  split
  · rename_i other failed
    cases framed.symm.trans failed
    rfl
  · rename_i nothing
    cases framed.symm.trans nothing
  · rename_i f found
    cases framed.symm.trans found

theorem invocations_of_none (framed : frame command = .ok none) :
    invocations leftover command = .ok [] := by
  rw [invocations]
  split
  · rename_i fault failed
    cases framed.symm.trans failed
  · rfl
  · rename_i f found
    cases framed.symm.trans found

theorem invocations_of_frame (framed : frame command = .ok (some f)) :
    invocations leftover command =
      if (f.choice (leftover 0)).1 = .eval then (do
        return ⟨f, (f.choice (leftover 0)).1, (f.choice (leftover 0)).2⟩ ::
          (← invocations (fun level => leftover (level + 1)) f.farg))
      else .ok [⟨f, (f.choice (leftover 0)).1, (f.choice (leftover 0)).2⟩] := by
  rw [invocations]
  split
  · rename_i fault failed
    cases framed.symm.trans failed
  · rename_i nothing
    cases framed.symm.trans nothing
  · rename_i g found
    cases framed.symm.trans found
    rfl

theorem shellEvaluateCommand_of_error {fault : Fault} (framed : frame command = .error fault) :
    shellEvaluateCommand caller leftover command cur = Program.stop (.fault fault) := by
  rw [shellEvaluateCommand]
  split
  · rename_i other failed
    cases framed.symm.trans failed
    rfl
  · rename_i nothing
    cases framed.symm.trans nothing
  · rename_i f found
    cases framed.symm.trans found

/-- The evaluator runs the built-in of the innermost call on its frame, or it stops where a call
    cannot be made. -/
theorem shellEvaluateCommand_invocations (caller : Caller) (leftover : Nat → Nat → Option CStr)
    (command : List UInt8) (cur : Ptr) :
    (∀ fault, invocations leftover command = .error fault →
        shellEvaluateCommand caller leftover command cur = Program.stop (.fault fault)) ∧
      ∀ calls, invocations leftover command = .ok calls →
        shellEvaluateCommand caller leftover command cur =
          calls.getLast?.elim (pure (.normal, cur)) fun call =>
          runBuiltin caller cur call.frame call.builtin := by
  induction leftover, command using invocations.induct with
  | case1 leftover command fault framed =>
      rw [invocations_of_error framed]
      refine ⟨fun other same => ?_, fun calls same => ?_⟩
      · rw [shellEvaluateCommand_of_error framed, Except.error.inj same]
      · cases same
  | case2 leftover command framed =>
      rw [invocations_of_none framed]
      refine ⟨fun other same => ?_, fun calls same => ?_⟩
      · cases same
      · rw [shellEvaluateCommand_of_none framed, ← Except.ok.inj same]
        rfl
  | case3 leftover command f framed isEval ih =>
      rw [invocations_of_frame framed, shellEvaluateCommand_of_frame framed, if_pos isEval,
        if_pos isEval]
      obtain ⟨stopped, ran⟩ := ih
      cases inner : invocations (fun level => leftover (level + 1)) f.farg with
      | error fault =>
          refine ⟨fun other same => ?_, fun calls same => ?_⟩
          · rw [stopped fault inner, Except.error.inj same]
          · cases same
      | ok calls =>
          refine ⟨fun other same => ?_, fun calls' same => ?_⟩
          · cases same
          rw [ran calls inner, ← Except.ok.inj same]
          cases calls with
          | nil =>
              -- `eval` of nothing does nothing
              rw [isEval]
              rfl
          | cons call rest => rw [List.getLast?_cons_cons]
  | case4 leftover command f framed other =>
      rw [invocations_of_frame framed, shellEvaluateCommand_of_frame framed, if_neg other,
        if_neg other]
      refine ⟨fun fault same => ?_, fun calls same => ?_⟩
      · cases same
      · rw [← Except.ok.inj same]
        rfl

/-- The words that a call finds in its command, which are none if there are too many. -/
def given (text : CStr) : List CStr := if (wordsOf text).length ≤ 10 then wordsOf text else []

/-- A call for `words` in an array of `capacity` bytes. -/
structure Call (unfilled : Nat → Option CStr) (capacity : Nat) (word : CStr) (operands : List CStr)
    (call : Invocation) : Prop where
  args : call.frame.args = word :: operands
  farg : cString call.frame.farg = joined operands
  command : ∃ junk, call.frame.command = word ++ 0 :: junk
  capacity : call.frame.command.length = capacity
  chosen : ∃ more, call.read = List.range' 1 operands.length ++ 0 :: more ∧
    Chosen (call.frame.arg unfilled) word call.builtin more

/-- The calls for words: behind `eval` there is one for the operands, in `farg`. -/
inductive Calls : (Nat → Nat → Option CStr) → Nat → List CStr → List Invocation → Prop where
  | none {leftover : Nat → Nat → Option CStr} {capacity : Nat} : Calls leftover capacity [] []
  | last {leftover : Nat → Nat → Option CStr} {capacity : Nat} {word : CStr} {operands : List CStr}
      {call : Invocation} (here : Call (leftover 0) capacity word operands call)
        (other : word ≠ cstr "eval") :
      Calls leftover capacity (word :: operands) [call]
  | eval {leftover : Nat → Nat → Option CStr} {capacity : Nat} {operands : List CStr}
      {call : Invocation}
      {calls : List Invocation} (here : Call (leftover 0) capacity (cstr "eval") operands call)
      (behind : Calls (fun level => leftover (level + 1)) 1024 operands calls) :
      Calls leftover capacity (cstr "eval" :: operands) (call :: calls)

/-- There is room for the message in an array of `capacity` bytes if the first word is unknown. -/
def ErrorFits (capacity : Nat) (words : List CStr) : Prop :=
  ∀ word ∈ words.head?, word ∉ commandWords → word.length + unknownText.length < capacity

theorem fargWith_eq (fits : text.length < 1024) :
    fargWith text = text ++ 0 :: List.replicate (1023 - text.length) 0 := by
  rw [fargWith, overlay, List.drop_replicate, List.length_append, List.length_singleton,
    List.append_assoc, List.singleton_append]
  congr 3
  omega

theorem length_fargWith (fits : text.length < 1024) : (fargWith text).length = 1024 := by
  rw [fargWith, length_overlay, List.length_replicate]
  rw [List.length_append, List.length_replicate, List.length_singleton]
  omega

theorem noSpace_of_given : ∀ word ∈ given text, (32 : UInt8) ∉ word := by
  intro word member
  rw [given] at member
  split at member
  · exact not_mem_of_mem_lines member
  · cases member

theorem wordsOf_of_given (found : given text = word :: operands) :
    wordsOf text = word :: operands := by
  rw [given] at found
  split at found
  · exact found
  · cases found

theorem given_joined (found : given text = word :: operands) :
    given (joined operands) = operands := by
  have words : wordsOf (joined operands) = operands :=
    lines_unlines fun operand member => noSpace_of_given operand
      (found ▸ List.mem_cons_of_mem word member)
  have few : operands.length ≤ 10 := by
    have count := congrArg List.length found
    rw [given] at count
    split at count
    · rw [List.length_cons] at count
      omega
    · cases count
  rw [given, words, if_pos few]

/-- What is joined in the next call is no longer. -/
theorem length_joined_tail_le (operands : List CStr) :
    (joined operands.tail).length ≤ (joined operands).length := by
  cases operands with
  | nil => exact le_rfl
  | cons word more =>
      have first : joined (word :: more) = word ++ 32 :: joined more := unlines_cons 32 word more
      rw [List.tail_cons, first, List.length_append, List.length_cons]
      omega

theorem frame_of_given (plain : 0 ∉ text) (found : given text = word :: operands)
    (junk : List UInt8) :
    frame (text ++ 0 :: junk) =
      if (joined operands).length < 1024 then .ok (some (wordsFrame text junk))
        else .error .invalidAccess := by
  have words := wordsOf_of_given found
  have nonempty : text ≠ [] := by
    rintro rfl
    cases words
  have few : ¬ (wordsOf text).length > 10 := fun many => by
    rw [given, if_neg (by omega)] at found
    cases found
  rw [frame_eq plain, if_neg (not_or.mpr ⟨nonempty, few⟩), words, List.tail_cons]

theorem frame_of_given_nil (plain : 0 ∉ text) (nothing : given text = []) (junk : List UInt8) :
    frame (text ++ 0 :: junk) = .ok none := by
  rw [frame_eq plain]
  refine if_pos ?_
  rw [given] at nothing
  split at nothing
  · exact .inl (lines_eq_nil.mp nothing)
  · exact .inr (by omega)

/-- The array of a command begins with its first word. -/
theorem command_of_words (words : wordsOf text = word :: operands) (junk : List UInt8) :
    ∃ junk', cut 32 text ++ 0 :: junk = word ++ 0 :: junk' := by
  rcases first_line (32 : UInt8) text with noSep | ⟨line, rest, rfl, noSep⟩
  · have one : word :: operands = if text = [] then [] else [text] :=
      words.symm.trans (lines_last noSep)
    split at one
    · cases one
    · rw [cut_of_not_mem noSep, (List.cons.inj one).1]
      exact ⟨junk, rfl⟩
  · have first : line :: wordsOf rest = word :: operands :=
      (lines_append noSep rest).symm.trans words
    rw [cut_append noSep, ← (List.cons.inj first).1, List.append_assoc]
    exact ⟨_, rfl⟩

/-- The call that a frame of words makes. -/
theorem call_of_words (plain : 0 ∉ text) (words : wordsOf text = word :: operands)
    (junk : List UInt8) (unfilled : Nat → Option CStr) :
    Call unfilled (text ++ 0 :: junk).length word operands
      ⟨wordsFrame text junk, ((wordsFrame text junk).choice unfilled).1,
        ((wordsFrame text junk).choice unfilled).2⟩ := by
  obtain ⟨b, more, chosen, way⟩ :=
    @choice_of_words (wordsFrame text junk) word operands words unfilled
  refine ⟨words, ?_, command_of_words words junk, ?_, more, ?_⟩
  · have texts : (wordsFrame text junk).farg = fargWith (joined operands) := by
      rw [wordsFrame, words, List.tail_cons]
    have plain' := plain_joined plain
    rw [words, List.tail_cons] at plain'
    rw [texts, cString_fargWith plain']
  · rw [wordsFrame, List.length_append, List.length_append, length_cut]
  · rw [chosen]
    exact ⟨rfl, way⟩

/-- `farg` as the command of the next call, which has the operands for its words. -/
theorem farg_of_given (plain : 0 ∉ text) (found : given text = word :: operands)
    (fits : (joined operands).length < 1024) (junk : List UInt8) :
    ∃ junk', (wordsFrame text junk).farg = joined operands ++ 0 :: junk' ∧
      (joined operands ++ 0 :: junk').length = 1024 ∧ 0 ∉ joined operands ∧
      given (joined operands) = operands := by
  have words := wordsOf_of_given found
  have plain' := plain_joined plain
  rw [words, List.tail_cons] at plain'
  refine ⟨List.replicate (1023 - (joined operands).length) 0, ?_, ?_, plain', given_joined found⟩
  · rw [wordsFrame, words, List.tail_cons, fargWith_eq fits]
  · rw [← fargWith_eq fits, length_fargWith fits]

/-- The next call fits, too. -/
theorem fits_next (found : given text = word :: operands) (fits : (joined operands).length < 1024) :
    (joined (given (joined operands)).tail).length < 1024 := by
  rw [given_joined found]
  exact lt_of_le_of_lt (length_joined_tail_le operands) fits

/-- A command makes the calls for its words, if `farg` has room for the first join. -/
theorem invocations_calls (leftover : Nat → Nat → Option CStr) (plain : 0 ∉ text)
    (fits : (joined (given text).tail).length < 1024) (junk : List UInt8) :
    ∃ calls, invocations leftover (text ++ 0 :: junk) = .ok calls ∧
      Calls leftover (text ++ 0 :: junk).length (given text) calls := by
  induction words : given text generalizing leftover text junk with
  | nil => exact ⟨[], invocations_of_none (frame_of_given_nil plain words junk), .none⟩
  | cons word operands ih =>
      rw [words, List.tail_cons] at fits
      have framed := (frame_of_given plain words junk).trans (if_pos fits)
      have all := wordsOf_of_given words
      have here := call_of_words plain all junk (leftover 0)
      have ran := @invocations_of_frame leftover _ _ framed
      obtain ⟨more, -, chosen⟩ := here.chosen
      by_cases eval : word = cstr "eval"
      · obtain rfl := eval
        obtain ⟨junk', next, size, plain', again⟩ := farg_of_given plain words fits junk
        obtain ⟨calls, inner, behind⟩ :=
          ih (fun level => leftover (level + 1)) plain' (fits_next words fits) junk' again
        rw [← next] at inner
        rw [size] at behind
        rw [if_pos (chosen.eval_iff.mpr rfl)] at ran
        exact ⟨_, ran.trans (bind_of_ok inner), .eval here behind⟩
      · rw [if_neg fun same => eval (chosen.eval_iff.mp same)] at ran
        exact ⟨_, ran, .last here eval⟩

/-- `farg` has room for a command that is shorter than it. -/
theorem fits_of_short (short : text.length < 1024) : (joined (given text).tail).length < 1024 := by
  cases words : given text with
  | nil => exact Nat.succ_pos 1023
  | cons word operands =>
      have length := length_joined_le (wordsOf_of_given words)
      rw [List.tail_cons]
      omega

/-- It had room if the calls were made. -/
theorem fits_of_returned (plain : 0 ∉ text)
    (returned : invocations leftover (text ++ 0 :: junk) = .ok calls) :
    (joined (given text).tail).length < 1024 := by
  cases words : given text with
  | nil => exact Nat.succ_pos 1023
  | cons word operands =>
      by_contra full
      have framed := (frame_of_given plain words junk).trans (if_neg full)
      cases (invocations_of_error framed).symm.trans returned

end AurorOS.Shell
