import AurorOS.Shell.Calls

/-! # Where the evaluator writes

`split_str` only stores where it has read a separator; `strcat` does not look how large the
array is that it appends to.  The arguments fit in `farg`, but the message for an unknown
command need not fit in the shell's buffer.
-/

namespace AurorOS.Shell

open Fs Devices Apps Lines Outcome

/-- The calls are made, and the message is appended to an unknown command, with every store
    inside the array it goes to. -/
def WritesInside (leftover : Nat → Nat → Option CStr) (command : List UInt8) : Prop :=
  ∃ calls, invocations leftover command = .ok calls ∧
    ∀ call ∈ calls, call.builtin = .unknown → ∃ a, strcat call.frame.command 0 unknownText = .ok a

variable {leftover : Nat → Nat → Option CStr} {unfilled : Nat → Option CStr} {capacity : Nat}
  {text line junk : List UInt8} {word : CStr} {words operands : List CStr} {call : Invocation}
  {calls : List Invocation}

theorem strcat_returns_iff (plain : 0 ∉ word) (junk src : List UInt8) :
    (∃ a, strcat (word ++ 0 :: junk) 0 src = .ok a) ↔
    word.length + src.length < (word ++ 0 :: junk).length := by
  rw [strcat_eq plain]
  split
  · rename_i fits
    exact iff_of_true ⟨_, rfl⟩ fits
  · rename_i full
    exact iff_of_false nofun full

/-- The message of one call. -/
theorem Call.message_iff (here : Call unfilled capacity word operands call) (plain : 0 ∉ word) :
    (call.builtin = .unknown → ∃ a, strcat call.frame.command 0 unknownText = .ok a) ↔
      ErrorFits capacity (word :: operands) := by
  obtain ⟨more, -, chosen⟩ := here.chosen
  obtain ⟨junk, array⟩ := here.command
  have size := here.capacity
  rw [array] at size
  rw [chosen.unknown_iff, array, strcat_returns_iff plain, size]
  simp [ErrorFits]

/-- The messages of all calls: behind the first there is room in `farg`. -/
theorem Calls.messages_iff (made : Calls leftover capacity words calls)
    (plain : ∀ word ∈ words, 0 ∉ word)
    (short : ∀ word ∈ words, word.length + unknownText.length < 1024) :
    (∀ call ∈ calls, call.builtin = .unknown →
    ∃ a, strcat call.frame.command 0 unknownText = .ok a) ↔ ErrorFits capacity words := by
  induction made with
  | none => simp [ErrorFits]
  | last here other =>
      rw [List.forall_mem_singleton]
      exact here.message_iff (plain _ List.mem_cons_self)
  | eval here behind ih =>
      rw [List.forall_mem_cons] at plain short
      rw [List.forall_mem_cons, here.message_iff plain.1, ih plain.2 short.2]
      have later : ErrorFits 1024 _ :=
        fun word first _ => short.2 word (List.mem_of_mem_head? first)
      exact and_iff_left later

/-- For a line in the shell's buffer of 128 characters, the evaluator writes inside exactly if the
    line's first word, when it is unknown, leaves room for the message. -/
theorem writes_inside_iff (leftover : Nat → Nat → Option CStr) (line junk : List UInt8)
    (plain : 0 ∉ line) (buffer : (line ++ 0 :: junk).length = 128) :
    WritesInside leftover (line ++ 0 :: junk) ↔ ErrorFits 128 (given line) := by
  have short : line.length < 128 := by
    rw [List.length_append, List.length_cons] at buffer
    omega
  obtain ⟨calls, made, here⟩ := invocations_calls leftover plain (fits_of_short (by omega)) junk
  rw [buffer] at here
  have each : ∀ word ∈ given line, 0 ∉ word ∧ word.length + unknownText.length < 1024 := by
    intro word member
    have among : word ∈ wordsOf line := by
      rw [given] at member
      split at member
      · exact member
      · cases member
    have length := length_le_of_mem_lines among
    have message : unknownText.length = 49 := by decide
    exact ⟨plain_wordsOf plain word among, by omega⟩
  rw [← here.messages_iff (fun word member => (each word member).1) fun word member =>
    (each word member).2]
  constructor
  · rintro ⟨others, same, inside⟩
    obtain rfl := Except.ok.inj (made.symm.trans same)
    exact inside
  · exact fun inside => ⟨calls, made, inside⟩

theorem given_xs (n : Nat) : given (List.replicate (n + 1) 120) = [List.replicate (n + 1) 120] := by
  have noSep : (32 : UInt8) ∉ List.replicate (n + 1) 120 := by
    intro member
    exact absurd (List.eq_of_mem_replicate member) (by decide)
  have one : wordsOf (List.replicate (n + 1) 120) = [List.replicate (n + 1) 120] :=
    (lines_last noSep).trans (if_neg (List.cons_ne_nil _ _))
  rw [given, one]
  rfl

/-- The longest unknown word for which there is room. -/
theorem writes_inside_iff_longest :
    WritesInside (fun _ _ => none) (List.replicate 78 120 ++ 0 :: List.replicate 49 0) := by
  refine (writes_inside_iff (fun _ _ => none) (List.replicate 78 120) (List.replicate 49 0)
    (by decide) (by decide +kernel)).mpr ?_
  rw [given_xs]
  rintro word first -
  obtain rfl := Option.some.inj first
  decide +kernel

/-- A word of 79 characters that is no command. -/
def longWord : CStr := List.replicate 79 120

theorem given_longWord : given longWord = [longWord] := given_xs 78

/-- The message for that word goes one byte over the end of the buffer. -/
theorem not_writes_inside :
    ¬ ∀ (leftover : Nat → Nat → Option CStr) (line junk : List UInt8), 0 ∉ line →
      (line ++ 0 :: junk).length = 128 → WritesInside leftover (line ++ 0 :: junk) := by
  intro all
  have plain : 0 ∉ longWord := by decide
  have buffer : (longWord ++ 0 :: List.replicate 48 0).length = 128 := by decide +kernel
  have fits : (joined (given longWord).tail).length < 1024 := by
    rw [given_longWord]
    exact Nat.succ_pos 1023
  obtain ⟨calls, made, inside⟩ := all (fun _ _ => none) longWord (List.replicate 48 0) plain buffer
  obtain ⟨others, same, here⟩ :=
    invocations_calls (fun _ _ => none) plain fits (List.replicate 48 0)
  obtain rfl := Except.ok.inj (made.symm.trans same)
  rw [given_longWord, buffer] at here
  have message := (here.messages_iff (by decide) (by decide +kernel)).mp inside
  have room := message longWord rfl (by decide +kernel)
  exact absurd room (by decide +kernel)

end AurorOS.Shell
