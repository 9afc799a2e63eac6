import AurorOS.Shell.Calls

/-! # What `eval` does to a command

`eval` in front of a command makes a call with the same words and the same joined arguments
as the command itself makes, and comes to the same result.
-/

namespace AurorOS.Shell

open Fs Devices Apps Lines Outcome

/-- The tokens of a call and its joined arguments. -/
def Invocation.seen (call : Invocation) : List CStr × CStr :=
  (call.frame.args, cString call.frame.farg)

/-- What the calls for words see. -/
def seenCalls : List CStr → List (List CStr × CStr)
  | [] => []
  | word :: operands => (word :: operands, joined operands) :: if word = cstr "eval" then
      seenCalls operands else []

variable {caller : Caller} {leftover leftover' : Nat → Nat → Option CStr} {capacity : Nat}
  {cur : Ptr} {text text' junk junk' : List UInt8} {f g : Frame} {word : CStr}
  {words operands : List CStr} {calls : List Invocation} {m m₁ m₂ : Machine} {b : Builtin}

theorem Calls.map_seen (made : Calls leftover capacity words calls) :
    calls.map Invocation.seen = seenCalls words := by
  induction made with
  | none => rfl
  | last here other =>
      rw [seenCalls, if_neg other, List.map_singleton, Invocation.seen, here.args, here.farg]
  | eval here behind ih =>
      rw [seenCalls, if_pos rfl, List.map_cons, ih, Invocation.seen, here.args, here.farg]

/-- What `strcat` makes of an unknown word, and whether it fits, is told by the word. -/
theorem strcat_alike (plain : 0 ∉ word) (first : ∃ junk, f.command = word ++ 0 :: junk)
    (second : ∃ junk, g.command = word ++ 0 :: junk)
    (room : word.length + unknownText.length < f.command.length ↔
    word.length + unknownText.length < g.command.length) :
    Alike (fun a a' => cString a = cString a') (strcat f.command 0 unknownText)
      (strcat g.command 0 unknownText) := by
  obtain ⟨junk, first⟩ := first
  obtain ⟨junk', second⟩ := second
  have whole : 0 ∉ word ++ unknownText := by
    rw [List.mem_append, not_or]
    exact ⟨plain, by decide +kernel⟩
  rw [first, second] at room ⊢
  rw [strcat_eq plain, strcat_eq plain]
  by_cases fits : word.length + unknownText.length < (word ++ 0 :: junk).length
  · rw [if_pos fits, if_pos (room.mp fits)]
    exact .ok ((cString_overlay whole _).trans (cString_overlay whole _).symm)
  · rw [if_neg fits, if_neg fun fits' => fits (room.mpr fits')]
    exact .error _

theorem runBuiltin_congr (farg : cString f.farg = cString g.farg)
    (error : b = .unknown → Alike (fun a a' => cString a = cString a')
      (strcat f.command 0 unknownText) (strcat g.command 0 unknownText)) :
    runBuiltin caller cur f b = runBuiltin caller cur g b := by
  cases b with
  | print => rw [runBuiltin, runBuiltin, farg]
  | cowsay => rw [runBuiltin, runBuiltin, farg]
  | unknown =>
      rw [runBuiltin, runBuiltin]
      generalize strcat f.command 0 unknownText = left at error
      generalize strcat g.command 0 unknownText = right at error
      cases error rfl with
      | error fault => rfl
      | ok same =>
          funext m
          refine (Program.bind_of_ok (ofFs_const rfl m)).trans ?_
          refine Eq.trans ?_ (Program.bind_of_ok (ofFs_const rfl m)).symm
          rw [same]
  | _ => rfl

theorem choice_congr (same : f.args = g.args) (unfilled : Nat → Option CStr) :
    f.choice unfilled = g.choice unfilled := by
  have slots : f.arg unfilled = g.arg unfilled := by
    funext i
    rw [Frame.arg, Frame.arg, same]
  rw [Frame.choice, Frame.choice, slots, same]

theorem wordsFrame_farg (junk junk' : List UInt8) (same : wordsOf text = wordsOf text') :
    (wordsFrame text junk).farg = (wordsFrame text' junk').farg := by
  rw [wordsFrame, wordsFrame, same]

/-- Commands with the same words do the same, wherever they stand, if the message for an
    unknown command fits in both arrays or in neither. -/
theorem run_congr (plain : 0 ∉ text) (plain' : 0 ∉ text') (same : given text = given text')
    (fits : (joined (given text).tail).length < 1024)
    (room : ErrorFits (text ++ 0 :: junk).length (given text) ↔
    ErrorFits (text' ++ 0 :: junk').length (given text)) :
    shellEvaluateCommand caller leftover (text ++ 0 :: junk) cur =
      shellEvaluateCommand caller leftover (text' ++ 0 :: junk') cur := by
  cases words : given text with
  | nil =>
      rw [shellEvaluateCommand_of_none (frame_of_given_nil plain words junk),
        shellEvaluateCommand_of_none (frame_of_given_nil plain' (same.symm.trans words) junk')]
  | cons word operands =>
      rw [words] at room fits
      have all := wordsOf_of_given words
      have all' := wordsOf_of_given (same.symm.trans words)
      have framed := (frame_of_given plain words junk).trans (if_pos fits)
      have framed' := (frame_of_given plain' (same.symm.trans words) junk').trans (if_pos fits)
      have here := call_of_words plain all junk (leftover 0)
      have here' := call_of_words plain' all' junk' (leftover 0)
      have farg := wordsFrame_farg junk junk' (all.trans all'.symm)
      have args : (wordsFrame text junk).args = (wordsFrame text' junk').args := all.trans all'.symm
      rw [shellEvaluateCommand_of_frame framed, shellEvaluateCommand_of_frame framed', farg,
        choice_congr args (leftover 0)]
      refine if_congr Iff.rfl rfl (runBuiltin_congr (congrArg cString farg) fun unknown => ?_)
      obtain ⟨more, -, chosen⟩ := here'.chosen
      have other := chosen.unknown_iff.mp unknown
      have plainWord : 0 ∉ word := plain_wordsOf plain word (all ▸ List.mem_cons_self)
      refine strcat_alike plainWord here.command here'.command ?_
      rw [here.capacity, here'.capacity]
      have first : ∀ capacity,
          ErrorFits capacity (word :: operands) ↔ word.length + unknownText.length < capacity :=
            fun capacity => by
        simp [ErrorFits, other]
      rw [first, first] at room
      exact room

/-- A command that may be given operands, and an unknown one, comes to a normal end. -/
theorem runBuiltin_normal {r : EvalResult × Ptr} (acts : b.OnOperands ∨ b = .unknown)
    (returned : runBuiltin caller cur f b m = (.ok r, m₁)) : r.1 = .normal := by
  have behind : ∀ {α : Type} {x : Kernel α} {y : α → Ptr},
      (do return (EvalResult.normal, y (← x)) : Kernel (EvalResult × Ptr)) m = (.ok r, m₁) →
      r.1 = .normal := by
    intro α x y ran
    obtain ⟨a, u, -, value⟩ := Program.bind_eq_ok.mp ran
    rw [← (Program.pure_eq_ok.mp value).1]
  rcases acts with (⟨option, rfl⟩ | ⟨command, rfl⟩) | rfl
  · exact @behind _ (shcEclair option) (fun _ => cur) returned
  · exact @behind _ (runCommand caller.fuel caller.userId cur command) id returned
  · obtain ⟨error, u, -, rest⟩ := Program.bind_eq_ok.mp returned
    obtain ⟨_, u', -, value⟩ := Program.bind_eq_ok.mp rest
    rw [← (Program.pure_eq_ok.mp value).1]

/-- Commands with the same words come to the same result if they return, whatever the slots
    hold that they do not fill. -/
theorem results_agree {r r' : EvalResult × Ptr} (plain : 0 ∉ text) (plain' : 0 ∉ text')
    (same : given text = given text') (fits : (joined (given text).tail).length < 1024)
    (returned : shellEvaluateCommand caller leftover (text ++ 0 :: junk) cur m = (.ok r, m₁))
    (returned' : shellEvaluateCommand caller leftover' (text' ++ 0 :: junk') cur m = (.ok r', m₂)) :
    r.1 = r'.1 := by
  induction words : given text generalizing leftover leftover' text text' junk junk' with
  | nil =>
      rw [shellEvaluateCommand_of_none (frame_of_given_nil plain words junk)] at returned
      rw [shellEvaluateCommand_of_none
        (frame_of_given_nil plain' (same.symm.trans words) junk')] at returned'
      rw [← (Program.pure_eq_ok.mp returned).1, ← (Program.pure_eq_ok.mp returned').1]
  | cons word operands ih =>
      rw [words] at fits
      have all := wordsOf_of_given words
      have all' := wordsOf_of_given (same.symm.trans words)
      have framed := (frame_of_given plain words junk).trans (if_pos fits)
      have framed' := (frame_of_given plain' (same.symm.trans words) junk').trans (if_pos fits)
      obtain ⟨more, -, chosen⟩ := (call_of_words plain all junk (leftover 0)).chosen
      obtain ⟨more', -, chosen'⟩ := (call_of_words plain' all' junk' (leftover' 0)).chosen
      rw [shellEvaluateCommand_of_frame framed] at returned
      rw [shellEvaluateCommand_of_frame framed'] at returned'
      by_cases eval : word = cstr "eval"
      · obtain ⟨next, farg, -, plainNext, again⟩ := farg_of_given plain words fits junk
        have farg' := wordsFrame_farg junk' junk (all'.trans all.symm)
        rw [if_pos (chosen.eval_iff.mpr eval), farg] at returned
        rw [if_pos (chosen'.eval_iff.mpr eval), farg', farg] at returned'
        exact ih plainNext plainNext rfl (fits_next words fits) returned returned' again
      · rw [if_neg fun same => eval (chosen.eval_iff.mp same)] at returned
        rw [if_neg fun same => eval (chosen'.eval_iff.mp same)] at returned'
        dsimp only at chosen chosen'
        rcases chosen.agree chosen' with sameBuiltin | ⟨acts, acts'⟩
        · rw [← sameBuiltin] at returned'
          by_cases unknown : ((wordsFrame text junk).choice (leftover 0)).1 = .unknown
          · rw [runBuiltin_normal (.inr unknown) returned,
              runBuiltin_normal (.inr unknown) returned']
          · have farg := wordsFrame_farg junk junk' (all.trans all'.symm)
            rw [runBuiltin_congr (congrArg cString farg) fun is => absurd is unknown,
              returned'] at returned
            obtain rfl := Except.ok.inj (Prod.mk.inj returned).1
            rfl
        · rw [runBuiltin_normal (.inl acts) returned, runBuiltin_normal (.inl acts') returned']

theorem given_eval (few : (wordsOf text).length ≤ 9) :
    given (cstr "eval " ++ text) = cstr "eval" :: wordsOf text ∧ given text = wordsOf text := by
  have first : wordsOf (cstr "eval " ++ text) = cstr "eval" :: wordsOf text :=
    @lines_append _ _ 32 (cstr "eval") (by decide) text
  rw [given, given, first, List.length_cons, if_pos (by omega), if_pos (by omega)]
  exact ⟨rfl, rfl⟩

/-- `eval` in front of a command of at most nine words and less than a thousand characters
    makes the calls that the command makes, with the same tokens and joined arguments, behind its
    own.  It does the same as the command in an array in which the message for an unknown command
    fits as it does in `farg`, where the slots that are not filled hold the same; and wherever the
    command stands and whatever they hold, it comes to the same result. -/
theorem eval_transparent (caller : Caller) (leftover leftover' : Nat → Nat → Option CStr)
    (cur : Ptr) (text junk junk' : List UInt8) (plain : 0 ∉ text) (few : (wordsOf text).length ≤ 9)
    (short : text.length < 1000) :
    (∃ first inner calls,
    invocations leftover (cstr "eval " ++ text ++ 0 :: junk) = .ok (first :: inner) ∧
      invocations leftover' (text ++ 0 :: junk') = .ok calls ∧
      first.seen = (cstr "eval" :: wordsOf text, joined (wordsOf text)) ∧
      inner.map Invocation.seen = calls.map Invocation.seen) ∧
    ((ErrorFits 1024 (wordsOf text) ↔ ErrorFits (text ++ 0 :: junk').length (wordsOf text)) →
      shellEvaluateCommand caller leftover (cstr "eval " ++ text ++ 0 :: junk) cur =
        shellEvaluateCommand caller (fun level => leftover (level + 1)) (text ++ 0 :: junk') cur) ∧
    ∀ m m₁ m₂ r r',
      shellEvaluateCommand caller leftover (cstr "eval " ++ text ++ 0 :: junk) cur m = (.ok r, m₁) →
      shellEvaluateCommand caller leftover' (text ++ 0 :: junk') cur m = (.ok r', m₂) →
      r.1 = r'.1 := by
  obtain ⟨found, direct⟩ := given_eval few
  have plain' : 0 ∉ cstr "eval " ++ text := by
    rw [List.mem_append, not_or]
    exact ⟨by decide, plain⟩
  have fits : (joined (given (cstr "eval " ++ text)).tail).length < 1024 := by
    refine fits_of_short ?_
    rw [List.length_append]
    exact Nat.add_lt_add_left short 5 |>.trans (by decide)
  have fitsDirect : (joined (given text).tail).length < 1024 := fits_of_short (by omega)
  have fitsOwn : (joined (wordsOf text)).length < 1024 := by rwa [found, List.tail_cons] at fits
  -- the next call, in `farg`
  obtain ⟨junk₁, farg, size, plainNext, again⟩ := farg_of_given plain' found fitsOwn junk
  have framed := (frame_of_given plain' found junk).trans (if_pos fitsOwn)
  obtain ⟨more, -, chosen⟩ :=
    (call_of_words plain' (wordsOf_of_given found) junk (leftover 0)).chosen
  have run := @shellEvaluateCommand_of_frame caller leftover _ cur _ framed
  rw [if_pos (chosen.eval_iff.mpr rfl), farg] at run
  have sameWords : given (joined (wordsOf text)) = given text := again.trans direct.symm
  have fitsNext : (joined (given (joined (wordsOf text))).tail).length < 1024 := by rwa [sameWords]
  refine ⟨?_, fun room => ?_, fun m m₁ m₂ r r' returned returned' => ?_⟩
  · obtain ⟨calls, made, here⟩ := invocations_calls leftover plain' fits junk
    obtain ⟨calls', made', here'⟩ := invocations_calls leftover' plain fitsDirect junk'
    rw [found] at here
    cases here with
    | last _ other => exact absurd rfl other
    | eval first behind =>
        refine ⟨_, _, calls', made, made', ?_, ?_⟩
        · rw [Invocation.seen, first.args, first.farg]
        · rw [behind.map_seen, here'.map_seen, direct]
  · rw [run]
    refine run_congr plainNext plain sameWords fitsNext ?_
    rw [size, sameWords, direct]
    exact room
  · rw [run] at returned
    exact results_agree plainNext plain sameWords fitsNext returned returned'

theorem eval_transparent_print :
    ∃ first inner calls,
      invocations (fun _ _ => none) (cstr "eval " ++ cstr "eval print  a" ++ 0 :: []) =
      .ok (first :: inner) ∧
      invocations (fun _ _ => none) (cstr "eval print  a" ++ 0 :: []) = .ok calls ∧
      first.seen = (cstr "eval" :: wordsOf (cstr "eval print  a"),
      joined (wordsOf (cstr "eval print  a"))) ∧
      inner.map Invocation.seen = calls.map Invocation.seen :=
  (eval_transparent ⟨.x86, 0, 0, pure 0⟩ (fun _ _ => none) (fun _ _ => none) 0
    (cstr "eval print  a") [] [] (by decide) (by decide) (by decide)).1

end AurorOS.Shell
