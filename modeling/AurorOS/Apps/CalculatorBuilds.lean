import AurorOS.Apps.CalculatorInput
import AurorOS.Devices.Editing
import AurorOS.Numbers.Numerals
import AurorOS.Shell.Strings

/-! # Division by zero

A division by zero is a fault on x86_64 and returns a number on x86, and apart from that
the builds divide alike.  `utoa` never divides by zero; the calculator does if it is
asked to.
-/

namespace AurorOS.Apps

open Fs Devices Shell Numbers Outcome

/-- Before the calculator computes anything, it has accepted an operator and two numbers. -/
def answers : Kernel (CStr × CStr × CStr) := do
  let sign ← askSign
  let leftBuf ← askNumber "Left number: "
  let rightBuf ← askNumber "Right number: "
  return (sign, leftBuf, rightBuf)

/-- The run divides by no zero, and so it is the same on both builds. -/
structure DividesSafely (m : Machine) : Prop where
  noFault : (calculatorMain .x86_64 m).1 ≠ .error (.fault divideError)
  same : calculatorMain .x86 m = calculatorMain .x86_64 m

/-- The lines that are typed. -/
def typed (m : Machine) : List (List Press) := typedLines m.console.presses

/-- The first of some lines that is accepted, as it is edited within a number of characters, and
    the lines behind it. -/
def firstAccepted (room : Nat) (accepts : CStr → Bool) :
    List (List Press) → Option (CStr × List (List Press))
  | [] => none
  | line :: later =>
      if accepts (edited room [] line) then some (edited room [] line, later)
      else firstAccepted room accepts later

/-- The first operator that is typed and the first two numbers behind it; a line has as many
    characters as its array has room for. -/
def firstAnswers (lines : List (List Press)) : Option (CStr × CStr × CStr) := do
  let (sign, later) ← firstAccepted 1 isOperator lines
  let (left, later) ← firstAccepted 31 isValidInt later
  let (right, _) ← firstAccepted 31 isValidInt later
  return (sign, left, right)

/-- The operator is `/` and the right number is a multiple of `2 ^ 64`. -/
def AsksForZero (lines : List (List Press)) : Prop :=
  ∃ left right, firstAnswers lines = some (cstr "/", left, right) ∧ (2 ^ 64 : Int) ∣ intValue right

variable {n d base : UInt64} {m m' : Machine} {sign left right : CStr} {e : Fault}

/-- The x86_64 build divides as the x86 build does, with a trap for a divisor that is zero. -/
theorem div64_x86_64 (n d : UInt64) :
    udiv64 .x86_64 n d = (if d = 0 then none else udiv64 .x86 n d) ∧
      umod64 .x86_64 n d = (if d = 0 then none else umod64 .x86 n d) := by
  by_cases zero : d = 0
  · rw [if_pos zero, if_pos zero, udiv64, umod64, if_pos zero, if_pos zero]
    exact ⟨rfl, rfl⟩
  · have pos : 0 < d := UInt64.pos_iff_ne_zero.mpr zero
    obtain ⟨quotient, remainder⟩ := divmod64_eq .x86_64 n pos
    obtain ⟨quotient', remainder'⟩ := divmod64_eq .x86 n pos
    rw [if_neg zero, if_neg zero, quotient, quotient', remainder, remainder']
    exact ⟨rfl, rfl⟩

theorem storeAt_ne_divideError (a : List UInt8) (i : Nat) (c : UInt8) :
    storeAt a i c ≠ .error divideError := by
  intro faults
  rw [storeAt] at faults
  split at faults
  · cases faults
  · cases Except.error.inj faults

theorem loadAt_ne_divideError (a : List UInt8) (i : Nat) : loadAt a i ≠ .error divideError := by
  intro faults
  rw [loadAt] at faults
  split at faults
  · cases faults
  · cases Except.error.inj faults

theorem ok_ne_divideError {α : Type} (a : α) : (.ok a : Except Fault α) ≠ .error divideError := by
  intro faults
  cases faults

theorem digitLoop_builds (pos : 0 < base) (fuel : Nat) (value : UInt64) (ptr : Nat)
    (buffer : List UInt8) :
    digitLoop .x86 base fuel value ptr buffer = digitLoop .x86_64 base fuel value ptr buffer ∧
      digitLoop .x86_64 base fuel value ptr buffer ≠ .error divideError := by
  induction fuel generalizing value ptr buffer with
  | zero =>
      refine ⟨rfl, fun faults => ?_⟩
      cases Except.error.inj faults
  | succ fuel ih =>
      obtain ⟨quotient, remainder⟩ := divmod64_eq .x86_64 value pos
      obtain ⟨quotient', remainder'⟩ := divmod64_eq .x86 value pos
      rw [digitLoop, digitLoop, quotient, quotient', remainder, remainder']
      by_cases zero : value = 0
      · rw [if_pos zero, if_pos zero]
        exact ⟨rfl, ok_ne_divideError _⟩
      · rw [if_neg zero, if_neg zero]
        constructor
        · refine congrArg _ (funext fun _ => congrArg _ (funext fun stored => ?_))
          exact (ih _ _ stored).1
        · refine bind_ne_error (ok_ne_divideError _) fun _ _ => ?_
          refine bind_ne_error (storeAt_ne_divideError _ _ _) fun stored _ => ?_
          exact bind_ne_error (ok_ne_divideError _) fun next _ => (ih next _ stored).2

theorem swapLoop_ne_divideError (buffer : List UInt8) (ptr1 count : Nat) :
    swapLoop buffer ptr1 count ≠ .error divideError := by
  induction buffer, ptr1, count using swapLoop.induct with
  | case1 => exact ok_ne_divideError _
  | case2 => exact ok_ne_divideError _
  | case3 buffer ptr1 count ih =>
      rw [swapLoop]
      refine bind_ne_error (loadAt_ne_divideError _ _) fun last _ => ?_
      refine bind_ne_error (loadAt_ne_divideError _ _) fun first _ => ?_
      refine bind_ne_error (storeAt_ne_divideError _ _ _) fun buffer _ => ?_
      exact bind_ne_error (storeAt_ne_divideError _ _ _) fun buffer _ => ih buffer

/-- `utoa` divides by a base that is not zero, or not at all. -/
theorem utoa_builds (value : UInt64) (buffer : List UInt8) (base : Int32) :
    utoa .x86 value buffer base = utoa .x86_64 value buffer base ∧
      utoa .x86_64 value buffer base ≠ .error divideError := by
  rw [utoa, utoa]
  by_cases refused : base < 2 ∨ base > 36
  · rw [if_pos refused, if_pos refused]
    exact ⟨rfl, storeAt_ne_divideError _ _ _⟩
  rw [if_neg refused, if_neg refused]
  by_cases zero : value = 0
  · rw [if_pos zero, if_pos zero]
    exact ⟨rfl, bind_ne_error (storeAt_ne_divideError _ _ _) fun _ _ =>
      storeAt_ne_divideError _ _ _⟩
  rw [if_neg zero, if_neg zero]
  rw [not_or] at refused
  obtain ⟨same, large, -⟩ := toNat_base (Int32.not_lt.mp refused.1) (Int32.not_lt.mp refused.2)
  have pos : 0 < base.toInt64.toUInt64 :=
    UInt64.lt_iff_toNat_lt.mpr (by change 0 < base.toInt64.toUInt64.toNat; omega)
  obtain ⟨builds, noFault⟩ := digitLoop_builds pos 65 value 0 buffer
  refine ⟨by rw [builds], bind_ne_error noFault fun digits _ => ?_⟩
  exact bind_ne_error (storeAt_ne_divideError _ _ _) fun ended _ =>
    swapLoop_ne_divideError ended 0 digits.1

/-- A line is the next of the lines that are typed, or there is none. -/
theorem readStr_typed {size : Nat} {maxLength : UInt16} (positive : 1 ≤ maxLength.toNat)
    (array : maxLength.toNat ≤ size) (secret : Bool) (color : UInt8) (m : Machine) :
    (typed m = [] ∧
      ∃ m', Shell.readStr (freshArray size) maxLength secret color [] m = (.error .waiting, m')) ∨
    ∃ line buffer m', Shell.readStr (freshArray size) maxLength secret color [] m =
    (.ok buffer, m') ∧
      cString buffer = edited (maxLength.toNat - 1) [] line ∧ typed m = line :: typed m' := by
  have enough : maxLength.toNat ≤ (freshArray size).length := by
    rw [freshArray, List.length_replicate]
    exact array
  rcases readStr_outcome positive enough secret color m.console with
    ⟨none, console', waits⟩ | ⟨line, junk, console', returns, plain, -, -, lines⟩
  · refine .inl ⟨none, { m with console := console' }, ?_⟩
    rw [Shell.readStr, onConsole, Program.zoom, waits]
  · refine .inr ⟨line, _, { m with console := console' }, ?_, cString_of_ended plain junk, lines⟩
    rw [Shell.readStr, onConsole, Program.zoom, returns]

/-- The loop returns the first line that it accepts, or waits for it. -/
theorem askLoop_typed {prompt complaint : String} {size fuel : Nat} {maxLength : UInt16}
    {accepts : CStr → Bool} (positive : 1 ≤ maxLength.toNat) (array : maxLength.toNat ≤ size)
    (enough : (typed m).length < fuel) :
    (firstAccepted (maxLength.toNat - 1) accepts (typed m) = none ∧
      ∃ m', askLoop prompt complaint size maxLength accepts fuel m = (.error .waiting, m')) ∨
    ∃ text m', askLoop prompt complaint size maxLength accepts fuel m = (.ok text, m') ∧
      firstAccepted (maxLength.toNat - 1) accepts (typed m) = some (text, typed m') := by
  induction fuel generalizing m with
  | zero => exact absurd enough (Nat.not_lt_zero _)
  | succ fuel ih =>
      rw [askLoop]
      have prompted := print_eq prompt 0x07 m
      have same : typed (drawn (·.print (cstr prompt) 0x07) m) = typed m := rfl
      rw [← same] at enough ⊢
      rw [Program.bind_of_ok prompted]
      generalize drawn (·.print (cstr prompt) 0x07) m = u at enough ⊢
      rcases readStr_typed positive array false 0x07 u with
        ⟨none, m', waits⟩ | ⟨line, buffer, v, returns, text, lines⟩
      · rw [none]
        exact .inl ⟨rfl, m', Program.bind_of_error waits⟩
      · rw [lines, firstAccepted, Program.bind_of_ok returns, text]
        by_cases accepted : accepts (edited (maxLength.toNat - 1) [] line) = true
        · rw [if_pos accepted, if_neg (not_not_intro accepted)]
          exact .inr ⟨_, v, rfl, rfl⟩
        · rw [if_neg accepted, if_pos accepted]
          rw [lines, List.length_cons] at enough
          have complained : typed (drawn (·.printError (cstr complaint)) v) = typed v := rfl
          rw [← complained] at enough ⊢
          exact ih (Nat.lt_of_succ_lt_succ enough)

/-- There are no more lines than `rounds` allows for. -/
theorem typed_lt_rounds (m : Machine) : (typed m).length < m.console.scancodes.length + 1 :=
  Nat.lt_succ_of_le ((length_typedLines_le _).trans (length_presses_le _ _))

theorem askSign_typed (m : Machine) :
    (firstAccepted 1 isOperator (typed m) = none ∧ ∃ m', askSign m = (.error .waiting, m')) ∨
    ∃ text m', askSign m = (.ok text, m') ∧
    firstAccepted 1 isOperator (typed m) = some (text, typed m') := by
  have run : askSign m = signLoop (m.console.scancodes.length + 1) m := rfl
  have positive : 1 ≤ (2 : UInt16).toNat := by decide
  have array : (2 : UInt16).toNat ≤ 2 := by decide
  rw [run, signLoop_eq]
  exact askLoop_typed positive array (typed_lt_rounds m)

theorem askNumber_typed (prompt : String) (m : Machine) :
    (firstAccepted 31 isValidInt (typed m) = none ∧
    ∃ m', askNumber prompt m = (.error .waiting, m')) ∨
    ∃ text m', askNumber prompt m = (.ok text, m') ∧
      firstAccepted 31 isValidInt (typed m) = some (text, typed m') := by
  have run : askNumber prompt m = numberLoop prompt (m.console.scancodes.length + 1) m := rfl
  have positive : 1 ≤ (32 : UInt16).toNat := by decide
  have array : (32 : UInt16).toNat ≤ 32 := by decide
  rw [run, numberLoop_eq]
  exact askLoop_typed positive array (typed_lt_rounds m)

/-- The answers are the first that are accepted among the lines that are typed. -/
theorem answers_typed (m : Machine) :
    (firstAnswers (typed m) = none ∧ ∃ m', answers m = (.error .waiting, m')) ∨
    ∃ sign left right m', answers m = (.ok (sign, left, right), m') ∧
      firstAnswers (typed m) = some (sign, left, right) := by
  rw [answers, firstAnswers]
  rcases askSign_typed m with ⟨none, m', waits⟩ | ⟨sign, m₁, asked, first⟩
  · rw [none]
    exact .inl ⟨rfl, m', Program.bind_of_error waits⟩
  rw [Program.bind_of_ok asked, first]
  rcases askNumber_typed "Left number: " m₁ with ⟨none, m', waits⟩ | ⟨left, m₂, askedLeft, second⟩
  · refine .inl ⟨?_, m', Program.bind_of_error waits⟩
    change (firstAccepted 31 isValidInt (typed m₁)).bind _ = _
    rw [none]
    rfl
  rw [Program.bind_of_ok askedLeft]
  rcases askNumber_typed "Right number: " m₂ with ⟨none, m', waits⟩ | ⟨right, m₃, askedRight, third⟩
  · refine .inl ⟨?_, m', Program.bind_of_error waits⟩
    simp only [Option.bind_eq_bind, Option.bind_some, second, none, Option.bind_none]
  · refine .inr ⟨sign, left, right, m₃, Program.bind_of_ok askedRight, ?_⟩
    simp only [Option.bind_eq_bind, Option.bind_some, second, third, Option.pure_def]

theorem calculatorMain_answers (arch : Arch) :
    calculatorMain arch = (do
      let (sign, leftBuf, rightBuf) ← answers
      computeAndPrint arch sign leftBuf rightBuf) := by
  simp only [calculatorMain, answers, bind_assoc, pure_bind]

theorem isValidInt_of_answers (answered : answers m = (.ok (sign, left, right), m')) :
    isValidInt right = true := by
  obtain ⟨_, _, _, rest⟩ := Program.bind_eq_ok.mp answered
  obtain ⟨_, _, _, rest⟩ := Program.bind_eq_ok.mp rest
  obtain ⟨rightBuf, _, asked, value⟩ := Program.bind_eq_ok.mp rest
  obtain ⟨same, -⟩ := Program.pure_eq_ok.mp value
  obtain ⟨_, _, _, loop⟩ := Program.bind_eq_ok.mp asked
  rw [← (Prod.mk.inj (Prod.mk.inj same).2).2]
  exact numberLoop_valid loop

/-- The divisor is zero if the number is one modulo `2 ^ 64`. -/
theorem toUInt64_eq_zero_iff (valid : isValidInt right = true) :
    (strToInt64 right).toUInt64 = 0 ↔ (2 ^ 64 : Int) ∣ intValue right := by
  have unsigned := toNat_toUInt64 (strToInt64 right)
  have signed : (strToInt64 right).toInt = (intValue right).bmod (2 ^ 64) := by
    rw [strToInt64_eq valid, Int64.toInt_ofInt]
    rfl
  have reduced := @Int.bmod_emod (intValue right) (2 ^ 64)
  rw [signed] at unsigned
  have residue : ((strToInt64 right).toUInt64.toNat : Int) = intValue right % 2 ^ 64 :=
    unsigned.trans reduced
  constructor
  · intro zero
    rw [zero] at residue
    exact Int.dvd_of_emod_eq_zero residue.symm
  · intro multiple
    have zero := Int.emod_eq_zero_of_dvd multiple
    refine UInt64.toNat.inj ?_
    change (strToInt64 right).toUInt64.toNat = 0
    omega

theorem calculate_builds {l r : Int64} (safe : ¬ (sign = cstr "/" ∧ r.toUInt64 = 0)) :
    ∃ result, ∀ arch, calculate arch sign l r = .ok result := by
  by_cases plus : sign = cstr "+"
  · exact ⟨_, fun arch => if_pos plus⟩
  by_cases minus : sign = cstr "-"
  · exact ⟨_, fun arch => (if_neg plus).trans (if_pos minus)⟩
  by_cases times : sign = cstr "*"
  · exact ⟨_, fun arch => (if_neg plus).trans ((if_neg minus).trans (if_pos times))⟩
  by_cases divide : sign = cstr "/"
  · have pos : 0 < r.toUInt64 := UInt64.pos_iff_ne_zero.mpr fun zero => safe ⟨divide, zero⟩
    refine ⟨(l.toUInt64 / r.toUInt64).toInt64, fun arch => ?_⟩
    rw [calculate, if_neg plus, if_neg minus, if_neg times, if_pos divide,
      (divmod64_eq arch l.toUInt64 pos).1]
    rfl
  · exact ⟨0, fun arch =>
      (if_neg plus).trans ((if_neg minus).trans ((if_neg times).trans (if_neg divide)))⟩

theorem calculate_zero {l r : Int64} (zero : r.toUInt64 = 0) :
    calculate .x86_64 (cstr "/") l r = .error divideError := by
  have run : calculate .x86_64 (cstr "/") l r =
      (do return (← orDivideError (udiv64 .x86_64 l.toUInt64 r.toUInt64)).toInt64) := rfl
  rw [run, udiv64, if_pos zero]
  rfl

/-- With the questions answered the run is safe unless the divisor is zero. -/
theorem dividesSafely_answered (answered : answers m = (.ok (sign, left, right), m')) :
    DividesSafely m ↔ ¬ (sign = cstr "/" ∧ (2 ^ 64 : Int) ∣ intValue right) := by
  have divisor := toUInt64_eq_zero_iff (isValidInt_of_answers answered)
  have run : ∀ arch, calculatorMain arch m = computeAndPrint arch sign left right m' := by
    intro arch
    rw [calculatorMain_answers]
    exact Program.bind_of_ok answered
  constructor
  · rintro ⟨noFault, -⟩ ⟨rfl, zero⟩
    refine noFault ?_
    have stops : ofFs (fun _ => calculate .x86_64 (cstr "/") (strToInt64 left) (strToInt64 right))
        m' =
        (.error (.fault divideError), m') := by
      rw [ofFs, calculate_zero (divisor.mpr zero)]
    rw [run]
    exact congrArg Prod.fst (Program.bind_of_error stops)
  · intro safe
    rw [← divisor] at safe
    obtain ⟨result, computed⟩ := calculate_builds (l := strToInt64 left) safe
    have prints : ∀ arch, calculatorMain arch m =
        (.ok (), showResult (decimal result.toInt) m') := by
      intro arch
      rw [run]
      exact (Program.bind_of_ok (ofFs_const (computed arch) m')).trans
        (printResult_eq arch result m')
    constructor
    · rw [prints]
      intro faults
      cases faults
    · rw [prints, prints]

/-- The builds differ in what a division by zero does.  `utoa` makes none, and so it does the same
    on both; the calculator makes one, and the builds do different things, when the lines that
    are typed ask for a division by a multiple of `2 ^ 64`. -/
theorem dividesSafely_iff (n d value : UInt64) (buffer : List UInt8) (base : Int32) (m : Machine) :
    (udiv64 .x86_64 n d = (if d = 0 then none else udiv64 .x86 n d) ∧
      umod64 .x86_64 n d = (if d = 0 then none else umod64 .x86 n d)) ∧
    (utoa .x86 value buffer base = utoa .x86_64 value buffer base ∧
      utoa .x86_64 value buffer base ≠ .error divideError) ∧
    (DividesSafely m ↔ ¬ AsksForZero (typed m)) := by
  refine ⟨div64_x86_64 n d, utoa_builds value buffer base, ?_⟩
  rcases answers_typed m with ⟨none, m', waits⟩ | ⟨sign, left, right, m', answered, typed⟩
  · have run : ∀ arch, calculatorMain arch m = (.error .waiting, m') := by
      intro arch
      rw [calculatorMain_answers]
      exact Program.bind_of_error waits
    refine iff_of_true ⟨?_, ?_⟩ ?_
    · rw [run]
      intro faults
      cases faults
    · rw [run, run]
    · rintro ⟨left, right, found, -⟩
      cases none.symm.trans found
  · refine (dividesSafely_answered answered).trans (not_congr ?_)
    constructor
    · rintro ⟨rfl, zero⟩
      exact ⟨left, right, typed, zero⟩
    · rintro ⟨left', right', found, zero⟩
      cases typed.symm.trans found
      exact ⟨rfl, zero⟩

/-- The keys of `/`, `1` and `0`, each with Enter behind it. -/
def oneByZero : Machine := typingMachine [0x35, 0x1C, 0x9C, 0x02, 0x1C, 0x9C, 0x0B, 0x1C]

/-- The x86_64 build faults and the x86 build prints -1. -/
theorem not_dividesSafely :
    (calculatorMain .x86_64 oneByZero).1 = .error (.fault divideError) ∧
      calculatorMain .x86 oneByZero = (.ok (), showResult (decimal (-1)) (answered oneByZero)) := by
  have sign : askSign oneByZero = (.ok (cstr "/"), (askSign oneByZero).2) :=
    Prod.ext (by decide +kernel : (askSign oneByZero).1 = .ok (cstr "/")) rfl
  have first : askNumber "Left number: " (askSign oneByZero).2 =
      (.ok (cstr "1"), (askNumber "Left number: " (askSign oneByZero).2).2) :=
    Prod.ext (by decide +kernel : (askNumber "Left number: " (askSign oneByZero).2).1 =
      .ok (cstr "1")) rfl
  have second : askNumber "Right number: " (askNumber "Left number: " (askSign oneByZero).2).2 =
      (.ok (cstr "0"), answered oneByZero) :=
    Prod.ext (by decide +kernel :
      (askNumber "Right number: " (askNumber "Left number: " (askSign oneByZero).2).2).1 =
      .ok (cstr "0")) rfl
  constructor
  · have stops : ofFs (fun _ => calculate .x86_64 (cstr "/") (strToInt64 (cstr "1"))
        (strToInt64 (cstr "0")))
        (answered oneByZero) = (.error (.fault divideError), answered oneByZero) := by
      rw [ofFs, calculate_zero (by decide +kernel)]
    have run : calculatorMain .x86_64 oneByZero =
        (.error (.fault divideError), answered oneByZero) :=
      (Program.bind_of_ok sign).trans
        ((Program.bind_of_ok first).trans
          ((Program.bind_of_ok second).trans (Program.bind_of_error stops)))
    rw [run]
  · have computed : calculate .x86 (cstr "/") (strToInt64 (cstr "1")) (strToInt64 (cstr "0")) =
        .ok (-1) := by
      decide +kernel
    have value : (-1 : Int64).toInt = -1 := by decide +kernel
    rw [← value]
    exact calculatorMain_eq sign first second computed

end AurorOS.Apps
