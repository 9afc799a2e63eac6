import AurorOS.Apps.Tinypad
import AurorOS.Numbers.Parsing
import AurorOS.Numbers.Signed

/-! # The calculator

`calc` asks for an operator and two numbers, again and again until it accepts them, and
prints the result.  The numbers are signed, but the division is that of unsigned numbers.
-/

namespace AurorOS.Apps

open Fs Devices Shell Numbers

/-- The loop that asks for the operator. -/
def signLoop : Nat → Kernel CStr
  | 0 => Program.stop (.fault .outOfFuel)
  | fuel + 1 => do
      print "Sign (+ | - | / | *): " 0x07
      let sign := cString (← readStr (freshArray 2) 2 false 0x07 [])
      if sign ≠ cstr "/" ∧ sign ≠ cstr "*" ∧ sign ≠ cstr "-" ∧ sign ≠ cstr "+" then
        printError "Invalid sign"
        signLoop fuel
      else return sign

/-- The loops that ask for a number, which is returned as it was typed. -/
def numberLoop (prompt : String) : Nat → Kernel CStr
  | 0 => Program.stop (.fault .outOfFuel)
  | fuel + 1 => do
      print prompt 0x07
      let buf := cString (← readStr (freshArray 32) 32 false 0x07 [])
      if ¬ isValidInt buf then
        printError "Invalid number"
        numberLoop prompt fuel
      else return buf

def askSign : Kernel CStr := do signLoop (← rounds)

def askNumber (prompt : String) : Kernel CStr := do numberLoop prompt (← rounds)

/-- `result` for an operator that was accepted. -/
def calculate (arch : Arch) (sign : CStr) (left right : Int64) : Except Fault Int64 :=
  if sign = cstr "+" then .ok (left + right)
  else if sign = cstr "-" then .ok (left - right)
  else if sign = cstr "*" then .ok (left * right)
  else if sign = cstr "/" then do return (← orDivideError
    (udiv64 arch left.toUInt64 right.toUInt64)).toInt64
  else .ok 0

/-- The lines that print `result`. -/
def printResult (arch : Arch) (result : Int64) : Kernel Unit := do
  print "Result: " 0x07
  let resultBuf ←
    if result < 0 then do
      print "-" 0x07
      ofFs fun _ => utoa arch (-result).toUInt64 (freshArray 32) 10
    else ofFs fun _ => utoa arch result.toUInt64 (freshArray 32) 10
  onScreen (·.print (cString resultBuf) 0x07)
  print "\n" 0x07

/-- What the calculator does with an operator and two numbers that it has accepted. -/
def computeAndPrint (arch : Arch) (sign leftBuf rightBuf : CStr) : Kernel Unit := do
  let left := strToInt64 leftBuf
  let right := strToInt64 rightBuf
  printResult arch (← ofFs fun _ => calculate arch sign left right)

def calculatorMain (arch : Arch) : Kernel Unit := do
  let sign ← askSign
  let leftBuf ← askNumber "Left number: "
  let rightBuf ← askNumber "Right number: "
  computeAndPrint arch sign leftBuf rightBuf

variable {arch : Arch} {m m₁ m₂ m₃ : Machine} {sign left right text : CStr} {fuel size : Nat}
  {prompt complaint : String} {maxLength : UInt16} {accepts : CStr → Bool}

/-- An operator is one of four. -/
def IsOperator (sign : CStr) : Prop :=
  sign = cstr "/" ∨ sign = cstr "*" ∨ sign = cstr "-" ∨ sign = cstr "+"

instance (sign : CStr) : Decidable (IsOperator sign) := inferInstanceAs (Decidable (_ ∨ _))

def isOperator (sign : CStr) : Bool := IsOperator sign

/-- What the loops have in common: a question is asked until an answer is accepted. -/
def askLoop (prompt complaint : String) (size : Nat) (maxLength : UInt16) (accepts : CStr → Bool) :
    Nat → Kernel CStr
  | 0 => Program.stop (.fault .outOfFuel)
  | fuel + 1 => do
      print prompt 0x07
      let text := cString (← readStr (freshArray size) maxLength false 0x07 [])
      if ¬ accepts text then
        printError complaint
        askLoop prompt complaint size maxLength accepts fuel
      else return text

theorem signLoop_eq (fuel : Nat) :
    signLoop fuel = askLoop "Sign (+ | - | / | *): " "Invalid sign" 2 2 isOperator fuel := by
  induction fuel with
  | zero => rfl
  | succ fuel ih =>
      have refused (text : CStr) : ¬ isOperator text ↔
          text ≠ cstr "/" ∧ text ≠ cstr "*" ∧ text ≠ cstr "-" ∧ text ≠ cstr "+" := by
        rw [isOperator, decide_eq_true_eq, IsOperator, not_or, not_or, not_or]
      rw [signLoop, askLoop, ih]
      simp only [refused]

theorem numberLoop_eq (prompt : String) (fuel : Nat) :
    numberLoop prompt fuel = askLoop prompt "Invalid number" 32 32 isValidInt fuel := by
  induction fuel with
  | zero => rfl
  | succ fuel ih => rw [numberLoop, askLoop, ih]

theorem askLoop_accepts
    (returned : askLoop prompt complaint size maxLength accepts fuel m = (.ok text, m₁)) :
    accepts text = true := by
  induction fuel generalizing m with
  | zero => exact absurd returned Program.stop_ne_ok
  | succ fuel ih =>
      obtain ⟨_, u, _, later⟩ := Program.bind_eq_ok.mp returned
      obtain ⟨line, v, _, later⟩ := Program.bind_eq_ok.mp later
      split at later
      · obtain ⟨_, w, _, again⟩ := Program.bind_eq_ok.mp later
        exact ih again
      · rename_i accepted
        obtain ⟨rfl, _⟩ := Program.pure_eq_ok.mp later
        exact Decidable.not_not.mp accepted

theorem signLoop_operator (returned : signLoop fuel m = (.ok sign, m₁)) : IsOperator sign := by
  rw [signLoop_eq] at returned
  exact of_decide_eq_true (askLoop_accepts returned)

theorem numberLoop_valid (returned : numberLoop prompt fuel m = (.ok text, m₁)) :
    isValidInt text = true := by
  rw [numberLoop_eq] at returned
  exact askLoop_accepts returned

/-- The machine after the screen has changed. -/
def drawn (f : Screen → Screen) (m : Machine) : Machine :=
  { m with console := { m.console with screen := f m.console.screen } }

theorem onScreen_eq (f : Screen → Screen) (m : Machine) : onScreen f m = (.ok (), drawn f m) := rfl

theorem print_eq (str : String) (color : UInt8) (m : Machine) :
    print str color m = (.ok (), drawn (·.print (cstr str) color) m) := rfl

/-- Two texts that are printed one after the other. -/
theorem drawn_print_append (first second : CStr) (color : UInt8) (m : Machine) :
    drawn (·.print (first ++ second) color) m =
    drawn (·.print second color) (drawn (·.print first color) m) := by
  simp only [drawn, Screen.print, Screen.printstr, List.foldl_append]

/-- The machine after the text of a result has been printed. -/
def showResult (text : CStr) (m : Machine) : Machine :=
  drawn (·.print (cstr "\n") 0x07)
    (drawn (·.print text 0x07) (drawn (·.print (cstr "Result: ") 0x07) m))

/-- `utoa` finds room for the digits of every number in base ten. -/
theorem utoa_ten (arch : Arch) (value : UInt64) :
    ∃ buffer, utoa arch value (freshArray 32) 10 = .ok buffer ∧
    cString buffer = numeral 10 value.toNat := by
  have size : (freshArray 32).length = 32 := by rw [freshArray, List.length_replicate]
  have ten : (10 : Int32).toInt64.toUInt64.toNat = 10 := by decide
  have short : (numeral 10 value.toNat).length ≤ 20 :=
    length_numeral_le (by decide) (by decide) (value.toNat_lt.trans (by decide))
  have plain : 0 ∉ numeral 10 value.toNat := fun member => by
    cases (numeral_spec value.toNat).2.2 0 member
  have run :=
    @utoa_eq value (freshArray 32) arch 10 (by decide) (by rw [ten]; decide) (by rw [ten]; omega)
  rw [ten] at run
  exact ⟨_, run, cString_overlay plain _⟩

theorem ofFs_const {α : Type} {x : Except Fault α} {a : α} (value : x = .ok a) (m : Machine) :
    ofFs (fun _ => x) m = (.ok a, m) := by
  rw [ofFs, value]

/-- The magnitude of a result, which is the smallest number, too. -/
theorem toNat_magnitude (result : Int64) :
    (if result < 0 then (-result).toUInt64 else result.toUInt64).toNat = result.toInt.natAbs := by
  have zero : (0 : Int64).toInt = 0 := rfl
  have range := toNat_toUInt64 result
  have lower := result.le_toInt
  have upper := result.toInt_lt
  by_cases negative : result < 0
  · have below := Int64.lt_iff_toInt_lt.mp negative
    have turned := toNat_toUInt64 (-result)
    have reduced := @Int.bmod_emod (-result.toInt) (2 ^ 64)
    rw [Int64.toInt_neg] at turned
    rw [if_pos negative]
    omega
  · have above := mt Int64.lt_iff_toInt_lt.mpr negative
    rw [if_neg negative]
    omega

/-- The text that is printed is the decimal numeral of the result. -/
theorem printResult_eq (arch : Arch) (result : Int64) (m : Machine) :
    printResult arch result m = (.ok (), showResult (decimal result.toInt) m) := by
  have zero : (0 : Int64).toInt = 0 := rfl
  have magnitude := toNat_magnitude result
  unfold printResult showResult
  refine (Program.bind_of_ok (print_eq _ _ m)).trans ?_
  generalize drawn (·.print (cstr "Result: ") 0x07) m = u
  by_cases negative : result < 0
  · have below := Int64.lt_iff_toInt_lt.mp negative
    have minus : result.toInt = -(result.toInt.natAbs : Int) := by omega
    have sign : ∀ digits, 45 :: digits = cstr "-" ++ digits := fun _ => rfl
    obtain ⟨buffer, written, text⟩ := utoa_ten arch (-result).toUInt64
    rw [if_pos negative] at magnitude ⊢
    rw [minus, decimal_neg (by omega), ← magnitude, ← text, sign, drawn_print_append]
    have signed : (do
        print "-" 0x07
        ofFs fun _ => utoa arch (-result).toUInt64 (freshArray 32) 10 : Kernel _) u =
        (.ok buffer, drawn (·.print (cstr "-") 0x07) u) :=
      (Program.bind_of_ok (print_eq "-" 0x07 u)).trans (ofFs_const written _)
    refine (Program.bind_of_ok signed).trans ?_
    exact (Program.bind_of_ok (onScreen_eq _ _)).trans (print_eq _ _ _)
  · have above := mt Int64.lt_iff_toInt_lt.mpr negative
    have whole : result.toInt = (result.toInt.natAbs : Int) := by omega
    obtain ⟨buffer, written, text⟩ := utoa_ten arch result.toUInt64
    rw [if_neg negative] at magnitude ⊢
    rw [whole, decimal_natCast, ← magnitude, ← text]
    refine (Program.bind_of_ok (ofFs_const written u)).trans ?_
    exact (Program.bind_of_ok (onScreen_eq _ _)).trans (print_eq _ _ _)

/-- A signed number of 64 bits. -/
def FitsInt64 (z : Int) : Prop := -2 ^ 63 ≤ z ∧ z < 2 ^ 63

/-- What an operator stands for; the quotient is truncated toward zero. -/
def mathResult (sign : CStr) (l r : Int) : Int :=
  if sign = cstr "+" then l + r
  else if sign = cstr "-" then l - r
  else if sign = cstr "*" then l * r
  else l.tdiv r

theorem bmod_of_fits {z : Int} (fits : FitsInt64 z) : z.bmod (2 ^ 64) = z :=
  Int.bmod_eq_of_le (by have := fits.1; omega) (by have := fits.2; omega)

/-- The result is the right one, except that of most divisions with a negative number. -/
theorem calculate_iff (arch : Arch) {left right : Int64} (operator : IsOperator sign)
    (divisor : sign = cstr "/" → right.toInt ≠ 0)
    (fits : FitsInt64 (mathResult sign left.toInt right.toInt)) :
    ∃ result, calculate arch sign left right = .ok result ∧
      (result.toInt = mathResult sign left.toInt right.toInt ↔
        (sign = cstr "/" → DividesRight left.toInt right.toInt)) := by
  have unwrapped := bmod_of_fits fits
  rcases operator with rfl | rfl | rfl | rfl
  · have nonzero := divisor rfl
    have pos : 0 < right.toUInt64 := by
      have range := toNat_toUInt64 right
      have lower := right.le_toInt
      have upper := right.toInt_lt
      refine UInt64.lt_iff_toNat_lt.mpr ?_
      change 0 < right.toUInt64.toNat
      omega
    refine ⟨(left.toUInt64 / right.toUInt64).toInt64, ?_, ?_⟩
    · have quotient := (divmod64_eq arch left.toUInt64 pos).1
      have run : calculate arch (cstr "/") left right =
          (do return (← orDivideError (udiv64 arch left.toUInt64 right.toUInt64)).toInt64) := rfl
      rw [run, quotient]
      rfl
    · refine (toInt_div_iff nonzero).trans ?_
      simp
  · refine ⟨left * right, rfl, iff_of_true ((Int64.toInt_mul left right).trans unwrapped) ?_⟩
    intro other
    cases other
  · refine ⟨left - right, rfl, iff_of_true ((Int64.toInt_sub left right).trans unwrapped) ?_⟩
    intro other
    cases other
  · refine ⟨left + right, rfl, iff_of_true ((Int64.toInt_add left right).trans unwrapped) ?_⟩
    intro other
    cases other

/-- A run prints what has been computed from the answers. -/
theorem calculatorMain_eq {result : Int64} (asked : askSign m = (.ok sign, m₁))
    (first : askNumber "Left number: " m₁ = (.ok left, m₂))
    (second : askNumber "Right number: " m₂ = (.ok right, m₃))
    (computed : calculate arch sign (strToInt64 left) (strToInt64 right) = .ok result) :
    calculatorMain arch m = (.ok (), showResult (decimal result.toInt) m₃) := by
  have rest : computeAndPrint arch sign left right m₃ =
      (.ok (), showResult (decimal result.toInt) m₃) :=
    (Program.bind_of_ok (ofFs_const computed m₃)).trans (printResult_eq arch result m₃)
  exact (Program.bind_of_ok asked).trans
    ((Program.bind_of_ok first).trans ((Program.bind_of_ok second).trans rest))

/-- A run of the calculator in which it has accepted an operator and two numbers of 64 bits prints
    a text; that is the numeral of the right result, if there is one of 64 bits, unless the
    operator is `/` and a number is negative in a way that the unsigned division does not
    bear. -/
theorem calculator_exact_iff (arch : Arch) (asked : askSign m = (.ok sign, m₁))
    (first : askNumber "Left number: " m₁ = (.ok left, m₂))
    (second : askNumber "Right number: " m₂ = (.ok right, m₃))
    (leftFits : FitsInt64 (intValue left)) (rightFits : FitsInt64 (intValue right))
    (divisor : sign = cstr "/" → intValue right ≠ 0)
    (fits : FitsInt64 (mathResult sign (intValue left) (intValue right))) :
    ∃ text, calculatorMain arch m = (.ok (), showResult text m₃) ∧
      (text = decimal (mathResult sign (intValue left) (intValue right)) ↔
        (sign = cstr "/" → DividesRight (intValue left) (intValue right))) := by
  have operator : IsOperator sign := by
    obtain ⟨_, _, _, loop⟩ := Program.bind_eq_ok.mp asked
    exact signLoop_operator loop
  have valid : ∀ {prompt text u v}, askNumber prompt u = (.ok text, v) →
      isValidInt text = true := by
    intro prompt text u v returned
    obtain ⟨_, _, _, loop⟩ := Program.bind_eq_ok.mp returned
    exact numberLoop_valid loop
  rw [← toInt_strToInt64 (valid first) leftFits.1 leftFits.2, ← toInt_strToInt64
    (valid second) rightFits.1 rightFits.2]
    at *
  obtain ⟨result, computed, correct⟩ := calculate_iff arch operator divisor fits
  exact ⟨decimal result.toInt, calculatorMain_eq asked first second computed,
    decimal_injective.eq_iff.trans correct⟩

/-- A machine in front of which the keys of these scancodes are pressed. -/
def typingMachine (scancodes : List UInt8) : Machine where
  fs := ⟨fun _ => none, fun _ => none, 0, []⟩
  console := ⟨⟨fun _ => 0, 0⟩, ⟨false, false, fun _ => false⟩, scancodes⟩
  blocks := []

/-- The machine when the operator and the numbers have been asked for. -/
def answered (m : Machine) : Machine :=
  (askNumber "Right number: " (askNumber "Left number: " (askSign m).2).2).2

/-- The keys of `/`, `7` and `2`, each with Enter behind it. -/
def sevenHalves : Machine := typingMachine [0x35, 0x1C, 0x9C, 0x08, 0x1C, 0x9C, 0x03, 0x1C]

theorem calculator_exact_iff_sevenHalves :
    ∃ text, calculatorMain .x86 sevenHalves = (.ok (), showResult text (answered sevenHalves)) ∧
      (text = decimal (mathResult (cstr "/") (intValue (cstr "7")) (intValue (cstr "2"))) ↔
        (cstr "/" = cstr "/" → DividesRight (intValue (cstr "7")) (intValue (cstr "2")))) :=
  calculator_exact_iff .x86
    (Prod.ext (by decide +kernel : (askSign sevenHalves).1 = .ok (cstr "/")) rfl)
    (Prod.ext (by decide +kernel : (askNumber "Left number: " (askSign sevenHalves).2).1 =
      .ok (cstr "7")) rfl)
    (Prod.ext (by decide +kernel :
      (askNumber "Right number: " (askNumber "Left number: " (askSign sevenHalves).2).2).1 =
      .ok (cstr "2")) rfl)
    ⟨by decide, by decide⟩ ⟨by decide, by decide⟩ (by decide) ⟨by decide, by decide⟩

/-- The keys of `/`, `-`, `6` and `2`. -/
def minusSixHalves : Machine := typingMachine [0x35, 0x1C, 0x9C, 0x0C, 0x07, 0x1C, 0x9C, 0x03, 0x1C]

/-- `-6 / 2` comes out as 9223372036854775805. -/
theorem calculator_not_exact :
    calculatorMain .x86_64 minusSixHalves =
        (.ok (), showResult (decimal 9223372036854775805) (answered minusSixHalves)) ∧
      intValue (cstr "-6") = -6 ∧ mathResult (cstr "/") (-6) 2 = -3 := by
  refine ⟨?_, by decide, by decide⟩
  have computed : calculate .x86_64 (cstr "/") (strToInt64 (cstr "-6")) (strToInt64 (cstr "2")) =
      .ok 9223372036854775805 := by decide +kernel
  have value : (9223372036854775805 : Int64).toInt = 9223372036854775805 := by decide +kernel
  rw [← value]
  exact calculatorMain_eq
    (Prod.ext (by decide +kernel : (askSign minusSixHalves).1 = .ok (cstr "/")) rfl)
    (Prod.ext (by decide +kernel : (askNumber "Left number: " (askSign minusSixHalves).2).1 =
      .ok (cstr "-6")) rfl)
    (Prod.ext (by decide +kernel :
      (askNumber "Right number: " (askNumber "Left number: " (askSign minusSixHalves).2).2).1 =
      .ok (cstr "2")) rfl)
    computed

end AurorOS.Apps
