import AurorOS.Apps.Calculator

/-! # What the calculator reads

`is_valid_int` accepts the decimal representations of all integers.  `str_to_int64` reads
a representation without an overflow if its digits make up a number below `2 ^ 63`.
-/

namespace AurorOS.Apps

open Fs Devices Numbers

/-- The text is a decimal representation of the integer. -/
inductive Denotes : CStr → Int → Prop where
  | plain {digits : CStr} (nonempty : digits ≠ []) (each : ∀ c ∈ digits, isDecimal c = true) :
      Denotes digits (decimalValue digits)
  | minus {digits : CStr} (nonempty : digits ≠ []) (each : ∀ c ∈ digits, isDecimal c = true) :
      Denotes (45 :: digits) (-(decimalValue digits : Int))

/-- `result * 10 + (str[i] - '0')` on the integers. -/
def accumulate (result : Int) (c : UInt8) : Int := result * 10 + (c.toInt8.toInt - 48)

/-- The products and the sums of the loop of `str_to_int64` on the integers. -/
def loopSteps : Int → CStr → List Int
  | _, [] => []
  | result, c :: rest => result * 10 :: accumulate result c :: loopSteps (accumulate result c) rest

/-- What `str_to_int64` would compute on its way if no step could overflow. -/
def exactSteps (str : CStr) : List Int :=
  let sign : Int := if str.head? = some 45 then -1 else 1
  let digits := if str.head? = some 45 then str.tail else str
  loopSteps 0 digits ++ [digits.foldl accumulate 0 * sign]

/-- If the text is accepted as a number, it denotes an integer, which `str_to_int64` computes
    without an overflow; if it denotes a number of more than 64 bits, it is not accepted. -/
def ReadFaithfully (str : CStr) : Prop :=
  (isValidInt str = true →
    ∃ z, Denotes str z ∧ (∀ step ∈ exactSteps str, FitsInt64 step) ∧ (strToInt64 str).toInt = z) ∧
  ∀ z, Denotes str z → ¬ FitsInt64 z → isValidInt str = false

variable {str digits : CStr} {z result : Int} {c : UInt8}

theorem not_minus (each : ∀ c ∈ digits, isDecimal c = true) : ¬ digits.head? = some 45 := by
  intro minus
  cases each 45 (List.mem_of_mem_head? minus)

theorem Denotes.intValue_eq (denotes : Denotes str z) : intValue str = z := by
  cases denotes with
  | plain nonempty each => rw [intValue, if_neg (not_minus each)]
  | minus nonempty each => rw [intValue, List.head?_cons, if_pos rfl, List.tail_cons]

/-- `is_valid_int` accepts what denotes an integer. -/
theorem isValidInt_iff : isValidInt str = true ↔ ∃ z, Denotes str z := by
  constructor
  · intro valid
    cases str with
    | nil => cases valid
    | cons c rest =>
        rw [isValidInt] at valid
        by_cases minus : c = 45
        · subst minus
          rw [if_pos rfl] at valid
          by_cases empty : rest = []
          · rw [if_pos empty] at valid
            cases valid
          · rw [if_neg empty] at valid
            exact ⟨_, .minus empty (List.all_eq_true.mp valid)⟩
        · rw [if_neg minus] at valid
          exact ⟨_, .plain (List.cons_ne_nil c rest) (List.all_eq_true.mp valid)⟩
  · rintro ⟨z, denotes⟩
    cases denotes with
    | minus nonempty each =>
        rw [isValidInt, if_pos rfl, if_neg nonempty]
        exact List.all_eq_true.mpr each
    | plain nonempty each =>
        cases str with
        | nil => exact absurd rfl nonempty
        | cons c rest =>
            rw [isValidInt, if_neg fun minus => not_minus each (congrArg some minus)]
            exact List.all_eq_true.mpr each

theorem accumulate_decimal (digit : isDecimal c = true) :
    accumulate result c = result * 10 + (c.toNat - 48 : Nat) := by
  have all : ∀ c : UInt8, isDecimal c = true → c.toInt8.toInt - 48 = (c.toNat - 48 : Nat) := by
    decide +kernel
  rw [accumulate, all c digit]

theorem le_accumulate (digit : isDecimal c = true) (nonneg : 0 ≤ result) :
    result * 10 ≤ accumulate result c ∧ result ≤ accumulate result c := by
  rw [accumulate_decimal digit]
  omega

theorem foldl_accumulate (each : ∀ c ∈ digits, isDecimal c = true) (value : Nat) :
    digits.foldl accumulate value =
    (digits.foldl (fun value c => value * 10 + (c.toNat - 48)) value : Nat) := by
  induction digits generalizing value with
  | nil => rfl
  | cons c rest ih =>
      rw [List.forall_mem_cons] at each
      rw [List.foldl_cons, List.foldl_cons, accumulate_decimal each.1]
      exact_mod_cast ih each.2 (value * 10 + (c.toNat - 48))

/-- No step exceeds the last one. -/
theorem loopSteps_bounds (each : ∀ c ∈ digits, isDecimal c = true) (nonneg : 0 ≤ result) :
    result ≤ digits.foldl accumulate result ∧
      ∀ step ∈ loopSteps result digits, 0 ≤ step ∧ step ≤ digits.foldl accumulate result := by
  induction digits generalizing result with
  | nil => exact ⟨le_rfl, nofun⟩
  | cons c rest ih =>
      rw [List.forall_mem_cons] at each
      obtain ⟨product, grows⟩ := le_accumulate each.1 nonneg
      obtain ⟨whole, later⟩ := ih each.2 (nonneg.trans grows)
      rw [List.foldl_cons]
      refine ⟨grows.trans whole, ?_⟩
      intro step member
      rw [loopSteps, List.mem_cons, List.mem_cons] at member
      rcases member with rfl | rfl | behind
      · exact ⟨by omega, product.trans whole⟩
      · exact ⟨nonneg.trans grows, whole⟩
      · exact later step behind

/-- The last step is the result. -/
theorem foldl_mem_loopSteps (nonempty : digits ≠ []) (result : Int) :
    digits.foldl accumulate result ∈ loopSteps result digits := by
  induction digits generalizing result with
  | nil => exact absurd rfl nonempty
  | cons c rest ih =>
      rw [List.foldl_cons, loopSteps, List.mem_cons, List.mem_cons]
      by_cases last : rest = []
      · subst last
        exact .inr (.inl rfl)
      · exact .inr (.inr (ih last _))

theorem loopSteps_fit_iff (nonempty : digits ≠ []) (each : ∀ c ∈ digits, isDecimal c = true) :
    (∀ step ∈ loopSteps 0 digits, FitsInt64 step) ↔ (decimalValue digits : Int) < 2 ^ 63 := by
  have value : digits.foldl accumulate 0 = decimalValue digits := foldl_accumulate each 0
  obtain ⟨-, bounds⟩ := loopSteps_bounds each le_rfl
  have last := foldl_mem_loopSteps nonempty 0
  rw [value] at bounds last
  constructor
  · exact fun fit => (fit _ last).2
  · intro below step member
    obtain ⟨nonneg, most⟩ := bounds step member
    exact ⟨by omega, by omega⟩

/-- No step overflows if the integer is one of 64 bits, other than the smallest: its digits
    are read first, and without the minus they make up a number too large. -/
theorem Denotes.steps_fit_iff (denotes : Denotes str z) :
    (∀ step ∈ exactSteps str, FitsInt64 step) ↔ -2 ^ 63 < z ∧ z < 2 ^ 63 := by
  cases denotes with
  | plain nonempty each =>
      have value : str.foldl accumulate 0 = decimalValue str := foldl_accumulate each 0
      simp only [exactSteps, if_neg (not_minus each), List.forall_mem_append,
        List.forall_mem_singleton, loopSteps_fit_iff nonempty each, value]
      unfold FitsInt64
      omega
  | @minus digits nonempty each =>
      have value : digits.foldl accumulate 0 = decimalValue digits := foldl_accumulate each 0
      simp only [exactSteps, List.head?_cons, if_true, List.tail_cons, List.forall_mem_append,
        List.forall_mem_singleton, loopSteps_fit_iff nonempty each, value]
      unfold FitsInt64
      omega

/-- A text is read faithfully unless it denotes an integer whose magnitude is `2 ^ 63` or
    more. -/
theorem readFaithfully_iff (str : CStr) :
    ReadFaithfully str ↔ ∀ z, Denotes str z → -2 ^ 63 < z ∧ z < 2 ^ 63 := by
  constructor
  · intro faithful z denotes
    obtain ⟨z', denotes', fit, -⟩ := faithful.1 (isValidInt_iff.mpr ⟨z, denotes⟩)
    rw [← denotes.intValue_eq, denotes'.intValue_eq]
    exact denotes'.steps_fit_iff.mp fit
  · intro bounded
    constructor
    · intro valid
      obtain ⟨z, denotes⟩ := isValidInt_iff.mp valid
      obtain ⟨lower, upper⟩ := bounded z denotes
      refine ⟨z, denotes, denotes.steps_fit_iff.mpr ⟨lower, upper⟩, ?_⟩
      rw [← denotes.intValue_eq] at lower upper ⊢
      exact toInt_strToInt64 valid lower.le upper
    · intro z denotes large
      obtain ⟨lower, upper⟩ := bounded z denotes
      exact absurd ⟨lower.le, upper⟩ large

/-- `2 ^ 63` is accepted, and read as its negative. -/
theorem not_readFaithfully :
    (cstr "9223372036854775808").length ≤ 31 ∧ isValidInt (cstr "9223372036854775808") = true ∧
      (strToInt64 (cstr "9223372036854775808")).toInt = -9223372036854775808 ∧
      ¬ ReadFaithfully (cstr "9223372036854775808") := by
  have valid : isValidInt (cstr "9223372036854775808") = true := by decide +kernel
  have step : (9223372036854775808 : Int) ∈ exactSteps (cstr "9223372036854775808") := by
    decide +kernel
  refine ⟨by decide, valid, by decide +kernel, ?_⟩
  intro faithful
  obtain ⟨z, -, fit, -⟩ := faithful.1 valid
  exact absurd (fit _ step).2 (by decide)

end AurorOS.Apps
