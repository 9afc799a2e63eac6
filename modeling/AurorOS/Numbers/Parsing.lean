import AurorOS.Numbers.Conversions
import Mathlib.Data.FinEnum

/-! # Text as numbers

`is_valid_int` accepts decimal numbers with an optional minus, of any length;
`str_to_int64` accumulates their digits in 64 bits.
-/

namespace AurorOS.Numbers

open Devices

/-- `str[i] >= '0' && str[i] <= '9'` -/
def isDecimal (c : UInt8) : Bool := 48 ≤ c ∧ c ≤ 57

/-- The check for a terminator in two places behind the minus is never reached: the first
    of them has ended the function before. -/
def isValidInt (str : List UInt8) : Bool :=
  match str with
  | [] => false
  | c :: rest =>
      if c = 45 then
        if rest = [] then false else rest.all isDecimal
      else str.all isDecimal

/-- Signed arithmetic wraps around in the builds. -/
def strToInt64 (str : List UInt8) : Int64 :=
  let sign : Int64 := if str.head? = some 45 then -1 else 1
  let digits := if str.head? = some 45 then str.tail else str
  digits.foldl (fun result c => result * 10 + (c.toInt8.toInt64 - 48)) 0 * sign

/-- The number with these decimal digits. -/
def decimalValue (digits : List UInt8) : Nat :=
  digits.foldl (fun value c => value * 10 + (c.toNat - 48)) 0

/-- The integer that a text accepted by `is_valid_int` denotes. -/
def intValue (str : List UInt8) : Int :=
  if str.head? = some 45 then -(decimalValue str.tail : Int) else decimalValue str

variable {str digits : List UInt8}

/-- A digit as a signed number. -/
theorem toInt64_decimal {c : UInt8} (digit : isDecimal c = true) :
    c.toInt8.toInt64 - 48 = Int64.ofInt (c.toNat - 48 : Nat) := by
  have all : ∀ c : UInt8, isDecimal c = true →
      c.toInt8.toInt64 - 48 = Int64.ofInt (c.toNat - 48 : Nat) := by
    decide +kernel
  exact all c digit

theorem foldl_ofInt (each : ∀ c ∈ digits, isDecimal c = true) (value : Nat) :
    digits.foldl (fun result c => result * 10 + (c.toInt8.toInt64 - 48)) (Int64.ofInt value) =
      Int64.ofInt (digits.foldl (fun value c => value * 10 + (c.toNat - 48)) value : Nat) := by
  induction digits generalizing value with
  | nil => rfl
  | cons c rest ih =>
      rw [List.forall_mem_cons] at each
      have step : Int64.ofInt value * 10 + (c.toInt8.toInt64 - 48) =
          Int64.ofInt (value * 10 + (c.toNat - 48) : Nat) := by
        rw [toInt64_decimal each.1, Nat.cast_add, Nat.cast_mul, Int64.ofInt_add, Int64.ofInt_mul]
        rfl
      rw [List.foldl_cons, List.foldl_cons, step]
      exact ih each.2 _

/-- An accepted text is read modulo `2 ^ 64`. -/
theorem strToInt64_eq (valid : isValidInt str = true) :
    strToInt64 str = Int64.ofInt (intValue str) := by
  cases str with
  | nil => cases valid
  | cons c rest =>
      rw [isValidInt] at valid
      by_cases minus : c = 45
      · subst minus
        have each : ∀ c ∈ rest, isDecimal c = true := by
          rw [if_pos rfl] at valid
          split at valid
          · cases valid
          · exact List.all_eq_true.mp valid
        have read := foldl_ofInt each 0
        calc strToInt64 (45 :: rest)
            = rest.foldl (fun result c => result * 10 + (c.toInt8.toInt64 - 48)) (Int64.ofInt 0) *
              -1 := rfl
          _ = Int64.ofInt (decimalValue rest) * -1 := congrArg (· * -1) read
          _ = -Int64.ofInt (decimalValue rest) := by rw [Int64.mul_neg, Int64.mul_one]
          _ = Int64.ofInt (intValue (45 :: rest)) := by
              rw [intValue, List.head?_cons, if_pos rfl, Int64.ofInt_neg]
              rfl
      · have other : ¬ (c :: rest).head? = some 45 := fun same => minus (Option.some.inj same)
        rw [if_neg minus] at valid
        have read := foldl_ofInt (List.all_eq_true.mp valid) 0
        rw [strToInt64, intValue, if_neg other, if_neg other, if_neg other, Int64.mul_one]
        exact read

/-- A text of a number that has 64 bits is read exactly. -/
theorem toInt_strToInt64 (valid : isValidInt str = true) (lower : -2 ^ 63 ≤ intValue str)
    (upper : intValue str < 2 ^ 63) : (strToInt64 str).toInt = intValue str := by
  rw [strToInt64_eq valid]
  exact Int64.toInt_ofInt_of_le lower upper

/-- The decimal numeral of an integer. -/
def decimal (z : Int) : List UInt8 := cstr (toString z)

/-- The last digit stands behind the numeral of the others. -/
theorem numeral_ten (n : Nat) :
    numeral 10 n = (if n < 10 then [] else numeral 10 (n / 10)) ++
    [digitTable.getD (n % 10) 0] := by
  by_cases zero : n = 0
  · subst zero
    rfl
  have pos := Nat.pos_of_ne_zero zero
  rw [numeral, if_neg zero, Nat.digits_def' (by decide) pos, List.reverse_cons, List.map_append]
  by_cases small : n < 10
  · rw [if_pos small, Nat.div_eq_of_lt small, Nat.digits_zero]
    rfl
  · have more : n / 10 ≠ 0 := by omega
    rw [if_neg small, numeral, if_neg more]
    rfl

theorem digit_cases {d : Nat} (digit : d < 10) :
    (Nat.digitChar d).toNat.toUInt8 = digitTable.getD d 0 ∧
    (digitTable.getD d 0).toNat - 48 = d ∧ isDecimal (digitTable.getD d 0) = true := by
  revert d
  decide +kernel

/-- The decimal numeral of a natural number is what `utoa` writes. -/
theorem toDigits_ten (n : Nat) :
    (Nat.toDigits 10 n).map (fun c => c.toNat.toUInt8) = numeral 10 n := by
  induction n using Nat.strongRecOn with
  | ind n ih =>
      rw [Nat.toDigits_eq_if (by decide), numeral_ten]
      by_cases small : n < 10
      · rw [if_pos small, if_pos small, Nat.mod_eq_of_lt small]
        simp [(digit_cases small).1]
      · have digit := (digit_cases (Nat.mod_lt n (by decide : 0 < 10))).1
        rw [if_neg small, if_neg small, List.map_append, ih (n / 10) (by omega)]
        simp [digit]

theorem decimal_natCast (n : Nat) : decimal n = numeral 10 n := by
  have text : (toString (n : Int)).toList = Nat.toDigits 10 n := Nat.toList_repr
  rw [decimal, cstr, text, toDigits_ten]

theorem decimal_neg {n : Nat} (pos : 0 < n) : decimal (-n) = 45 :: numeral 10 n := by
  cases n with
  | zero => cases pos
  | succ n =>
      have text : toString (-((n + 1 : Nat) : Int)) = "-" ++ toString (n + 1) := rfl
      have digits : (toString (n + 1)).toList = Nat.toDigits 10 (n + 1) := Nat.toList_repr
      rw [decimal, text, cstr, String.toList_append, List.map_append, digits, toDigits_ten]
      rfl

theorem numeral_spec (n : Nat) :
    decimalValue (numeral 10 n) = n ∧ numeral 10 n ≠ [] ∧
    ∀ c ∈ numeral 10 n, isDecimal c = true := by
  induction n using Nat.strongRecOn with
  | ind n ih =>
      obtain ⟨-, value, digit⟩ := digit_cases (Nat.mod_lt n (by decide : 0 < 10))
      rw [numeral_ten]
      by_cases small : n < 10
      · rw [if_pos small, List.nil_append, Nat.mod_eq_of_lt small] at *
        refine ⟨?_, List.cons_ne_nil _ _, ?_⟩
        · rw [decimalValue, List.foldl_cons, List.foldl_nil, value, Nat.zero_mul, Nat.zero_add]
        · simpa using digit
      · obtain ⟨front, _, digits⟩ := ih (n / 10) (by omega)
        rw [if_neg small]
        refine ⟨?_, by simp, ?_⟩
        · rw [decimalValue] at front ⊢
          rw [List.foldl_append, front, List.foldl_cons, List.foldl_nil, value]
          omega
        · intro c member
          rcases List.mem_append.mp member with before | last
          · exact digits c before
          · rw [List.mem_singleton.mp last]
            exact digit

/-- A numeral denotes its integer. -/
theorem intValue_decimal (z : Int) : intValue (decimal z) = z := by
  rcases Int.eq_nat_or_neg z with ⟨n, rfl | rfl⟩
  · obtain ⟨value, some, digits⟩ := numeral_spec n
    rw [decimal_natCast, intValue, if_neg, value]
    intro minus
    have member := digits 45 (List.mem_of_mem_head? minus)
    cases member
  · by_cases zero : n = 0
    · subst zero
      rfl
    · rw [decimal_neg (Nat.pos_of_ne_zero zero), intValue, List.head?_cons, if_pos rfl,
        List.tail_cons, (numeral_spec n).1]

theorem decimal_injective : Function.Injective decimal := fun z z' same => by
  rw [← intValue_decimal z, same, intValue_decimal]

end AurorOS.Numbers
