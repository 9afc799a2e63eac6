import AurorOS.Numbers.Parsing
import AurorOS.Numbers.Signed

/-! # Canonical numerals

What `utoa` writes is the one numeral that starts with no superfluous zero, in every base
that it has digits for, and a decimal one is read back.
-/

namespace AurorOS.Numbers

open Devices Lines

/-- `0` to `9`, then `A` to `Z`. -/
def digitChar (d : Nat) : UInt8 := UInt8.ofNat (if d < 10 then 48 + d else 55 + d)

/-- The text consists of digits of the base, the most significant first, that make up the
    value; it starts with a zero only if that is all there is. -/
def IsNumeral (base value : Nat) (text : List UInt8) : Prop :=
  ∃ digits : List Nat, digits ≠ [] ∧ (∀ d ∈ digits, d < base) ∧
    (digits.head? = some 0 → digits = [0]) ∧
    digits.foldl (fun n d => n * base + d) 0 = value ∧ text = digits.map digitChar

variable {base value d : Nat}

theorem digitTable_eq (small : d < 36) : digitTable.getD d 0 = digitChar d := by
  revert d
  decide +kernel

/-- The value of digits that come with the last one first. -/
theorem foldl_reverse_digits (base : Nat) (digits : List Nat) :
    digits.reverse.foldl (fun n d => n * base + d) 0 = Nat.ofDigits base digits := by
  rw [List.foldl_reverse, Nat.ofDigits_eq_foldr]
  induction digits with
  | nil => rfl
  | cons d rest ih =>
      rw [List.foldr_cons, List.foldr_cons, ih, Nat.mul_comm, Nat.add_comm]
      rfl

theorem isNumeral_numeral (lower : 2 ≤ base) (upper : base ≤ 36) (value : Nat) :
    IsNumeral base value (numeral base value) := by
  by_cases zero : value = 0
  · subst zero
    refine ⟨[0], List.cons_ne_nil _ _, ?_, fun _ => rfl, by simp, rfl⟩
    intro d member
    rw [List.mem_singleton.mp member]
    omega
  · have each : ∀ d ∈ Nat.digits base value, d < base :=
      fun d member => Nat.digits_lt_base lower member
    have nonempty : Nat.digits base value ≠ [] := Nat.digits_ne_nil_iff_ne_zero.mpr zero
    refine ⟨(Nat.digits base value).reverse, ?_, ?_, ?_, ?_, ?_⟩
    · exact fun none => nonempty (List.reverse_eq_nil_iff.mp none)
    · exact fun d member => each d (List.mem_reverse.mp member)
    · intro leading
      rw [List.head?_reverse, List.getLast?_eq_getLast_of_ne_nil nonempty] at leading
      exact absurd (Option.some.inj leading) (Nat.getLast_digit_ne_zero base zero)
    · rw [foldl_reverse_digits, Nat.ofDigits_digits]
    · rw [numeral, if_neg zero]
      refine List.map_congr_left fun d member => digitTable_eq ?_
      exact (each d (List.mem_reverse.mp member)).trans_le upper

/-- A base that `utoa` accepts is the same number in all types. -/
theorem toNat_base {base : Int32} (lower : 2 ≤ base) (upper : base ≤ 36) :
    base.toInt64.toUInt64.toNat = base.toInt.toNat ∧ 2 ≤ base.toInt.toNat ∧
    base.toInt.toNat ≤ 36 := by
  have two : (2 : Int32).toInt = 2 := rfl
  have most : (36 : Int32).toInt = 36 := rfl
  have above := Int32.le_iff_toInt_le.mp lower
  have below := Int32.le_iff_toInt_le.mp upper
  have unsigned := toNat_toUInt64 base.toInt64
  rw [Int32.toInt_toInt64] at unsigned
  omega

/-- The decimal numeral is accepted as a number and read back. -/
theorem read_numeral_ten (small : value < 2 ^ 63) :
    isValidInt (numeral 10 value) = true ∧ (strToInt64 (numeral 10 value)).toInt = value := by
  obtain ⟨denoted, nonempty, digits⟩ := numeral_spec value
  have noMinus : ¬ (numeral 10 value).head? = some 45 := by
    intro minus
    cases digits 45 (List.mem_of_mem_head? minus)
  have int : intValue (numeral 10 value) = value := by rw [intValue, if_neg noMinus, denoted]
  have valid : isValidInt (numeral 10 value) = true := by
    cases text : numeral 10 value with
    | nil => exact absurd text nonempty
    | cons c rest =>
        rw [text] at noMinus digits
        rw [isValidInt, if_neg fun minus => noMinus (congrArg some minus)]
        exact List.all_eq_true.mpr digits
  refine ⟨valid, ?_⟩
  rw [toInt_strToInt64 valid, int]
  · omega
  · omega

/-- On both builds `utoa` writes the canonical numeral and its terminator, into 65 bytes at
    most; a decimal numeral of 63 bits is accepted by `is_valid_int` and read back. -/
theorem utoa_canonical (arch : Arch) (value : UInt64) {base : Int32} (lower : 2 ≤ base)
    (upper : base ≤ 36) :
    ∃ text, IsNumeral base.toInt.toNat value.toNat text ∧ text.length + 1 ≤ 65 ∧
      (∀ buffer, text.length < buffer.length →
        utoa arch value buffer base = .ok (overlay (text ++ [0]) buffer)) ∧
      (base = 10 → value.toNat < 2 ^ 63 →
        isValidInt text = true ∧ (strToInt64 text).toInt = value.toNat) := by
  obtain ⟨same, large, small⟩ := toNat_base lower upper
  have accepted : ¬ (base < 2 ∨ base > 36) := by
    rintro (below | above)
    · exact Int32.not_lt.mpr lower below
    · exact Int32.not_lt.mpr upper above
  refine ⟨numeral base.toInt.toNat value.toNat, isNumeral_numeral large small value.toNat, ?_,
    ?_, ?_⟩
  · have digits : value.toNat < base.toInt.toNat ^ 64 :=
      value.toNat_lt.trans_le (Nat.pow_le_pow_left large 64)
    exact Nat.succ_le_succ (length_numeral_le large (by decide) digits)
  · intro buffer room
    rw [← same] at room large ⊢
    exact utoa_eq arch accepted large room
  · rintro rfl fits
    exact read_numeral_ten fits

/-- The largest number in base 36. -/
theorem utoa_canonical_largest :
    ∃ text, IsNumeral (36 : Int32).toInt.toNat (18446744073709551615 : UInt64).toNat text ∧
    text.length + 1 ≤ 65 ∧ (∀ buffer, text.length < buffer.length →
        utoa .x86 18446744073709551615 buffer 36 = .ok (overlay (text ++ [0]) buffer)) ∧
      ((36 : Int32) = 10 → (18446744073709551615 : UInt64).toNat < 2 ^ 63 →
        isValidInt text = true ∧ (strToInt64 text).toInt = (18446744073709551615 : UInt64).toNat) :=
  utoa_canonical .x86 18446744073709551615 (by decide) (by decide)

example :
    utoa .x86 18446744073709551615 (List.replicate 14 7) 36 =
    .ok (cstr "3W5E11264SGSF" ++ [0]) := by
  decide +kernel

end AurorOS.Numbers
