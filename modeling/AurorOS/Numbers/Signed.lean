import AurorOS.Machine

/-! # Signed numbers in unsigned arithmetic

A signed number of 64 bits that is taken for an unsigned one is that number modulo
`2 ^ 64`.  A quotient of unsigned numbers, taken for a signed one, is the quotient of the
signed numbers in few cases.
-/

namespace AurorOS.Numbers

variable {left right : Int64}

theorem toNat_toUInt64 (a : Int64) : (a.toUInt64.toNat : Int) = a.toInt % 2 ^ 64 := by
  have signed : a.toInt = (a.toUInt64.toNat : Int).bmod (2 ^ 64) :=
    BitVec.toInt_eq_toNat_bmod a.toBitVec
  have small := a.toUInt64.toNat_lt
  have reduced := @Int.bmod_emod a.toUInt64.toNat (2 ^ 64)
  rw [← signed] at reduced
  refine Eq.trans ?_ reduced.symm
  omega

theorem toInt_toInt64 (q : UInt64) :
    q.toInt64.toInt = if q.toNat < 2 ^ 63 then (q.toNat : Int) else q.toNat - 2 ^ 64 := by
  have signed : q.toInt64.toInt = (q.toNat : Int).bmod (2 ^ 64) :=
    BitVec.toInt_eq_toNat_bmod q.toBitVec
  have small := q.toNat_lt
  rw [signed, Int.bmod]
  split <;> split <;> omega

/-- When the quotient of the signed numbers comes out of the unsigned division. -/
def DividesRight (l r : Int) : Prop :=
  (0 ≤ l ∧ 0 < r) ∨ (0 ≤ l ∧ r < 0 ∧ l < -r) ∨ (l < 0 ∧ r = 1) ∨ (l < 0 ∧ l = r)

/-- The dividend is not negative, the divisor is positive. -/
theorem div_pos_pos (l : 0 ≤ left.toInt) (r : 0 < right.toInt) :
    (left.toUInt64 / right.toUInt64).toInt64.toInt = left.toInt.tdiv right.toInt := by
  have upper := left.toInt_lt
  have rightUpper := right.toInt_lt
  have dividend := toNat_toUInt64 left
  have divisor := toNat_toUInt64 right
  rw [Int.emod_eq_of_lt l (by omega)] at dividend
  rw [Int.emod_eq_of_lt r.le (by omega)] at divisor
  have small : left.toUInt64.toNat / right.toUInt64.toNat < 2 ^ 63 :=
    (Nat.div_le_self _ _).trans_lt (by omega)
  rw [toInt_toInt64, UInt64.toNat_div, if_pos small,
    Int.tdiv_eq_ediv_of_nonneg l, ← dividend, ← divisor, Int.natCast_ediv]

/-- The dividend is not negative, the divisor is negative. -/
theorem div_pos_neg (l : 0 ≤ left.toInt) (r : right.toInt < 0) :
    (left.toUInt64 / right.toUInt64).toInt64.toInt = left.toInt.tdiv right.toInt ↔
    left.toInt < -right.toInt := by
  have upper := left.toInt_lt
  have lower := right.le_toInt
  have dividend := toNat_toUInt64 left
  have divisor := toNat_toUInt64 right
  obtain ⟨a, here⟩ := Int.eq_ofNat_of_zero_le l
  obtain ⟨b, there⟩ := Int.eq_ofNat_of_zero_le (by omega : 0 ≤ -right.toInt)
  have negative : right.toInt = -(b : Int) := by omega
  have below : left.toUInt64.toNat < right.toUInt64.toNat := by omega
  rw [toInt_toInt64, UInt64.toNat_div, Nat.div_eq_of_lt below, if_pos (by decide), here, negative,
    Int.tdiv_neg, Int.neg_neg, ← Int.ofNat_tdiv]
  have positive : 0 < b := by omega
  rw [eq_comm, Nat.cast_zero, Int.neg_eq_zero, Int.natCast_eq_zero, Nat.div_eq_zero_iff_lt positive,
    Int.ofNat_lt]

/-- The dividend is negative, the divisor is positive. -/
theorem div_neg_pos (l : left.toInt < 0) (r : 0 < right.toInt) :
    (left.toUInt64 / right.toUInt64).toInt64.toInt = left.toInt.tdiv right.toInt ↔
    right.toInt = 1 := by
  have lower := left.le_toInt
  have upper := right.toInt_lt
  have dividend := toNat_toUInt64 left
  have divisor := toNat_toUInt64 right
  obtain ⟨a, here⟩ := Int.eq_ofNat_of_zero_le (by omega : 0 ≤ -left.toInt)
  obtain ⟨b, there⟩ := Int.eq_ofNat_of_zero_le r.le
  have negative : left.toInt = -(a : Int) := by omega
  have large : left.toUInt64.toNat = 2 ^ 64 - a := by omega
  have same : right.toUInt64.toNat = b := by omega
  rw [toInt_toInt64, UInt64.toNat_div, large, same, there, negative, Int.neg_tdiv, ← Int.ofNat_tdiv]
  by_cases one : b = 1
  · subst one
    rw [Nat.div_one, Nat.div_one, if_neg (by omega)]
    omega
  · have two : 2 ≤ b := by omega
    have small : (2 ^ 64 - a) / b < 2 ^ 63 := by
      rw [Nat.div_lt_iff_lt_mul (by omega)]
      omega
    have some : 0 < (2 ^ 64 - a) / b := Nat.div_pos (by omega) (by omega)
    rw [if_pos small]
    -- one quotient is positive, the other is not
    generalize (2 ^ 64 - a) / b = q at some small ⊢
    generalize a / b = p
    omega

/-- Both are negative. -/
theorem div_neg_neg (l : left.toInt < 0) (r : right.toInt < 0) :
    (left.toUInt64 / right.toUInt64).toInt64.toInt = left.toInt.tdiv right.toInt ↔
    left.toInt = right.toInt := by
  have lower := left.le_toInt
  have rightLower := right.le_toInt
  have dividend := toNat_toUInt64 left
  have divisor := toNat_toUInt64 right
  obtain ⟨a, here⟩ := Int.eq_ofNat_of_zero_le (by omega : 0 ≤ -left.toInt)
  obtain ⟨b, there⟩ := Int.eq_ofNat_of_zero_le (by omega : 0 ≤ -right.toInt)
  have negative : left.toInt = -(a : Int) := by omega
  have negative' : right.toInt = -(b : Int) := by omega
  have large : left.toUInt64.toNat = 2 ^ 64 - a := by omega
  have large' : right.toUInt64.toNat = 2 ^ 64 - b := by omega
  rw [toInt_toInt64, UInt64.toNat_div, large, large', negative, negative', Int.neg_tdiv,
    Int.tdiv_neg, Int.neg_neg, ← Int.ofNat_tdiv]
  rcases lt_trichotomy a b with less | rfl | more
  · have once : (2 ^ 64 - a) / (2 ^ 64 - b) = 1 := Nat.div_eq_of_lt_le (by omega) (by omega)
    rw [once, Nat.div_eq_of_lt less, if_pos (by decide)]
    omega
  · rw [Nat.div_self (by omega), Nat.div_self (by omega), if_pos (by decide)]
    omega
  · have some : 0 < a / b := Nat.div_pos more.le (by omega)
    rw [Nat.div_eq_of_lt (by omega : 2 ^ 64 - a < 2 ^ 64 - b), if_pos (by decide)]
    generalize a / b = p at some ⊢
    omega

theorem toInt_div_iff (nonzero : right.toInt ≠ 0) :
    (left.toUInt64 / right.toUInt64).toInt64.toInt = left.toInt.tdiv right.toInt ↔
      DividesRight left.toInt right.toInt := by
  unfold DividesRight
  rcases lt_or_ge left.toInt 0 with l | l
  · rcases lt_or_gt_of_ne nonzero with r | r
    · rw [div_neg_neg l r]
      omega
    · rw [div_neg_pos l r]
      omega
  · rcases lt_or_gt_of_ne nonzero with r | r
    · rw [div_pos_neg l r]
      omega
    · refine iff_of_true (div_pos_pos l r) ?_
      omega

end AurorOS.Numbers
