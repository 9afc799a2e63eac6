import AurorOS.Devices.Keyboard
import AurorOS.Lib.Outcome
import AurorOS.Numbers.Division
import Mathlib.Data.Nat.Digits.Lemmas

/-! # Numbers as text

`utoa` writes the digits of a number from the last to the first and turns them round.
-/

namespace AurorOS.Numbers

open Devices Lines Outcome

/-- What the handler of the processor's divide fault does. -/
def divideError : Fault :=
  .kernelpanic "CPU_EXCEPTION"
    ("Your CPU has thrown an error\n with the following name: Divide Error.\n\n " ++
    "This is a bug in AurorOS. Please report it on\n https://github.com/Interpuce/AurorOS/issues/new/choose")

/-- A result of a division, or the fault that it is. -/
def orDivideError (result : Option UInt64) : Except Fault UInt64 :=
  match result with
  | some value => .ok value
  | none => .error divideError

/-- `digits` -/
def digitTable : List UInt8 := cstr "0123456789ABCDEFGHIJKLMNOPQRSTUVWXYZ"

/-- The loop that writes the digits; a number of 64 bits has 64 of them at most. -/
def digitLoop (arch : Arch) (base : UInt64) :
    Nat → UInt64 → Nat → List UInt8 → Except Fault (Nat × List UInt8)
  | 0, _, _, _ => .error .outOfFuel
  | fuel + 1, value, ptr, buffer =>
      if value = 0 then .ok (ptr, buffer)
      else do
        let remainder ← orDivideError (umod64 arch value base)
        let buffer ← storeAt buffer ptr (digitTable.getD remainder.toNat 0)
        let value ← orDivideError (udiv64 arch value base)
        digitLoop arch base fuel value (ptr + 1) buffer

/-- `a[i]` -/
def loadAt (a : List UInt8) (i : Nat) : Except Fault UInt8 :=
  match a[i]? with
  | some c => .ok c
  | none => .error .invalidAccess

/-- The loop that swaps the first and the last of `count` characters from `ptr1` on. -/
def swapLoop (buffer : List UInt8) (ptr1 : Nat) : Nat → Except Fault (List UInt8)
  | 0 => .ok buffer
  | 1 => .ok buffer
  | count + 2 => do
      let ptr := ptr1 + count + 1
      let tmpChar ← loadAt buffer ptr
      let buffer ← storeAt buffer ptr (← loadAt buffer ptr1)
      let buffer ← storeAt buffer ptr1 tmpChar
      swapLoop buffer (ptr1 + 1) count

/-- What the array at `buffer` holds after the call. -/
def utoa (arch : Arch) (value : UInt64) (buffer : List UInt8) (base : Int32) :
    Except Fault (List UInt8) := do
  if base < 2 ∨ base > 36 then storeAt buffer 0 0
  else if value = 0 then
    let buffer ← storeAt buffer 0 48
    storeAt buffer 1 0
  else
    let (ptr, buffer) ← digitLoop arch base.toInt64.toUInt64 65 value 0 buffer
    let buffer ← storeAt buffer ptr 0
    swapLoop buffer 0 ptr

/-- The digits of a number in a base, the first one first; zero has one. -/
def numeral (base value : Nat) : List UInt8 :=
  if value = 0 then [48] else (Nat.digits base value).reverse.map fun d => digitTable.getD d 0

theorem length_numeral_le {base value k : Nat} (lower : 2 ≤ base) (nonempty : 0 < k)
    (small : value < base ^ k) :
    (numeral base value).length ≤ k := by
  rw [numeral]
  split
  · exact nonempty
  · rw [List.length_map, List.length_reverse, Nat.digits_length_le_iff lower]
    exact small

variable {arch : Arch} {base value : UInt64} {text old front middle back : List UInt8} {fuel : Nat}

/-- The digits of a number that is not zero: the last one and those of the quotient. -/
theorem digits_div (large : 2 ≤ base.toNat) (nonzero : value ≠ 0) :
    Nat.digits base.toNat value.toNat =
      (value % base).toNat :: Nat.digits base.toNat (value / base).toNat := by
  have pos : 0 < value.toNat := Nat.pos_of_ne_zero fun zero => nonzero (UInt64.toNat.inj zero)
  rw [Nat.digits_def' large pos, UInt64.toNat_mod, UInt64.toNat_div]

theorem digitLoop_eq (arch : Arch) (value : UInt64) (text : List UInt8) (large : 2 ≤ base.toNat)
    (enough : (Nat.digits base.toNat value.toNat).length < fuel)
    (room : text.length + (Nat.digits base.toNat value.toNat).length ≤ old.length) :
    digitLoop arch base fuel value text.length (overlay text old) =
      .ok (text.length + (Nat.digits base.toNat value.toNat).length,
        overlay (text ++ (Nat.digits base.toNat value.toNat).map fun d => digitTable.getD d 0)
          old) := by
  have pos : 0 < base := UInt64.lt_iff_toNat_lt.mpr (by change 0 < base.toNat; omega)
  induction fuel generalizing value text with
  | zero => cases enough
  | succ fuel ih =>
      by_cases zero : value = 0
      · subst zero
        rw [digitLoop, if_pos rfl]
        simp
      obtain ⟨quotient, remainder⟩ := divmod64_eq arch value pos
      rw [digits_div large zero, List.length_cons] at enough room
      have here : text.length < old.length := by omega
      have next := ih (value / base) (text ++ [digitTable.getD (value % base).toNat 0]) (by omega)
        (by rw [List.length_append, List.length_singleton]; omega)
      rw [List.length_append, List.length_singleton] at next
      rw [digitLoop, if_neg zero, remainder, quotient, digits_div large zero]
      simp only [orDivideError, storeAt_overlay here]
      refine next.trans ?_
      rw [List.length_cons, List.map_cons, List.append_assoc, List.singleton_append]
      congr 2
      omega

theorem loadAt_middle {i : Nat} (a : UInt8) (there : i = front.length) :
    loadAt (front ++ a :: back) i = .ok a := by
  rw [loadAt, there, List.getElem?_append_right le_rfl, Nat.sub_self]
  rfl

theorem storeAt_middle {i : Nat} (a c : UInt8) (there : i = front.length) :
    storeAt (front ++ a :: back) i c = .ok (front ++ c :: back) := by
  rw [storeAt, if_pos (by simp [there]), there]
  simp

/-- The swaps turn round what is between the two pointers. -/
theorem swapLoop_eq (front middle back : List UInt8) :
    swapLoop (front ++ middle ++ back) front.length middle.length =
    .ok (front ++ middle.reverse ++ back) := by
  induction middle using List.bidirectionalRec generalizing front back with
  | nil => rfl
  | singleton a => rfl
  | cons_append a middle b ih =>
      have count : (a :: (middle ++ [b])).length = middle.length + 2 := by simp
      have ptr : front.length + middle.length + 1 = (front ++ a :: middle).length := by
        rw [List.length_append, List.length_cons]
        omega
      -- the array before, between and after the two stores, cut at the place that is used next
      have whole : front ++ a :: (middle ++ [b]) ++ back = front ++ a :: middle ++ b :: back := by
        simp
      have atFirst : front ++ a :: middle ++ b :: back = front ++ a :: (middle ++ b :: back) := by
        simp
      have between : front ++ a :: middle ++ a :: back = front ++ a :: (middle ++ a :: back) := by
        simp
      have after : front ++ b :: (middle ++ a :: back) = front ++ [b] ++ middle ++ a :: back := by
        simp
      have done : front ++ [b] ++ middle.reverse ++ a :: back =
          front ++ (a :: (middle ++ [b])).reverse ++ back := by
        simp
      have next := ih (front ++ [b]) (a :: back)
      rw [List.length_append, List.length_singleton, done] at next
      rw [count, whole, swapLoop]
      refine (bind_of_ok (loadAt_middle b ptr)).trans ?_
      refine (bind_of_ok (atFirst ▸ loadAt_middle a rfl)).trans ?_
      refine (bind_of_ok (storeAt_middle b a ptr)).trans ?_
      rw [between]
      refine (bind_of_ok (storeAt_middle a b rfl)).trans ?_
      rw [after]
      exact next

/-- A number of 64 bits has at most 64 digits. -/
theorem length_digits_le (large : 2 ≤ base.toNat) (value : UInt64) :
    (Nat.digits base.toNat value.toNat).length ≤ 64 := by
  rw [Nat.digits_length_le_iff large]
  calc value.toNat < 2 ^ 64 := value.toNat_lt
    _ ≤ base.toNat ^ 64 := Nat.pow_le_pow_left large 64

/-- `utoa` leaves the numeral and a terminator. -/
theorem utoa_eq (arch : Arch) {base : Int32} (valid : ¬ (base < 2 ∨ base > 36))
    (large : 2 ≤ base.toInt64.toUInt64.toNat)
    (room : (numeral base.toInt64.toUInt64.toNat value.toNat).length < old.length) :
    utoa arch value old base =
    .ok (overlay (numeral base.toInt64.toUInt64.toNat value.toNat ++ [0]) old) := by
  rw [utoa, if_neg valid]
  by_cases zero : value = 0
  · subst zero
    have text : numeral base.toInt64.toUInt64.toNat (0 : UInt64).toNat = [48] := rfl
    rw [text] at room ⊢
    rw [if_pos rfl]
    have first : storeAt old 0 48 = .ok (overlay [48] old) :=
      @storeAt_overlay [] old (Nat.zero_lt_of_lt room) 48
    have second : storeAt (overlay [48] old) 1 0 = .ok (overlay [48, 0] old) :=
      @storeAt_overlay [48] old room 0
    exact (bind_of_ok first).trans second
  have nonzero : ¬ value.toNat = 0 := fun same => zero (UInt64.toNat.inj same)
  rw [numeral, if_neg nonzero, List.length_map, List.length_reverse] at room
  rw [if_neg zero, numeral, if_neg nonzero, List.map_reverse]
  have digits := @digitLoop_eq _ old 65 arch value [] large
    (Nat.lt_succ_of_le (length_digits_le large value))
    (by rw [List.length_nil, Nat.zero_add]; omega)
  rw [List.length_nil, Nat.zero_add, List.nil_append, overlay_nil] at digits
  refine (bind_of_ok digits).trans ?_
  -- the digits are there from the last to the first
  have count := @List.length_map _ _ (Nat.digits base.toInt64.toUInt64.toNat value.toNat) fun d =>
    digitTable.getD d 0
  rw [← count] at room ⊢
  generalize (Nat.digits base.toInt64.toUInt64.toNat value.toNat).map
    (fun d => digitTable.getD d 0) = text at room ⊢
  refine (bind_of_ok (storeAt_overlay room 0)).trans ?_
  have turned := swapLoop_eq [] text (0 :: old.drop (text ++ [0]).length)
  have before : overlay (text ++ [0]) old = [] ++ text ++ 0 :: old.drop (text ++ [0]).length := by
    simp [overlay]
  have after : overlay (text.reverse ++ [0]) old =
      [] ++ text.reverse ++ 0 :: old.drop (text ++ [0]).length := by
    simp [overlay]
  rw [before, after]
  exact turned

end AurorOS.Numbers
