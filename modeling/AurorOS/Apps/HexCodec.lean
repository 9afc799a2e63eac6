import AurorOS.Apps.Hexedit

/-! # The hexadecimal text of bytes

`parse_hexdump_to_bytes` reads the digits of a text in pairs, and `print_hexdump` writes
three characters for a byte.  The two loops with their indices come to these functions of
the digits, and what the one writes the other reads.
-/

namespace AurorOS.Apps

open Devices Fs Lines

/-- The loop of `parse_hexdump_to_bytes`, with room for `left` more bytes behind `byteIndex`. -/
def decodeLoop : CStr → Nat → List UInt8 → Nat → Except Fault (List UInt8 × Nat)
  | _, 0, outBytes, byteIndex => .ok (outBytes, byteIndex)
  | hexdump, left + 1, outBytes, byteIndex =>
      match hexdump.dropWhile (!isHex ·) with
      | [] => .ok (outBytes, byteIndex)
      | high :: rest =>
          match rest.dropWhile (!isHex ·) with
          | [] => do return (← storeAt outBytes byteIndex (hexByte high 48), byteIndex + 1)
          | low :: rest => do
              decodeLoop rest left (← storeAt outBytes byteIndex (hexByte high low)) (byteIndex + 1)

/-- The bytes in `out_bytes` and their number. -/
def decodeHexdump (hexdump : CStr) (outBytes : List UInt8) (maxBytes : Nat) :
    Except Fault (List UInt8 × Nat) :=
  decodeLoop hexdump maxBytes outBytes 0

/-- The loop of `print_hexdump`. -/
def encodeLoop (outputSize : Nat) : List UInt8 → List UInt8 → Nat → Except Fault (List UInt8 × Nat)
  | [], output, outIndex => .ok (output, outIndex)
  | byte :: rest, output, outIndex =>
      if outIndex + 3 > outputSize then .ok (output, outIndex)
      else do
        let output ← storeAt output outIndex (hexChars.getD ((byte >>> 4) &&& 0xF).toNat 0)
        let output ← storeAt output (outIndex + 1) (hexChars.getD (byte &&& 0xF).toNat 0)
        let output ← storeAt output (outIndex + 2) 32
        encodeLoop outputSize rest output (outIndex + 3)

/-- What `print_hexdump` leaves in the output buffer. -/
def encodeHexdump (input output : List UInt8) (outputSize : Nat) : Except Fault (List UInt8) := do
  let (output, outIndex) ← encodeLoop outputSize input output 0
  if outIndex > 0 ∧ outIndex ≤ outputSize then storeAt output (outIndex - 1) 0
  else if outIndex < outputSize then storeAt output outIndex 0
  else return output

/-- The digits of either case, in the order of their values. -/
def digitOf (c : UInt8) : Option UInt8 :=
  (((cstr "0123456789ABCDEF").idxOf? c).or ((cstr "0123456789abcdef").idxOf? c)).map UInt8.ofNat

/-- The values of the digits of a text. -/
def digitsOf (text : CStr) : List UInt8 := text.filterMap digitOf

/-- Pairs with the high nibble first; a last digit on its own is padded with 0. -/
def pairUp : List UInt8 → List UInt8
  | [] => []
  | [high] => [high * 16]
  | high :: low :: rest => (high * 16 + low) :: pairUp rest

variable {text rest hexdump old done : List UInt8} {c high low byte : UInt8} {m left size : Nat}

/-- What holds of the numbers below 256 holds of every byte. -/
theorem forall_byte {P : UInt8 → Prop} (each : ∀ n < 256, P (UInt8.ofNat n)) (c : UInt8) : P c := by
  have here := each c.toNat c.toNat_lt
  rwa [UInt8.ofNat_toNat] at here

theorem digitOf_eq (c : UInt8) : digitOf c = if isHex c then some (hexCharToValue c) else none := by
  refine forall_byte (P := fun c => digitOf c = if isHex c then some (hexCharToValue c)
    else none) ?_ c
  decide +kernel

theorem hexCharToValue_lt (hex : isHex c = true) : hexCharToValue c < 16 := by
  refine forall_byte (P := fun c => isHex c = true → hexCharToValue c < 16) ?_ c hex
  decide +kernel

theorem digitOf_of_not_isHex (other : isHex c = false) : digitOf c = none := by
  rw [digitOf_eq, other]
  rfl

/-- What is skipped in front of a digit. -/
theorem digitsOf_dropWhile (text : CStr) :
    digitsOf (text.dropWhile (!isHex ·)) = digitsOf text := by
  induction text with
  | nil => rfl
  | cons c rest ih =>
      cases hex : isHex c with
      | true => rw [List.dropWhile_cons_of_neg (by rw [hex]; decide)]
      | false =>
          rw [List.dropWhile_cons_of_pos (by rw [hex]; rfl), ih, digitsOf, digitsOf,
            List.filterMap_cons_none (digitOf_of_not_isHex hex)]

theorem digitsOf_of_dropWhile_nil (none : text.dropWhile (!isHex ·) = []) : digitsOf text = [] := by
  rw [← digitsOf_dropWhile, none]
  rfl

theorem digitsOf_of_dropWhile_cons (first : text.dropWhile (!isHex ·) = c :: rest) :
    isHex c = true ∧ digitsOf text = hexCharToValue c :: digitsOf rest := by
  have hex : isHex c = true := by
    have here := List.head?_dropWhile_not (!isHex ·) text
    rw [first, List.head?_cons] at here
    simpa using here
  have value : digitOf c = some (hexCharToValue c) := by
    rw [digitOf_eq, hex]
    rfl
  rw [← digitsOf_dropWhile, first, digitsOf, digitsOf, List.filterMap_cons_some value]
  exact ⟨hex, rfl⟩

/-- Two nibbles make a byte. -/
theorem nibbles_eq (high low : UInt8) (first : high < 16) (second : low < 16) :
    (high <<< 4) ||| low = high * 16 + low := by
  have all : ∀ n < 16, ∀ k < 16, (UInt8.ofNat n <<< 4) ||| UInt8.ofNat k =
      UInt8.ofNat n * 16 + UInt8.ofNat k := by
    decide +kernel
  have here :=
    all high.toNat (UInt8.lt_iff_toNat_lt.mp first) low.toNat (UInt8.lt_iff_toNat_lt.mp second)
  rwa [UInt8.ofNat_toNat, UInt8.ofNat_toNat] at here

theorem hexByte_eq (first : isHex high = true) (second : isHex low = true) :
    hexByte high low = hexCharToValue high * 16 + hexCharToValue low := by
  have digit : ∀ c, isHex c = true → hexCharToValue c ≠ 0xFF := by
    rintro c hex same
    exact absurd (same ▸ hexCharToValue_lt hex) (by decide)
  have digits : ¬ (hexCharToValue high = 0xFF ∨ hexCharToValue low = 0xFF) :=
    not_or.mpr ⟨digit high first, digit low second⟩
  rw [hexByte, if_neg digits, nibbles_eq _ _ (hexCharToValue_lt first) (hexCharToValue_lt second)]

/-- The decoder reads pairs of digits. -/
theorem parseHexdumpToBytes_eq (text : CStr) (m : Nat) :
    parseHexdumpToBytes text m = (pairUp (digitsOf text)).take m := by
  induction m generalizing text with
  | zero => rw [parseHexdumpToBytes, List.take_zero]
  | succ left ih =>
      rw [parseHexdumpToBytes]
      split
      · rename_i none
        rw [digitsOf_of_dropWhile_nil none]
        rfl
      · rename_i high rest first
        obtain ⟨highHex, digits⟩ := digitsOf_of_dropWhile_cons first
        rw [digits]
        split
        · rename_i none
          have padded : hexByte high 48 = hexCharToValue high * 16 := by
            rw [hexByte_eq highHex (by decide)]
            exact UInt8.add_zero _
          rw [digitsOf_of_dropWhile_nil none, padded, pairUp, List.take_succ_cons, List.take_nil]
        · rename_i low rest second
          obtain ⟨lowHex, digits⟩ := digitsOf_of_dropWhile_cons second
          rw [digits, ih, hexByte_eq highHex lowHex, pairUp, List.take_succ_cons]

/-- The bytes are stored one after the other. -/
theorem decodeLoop_eq (text : CStr) (done : List UInt8) (room : done.length + left ≤ old.length) :
    decodeLoop text left (overlay done old) done.length =
      .ok (overlay (done ++ parseHexdumpToBytes text left) old,
        done.length + (parseHexdumpToBytes text left).length) := by
  induction left generalizing text done with
  | zero =>
      rw [decodeLoop, parseHexdumpToBytes, List.append_nil]
      rfl
  | succ left ih =>
      have stored : ∀ c, storeAt (overlay done old) done.length c =
          .ok (overlay (done ++ [c]) old) :=
        storeAt_overlay (by omega)
      rw [decodeLoop, parseHexdumpToBytes]
      cases text.dropWhile (!isHex ·) with
      | nil =>
          rw [List.append_nil]
          rfl
      | cons high rest =>
          dsimp only
          cases rest.dropWhile (!isHex ·) with
          | nil => exact Outcome.bind_of_ok (stored (hexByte high 48))
          | cons low rest =>
              have onward := ih rest (done ++ [hexByte high low]) (by
                rw [List.length_append, List.length_singleton]
                omega)
              rw [List.length_append, List.length_singleton, List.append_assoc, Nat.add_assoc,
                Nat.add_comm 1] at onward
              exact (Outcome.bind_of_ok (stored (hexByte high low))).trans onward

theorem decodeHexdump_eq (text : CStr) (room : m ≤ old.length) :
    decodeHexdump text old m =
    .ok (overlay (parseHexdumpToBytes text m) old, (parseHexdumpToBytes text m).length) := by
  have run :=
    decodeLoop_eq text [] (show [].length + m ≤ old.length by rwa [List.length_nil, Nat.zero_add])
  rwa [overlay_nil, List.nil_append, List.length_nil, Nat.zero_add] at run

/-- The three characters of a byte. -/
def dump (byte : UInt8) : List UInt8 :=
  [hexChars.getD ((byte >>> 4) &&& 0xF).toNat 0, hexChars.getD (byte &&& 0xF).toNat 0, 32]

/-- The characters are stored one after the other. -/
theorem encodeLoop_eq (input done : List UInt8) (fits : done.length ≤ size)
    (room : size ≤ old.length) :
    encodeLoop size input (overlay done old) done.length =
        .ok (overlay (hexdumpLoop size input done) old, (hexdumpLoop size input done).length) ∧
      (hexdumpLoop size input done).length ≤ size := by
  induction input generalizing done with
  | nil => exact ⟨rfl, fits⟩
  | cons byte rest ih =>
      rw [encodeLoop, hexdumpLoop]
      by_cases full : done.length + 3 > size
      · rw [if_pos full, if_pos full]
        exact ⟨rfl, fits⟩
      · rw [if_neg full, if_neg full]
        have three : (done ++ dump byte).length = done.length + 3 := by rw [List.length_append]; rfl
        obtain ⟨onward, within⟩ := ih (done ++ dump byte) (by omega)
        rw [three] at onward
        refine ⟨?_, within⟩
        have next : ∀ (text : List UInt8) (c : UInt8) (i : Nat), text.length = i → i < size →
            storeAt (overlay text old) i c = .ok (overlay (text ++ [c]) old) := by
          rintro text c i rfl short
          exact storeAt_overlay (Nat.lt_of_lt_of_le short room) c
        have concat : ∀ (text : List UInt8) (c : UInt8) (i : Nat), text.length = i →
            (text ++ [c]).length = i + 1 := by
          rintro text c i rfl
          exact List.length_append
        refine (Outcome.bind_of_ok (next done _ _ rfl (by omega))).trans ?_
        refine (Outcome.bind_of_ok (next _ _ _ (concat _ _ _ rfl) (by omega))).trans ?_
        refine (Outcome.bind_of_ok (next _ _ _ (concat _ _ _ (concat _ _ _ rfl)) (by omega))).trans
          ?_
        rwa [List.append_assoc, List.append_assoc, List.singleton_append, List.singleton_append]

/-- What is put out ends in a blank. -/
theorem hexdumpLoop_last (size : Nat) (input : List UInt8)
    (ends : done = [] ∨ ∃ text, done = text ++ [32]) :
    hexdumpLoop size input done = [] ∨ ∃ text, hexdumpLoop size input done = text ++ [32] := by
  induction input generalizing done with
  | nil => exact ends
  | cons byte rest ih =>
      rw [hexdumpLoop]
      split
      · exact ends
      · exact ih (.inr ⟨done ++ (dump byte).take 2,
          (List.append_assoc done ((dump byte).take 2) [32]).symm⟩)

/-- The terminator replaces the last blank, and stands alone if there is none. -/
theorem encodeHexdump_eq (input : List UInt8) (positive : 0 < size) (room : size ≤ old.length) :
    encodeHexdump input old size = .ok (overlay (printHexdump input size ++ [0]) old) := by
  obtain ⟨run, within⟩ := encodeLoop_eq input [] (Nat.zero_le size) room
  rw [overlay_nil, List.length_nil] at run
  rw [encodeHexdump, printHexdump]
  refine (Outcome.bind_of_ok run).trans ?_
  rcases hexdumpLoop_last size input (.inl rfl) with none | ⟨text, same⟩
  · have stored : storeAt (overlay [] old) 0 0 = .ok (overlay ([] ++ [0]) old) :=
      storeAt_overlay (Nat.lt_of_lt_of_le positive room) 0
    rw [none]
    exact (if_neg fun some => Nat.lt_irrefl 0 some.1).trans ((if_pos positive).trans stored)
  · rw [same, List.length_append, List.length_singleton] at within
    have short : text.length < old.length := Nat.lt_of_lt_of_le within room
    have inside : text.length < (overlay (text ++ [32]) old).length := by
      rw [length_overlay]
      · exact short
      · rw [List.length_append, List.length_singleton]
        exact short
    have stored : storeAt (overlay (text ++ [32]) old) text.length 0 =
        .ok (overlay (text ++ [0]) old) := by
      rw [storeAt, if_pos inside, set_overlay_concat short]
    rw [same, List.length_append, List.length_singleton, List.dropLast_concat]
    exact (if_pos ⟨Nat.succ_pos _, within⟩).trans stored

/-- The nibbles of a byte. -/
def nibbles (byte : UInt8) : List UInt8 := [byte >>> 4, byte &&& 0xF]

theorem digitsOf_dump (byte : UInt8) : digitsOf (dump byte) = nibbles byte := by
  refine forall_byte (P := fun byte => digitsOf (dump byte) = nibbles byte) ?_ byte
  decide +kernel

theorem pairUp_nibbles (byte : UInt8) (rest : List UInt8) :
    pairUp (nibbles byte ++ rest) = byte :: pairUp rest := by
  have whole : (byte >>> 4) * 16 + (byte &&& 0xF) = byte := by
    refine forall_byte (P := fun byte => (byte >>> 4) * 16 + (byte &&& 0xF) = byte) ?_ byte
    decide +kernel
  exact congrArg (· :: pairUp rest) whole

theorem plain_dump (byte : UInt8) : 0 ∉ dump byte := by
  refine forall_byte (P := fun byte => 0 ∉ dump byte) ?_ byte
  decide +kernel

/-- With room for all bytes, all are put out. -/
theorem hexdumpLoop_eq (input done : List UInt8) (room : done.length + 3 * input.length ≤ size) :
    hexdumpLoop size input done = done ++ input.flatMap dump := by
  induction input generalizing done with
  | nil => exact (List.append_nil done).symm
  | cons byte rest ih =>
      rw [List.length_cons] at room
      have three : (done ++ dump byte).length = done.length + 3 := List.length_append
      rw [hexdumpLoop, if_neg (by omega), List.flatMap_cons, ← List.append_assoc]
      exact ih (done ++ dump byte) (by omega)

theorem length_flatMap_dump (input : List UInt8) :
    (input.flatMap dump).length = 3 * input.length := by
  induction input with
  | nil => rfl
  | cons byte rest ih =>
      rw [List.flatMap_cons, List.length_append, ih, List.length_cons, Nat.mul_succ, Nat.add_comm]
      rfl

theorem printHexdump_eq (input : List UInt8) (room : 3 * input.length ≤ size) :
    printHexdump input size = (input.flatMap dump).dropLast := by
  rw [printHexdump, hexdumpLoop_eq input [] (by rwa [List.length_nil, Nat.zero_add]),
    List.nil_append]

/-- The blank that is replaced is no digit. -/
theorem digitsOf_printHexdump (input : List UInt8) (size : Nat) :
    digitsOf (printHexdump input size) = digitsOf (hexdumpLoop size input []) := by
  rw [printHexdump]
  rcases hexdumpLoop_last size input (.inl rfl) with none | ⟨text, same⟩
  · rw [none]
    rfl
  · rw [same, List.dropLast_concat, digitsOf, digitsOf, List.filterMap_append]
    exact (List.append_nil _).symm

theorem pairUp_flatMap (input : List UInt8) : pairUp (digitsOf (input.flatMap dump)) = input := by
  induction input with
  | nil => rfl
  | cons byte rest ih =>
      have split : digitsOf ((byte :: rest).flatMap dump) =
          nibbles byte ++ digitsOf (rest.flatMap dump) := by
        rw [List.flatMap_cons, digitsOf, List.filterMap_append, ← digitsOf, ← digitsOf,
          digitsOf_dump]
      rw [split, pairUp_nibbles, ih]

theorem plain_printHexdump (input : List UInt8) (room : 3 * input.length ≤ size) :
    0 ∉ printHexdump input size := by
  rw [printHexdump_eq input room]
  intro member
  obtain ⟨byte, -, inside⟩ := List.mem_flatMap.mp (List.dropLast_subset _ member)
  exact plain_dump byte inside

/-- What has been printed is parsed as it was. -/
theorem parse_printHexdump (input : List UInt8) (room : 3 * input.length ≤ size) :
    parseHexdumpToBytes (printHexdump input size) input.length = input := by
  rw [parseHexdumpToBytes_eq, digitsOf_printHexdump,
    hexdumpLoop_eq input [] (by rwa [List.length_nil, Nat.zero_add]), List.nil_append,
    pairUp_flatMap, List.take_length]

/-- The decoder stores the bytes that the pairs of digits form and counts them.  The encoder stays
    in a buffer of three characters for a byte and one more, it leaves a text with its terminator
    there, and this text is decoded to the bytes. -/
theorem hexCodec_exact :
    (∀ (text : CStr) (outBytes : List UInt8) (maxBytes : Nat), maxBytes ≤ outBytes.length →
      decodeHexdump text outBytes maxBytes =
        .ok (overlay ((pairUp (digitsOf text)).take maxBytes) outBytes,
          ((pairUp (digitsOf text)).take maxBytes).length)) ∧
    ∀ input output : List UInt8, output.length = 3 * input.length + 1 →
      ∃ output', encodeHexdump input output (3 * input.length + 1) = .ok output' ∧
      output'.length = output.length ∧ 0 ∈ output' ∧
        ∀ outBytes : List UInt8, input.length ≤ outBytes.length →
          decodeHexdump (cString output') outBytes input.length =
          .ok (overlay input outBytes, input.length) := by
  refine ⟨?_, ?_⟩
  · intro text outBytes maxBytes room
    rw [decodeHexdump_eq text room, parseHexdumpToBytes_eq]
  · intro input output size
    have room : 3 * input.length ≤ 3 * input.length + 1 := Nat.le_succ _
    refine ⟨_, encodeHexdump_eq input (Nat.succ_pos _) size.ge, ?_, ?_, ?_⟩
    · refine length_overlay ?_
      rw [List.length_append, List.length_singleton, size, printHexdump_eq input room,
        List.length_dropLast, length_flatMap_dump]
      omega
    · exact List.mem_append_left _ (List.mem_append_right _ (List.mem_singleton_self 0))
    · intro outBytes enough
      rw [cString_overlay (plain_printHexdump input room), decodeHexdump_eq _ enough,
        parse_printHexdump input room]

end AurorOS.Apps
