import AurorOS.Lib.Replacement
import AurorOS.Shell.Strings

/-! # Replacing a string in a string

`str_replace` goes through its first string twice: it counts the occurrences to find out how
long the result is, and then it writes the result.  All lengths and offsets are of the
type `int`.
-/

namespace AurorOS.Shell

open Devices Lines Numbers Outcome Replacement

/-- `a[i]` -/
def loadIndex (a : List UInt8) (i : Int32) : Except Fault UInt8 :=
  if i < 0 then .error .invalidAccess else loadAt a i.toInt.toNat

/-- `a[i] = c` -/
def storeIndex (a : List UInt8) (i : Int32) (c : UInt8) : Except Fault (List UInt8) :=
  if i < 0 then .error .invalidAccess else storeAt a i.toInt.toNat c

/-- `while (s[len]) len++;` -/
def lengthLoop (s : List UInt8) : Nat → Int32 → Except Fault Int32
  | 0, _ => .error .outOfFuel
  | fuel + 1, len => do
      if (← loadIndex s len) = 0 then return len
      else lengthLoop s fuel (len + 1)

/-- `match` after the loop over `j`. -/
def matchLoop (begin what : List UInt8) (wlen i : Int32) : Nat → Int32 → Except Fault Bool
  | 0, _ => .error .outOfFuel
  | fuel + 1, j =>
      if j < wlen then do
        if (← loadIndex begin (i + j)) ≠ (← loadIndex what j) then return false
        else matchLoop begin what wlen i fuel (j + 1)
      else return true

/-- `count` after the first pass from `i` on. -/
def countLoop (begin what : List UInt8) (blen wlen : Int32) :
    Nat → Int32 → Int32 → Except Fault Int32
  | 0, _, _ => .error .outOfFuel
  | fuel + 1, i, count =>
      if i < blen then do
        if ← matchLoop begin what wlen i (what.length + 1) 0 then
          countLoop begin what blen wlen fuel (i + wlen) (count + 1)
        else countLoop begin what blen wlen fuel (i + 1) count
      else return count

/-- `for (; j < len; j++) out[oi++] = src[j];` -/
def copyLoop (src : List UInt8) (len : Int32) :
    Nat → Int32 → Int32 → List UInt8 → Except Fault (Int32 × List UInt8)
  | 0, _, _, _ => .error .outOfFuel
  | fuel + 1, j, oi, out =>
      if j < len then do
        let out ← storeIndex out oi (← loadIndex src j)
        copyLoop src len fuel (j + 1) (oi + 1) out
      else return (oi, out)

/-- `oi` and the array after the second pass from `i` on. -/
def writeLoop (begin what repl : List UInt8) (blen wlen rlen : Int32) :
    Nat → Int32 → Int32 → List UInt8 → Except Fault (Int32 × List UInt8)
  | 0, _, _, _ => .error .outOfFuel
  | fuel + 1, i, oi, out =>
      if i < blen then do
        if ← matchLoop begin what wlen i (what.length + 1) 0 then
          let (oi, out) ← copyLoop repl rlen (repl.length + 1) 0 oi out
          writeLoop begin what repl blen wlen rlen fuel (i + wlen) oi out
        else
          let out ← storeIndex out oi (← loadIndex begin i)
          writeLoop begin what repl blen wlen rlen fuel (i + 1) (oi + 1) out
      else return (oi, out)

/-- An `int` that is passed for a `size_t`. -/
def toSize (arch : Arch) (n : Int32) : Nat := (n.toInt % arch.wordSize).toNat

/-- `outlen` -/
def outLength (begin what : List UInt8) (blen wlen rlen : Int32) : Except Fault Int32 := do
  let count ← countLoop begin what blen wlen (begin.length + 1) 0 0
  return blen + count * (rlen - wlen)

/-- `malloc` as a caller sees it: it stops the machine, or it returns `NULL` or an array with
    what is left in there. -/
abbrev Malloc := Nat → Except Fault (Option (List UInt8))

/-- `str_replace` on arrays with strings in them.  It calls `malloc` once, and checks the
    result in one of the two cases only. -/
def strReplace (arch : Arch) (malloc : Malloc) (begin what repl : Option (List UInt8)) :
    Except Fault (Option (List UInt8)) :=
  match begin, what, repl with
  | some begin, some what, some repl => do
      let blen ← lengthLoop begin (begin.length + 1) 0
      let wlen ← lengthLoop what (what.length + 1) 0
      let rlen ← lengthLoop repl (repl.length + 1) 0
      if wlen = 0 then
        match ← malloc (toSize arch (blen + 1)) with
        | none => .error .invalidAccess
        | some out =>
            let (_, out) ← copyLoop begin blen (begin.length + 1) 0 0 out
            return some (← storeIndex out blen 0)
      else
        let outlen ← outLength begin what blen wlen rlen
        match ← malloc (toSize arch (outlen + 1)) with
        | none => return none
        | some out =>
            let (oi, out) ← writeLoop begin what repl blen wlen rlen (begin.length + 1) 0 0 out
            return some (← storeIndex out oi 0)
  | _, _, _ => return none

/-- A string whose length is an `int`, as `strlen` returns it. -/
structure IntString where
  chars : List UInt8
  plain : 0 ∉ chars
  short : chars.length < 2 ^ 31

/-- The array that holds the string and nothing behind its terminator. -/
def IntString.array (s : IntString) : List UInt8 := s.chars ++ [0]

variable {a old front rest text src what repl written out : List UInt8} {i n k fuel : Nat}
  {c : UInt8} {arch : Arch}

theorem toInt_ofNat (small : n < 2 ^ 31) : (Int32.ofNat n).toInt = n :=
  Int32.toInt_ofNat_of_lt small

theorem ofNat_not_neg (small : n < 2 ^ 31) : ¬ Int32.ofNat n < 0 := by
  have zero : (0 : Int32).toInt = 0 := rfl
  rw [Int32.lt_iff_toInt_lt, toInt_ofNat small, zero]
  omega

theorem ofNat_lt_iff (left : n < 2 ^ 31) (right : k < 2 ^ 31) :
    Int32.ofNat n < Int32.ofNat k ↔ n < k := by
  rw [Int32.lt_iff_toInt_lt, toInt_ofNat left, toInt_ofNat right, Int.ofNat_lt]

theorem ofNat_add_one (n : Nat) : Int32.ofNat n + 1 = Int32.ofNat (n + 1) :=
  (Int32.ofNat_add n 1).symm

theorem ofNat_length_concat (front : List UInt8) (c : UInt8) :
    Int32.ofNat front.length + 1 = Int32.ofNat (front ++ [c]).length := by
  rw [ofNat_add_one, List.length_append, List.length_singleton]

theorem loadIndex_ofNat (a : List UInt8) (small : n < 2 ^ 31) :
    loadIndex a (Int32.ofNat n) = loadAt a n := by
  rw [loadIndex, if_neg (ofNat_not_neg small), toInt_ofNat small, Int.toNat_natCast]

/-- The first number that is no `int` is a negative index. -/
theorem loadIndex_overlong (a : List UInt8) (last : n = 2 ^ 31) :
    loadIndex a (Int32.ofNat n) = .error .invalidAccess := by
  have negative : Int32.ofNat (2 ^ 31) < 0 := by decide
  rw [last]
  exact if_pos negative

theorem storeIndex_ofNat (a : List UInt8) (small : n < 2 ^ 31) (c : UInt8) :
    storeIndex a (Int32.ofNat n) c = storeAt a n c := by
  rw [storeIndex, if_neg (ofNat_not_neg small), toInt_ofNat small, Int.toNat_natCast]

theorem ofNat_length_append (front rest : List UInt8) :
    Int32.ofNat front.length + Int32.ofNat rest.length = Int32.ofNat (front ++ rest).length := by
  rw [← Int32.ofNat_add, List.length_append]

theorem length_lt_append (front : List UInt8) (nonempty : rest ≠ []) :
    front.length < (front ++ rest).length := by
  have positive := List.length_pos_of_ne_nil nonempty
  rw [List.length_append]
  omega

/-- There is something left. -/
theorem ofNat_length_lt (front : List UInt8) (nonempty : rest ≠ [])
    (small : (front ++ rest).length < 2 ^ 31) :
    Int32.ofNat front.length < Int32.ofNat (front ++ rest).length :=
  have longer := length_lt_append front nonempty
  (ofNat_lt_iff (longer.trans small) small).mpr longer

/-- The first character that is left. -/
theorem loadIndex_middle (c : UInt8) (small : front.length < 2 ^ 31) :
    loadIndex (front ++ c :: rest ++ [0]) (Int32.ofNat front.length) = .ok c := by
  rw [loadIndex_ofNat _ small, List.append_assoc, List.cons_append]
  exact loadAt_middle c rfl

/-- The terminator, if nothing is left. -/
theorem loadIndex_end (small : text.length < 2 ^ 31) :
    loadIndex (text ++ [0]) (Int32.ofNat text.length) = .ok 0 := by
  rw [loadIndex_ofNat _ small]
  exact loadAt_middle 0 rfl

theorem storeIndex_overlay (small : written.length < 2 ^ 31) (room : written.length < old.length)
    (c : UInt8) :
    storeIndex (overlay written old) (Int32.ofNat written.length) c =
    .ok (overlay (written ++ [c]) old) := by
  rw [storeIndex_ofNat _ small]
  exact storeAt_overlay room c

theorem IntString.length_lt (s : IntString) : s.chars.length < s.array.length + 1 := by
  rw [IntString.array, List.length_append]
  omega

theorem lengthLoop_eq (plain : 0 ∉ rest) (small : (front ++ rest).length < 2 ^ 31)
    (enough : rest.length < fuel) :
    lengthLoop (front ++ rest ++ [0]) fuel (Int32.ofNat front.length) =
    .ok (Int32.ofNat (front ++ rest).length) := by
  induction rest generalizing front fuel with
  | nil =>
      cases fuel with
      | zero => cases enough
      | succ fuel =>
          rw [List.append_nil] at small ⊢
          rw [lengthLoop]
          exact (bind_of_ok (loadIndex_end small)).trans (if_pos rfl)
  | cons c rest ih =>
      cases fuel with
      | zero => cases enough
      | succ fuel =>
          rw [List.mem_cons, not_or] at plain
          have whole : front ++ c :: rest = front ++ [c] ++ rest := List.append_cons front c rest
          have below := (length_lt_append front (List.cons_ne_nil c rest)).trans small
          have here := @loadIndex_middle front rest c below
          rw [lengthLoop]
          refine (bind_of_ok here).trans ((if_neg (Ne.symm plain.1)).trans ?_)
          rw [whole] at small ⊢
          rw [ofNat_length_concat]
          exact ih plain.2 small (Nat.lt_of_succ_lt_succ enough)

theorem IntString.lengthLoop_eq (s : IntString) :
    lengthLoop s.array (s.array.length + 1) 0 = .ok (Int32.ofNat s.chars.length) := by
  have run := @Shell.lengthLoop_eq [] s.chars (s.array.length + 1) s.plain
    (by rw [List.nil_append]; exact s.short)
    s.length_lt
  rw [List.nil_append] at run
  exact run

/-- The index of a longer string becomes negative before the terminator is found. -/
theorem lengthLoop_overlong (plain : 0 ∉ rest) (long : 2 ^ 31 ≤ (front ++ rest).length)
    (below : front.length ≤ 2 ^ 31) (enough : rest.length < fuel) :
    lengthLoop (front ++ rest ++ [0]) fuel (Int32.ofNat front.length) = .error .invalidAccess := by
  induction rest generalizing front fuel with
  | nil =>
      cases fuel with
      | zero => cases enough
      | succ fuel =>
          rw [List.append_nil] at long
          have last : front.length = 2 ^ 31 := Nat.le_antisymm below long
          rw [lengthLoop]
          exact bind_of_error (loadIndex_overlong _ last)
  | cons c rest ih =>
      cases fuel with
      | zero => cases enough
      | succ fuel =>
          rw [lengthLoop]
          rcases Nat.lt_or_eq_of_le below with small | last
          · rw [List.mem_cons, not_or] at plain
            have whole : front ++ c :: rest = front ++ [c] ++ rest := List.append_cons front c rest
            have here := @loadIndex_middle front rest c small
            refine (bind_of_ok here).trans ((if_neg (Ne.symm plain.1)).trans ?_)
            rw [whole] at long ⊢
            rw [ofNat_length_concat]
            refine ih plain.2 long ?_ (Nat.lt_of_succ_lt_succ enough)
            rw [List.length_append, List.length_singleton]
            exact small
          · exact bind_of_error (loadIndex_overlong _ last)

/-- The inner loop compares what is left of the pattern with the text there. -/
theorem matchLoop_eq {matched more behind : List UInt8} (front : List UInt8) (plain : 0 ∉ more)
    (beginSmall : (front ++ matched ++ behind).length < 2 ^ 31)
    (whatSmall : (matched ++ more).length < 2 ^ 31) (enough : more.length < fuel) :
    matchLoop (front ++ matched ++ behind ++ [0]) (matched ++ more ++ [0])
      (Int32.ofNat (matched ++ more).length)
      (Int32.ofNat front.length) fuel (Int32.ofNat matched.length) =
      .ok (more.isPrefixOf behind) := by
  induction more generalizing matched behind fuel with
  | nil =>
      cases fuel with
      | zero => cases enough
      | succ fuel =>
          rw [List.append_nil] at whatSmall ⊢
          rw [matchLoop, if_neg Int32.lt_irrefl]
          rfl
  | cons c more ih =>
      cases fuel with
      | zero => cases enough
      | succ fuel =>
          rw [List.mem_cons, not_or] at plain
          have longer := length_lt_append matched (List.cons_ne_nil c more)
          have below := ofNat_length_lt matched (List.cons_ne_nil c more) whatSmall
          have place : (front ++ matched).length < 2 ^ 31 := by
            rw [List.length_append] at beginSmall
            omega
          have pattern := @loadIndex_middle matched more c (longer.trans whatSmall)
          rw [matchLoop, if_pos below, ofNat_length_append]
          cases behind with
          | nil =>
              -- the text ends within the pattern, and its terminator is not in the pattern
              have ended : loadIndex (front ++ matched ++ [] ++ [0])
                  (Int32.ofNat (front ++ matched).length) =
                  .ok 0 := by
                rw [List.append_nil]
                exact loadIndex_end place
              exact (bind_of_ok ended).trans ((bind_of_ok pattern).trans (if_pos plain.1))
          | cons d behind =>
              have here := @loadIndex_middle (front ++ matched) behind d place
              refine (bind_of_ok here).trans ((bind_of_ok pattern).trans ?_)
              by_cases same : d = c
              · subst same
                have whole : front ++ matched ++ d :: behind =
                    front ++ (matched ++ [d]) ++ behind := by simp
                have shifted : matched ++ d :: more = matched ++ [d] ++ more :=
                  List.append_cons matched d more
                rw [if_neg (not_not.mpr rfl), ofNat_length_concat, List.isPrefixOf_cons_cons_self]
                rw [whole] at beginSmall ⊢
                rw [shifted] at whatSmall ⊢
                exact ih plain.2 beginSmall whatSmall (Nat.lt_of_succ_lt_succ enough)
              · have other : (c :: more).isPrefixOf (d :: behind) = false := by
                  rw [List.isPrefixOf, beq_false_of_ne (Ne.symm same), Bool.false_and]
                rw [if_pos same, other]
                rfl

section Passes

variable (w : IntString)

/-- The inner loop finds out if the pattern is at the front of what is left. -/
theorem IntString.matchLoop_eq (small : (front ++ rest).length < 2 ^ 31) :
    matchLoop (front ++ rest ++ [0]) w.array (Int32.ofNat w.chars.length) (Int32.ofNat front.length)
      (w.array.length + 1) 0 = .ok (w.chars.isPrefixOf rest) := by
  have run := @Shell.matchLoop_eq (w.array.length + 1) [] w.chars rest front w.plain
    (by rw [List.append_nil]; exact small) w.short w.length_lt
  rw [List.append_nil, List.nil_append] at run
  exact run

theorem IntString.matchLoop_cons (small : (front ++ c :: rest).length < 2 ^ 31)
    (other : ¬ w.chars <+: c :: rest) :
    matchLoop (front ++ c :: rest ++ [0]) w.array (Int32.ofNat w.chars.length)
      (Int32.ofNat front.length) (w.array.length + 1) 0 = .ok false := by
  have differs : w.chars.isPrefixOf (c :: rest) = false :=
    Bool.eq_false_iff.mpr fun same => other (List.isPrefixOf_iff_prefix.mp same)
  rw [w.matchLoop_eq small, differs]

theorem IntString.matchLoop_occurrence (small : (front ++ (w.chars ++ rest)).length < 2 ^ 31) :
    matchLoop (front ++ (w.chars ++ rest) ++ [0]) w.array (Int32.ofNat w.chars.length)
      (Int32.ofNat front.length) (w.array.length + 1) 0 = .ok true := by
  have same : w.chars.isPrefixOf (w.chars ++ rest) = true :=
    List.isPrefixOf_iff_prefix.mpr (List.prefix_append w.chars rest)
  rw [w.matchLoop_eq small, same]

theorem countLoop_eq (nonempty : w.chars ≠ []) (small : (front ++ rest).length < 2 ^ 31)
    (enough : rest.length < fuel) (n : Nat) :
    countLoop (front ++ rest ++ [0]) w.array (Int32.ofNat (front ++ rest).length)
      (Int32.ofNat w.chars.length) fuel
      (Int32.ofNat front.length) (Int32.ofNat n) =
      .ok (Int32.ofNat (n + occurrences w.chars rest)) := by
  induction rest using induction_on_scan nonempty generalizing front fuel n with
  | nil =>
      cases fuel with
      | zero => cases enough
      | succ fuel =>
          rw [List.append_nil] at small ⊢
          rw [countLoop, if_neg Int32.lt_irrefl]
          rfl
  | cons c rest other ih =>
      cases fuel with
      | zero => cases enough
      | succ fuel =>
          have below := ofNat_length_lt front (List.cons_ne_nil c rest) small
          have compared := w.matchLoop_cons small other
          rw [countLoop, if_pos below, occurrences_cons other, ofNat_length_concat front c]
          refine (bind_of_ok compared).trans ((if_neg Bool.false_ne_true).trans ?_)
          rw [List.append_cons front c rest] at small ⊢
          exact ih small (Nat.lt_of_succ_lt_succ enough) n
  | occurrence behind ih =>
      cases fuel with
      | zero => cases enough
      | succ fuel =>
          have positive := List.length_pos_of_ne_nil nonempty
          have below :=
            ofNat_length_lt front (List.append_ne_nil_of_left_ne_nil nonempty behind) small
          have compared := w.matchLoop_occurrence small
          have total : n + (occurrences w.chars behind + 1) =
              n + 1 + occurrences w.chars behind := by omega
          rw [countLoop, if_pos below, occurrences_occurrence nonempty, ofNat_length_append,
            ofNat_add_one, total]
          refine (bind_of_ok compared).trans ((if_pos rfl).trans ?_)
          rw [List.length_append] at enough
          rw [← List.append_assoc front] at small ⊢
          exact ih small (by omega) (n + 1)

omit w in
/-- The copying loop stores what is left of its source behind what has been written. -/
theorem copyLoop_eq {passed : List UInt8} (srcSmall : (passed ++ src).length < 2 ^ 31)
    (outSmall : (written ++ src).length < 2 ^ 31) (room : (written ++ src).length < old.length)
    (enough : src.length < fuel) :
    copyLoop (passed ++ src ++ [0]) (Int32.ofNat (passed ++ src).length) fuel
      (Int32.ofNat passed.length) (Int32.ofNat written.length) (overlay written old) =
      .ok (Int32.ofNat (written ++ src).length, overlay (written ++ src) old) := by
  induction src generalizing passed written fuel with
  | nil =>
      cases fuel with
      | zero => cases enough
      | succ fuel =>
          rw [List.append_nil] at srcSmall ⊢
          rw [copyLoop, if_neg Int32.lt_irrefl, List.append_nil]
          rfl
  | cons c src ih =>
      cases fuel with
      | zero => cases enough
      | succ fuel =>
          have longer := length_lt_append passed (List.cons_ne_nil c src)
          have below := ofNat_length_lt passed (List.cons_ne_nil c src) srcSmall
          have before := length_lt_append written (List.cons_ne_nil c src)
          have loaded := @loadIndex_middle passed src c (longer.trans srcSmall)
          have stored := storeIndex_overlay (before.trans outSmall) (before.trans room) c
          rw [copyLoop, if_pos below, ofNat_length_concat, ofNat_length_concat]
          refine (bind_of_ok loaded).trans ((bind_of_ok stored).trans ?_)
          rw [List.append_cons passed c src] at srcSmall ⊢
          rw [List.append_cons written c src] at outSmall room ⊢
          exact ih srcSmall outSmall room (Nat.lt_of_succ_lt_succ enough)

variable (r : IntString)

/-- The second pass writes the replacement of what is left behind what it has written. -/
theorem writeLoop_eq (nonempty : w.chars ≠ []) (small : (front ++ rest).length < 2 ^ 31)
    (outSmall : (written ++ replace w.chars r.chars rest).length < 2 ^ 31)
    (room : (written ++ replace w.chars r.chars rest).length < old.length)
    (enough : rest.length < fuel) :
    writeLoop (front ++ rest ++ [0]) w.array r.array (Int32.ofNat (front ++ rest).length)
      (Int32.ofNat w.chars.length) (Int32.ofNat r.chars.length) fuel (Int32.ofNat front.length)
      (Int32.ofNat written.length) (overlay written old) =
      .ok (Int32.ofNat (written ++ replace w.chars r.chars rest).length,
        overlay (written ++ replace w.chars r.chars rest) old) := by
  induction rest using induction_on_scan nonempty generalizing front fuel written with
  | nil =>
      cases fuel with
      | zero => cases enough
      | succ fuel =>
          rw [List.append_nil] at small ⊢
          rw [writeLoop, if_neg Int32.lt_irrefl, replace_nil, List.append_nil]
          rfl
  | cons c rest other ih =>
      cases fuel with
      | zero => cases enough
      | succ fuel =>
          rw [replace_cons other] at outSmall room ⊢
          have longer := length_lt_append front (List.cons_ne_nil c rest)
          have below := ofNat_length_lt front (List.cons_ne_nil c rest) small
          have compared := w.matchLoop_cons small other
          have before :=
            length_lt_append written (List.cons_ne_nil c (replace w.chars r.chars rest))
          have loaded := @loadIndex_middle front rest c (longer.trans small)
          have stored := storeIndex_overlay (before.trans outSmall) (before.trans room) c
          rw [writeLoop, if_pos below, ofNat_length_concat front c, ofNat_length_concat written c]
          refine (bind_of_ok compared).trans ((if_neg Bool.false_ne_true).trans ?_)
          refine (bind_of_ok loaded).trans ((bind_of_ok stored).trans ?_)
          rw [List.append_cons front c rest] at small ⊢
          rw [List.append_cons written c (replace w.chars r.chars rest)] at outSmall room ⊢
          exact ih small outSmall room (Nat.lt_of_succ_lt_succ enough)
  | occurrence behind ih =>
      cases fuel with
      | zero => cases enough
      | succ fuel =>
          rw [replace_occurrence nonempty, ← List.append_assoc written] at outSmall room ⊢
          have positive := List.length_pos_of_ne_nil nonempty
          have below :=
            ofNat_length_lt front (List.append_ne_nil_of_left_ne_nil nonempty behind) small
          have compared := w.matchLoop_occurrence small
          have partly : (written ++ r.chars).length ≤
              (written ++ r.chars ++ replace w.chars r.chars behind).length := by
            rw [@List.length_append _ (written ++ r.chars)]
            exact Nat.le_add_right _ _
          have copied := @copyLoop_eq old r.chars written (r.array.length + 1) []
            (by rw [List.nil_append]; exact r.short) (partly.trans_lt outSmall)
              (partly.trans_lt room)
            r.length_lt
          rw [writeLoop, if_pos below, ofNat_length_append]
          refine (bind_of_ok compared).trans ((if_pos rfl).trans ((bind_of_ok copied).trans ?_))
          rw [List.length_append] at enough
          rw [← List.append_assoc front] at small ⊢
          exact ih small outSmall room (by omega)

/-- The first pass finds the length of the result, even if the difference of the lengths is
    negative. -/
theorem outLength_eq (b : IntString) (nonempty : w.chars ≠ []) :
    outLength b.array w.array (Int32.ofNat b.chars.length) (Int32.ofNat w.chars.length)
      (Int32.ofNat r.chars.length) =
      .ok (Int32.ofNat (replace w.chars r.chars b.chars).length) := by
  have count := @countLoop_eq [] b.chars (b.array.length + 1) w nonempty b.short
    b.length_lt 0
  rw [List.nil_append, Nat.zero_add] at count
  have balance := congrArg Int32.ofNat (length_replace nonempty r.chars b.chars)
  rw [Int32.ofNat_add, Int32.ofNat_add, Int32.ofNat_mul, Int32.ofNat_mul] at balance
  have length : Int32.ofNat b.chars.length + Int32.ofNat (occurrences w.chars b.chars) *
      (Int32.ofNat r.chars.length - Int32.ofNat w.chars.length) =
        Int32.ofNat (replace w.chars r.chars b.chars).length := by
    grind
  rw [outLength, ← length]
  exact bind_of_ok count

end Passes

theorem toSize_add_one (arch : Arch) (small : n + 1 < 2 ^ 31) :
    toSize arch (Int32.ofNat n + 1) = n + 1 := by
  have word := arch.le_wordSize
  rw [toSize, ofNat_add_one, toInt_ofNat small, Int.emod_eq_of_lt (by omega) (by omega)]
  exact Int.toNat_natCast (n + 1)

/-- The block that is asked for has room for the string and its terminator. -/
theorem lt_toSize (arch : Arch) (small : n < 2 ^ 31) : n < toSize arch (Int32.ofNat n + 1) := by
  by_cases fits : n + 1 < 2 ^ 31
  · rw [toSize_add_one arch fits]
    exact Nat.lt_succ_self n
  · rw [toSize, ofNat_add_one]
    obtain rfl : n = 2 ^ 31 - 1 := by omega
    cases arch with
    | x86 => decide
    | x86_64 => decide

/-- What `str_replace` is for: every occurrence of a string that is not empty is replaced. -/
def replaced (begin what repl : List UInt8) : List UInt8 :=
  if what = [] then begin else replace what repl begin

variable {malloc : Malloc}

theorem IntString.length_ne_zero (s : IntString) (nonempty : s.chars ≠ []) :
    Int32.ofNat s.chars.length ≠ 0 := by
  intro zero
  have value := congrArg Int32.toInt zero
  rw [toInt_ofNat s.short] at value
  exact nonempty (List.eq_nil_of_length_eq_zero (Int.ofNat.inj value))

/-- With a pattern both passes go over the same occurrences. -/
theorem strReplace_pattern (arch : Arch) (b w r : IntString) (nonempty : w.chars ≠ [])
    (short : (replace w.chars r.chars b.chars).length < 2 ^ 31)
    (served : malloc (toSize arch (Int32.ofNat (replace w.chars r.chars b.chars).length + 1)) =
    .ok (some old)) (room : (replace w.chars r.chars b.chars).length < old.length) :
    writeLoop b.array w.array r.array (Int32.ofNat b.chars.length) (Int32.ofNat w.chars.length)
        (Int32.ofNat r.chars.length) (b.array.length + 1) 0 0 old =
      .ok (Int32.ofNat (replace w.chars r.chars b.chars).length,
        overlay (replace w.chars r.chars b.chars) old) ∧
    strReplace arch malloc (some b.array) (some w.array) (some r.array) =
      .ok (some (overlay (replace w.chars r.chars b.chars ++ [0]) old)) := by
  have second := @writeLoop_eq old [] b.chars [] (b.array.length + 1) w r nonempty b.short
    (by rw [List.nil_append]; exact short) (by rw [List.nil_append]; exact room) b.length_lt
  rw [List.nil_append, List.nil_append, overlay_nil] at second
  have ended := storeIndex_overlay short room 0
  refine ⟨second, ?_⟩
  rw [strReplace]
  refine (bind_of_ok b.lengthLoop_eq).trans
    ((bind_of_ok w.lengthLoop_eq).trans ((bind_of_ok r.lengthLoop_eq).trans ?_))
  rw [if_neg (w.length_ne_zero nonempty)]
  refine (bind_of_ok (outLength_eq w r b nonempty)).trans ((bind_of_ok served).trans ?_)
  exact (bind_of_ok second).trans (bind_of_ok ended)

/-- A call of `malloc` that stops the machine for the length of the result stops
    `str_replace`. -/
theorem strReplace_stopped (arch : Arch) (b w r : IntString) (nonempty : w.chars ≠ []) {e : Fault}
    (stops : malloc (toSize arch (Int32.ofNat (replace w.chars r.chars b.chars).length + 1)) =
    .error e) :
    strReplace arch malloc (some b.array) (some w.array) (some r.array) = .error e := by
  rw [strReplace]
  refine (bind_of_ok b.lengthLoop_eq).trans
    ((bind_of_ok w.lengthLoop_eq).trans ((bind_of_ok r.lengthLoop_eq).trans ?_))
  rw [if_neg (w.length_ne_zero nonempty)]
  exact (bind_of_ok (outLength_eq w r b nonempty)).trans (bind_of_error stops)

/-- It hands `NULL` on. -/
theorem strReplace_null (arch : Arch) (b w r : IntString) (nonempty : w.chars ≠ [])
    (null : malloc (toSize arch (Int32.ofNat (replace w.chars r.chars b.chars).length + 1)) =
    .ok none) :
    strReplace arch malloc (some b.array) (some w.array) (some r.array) = .ok none := by
  rw [strReplace]
  refine (bind_of_ok b.lengthLoop_eq).trans
    ((bind_of_ok w.lengthLoop_eq).trans ((bind_of_ok r.lengthLoop_eq).trans ?_))
  rw [if_neg (w.length_ne_zero nonempty)]
  exact (bind_of_ok (outLength_eq w r b nonempty)).trans (bind_of_ok null)

/-- Without one the string is copied. -/
theorem strReplace_empty (arch : Arch) (b w r : IntString) (empty : w.chars = [])
    (served : malloc (toSize arch (Int32.ofNat b.chars.length + 1)) = .ok (some old))
    (room : b.chars.length < old.length) :
    strReplace arch malloc (some b.array) (some w.array) (some r.array) =
      .ok (some (overlay (b.chars ++ [0]) old)) := by
  have zero : Int32.ofNat w.chars.length = 0 := by
    rw [empty]
    rfl
  have copied :=
    @copyLoop_eq old b.chars [] (b.array.length + 1) [] b.short b.short room b.length_lt
  rw [List.nil_append, overlay_nil] at copied
  have ended := storeIndex_overlay b.short room 0
  rw [strReplace]
  refine (bind_of_ok b.lengthLoop_eq).trans
    ((bind_of_ok w.lengthLoop_eq).trans ((bind_of_ok r.lengthLoop_eq).trans ?_))
  rw [if_pos zero]
  refine (bind_of_ok served).trans ?_
  exact (bind_of_ok copied).trans (bind_of_ok ended)

/-- If the length of the result is an `int` and `malloc` returns the block that is asked for,
    `str_replace` returns the string with the leftmost occurrences that do not overlap replaced.
    The second pass writes as many characters as the first pass has found out, no more than fit
    into the block with a terminator, and nothing is read behind a terminator. -/
theorem strReplace_replaces (arch : Arch) (begin what repl : IntString)
    (short : (replaced begin.chars what.chars repl.chars).length < 2 ^ 31)
    (served : malloc (toSize arch
      (Int32.ofNat (replaced begin.chars what.chars repl.chars).length + 1)) = .ok (some old))
    (size : old.length =
    toSize arch (Int32.ofNat (replaced begin.chars what.chars repl.chars).length + 1)) :
    strReplace arch malloc (some begin.array) (some what.array) (some repl.array) =
        .ok (some (overlay (replaced begin.chars what.chars repl.chars ++ [0]) old)) ∧
      (replaced begin.chars what.chars repl.chars).length + 1 ≤ old.length ∧
      (what.chars = [] → replaced begin.chars what.chars repl.chars = begin.chars) ∧
      (what.chars ≠ [] →
        Replaced what.chars repl.chars begin.chars (replaced begin.chars what.chars repl.chars) ∧
        ∃ outlen, outLength begin.array what.array (Int32.ofNat begin.chars.length)
            (Int32.ofNat what.chars.length) (Int32.ofNat repl.chars.length) = .ok outlen ∧
          outlen.toInt = (replaced begin.chars what.chars repl.chars).length ∧
          writeLoop begin.array what.array repl.array (Int32.ofNat begin.chars.length)
            (Int32.ofNat what.chars.length) (Int32.ofNat repl.chars.length)
              (begin.array.length + 1) 0 0 old =
            .ok (outlen, overlay (replaced begin.chars what.chars repl.chars) old)) := by
  have room : (replaced begin.chars what.chars repl.chars).length < old.length := by
    rw [size]
    exact lt_toSize arch short
  by_cases empty : what.chars = []
  · have same : replaced begin.chars what.chars repl.chars = begin.chars := if_pos empty
    rw [same] at served room ⊢
    exact ⟨strReplace_empty arch begin what repl empty served room, room, fun _ => rfl,
      fun nonempty => absurd empty nonempty⟩
  · have value : replaced begin.chars what.chars repl.chars =
        replace what.chars repl.chars begin.chars := if_neg empty
    rw [value] at short served room ⊢
    obtain ⟨second, whole⟩ := strReplace_pattern arch begin what repl empty short served room
    refine ⟨whole, room, fun none => absurd none empty, fun _ => ⟨replaced_replace empty _ _, ?_⟩⟩
    exact ⟨_, outLength_eq what repl begin empty, toInt_ofNat short, second⟩

/-- The text in which `isr_handler` puts the name of an exception. -/
def exceptionText : IntString where
  chars := cstr "Your CPU has thrown an error\n with the following name: \x7bname\x7d.\n\n " ++
    cstr "This is a bug in AurorOS. Please report it on\n https://github.com/Interpuce/AurorOS/issues/new/choose"
  plain := by decide +kernel
  short := by decide +kernel

/-- The place of the name. -/
def namePlace : IntString where
  chars := cstr "\x7bname\x7d"
  plain := by decide
  short := by decide

def divideErrorName : IntString where
  chars := cstr "Divide Error"
  plain := by decide
  short := by decide

/-- `malloc` for a block of the heap, whatever is in it. -/
def mallocBlock : Malloc := fun size => .ok (some (List.replicate size 0xAA))

/-- The text of the kernel panic for exception 0. -/
theorem strReplace_replaces_name :
    ∃ old, strReplace .x86 mallocBlock (some exceptionText.array) (some namePlace.array)
        (some divideErrorName.array) =
      .ok (some (overlay (replaced exceptionText.chars namePlace.chars divideErrorName.chars ++ [0])
        old)) :=
  ⟨_, (strReplace_replaces .x86 exceptionText namePlace divideErrorName (by decide +kernel)
    (Eq.refl (mallocBlock _)) List.length_replicate).1⟩

/-- It is the one with which the divide fault stops the machine. -/
example : ∃ code note, divideError = .kernelpanic code note ∧
    replaced exceptionText.chars namePlace.chars divideErrorName.chars = cstr note := by
  refine ⟨_, _, rfl, ?_⟩
  rw [cstr, String.toList_append, List.map_append]
  decide +kernel

/-- Of a string whose length is no `int` the length is not found. -/
theorem strReplace_overlong (arch : Arch) (malloc : Malloc) (plain : 0 ∉ text)
    (long : 2 ^ 31 ≤ text.length) (what repl : List UInt8) :
    strReplace arch malloc (some (text ++ [0])) (some what) (some repl) =
    .error .invalidAccess := by
  have enough : text.length < (text ++ [0]).length + 1 := by
    rw [List.length_append]
    omega
  exact bind_of_error (@lengthLoop_overlong [] text _ plain long (Nat.zero_le _) enough)

/-- As many letters as an `int` cannot count, all of which are to be removed. -/
theorem strReplace_all_removed :
    strReplace .x86_64 mallocBlock (some (List.replicate (2 ^ 31) 97 ++ [0])) (some [97, 0])
      (some [0]) = .error .invalidAccess ∧
      replaced (List.replicate (2 ^ 31) 97) [97] [] = [] := by
  have none (n : Nat) : replaced (List.replicate n 97) [97] [] = [] := by
    rw [replaced, if_neg (List.cons_ne_nil _ _)]
    induction n with
    | zero => rfl
    | succ n ih =>
        exact (replace_occurrence (List.cons_ne_nil _ _) [] (List.replicate n 97)).trans ih
  have plain : 0 ∉ List.replicate (2 ^ 31) (97 : UInt8) := by
    intro member
    cases List.eq_of_mem_replicate member
  exact ⟨strReplace_overlong .x86_64 mallocBlock plain List.length_replicate.ge [97, 0] [0], none _⟩

end AurorOS.Shell
