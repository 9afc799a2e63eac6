import AurorOS.Lib.ByteMemory

/-! # Saving registers on a stack

A stack grows downwards in words of `k` bytes, and a register of a smaller size takes the
lower part of a word.  What is pushed and later popped in the opposite order is restored,
whatever happened in between, as long as the stack is left alone.
-/

namespace StackFrame

open ByteMemory

/-- Registers `R` of these sizes in bytes, a stack pointer of `k` bytes, and memory. -/
structure State {R : Type} (size : R → Nat) (k : Nat) where
  regs : ∀ r, Fin (256 ^ size r)
  sp : Fin (256 ^ k)
  mem : Mem

/-- What takes up a word of the stack: a register, or a value that is thrown away again. -/
inductive Slot (R : Type) (k : Nat) where
  | reg (r : R)
  | word (v : Fin (256 ^ k))

variable {R : Type} {size : R → Nat} {k : Nat}

/-- `a` modulo the size of the address space. -/
@[irreducible] def wrap (k a : Nat) : Fin (256 ^ k) :=
  ⟨a % 256 ^ k, Nat.mod_lt _ (Nat.pow_pos (by decide))⟩

/-- The bytes of a slot that are stored, and their value. -/
def Slot.width (size : R → Nat) : Slot R k → Nat
  | .reg r => size r
  | .word _ => k

def Slot.value (s : State size k) : Slot R k → Nat
  | .reg r => (s.regs r).val
  | .word v => v.val

theorem value_reg (r : R) (s : State size k) : (Slot.reg r : Slot R k).value s = (s.regs r).val :=
  rfl

theorem value_word (v : Fin (256 ^ k)) (s : State size k) :
    (Slot.word v : Slot R k).value s = v.val := rfl

theorem width_reg (r : R) : (Slot.reg r : Slot R k).width size = size r := rfl

theorem width_word (v : Fin (256 ^ k)) : (Slot.word v : Slot R k).width size = k := rfl

def push (x : Slot R k) (s : State size k) : State size k :=
  let a := wrap k (s.sp.val + 256 ^ k - k)
  { s with sp := a, mem := store s.mem a.val (x.width size) (x.value s) }

def pushAll (l : List (Slot R k)) (s : State size k) : State size k :=
  l.foldl (fun s x => push x s) s

/-- A register is loaded. -/
def State.set [DecidableEq R] (r : R) (v : Fin (256 ^ size r)) (s : State size k) : State size k :=
  { s with regs := Function.update s.regs r v }

theorem set_sp [DecidableEq R] (r : R) (v : Fin (256 ^ size r)) (s : State size k) :
    (s.set r v).sp = s.sp := rfl

theorem set_mem [DecidableEq R] (r : R) (v : Fin (256 ^ size r)) (s : State size k) :
    (s.set r v).mem = s.mem := rfl

theorem set_regs_of_ne [DecidableEq R] {r q : R} (other : q ≠ r) (v : Fin (256 ^ size r))
    (s : State size k) :
    (s.set r v).regs q = s.regs q := by
  simp only [State.set, Function.update_of_ne other]

theorem set_regs_self [DecidableEq R] (r : R) (v : Fin (256 ^ size r)) (s : State size k) :
    (s.set r v).regs r = v := by
  simp only [State.set, Function.update_self]

/-- There is room for `n` words. -/
def Room (s : State size k) (n : Nat) : Prop := k * n ≤ s.sp.val

variable {s t : State size k} {x : Slot R k} {l m : List (Slot R k)} {n : Nat}

theorem wrap_val (k a : Nat) : (wrap k a).val = a % 256 ^ k := by
  rw [wrap]

theorem wrap_of_lt {a : Nat} (small : a < 256 ^ k) : (wrap k a).val = a := by
  rw [wrap_val, Nat.mod_eq_of_lt small]

theorem push_regs : (push x s).regs = s.regs := rfl

theorem push_sp (room : k ≤ s.sp.val) : (push x s).sp.val = s.sp.val - k := by
  have bound := s.sp.isLt
  have same : s.sp.val + 256 ^ k - k = s.sp.val - k + 256 ^ k := by omega
  change (wrap k (s.sp.val + 256 ^ k - k)).val = _
  rw [wrap_val, same, Nat.add_mod_right, Nat.mod_eq_of_lt (by omega)]

theorem push_changesIn (room : k ≤ s.sp.val) (narrow : x.width size ≤ k) :
    ChangesIn s.mem (push x s).mem (s.sp.val - k) k := by
  have place := push_sp (x := x) room
  have stored : (push x s).mem = store s.mem (push x s).sp.val (x.width size) (x.value s) := rfl
  rw [stored, place]
  exact (store_changesIn _ _ _ _).mono le_rfl (by omega)

theorem value_lt (s : State size k) (x : Slot R k) : x.value s < 256 ^ x.width size := by
  cases x with
  | reg r => exact (s.regs r).isLt
  | word v => exact v.isLt

theorem load_push (room : k ≤ s.sp.val) :
    load (push x s).mem (s.sp.val - k) (x.width size) = x.value s := by
  have place := push_sp (x := x) room
  have stored : (push x s).mem = store s.mem (push x s).sp.val (x.width size) (x.value s) := rfl
  rw [stored, place, load_store_same, Nat.mod_eq_of_lt (value_lt s x)]

theorem pushAll_nil : pushAll [] s = s := rfl

theorem pushAll_cons : pushAll (x :: l) s = pushAll l (push x s) := rfl

theorem pushAll_append : pushAll (l ++ m) s = pushAll m (pushAll l s) := List.foldl_append

theorem pushAll_regs : (pushAll l s).regs = s.regs := by
  induction l generalizing s with
  | nil => rfl
  | cons x l ih => rw [pushAll_cons, ih, push_regs]

theorem pushAll_sp (room : Room s l.length) : (pushAll l s).sp.val = s.sp.val - k * l.length := by
  induction l generalizing s with
  | nil => rfl
  | cons x l ih =>
      rw [Room, List.length_cons, Nat.mul_succ] at room
      have place := push_sp (x := x) (by omega : k ≤ s.sp.val)
      rw [pushAll_cons, ih (by rw [Room, place]; omega), place, List.length_cons, Nat.mul_succ]
      omega

theorem value_pushAll (x : Slot R k) : x.value (pushAll l s) = x.value s := by
  cases x with
  | reg r => rw [Slot.value, Slot.value, pushAll_regs]
  | word v => rfl

theorem width_le (narrow : ∀ r, size r ≤ k) (x : Slot R k) : x.width size ≤ k := by
  cases x with
  | reg r => exact narrow r
  | word v => exact le_rfl

/-- Only the words that are taken up change. -/
theorem pushAll_changesIn (room : Room s l.length) (narrow : ∀ r, size r ≤ k) :
    ChangesIn s.mem (pushAll l s).mem (s.sp.val - k * l.length) (k * l.length) := by
  induction l generalizing s with
  | nil => exact fun _ _ => rfl
  | cons x l ih =>
      rw [Room, List.length_cons, Nat.mul_succ] at room
      have place := push_sp (x := x) (by omega : k ≤ s.sp.val)
      have first := push_changesIn (by omega : k ≤ s.sp.val) (width_le narrow x)
      have rest := ih (s := push x s) (by rw [Room, place]; omega)
      rw [place] at rest
      rw [pushAll_cons, List.length_cons, Nat.mul_succ]
      exact (first.mono (by omega) (by omega)).trans (rest.mono (by omega) (by omega))

/-- A word of the stack has the value that was pushed there. -/
theorem load_pushAll (room : Room s (l ++ x :: m).length) (narrow : ∀ r, size r ≤ k) :
    load (pushAll (l ++ x :: m) s).mem (s.sp.val - k * (l.length + 1)) (x.width size) =
    x.value s := by
  have total : (l ++ x :: m).length = l.length + (m.length + 1) := by
    rw [List.length_append, List.length_cons]
  rw [Room, total, Nat.mul_add, Nat.mul_succ] at room
  have before := pushAll_sp (l := l) (by rw [Room]; omega : Room s l.length)
  have here := push_sp (s := pushAll l s) (x := x) (by omega)
  have later := pushAll_changesIn (l := m) (s := push x (pushAll l s))
    (by rw [Room, here, before]; omega) narrow
  have stored := load_push (s := pushAll l s) (x := x) (by omega)
  have place : s.sp.val - k * (l.length + 1) = (pushAll l s).sp.val - k := by
    rw [before, Nat.mul_succ]
    omega
  rw [pushAll_append, pushAll_cons, place, load_congr (later.agreeOn (Or.inr ?_)), stored,
    value_pushAll]
  rw [here]
  omega

/-- The same by position, from the word that was pushed last on. -/
theorem load_slot {i : Nat} (here : l.reverse[i]? = some x) (room : Room s l.length)
    (narrow : ∀ r, size r ≤ k) :
    load (pushAll l s).mem (s.sp.val - k * l.length + k * i) (x.width size) = x.value s := by
  obtain ⟨inside, same⟩ := List.getElem?_eq_some_iff.mp here
  rw [List.length_reverse] at inside
  rw [List.getElem_reverse] at same
  obtain ⟨j, total⟩ : ∃ j, l.length = j + (i + 1) := ⟨l.length - 1 - i, by omega⟩
  have place : l.length - 1 - i = j := by omega
  have parts : l = l.take j ++ x :: l.drop (j + 1) := by
    have early : j < l.length := by omega
    have here : l[j] = x := by
      rw [← same]
      congr 1
      exact place.symm
    rw [← here, List.cons_getElem_drop_succ, List.take_append_drop]
  have before : (l.take j).length = j := List.length_take_of_le (by omega)
  have loaded := load_pushAll (s := s) (x := x) (l := l.take j) (m := l.drop (j + 1))
    (by rw [← parts]; exact room)
    narrow
  rw [before, ← parts] at loaded
  have address : s.sp.val - k * l.length + k * i = s.sp.val - k * (j + 1) := by
    have split : k * l.length = k * (j + 1) + k * i := by rw [total, ← Nat.mul_add]; congr 1; omega
    rw [Room, split] at room
    omega
  rw [address]
  exact loaded

theorem push_congr {s t : State size k} {x y : Slot R k} (sp : t.sp = s.sp) (mem : t.mem = s.mem)
    (width : y.width size = x.width size) (value : y.value t = x.value s) :
    (push y t).sp = (push x s).sp ∧ (push y t).mem = (push x s).mem := by
  refine ⟨congrArg (fun sp : Fin (256 ^ k) => wrap k (sp.val + 256 ^ k - k)) sp, ?_⟩
  change store t.mem (wrap k (t.sp.val + 256 ^ k - k)).val (y.width size) (y.value t) =
    store s.mem (wrap k (s.sp.val + 256 ^ k - k)).val (x.width size) (x.value s)
  rw [sp, mem, width, value]

/-- What is pushed is told by the registers that are. -/
theorem pushAll_congr {s t : State size k} (sp : t.sp = s.sp) (mem : t.mem = s.mem)
    (same : ∀ r, .reg r ∈ l → t.regs r = s.regs r) :
    (pushAll l t).sp = (pushAll l s).sp ∧ (pushAll l t).mem = (pushAll l s).mem := by
  induction l generalizing s t with
  | nil => exact ⟨sp, mem⟩
  | cons x l ih =>
      have value : x.value t = x.value s := by
        cases x with
        | reg r => exact congrArg Fin.val (same r List.mem_cons_self)
        | word v => rfl
      have first := push_congr sp mem rfl value
      exact ih first.1 first.2 fun r among => same r (List.mem_cons_of_mem _ among)

variable [DecidableEq R]

/-- A word that was not pushed from a register is skipped. -/
def pop (x : Slot R k) (s : State size k) : State size k :=
  let next := wrap k (s.sp.val + k)
  match x with
  | .reg r => { s with
      regs := Function.update s.regs r ⟨load s.mem s.sp.val (size r), load_lt _ _ _⟩, sp := next }
  | .word _ => { s with sp := next }

/-- The slots are popped in the opposite order. -/
def unwind (l : List (Slot R k)) (s : State size k) : State size k := l.foldr pop s

theorem unwind_nil : unwind [] t = t := rfl

theorem unwind_cons : unwind (x :: l) t = pop x (unwind l t) := rfl

theorem unwind_append : unwind (l ++ m) t = unwind l (unwind m t) := List.foldr_append

theorem pop_mem : (pop x t).mem = t.mem := by
  cases x <;> rfl

theorem pop_sp : (pop x t).sp.val = (t.sp.val + k) % 256 ^ k := by
  cases x <;> exact wrap_val k _

theorem pop_reg (r : R) (t : State size k) : (pop (.reg r) t).regs =
    Function.update t.regs r ⟨load t.mem t.sp.val (size r), load_lt _ _ _⟩ := rfl

theorem unwind_sp : (unwind l t).sp.val = (t.sp.val + k * l.length) % 256 ^ k := by
  have bound := t.sp.isLt
  induction l with
  | nil => rw [unwind_nil, List.length_nil, Nat.mul_zero, Nat.add_zero, Nat.mod_eq_of_lt bound]
  | cons x l ih =>
      rw [unwind_cons, pop_sp, ih, Nat.mod_add_mod, List.length_cons, Nat.mul_succ, Nat.add_assoc]

/-- `t` has come to the same place of the stack as `s` with the slots pushed, and the stack is
    as it was then. -/
structure Kept (l : List (Slot R k)) (s t : State size k) : Prop where
  sp : t.sp = (pushAll l s).sp
  stack : AgreeOn (pushAll l s).mem t.mem (s.sp.val - k * l.length) s.sp.val

/-- `add sp, n` -/
def addSp (n : Nat) (s : State size k) : State size k := { s with sp := wrap k (s.sp.val + n) }

theorem pop_word (v : Fin (256 ^ k)) (t : State size k) : pop (.word v) t = addSp k t := rfl

omit [DecidableEq R] in
theorem addSp_addSp (n j : Nat) (t : State size k) : addSp n (addSp j t) = addSp (j + n) t := by
  have sum : wrap k ((wrap k (t.sp.val + j)).val + n) = wrap k (t.sp.val + (j + n)) := by
    rw [Fin.ext_iff, wrap_val, wrap_val, wrap_val, Nat.mod_add_mod, Nat.add_assoc]
  exact congrArg (fun sp => { t with sp := sp }) sum

/-- What is restored by unwinding. -/
structure Unwound (l : List (Slot R k)) (s t u : State size k) : Prop where
  sp : u.sp = s.sp
  mem : u.mem = t.mem
  saved : ∀ r, .reg r ∈ l → u.regs r = s.regs r
  others : ∀ r, .reg r ∉ l → u.regs r = t.regs r

theorem unwind_pushAll (room : Room s l.length) (narrow : ∀ r, size r ≤ k) (kept : Kept l s t) :
    Unwound l s t (unwind l t) := by
  induction l generalizing s with
  | nil => exact ⟨kept.sp, rfl, fun r none => absurd none List.not_mem_nil, fun r _ => rfl⟩
  | cons x l ih =>
      rw [Room, List.length_cons, Nat.mul_succ] at room
      have enough : k ≤ s.sp.val := by omega
      have place := push_sp (x := x) enough
      have inner : Room (push x s) l.length := by
        rw [Room, place]
        omega
      have span : s.sp.val - k * (x :: l).length = (push x s).sp.val - k * l.length := by
        rw [place, List.length_cons, Nat.mul_succ]
        omega
      have stack := kept.stack
      rw [span] at stack
      have step := ih inner ⟨kept.sp, stack.mono le_rfl (by omega)⟩
      -- the word of `x` is where it was pushed, as nothing above the other words has changed
      have later := pushAll_changesIn inner narrow
      have word : load t.mem (s.sp.val - k) (x.width size) = x.value s := by
        have width := width_le narrow x
        have same : AgreeOn (push x s).mem t.mem (s.sp.val - k) s.sp.val := by
          intro a above below
          rw [stack a (by omega) below]
          exact later a (Or.inr (by omega))
        rw [← load_push (x := x) enough, load_congr (same.mono le_rfl (by omega))]
      rw [unwind_cons]
      have sp : (pop x (unwind l t)).sp = s.sp := by
        have bound := s.sp.isLt
        rw [Fin.ext_iff, pop_sp, step.sp, place, Nat.sub_add_cancel enough, Nat.mod_eq_of_lt bound]
      refine ⟨sp, pop_mem.trans step.mem, fun r member => ?_, fun r absent => ?_⟩
      · cases x with
        | word v =>
            have among : .reg r ∈ l := by simpa using member
            exact step.saved r among
        | reg q =>
            by_cases same : r = q
            · subst same
              rw [pop_reg, Function.update_self, Fin.ext_iff]
              dsimp only
              rw [step.mem, step.sp, place]
              exact word
            · have among : .reg r ∈ l := by simpa [same] using member
              rw [pop_reg, Function.update_of_ne same]
              exact step.saved r among
      · cases x with
        | word v =>
            exact step.others r fun among => absent (List.mem_cons_of_mem _ among)
        | reg q =>
            have same : r ≠ q := fun same => absent (same ▸ List.mem_cons_self)
            rw [pop_reg, Function.update_of_ne same]
            exact step.others r fun among => absent (List.mem_cons_of_mem _ among)

/-- A call has come back that used at most `depth` bytes of the stack and its arguments. -/
structure Returned (depth args : Nat) (s t : State size k) : Prop where
  sp : t.sp = s.sp
  mem : ChangesIn s.mem t.mem (s.sp.val - depth) (depth + args)

omit [DecidableEq R] in
/-- `n` bytes are taken for the call and given back after it. -/
theorem kept_of_returned {u : State size k} {depth args : Nat} (room : Room s l.length)
    (place : u.sp.val + n = (pushAll l s).sp.val)
    (taken : ChangesIn (pushAll l s).mem u.mem u.sp.val n) (deep : depth ≤ u.sp.val)
    (few : args ≤ n) (returned : Returned depth args u t) : Kept l s (addSp n t) := by
  have bottom := pushAll_sp room
  have sp : (addSp n t).sp = (pushAll l s).sp := by
    have bound := (pushAll l s).sp.isLt
    change wrap k (t.sp.val + n) = _
    rw [Fin.ext_iff, wrap_val, returned.sp, place, Nat.mod_eq_of_lt bound]
  have stack : AgreeOn (pushAll l s).mem t.mem (s.sp.val - k * l.length) s.sp.val := by
    have call : AgreeOn u.mem t.mem (s.sp.val - k * l.length) s.sp.val :=
      returned.mem.agreeOn (Or.inr (by omega))
    exact (taken.agreeOn (Or.inr (by omega))).trans call
  exact ⟨sp, stack⟩

/-- The interrupted code goes on as if nothing had happened, with what it has above `top` on its
    stack. -/
structure Resumed (top total : Nat) (s t : State size k) : Prop where
  regs : t.regs = s.regs
  sp : t.sp = s.sp
  mem : ChangesIn s.mem t.mem (top - total) total

omit [DecidableEq R] in
/-- All of it happens below the stack pointer of the beginning. -/
theorem changesIn_of_returned {u : State size k} {depth args total : Nat} (room : Room s l.length)
    (narrow : ∀ r, size r ≤ k) (place : u.sp.val + n = (pushAll l s).sp.val)
    (taken : ChangesIn (pushAll l s).mem u.mem u.sp.val n) (deep : depth ≤ u.sp.val)
    (few : args ≤ n) (enough : k * l.length + n + depth = total)
    (returned : Returned depth args u t) :
    ChangesIn s.mem t.mem (s.sp.val - total) total := by
  have bottom := pushAll_sp room
  have saved := pushAll_changesIn room narrow
  rw [Room] at room
  exact ((saved.mono (by omega) (by omega)).trans (taken.mono (by omega) (by omega))).trans
    (returned.mem.mono (by omega) (by omega))

end StackFrame
