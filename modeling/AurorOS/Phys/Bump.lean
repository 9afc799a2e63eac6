import AurorOS.Phys.Windows

/-! # Runs of the early allocator

`early_phys_alloc_phys` takes addresses from the bottom of a window.  Rounding the
pointer up and adding the size are both done modulo 2^64, and 0 stands for failure:
a run keeps to its window exactly when no call is caught by one of these.
-/

namespace AurorOS.Phys

open Runs WordMask

/-- One call of `early_phys_alloc_phys`. -/
structure EarlyCall where
  size : Nat
  alignment : Nat
  result : Nat

/-- The bytes of the range a call returned. -/
def EarlyCall.bytes (c : EarlyCall) : Set Nat := Set.Ico c.result (c.result + c.size)

/-- A call with any 64-bit size and any power of two as alignment. -/
structure BumpStep (s : PhysMem .x86_64) (c : EarlyCall) (s' : PhysMem .x86_64) : Prop where
  size : c.size < 2 ^ 64
  alignment : c.alignment < 2 ^ 64
  power : c.alignment.isPowerOfTwo
  returns : earlyPhysAllocPhys s c.size c.alignment = (c.result, s')

/-- What the results of a run from `initial` promise. -/
structure BumpLaw (initial : PhysMem .x86_64)
    (trace : List (PhysMem .x86_64 × EarlyCall)) : Prop where
  aligned : ∀ entry ∈ trace, entry.2.result ≠ 0 → entry.2.alignment ∣ entry.2.result
  inside : ∀ entry ∈ trace, entry.2.result ≠ 0 → initial.earlyAllocPhysPtr ≤ entry.2.result ∧
    entry.2.result + entry.2.size ≤ initial.earlyAllocPhysEnd
  apart : trace.Pairwise fun c d => c.2.result ≠ 0 → d.2.result ≠ 0 → Disjoint c.2.bytes d.2.bytes
  refused : ∀ entry ∈ trace, entry.2.result = 0 →
    (earlyPhysAllocPhys entry.1 entry.2.size entry.2.alignment).2.earlyAllocPhysPtr =
    entry.1.earlyAllocPhysPtr ∧
    (earlyPhysAllocPhys entry.1 entry.2.size entry.2.alignment).2.earlyAllocPhysEnd =
    entry.1.earlyAllocPhysEnd

/-- The call returns a range of the window, or is refused and changes nothing. -/
def Sound (s : PhysMem .x86_64) (c : EarlyCall) : Prop :=
  let start := roundUp s.earlyAllocPhysPtr c.alignment
  c.size = 0 ∨
    if start = 0 ∨ start = 2 ^ 64 then s.earlyAllocPhysEnd < c.size ∨ c.size = s.earlyAllocPhysPtr
    else start + c.size < 2 ^ 64 ∨ s.earlyAllocPhysEnd + 2 ^ 64 < start + c.size

instance (s : PhysMem .x86_64) (c : EarlyCall) : Decidable (Sound s c) := by
  unfold Sound
  infer_instance

variable {initial s s' t : PhysMem .x86_64} {c : EarlyCall}
  {trace : List (PhysMem .x86_64 × EarlyCall)} {ptr alignment : Nat}

theorem roundUp_le_word (word : ptr < 2 ^ 64) (small : alignment < 2 ^ 64)
    (power : alignment.isPowerOfTwo) :
    roundUp ptr alignment ≤ 2 ^ 64 := by
  obtain ⟨k, rfl⟩ := power
  have narrow : k < 64 := (Nat.pow_lt_pow_iff_right (by decide)).mp small
  exact roundUp_le word narrow.le

/-- Where the code places a range: the next multiple, modulo 2^64. -/
theorem bumpStart_eq (small : alignment < 2 ^ 64) (power : alignment.isPowerOfTwo) :
    bumpStart s alignment = roundUp s.earlyAllocPhysPtr alignment % 2 ^ 64 := by
  obtain ⟨k, rfl⟩ := power
  have narrow : k < 64 := (Nat.pow_lt_pow_iff_right (by decide)).mp small
  have width : Arch.x86_64.wordBits = 64 := rfl
  simp only [bumpStart, if_neg (Nat.two_pow_pos k).ne', Arch.clear, width, add64]
  rw [clear_mod, clear_add_lowBits narrow.le]

/-- A multiple of 0 or 2^64 comes out as 0, any other as itself. -/
theorem bumpStart_cases (word : s.earlyAllocPhysPtr < 2 ^ 64) (small : alignment < 2 ^ 64)
    (power : alignment.isPowerOfTwo) :
    ((roundUp s.earlyAllocPhysPtr alignment = 0 ∨ roundUp s.earlyAllocPhysPtr alignment = 2 ^ 64) ∧
      bumpStart s alignment = 0) ∨
    (¬ (roundUp s.earlyAllocPhysPtr alignment = 0 ∨
    roundUp s.earlyAllocPhysPtr alignment = 2 ^ 64) ∧
      bumpStart s alignment = roundUp s.earlyAllocPhysPtr alignment ∧
      bumpStart s alignment ≠ 0) := by
  have top := roundUp_le_word word small power
  rw [bumpStart_eq small power]
  by_cases edge : roundUp s.earlyAllocPhysPtr alignment = 0 ∨
    roundUp s.earlyAllocPhysPtr alignment = 2 ^ 64
  · refine .inl ⟨edge, ?_⟩
    rcases edge with null | wraps
    · rw [null, Nat.zero_mod]
    · rw [wraps, Nat.mod_self]
  · obtain ⟨nonzero, below⟩ := not_or.mp edge
    have same : roundUp s.earlyAllocPhysPtr alignment % 2 ^ 64 =
        roundUp s.earlyAllocPhysPtr alignment :=
      Nat.mod_eq_of_lt (by omega)
    exact .inr ⟨edge, same, by omega⟩

/-- A sum that leaves the word once. -/
theorem add64_wraps {x y : Nat} (wraps : 2 ^ 64 ≤ x + y) (once : x + y < 2 ^ 65) :
    add64 x y = x + y - 2 ^ 64 := by
  rw [add64, Nat.mod_eq_sub_mod wraps, Nat.mod_eq_of_lt (by omega)]

/-- The window's pointer is a word, and its end stays where it was. -/
structure BumpWindow (initial s : PhysMem .x86_64) : Prop where
  stop : s.earlyAllocPhysEnd = initial.earlyAllocPhysEnd
  word : s.earlyAllocPhysPtr < 2 ^ 64

theorem BumpWindow.step (inv : BumpWindow initial s) (taken : BumpStep s c s') :
    BumpWindow initial s' := by
  have returns := taken.returns
  rcases earlyPhysAllocPhys_cases s c.size c.alignment with ⟨_, eq⟩ | ⟨_, _, eq⟩
  · rw [eq] at returns
    obtain ⟨_, rfl⟩ := Prod.mk.inj returns
    exact inv
  · rw [eq] at returns
    obtain ⟨_, rfl⟩ := Prod.mk.inj returns
    exact ⟨inv.stop, add64_lt _ _⟩

/-- What a sound call does: it fails and changes nothing, or takes the next aligned
    range off the window. -/
theorem Sound.cases (sound : Sound s c) (word : s.earlyAllocPhysPtr < 2 ^ 64)
    (taken : BumpStep s c s') :
    (c.result = 0 ∧ s' = s) ∨
      (c.result = roundUp s.earlyAllocPhysPtr c.alignment ∧ c.result ≠ 0 ∧
        c.result + c.size ≤ s.earlyAllocPhysEnd ∧
        s' = { s with earlyAllocPhysPtr := c.result + c.size }) := by
  have returns := taken.returns
  have size := taken.size
  rcases earlyPhysAllocPhys_cases s c.size c.alignment with ⟨_, eq⟩ | ⟨asked, room, eq⟩
  · rw [eq] at returns
    obtain ⟨null, same⟩ := Prod.mk.inj returns
    exact .inl ⟨null.symm, same.symm⟩
  · rw [eq] at returns
    obtain ⟨result, rfl⟩ := Prod.mk.inj returns
    have either := sound.resolve_left asked.ne'
    rcases bumpStart_cases word taken.alignment taken.power with
      ⟨edge, zero⟩ | ⟨inner, start, nonzero⟩
    · have sum : add64 0 c.size = c.size := by rw [add64_eq (by omega), Nat.zero_add]
      rw [if_pos edge] at either
      rw [zero, sum] at room
      have same : c.size = s.earlyAllocPhysPtr := either.resolve_left (by omega)
      refine .inl ⟨result.symm.trans zero, ?_⟩
      rw [zero, sum, same]
    · rw [if_neg inner, ← start, result] at either
      rw [result] at room start nonzero
      have small := bumpStart_eq (s := s) taken.alignment taken.power
      have fits : c.result + c.size < 2 ^ 64 := by
        refine either.resolve_right fun far => ?_
        rw [add64_wraps (by omega) (by omega)] at room
        omega
      rw [add64_eq fits] at room
      refine .inr ⟨start, nonzero, room, ?_⟩
      rw [result, add64_eq fits]

/-- A call that is not sound returns a range outside the window, or returns 0 and
    moves the window's pointer. -/
theorem not_sound (unsound : ¬ Sound s c) (word : s.earlyAllocPhysPtr < 2 ^ 64)
    (taken : BumpStep s c s') :
    (c.result ≠ 0 ∧ 2 ^ 64 ≤ c.result + c.size) ∨
      (c.result = 0 ∧ (earlyPhysAllocPhys s c.size c.alignment).2.earlyAllocPhysPtr ≠
      s.earlyAllocPhysPtr) := by
  have returns := taken.returns
  have size := taken.size
  have top := roundUp_le_word word taken.alignment taken.power
  obtain ⟨asked, either⟩ := not_or.mp unsound
  rcases bumpStart_cases word taken.alignment taken.power with
    ⟨edge, zero⟩ | ⟨inner, start, nonzero⟩
  · have sum : add64 0 c.size = c.size := by rw [add64_eq (by omega), Nat.zero_add]
    rw [if_pos edge] at either
    obtain ⟨room, moves⟩ := not_or.mp either
    rcases earlyPhysAllocPhys_cases s c.size c.alignment with ⟨refused, _⟩ | ⟨_, _, eq⟩
    · rw [zero, sum] at refused
      omega
    · rw [eq] at returns
      obtain ⟨result, _⟩ := Prod.mk.inj returns
      rw [eq, zero, sum]
      exact .inr ⟨result.symm.trans zero, moves⟩
  · rw [if_neg inner, ← start] at either
    rw [← start] at top
    obtain ⟨wraps, near⟩ := not_or.mp either
    have sum := add64_wraps (x := bumpStart s c.alignment) (y := c.size) (by omega) (by omega)
    rcases earlyPhysAllocPhys_cases s c.size c.alignment with ⟨refused, _⟩ | ⟨_, _, eq⟩
    · rw [sum] at refused
      omega
    · rw [eq] at returns
      obtain ⟨result, _⟩ := Prod.mk.inj returns
      exact .inl ⟨result ▸ nonzero, by omega⟩

/-- What a run of sound calls keeps: its ranges lie between the window's first pointer
    and the present one. -/
structure BumpInv (initial : PhysMem .x86_64) (trace : List (PhysMem .x86_64 × EarlyCall))
    (s : PhysMem .x86_64) :
    Prop where
  window : BumpWindow initial s
  law : BumpLaw initial trace
  moved : initial.earlyAllocPhysPtr ≤ s.earlyAllocPhysPtr
  below : ∀ entry ∈ trace, entry.2.result ≠ 0 → entry.2.result + entry.2.size ≤ s.earlyAllocPhysPtr

theorem BumpInv.start (word : initial.earlyAllocPhysPtr < 2 ^ 64) : BumpInv initial [] initial :=
  ⟨⟨rfl, word⟩, ⟨by simp, by simp, .nil, by simp⟩, le_rfl, by simp⟩

theorem forall_mem_snoc {α : Type} {P : α → Prop} {xs : List α} {x : α} :
    (∀ y ∈ xs ++ [x], P y) ↔ (∀ y ∈ xs, P y) ∧ P x := by
  rw [List.forall_mem_append, List.forall_mem_singleton]

theorem BumpInv.snoc (inv : BumpInv initial trace s) (sound : Sound s c) (taken : BumpStep s c s') :
    BumpInv initial (trace ++ [(s, c)]) s' := by
  have window := inv.window.step taken
  have law := inv.law
  have returns := taken.returns
  have pos := Nat.pos_of_isPowerOfTwo taken.power
  have pairs :
      (trace ++ [(s, c)]).Pairwise (fun c d => c.2.result ≠ 0 → d.2.result ≠ 0 →
        Disjoint c.2.bytes d.2.bytes) ↔
      ∀ entry ∈ trace, entry.2.result ≠ 0 → c.result ≠ 0 → Disjoint entry.2.bytes c.bytes := by
    simp only [List.pairwise_append, law.apart, List.pairwise_singleton, List.mem_singleton,
      forall_eq, true_and]
  rcases sound.cases inv.window.word taken with ⟨null, rfl⟩ | ⟨start, nonzero, room, rfl⟩
  · refine ⟨window, ⟨?_, ?_, ?_, ?_⟩, inv.moved, ?_⟩
    · exact forall_mem_snoc.mpr ⟨law.aligned, fun some => absurd null some⟩
    · exact forall_mem_snoc.mpr ⟨law.inside, fun some => absurd null some⟩
    · exact pairs.mpr fun _ _ _ some => absurd null some
    · refine forall_mem_snoc.mpr ⟨law.refused, fun _ => ?_⟩
      rw [returns]
      exact ⟨rfl, rfl⟩
    · exact forall_mem_snoc.mpr ⟨inv.below, fun some => absurd null some⟩
  · have up : s.earlyAllocPhysPtr ≤ c.result := start ▸ (roundUp_bounds pos).1
    have moved := inv.moved
    refine ⟨window, ⟨?_, ?_, ?_, ?_⟩, ?_, ?_⟩
    · exact forall_mem_snoc.mpr ⟨law.aligned, fun _ => start ▸ dvd_roundUp _ _⟩
    · refine forall_mem_snoc.mpr ⟨law.inside, fun _ => ⟨moved.trans up, ?_⟩⟩
      rw [← inv.window.stop]
      exact room
    · refine pairs.mpr fun entry member some _ => ?_
      have below := inv.below entry member some
      rw [Set.disjoint_left]
      rintro x ⟨_, under⟩ ⟨above, _⟩
      omega
    · exact forall_mem_snoc.mpr ⟨law.refused, fun null => absurd null nonzero⟩
    · dsimp only
      omega
    · refine forall_mem_snoc.mpr ⟨fun entry member some => ?_, fun _ => le_rfl⟩
      have below := inv.below entry member some
      dsimp only
      omega

/-- From every window, a run of early allocations keeps its promises exactly when
    each of its calls is sound. -/
theorem bump_law_iff (initial s : PhysMem .x86_64) (trace : List (PhysMem .x86_64 × EarlyCall))
    (window : initial.earlyAllocPhysPtr ≤ initial.earlyAllocPhysEnd)
    (word : initial.earlyAllocPhysEnd < 2 ^ 64) (run : Run BumpStep initial trace s) :
    BumpLaw initial trace ↔ EveryStep Sound trace := by
  constructor
  · intro law entry member
    have start : BumpWindow initial initial := ⟨rfl, by omega⟩
    have inv :=
      (run.always (fun s c s' inv taken => BumpWindow.step inv taken) start).1 entry member
    obtain ⟨s', taken⟩ := run.taken member
    by_contra unsound
    rcases not_sound unsound inv.word taken with ⟨nonzero, beyond⟩ | ⟨null, moves⟩
    · have inside := (law.inside entry member nonzero).2
      omega
    · exact moves (law.refused entry member null).1
  · intro sound
    have inv : BumpInv initial trace s := by
      induction run with
      | nil => exact .start (by omega)
      | snoc _ taken ih => exact (ih sound.init).snoc sound.final taken
    exact inv.law

/-- A kernel whose early window is `[ptr, stop)`. -/
def windowFrom (ptr stop : Nat) : PhysMem .x86_64 :=
  { bootPhys .x86_64 (fun _ => 0) with earlyAllocPhysPtr := ptr, earlyAllocPhysEnd := stop }

/-- Two ranges are returned, and a third call is refused. -/
theorem bump_law_iff_three : BumpLaw (windowFrom 0x1008 0x1140)
    [(windowFrom 0x1008 0x1140, ⟨16, 128, 0x1080⟩), (windowFrom 0x1090 0x1140, ⟨64, 64, 0x10C0⟩),
      (windowFrom 0x1100 0x1140, ⟨128, 16, 0⟩)] := by
  have aligned : BumpStep (windowFrom 0x1008 0x1140) ⟨16, 128, 0x1080⟩ (windowFrom 0x1090 0x1140) :=
    ⟨by decide, by decide, ⟨7, rfl⟩, rfl⟩
  have behind : BumpStep (windowFrom 0x1090 0x1140) ⟨64, 64, 0x10C0⟩ (windowFrom 0x1100 0x1140) :=
    ⟨by decide, by decide, ⟨6, rfl⟩, rfl⟩
  have refused : BumpStep (windowFrom 0x1100 0x1140) ⟨128, 16, 0⟩ (windowFrom 0x1100 0x1140) :=
    ⟨by decide, by decide, ⟨4, rfl⟩, rfl⟩
  have run := ((Run.single aligned).snoc behind).snoc refused
  refine (bump_law_iff _ _ _ (by decide) (by decide) run).mpr ?_
  exact forall_mem_snoc.mpr
    ⟨forall_mem_snoc.mpr ⟨List.forall_mem_singleton.mpr (by decide), by decide⟩, by decide⟩

/-- A size of 2^64 - 16 passes the bound check from 0x1000 on. -/
theorem not_bump_law :
    ¬ ∀ (initial s : PhysMem .x86_64) (trace : List (PhysMem .x86_64 × EarlyCall)),
    initial.earlyAllocPhysPtr ≤ initial.earlyAllocPhysEnd → initial.earlyAllocPhysEnd < 2 ^ 64 →
    Run BumpStep initial trace s → BumpLaw initial trace := by
  intro always
  have taken : BumpStep (windowFrom 0x1000 0x3000) ⟨2 ^ 64 - 16, 1, 0x1000⟩
      (earlyPhysAllocPhys (windowFrom 0x1000 0x3000) (2 ^ 64 - 16) 1).2 :=
    ⟨by decide, by decide, ⟨0, rfl⟩, Prod.ext (by decide +kernel) rfl⟩
  have law := always _ _ _ (by decide) (by decide) (Run.single taken)
  exact absurd (law.inside _ (List.mem_singleton_self _) (by decide)).2 (by decide)

end AurorOS.Phys
