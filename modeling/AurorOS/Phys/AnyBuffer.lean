import AurorOS.Lib.Outcome
import AurorOS.Phys.Visits

/-! # Walks over a buffer of any content

The walks trust the buffer: the cursor moves by what an entry says its size is, and
only the start of an entry is compared with the end of the buffer.  Whether they
stay inside and end is a matter of its bytes, which are the same for all of them as
long as the bitmap is not laid over the buffer.
-/

namespace AurorOS.Phys

open ByteMemory Scan

/-- The 24 bytes at `a` are bytes of the buffer. -/
def InBuffer (addr length a : Nat) : Prop := addr ≤ a ∧ a + 24 ≤ addr + length

/-- From the cursor `a` on the buffer holds entries at `addrs`: each lies inside it,
    the size of each leads to the next, and that of the last out of the loop. -/
def EntriesAt (arch : Arch) (m : Mem) (addr length : Nat) : Nat → List Nat → Prop
  | a, [] => ¬ a < arch.add addr length
  | a, x :: xs =>
      x = a ∧ a < arch.add addr length ∧ InBuffer addr length a ∧
        EntriesAt arch m addr length (nextEntry arch m a) xs

section Walks

variable {σ : Type}

/-- The walk ends, and with this result. -/
def Ends (arch : Arch) (addr length : Nat) (mem : σ → Mem) (body : MmapEntry → σ → ForInStep σ)
    (acc result : σ) :
    Prop :=
  ∃ fuel, walkLoop arch (arch.add addr length) mem body fuel addr acc = .ok result

/-- The walk ends, and every entry it dereferences lies inside the buffer. -/
def WalkSafe (arch : Arch) (addr length : Nat) (mem : σ → Mem) (body : MmapEntry → σ → ForInStep σ)
    (acc : σ) : Prop :=
  ∃ fuel, (∃ result, walkLoop arch (arch.add addr length) mem body fuel addr acc = .ok result) ∧
    ∀ v ∈ visits arch (arch.add addr length) mem body fuel addr acc, InBuffer addr length v.1

end Walks

/-- The bitmap's place, after what the scan of the regions found. -/
def placeFrom {arch : Arch} (s : PhysMem arch) : Option Nat → Option Nat
  | some start => some start
  | none =>
      if s.physMemSize > bitmapRoom s then
        some (sub64 (sub64 s.physMemSize s.physBitmapBytes) pmPageSize) else none

/-- The walks one after another, each from the state that the ones before it left. -/
structure PassesSafe {arch : Arch} (s : PhysMem arch) (addr length : Nat) : Prop where
  sizing : WalkSafe arch addr length (fun _ => s.mem) sizeBody 0
  placing : ∀ highest, Ends arch addr length (fun _ => s.mem) sizeBody 0 highest →
    WalkSafe arch addr length (fun _ => s.mem) (placeBody (setMemSize s highest)) none
  freeing : ∀ highest found b, Ends arch addr length (fun _ => s.mem) sizeBody 0 highest →
    Ends arch addr length (fun _ => s.mem) (placeBody (setMemSize s highest)) none found →
    placeFrom (setMemSize s highest) found = some b →
    WalkSafe arch addr length PhysMem.mem (freeBody b) (layBitmap (setMemSize s highest) b)
  choosing : ∀ highest found b s', Ends arch addr length (fun _ => s.mem) sizeBody 0 highest →
    Ends arch addr length (fun _ => s.mem) (placeBody (setMemSize s highest)) none found →
    placeFrom (setMemSize s highest) found = some b →
    Ends arch addr length PhysMem.mem (freeBody b) (layBitmap (setMemSize s highest) b) s' →
    WalkSafe arch addr length (fun _ => s'.mem) (windowBody s' b) (s'.earlyAllocPhysPtr,
      s'.earlyAllocPhysEnd)

/-- `physmem_init_from_multiboot` at boot, with this memory: it returns at once, or
    every walk it makes is safe. -/
def WalksSafe (arch : Arch) (mem : Mem) (addr length : Nat) : Prop :=
  addr = 0 ∨ length = 0 ∨ PassesSafe (bootPhys arch mem) addr length

/-- Memory as sized by these entries, and the place they give the bitmap. -/
def sizedBy (arch : Arch) (mem : Mem) (es : List MmapEntry) : PhysMem arch :=
  setMemSize (bootPhys arch mem) (highestEnd es)

def placeIn {arch : Arch} (s : PhysMem arch) (es : List MmapEntry) : Option Nat :=
  placeFrom s ((es.find? fun e => HasRoom s e).map (·.regionStart arch))

/-- The bitmap at `b` has a byte in the buffer. -/
def Overlaps {arch : Arch} (s : PhysMem arch) (addr length b : Nat) : Prop :=
  ∃ x, b ≤ x ∧ x < b + s.physBitmapBytes ∧ addr ≤ x ∧ x < addr + length

/-- The two passes behind the laying of the bitmap still find entries that fit. -/
structure RereadsFit {arch : Arch} (s : PhysMem arch) (addr length b : Nat) : Prop where
  freeing : WalkSafe arch addr length PhysMem.mem (freeBody b) (layBitmap s b)
  choosing : ∀ s', Ends arch addr length PhysMem.mem (freeBody b) (layBitmap s b) s' →
    WalkSafe arch addr length (fun _ => s'.mem) (windowBody s' b) (s'.earlyAllocPhysPtr,
      s'.earlyAllocPhysEnd)

variable {arch : Arch} {σ : Type} {m : Mem} {mem : σ → Mem} {body : MmapEntry → σ → ForInStep σ}
  {addr length fuel a b : Nat} {addrs : List Nat} {acc result other : σ}

theorem walkLoop_more {stop more : Nat} (ends : walkLoop arch stop mem body fuel a acc = .ok result)
    (enough : fuel ≤ more) : walkLoop arch stop mem body more a acc = .ok result := by
  induction fuel generalizing a acc more with
  | zero => cases ends
  | succ fuel ih =>
      obtain ⟨more, rfl⟩ : ∃ n, more = n + 1 := ⟨more - 1, by omega⟩
      by_cases inside : a < stop
      · cases step : body (readEntry (mem acc) a) acc with
        | done next =>
            rw [walkLoop_done inside step] at ends ⊢
            exact ends
        | yield next =>
            rw [walkLoop_yield inside step] at ends ⊢
            exact ih ends (by omega)
      · rw [walkLoop_outside inside] at ends ⊢
        exact ends

theorem Ends.unique (first : Ends arch addr length mem body acc result)
    (second : Ends arch addr length mem body acc other) : result = other := by
  obtain ⟨n, first⟩ := first
  obtain ⟨k, second⟩ := second
  have longFirst := walkLoop_more first (Nat.le_max_left n k)
  have longSecond := walkLoop_more second (Nat.le_max_right n k)
  exact Except.ok.inj (longFirst.symm.trans longSecond)

/-- Bytes of the buffer as they were: each cursor finds the entry that was there. -/
theorem nextEntry_congr {m' : Mem} (intact : AgreeOn m m' addr (addr + length))
    (inside : InBuffer addr length a) :
    readEntry m' a = readEntry m a ∧ nextEntry arch m' a = nextEntry arch m a := by
  have entry := readEntry_congr (intact.mono inside.1 inside.2)
  exact ⟨entry, by rw [nextEntry, nextEntry, entry]⟩

/-- Over entries that fit, a walk that leaves the buffer intact is a scan of them
    and dereferences no other. -/
theorem EntriesAt.scan {I : σ → Prop} (fits : EntriesAt arch m addr length a addrs)
    (keeps : ∀ e acc, I acc → I (body e acc).run)
    (intact : ∀ acc, I acc → AgreeOn m (mem acc) addr (addr + length)) (start : I acc) :
    walkLoop arch (arch.add addr length) mem body (addrs.length + 1) a acc =
        .ok (scan body (addrs.map (readEntry m)) acc) ∧
      ∀ v ∈ visits arch (arch.add addr length) mem body (addrs.length + 1) a acc,
      InBuffer addr length v.1 := by
  induction addrs generalizing a acc with
  | nil => exact ⟨walkLoop_outside fits, by rw [visits_outside fits]; simp⟩
  | cons x xs ih =>
      obtain ⟨rfl, inside, inBuffer, rest⟩ := fits
      have entry := readEntry_congr ((intact acc start).mono inBuffer.1 inBuffer.2)
      have inv := keeps (readEntry (mem acc) x) acc start
      rw [List.length_cons, List.map_cons, Scan.scan, ← entry]
      cases step : body (readEntry (mem acc) x) acc with
      | done next =>
          rw [walkLoop_done inside step, visits_done inside step]
          refine ⟨rfl, ?_⟩
          intro v member
          rw [List.mem_singleton.mp member]
          exact inBuffer
      | yield next =>
          rw [step] at inv
          have jump : nextEntry arch (mem next) x = nextEntry arch m x :=
            (nextEntry_congr (intact next inv) inBuffer).2
          rw [walkLoop_yield inside step, visits_yield inside step, jump]
          obtain ⟨ends, inner⟩ := ih rest inv
          refine ⟨ends, ?_⟩
          intro v member
          rcases List.mem_cons.mp member with rfl | later
          · exact inBuffer
          · exact inner v later

theorem EntriesAt.walkSafe {I : σ → Prop} (fits : EntriesAt arch m addr length addr addrs)
    (keeps : ∀ e acc, I acc → I (body e acc).run)
    (intact : ∀ acc, I acc → AgreeOn m (mem acc) addr (addr + length)) (start : I acc) :
    WalkSafe arch addr length mem body acc ∧
      Ends arch addr length mem body acc (Scan.scan body (addrs.map (readEntry m)) acc) := by
  obtain ⟨ends, inner⟩ := fits.scan keeps intact start
  exact ⟨⟨_, ⟨_, ends⟩, inner⟩, ⟨_, ends⟩⟩

/-- A walk that only reads. -/
theorem EntriesAt.reads (fits : EntriesAt arch m addr length addr addrs)
    (body : MmapEntry → σ → ForInStep σ) (acc : σ) :
    WalkSafe arch addr length (fun _ => m) body acc ∧
      Ends arch addr length (fun _ => m) body acc (Scan.scan body (addrs.map (readEntry m)) acc) :=
  fits.walkSafe (I := fun _ => True) (fun _ _ _ => trivial) (fun _ _ => AgreeOn.refl _ _ _) trivial

/-- A walk that only reads and never breaks is safe over entries that fit alone. -/
theorem entriesAt_of_walk {f : MmapEntry → σ → σ}
    (ends : walkLoop arch (arch.add addr length) (fun _ => m) (fun e acc => .yield (f e acc)) fuel a
      acc = .ok result)
    (inner : ∀ v ∈ visits arch (arch.add addr length) (fun _ => m) (fun e acc => .yield (f e acc))
      fuel a acc, InBuffer addr length v.1) :
    ∃ addrs, EntriesAt arch m addr length a addrs := by
  induction fuel generalizing a acc with
  | zero => cases ends
  | succ fuel ih =>
      by_cases inside : a < arch.add addr length
      · have step : (fun e acc => ForInStep.yield (f e acc)) (readEntry m a) acc =
            .yield (f (readEntry m a) acc) := rfl
        rw [walkLoop_yield inside step] at ends
        rw [visits_yield inside step] at inner
        obtain ⟨addrs, rest⟩ := ih ends fun v member => inner v (List.mem_cons_of_mem _ member)
        exact ⟨a :: addrs, rfl, inside, inner _ List.mem_cons_self, rest⟩
      · exact ⟨[], inside⟩

theorem entriesAt_of_sizing (safe : WalkSafe arch addr length (fun _ => m) sizeBody 0) :
    ∃ addrs, EntriesAt arch m addr length addr addrs := by
  obtain ⟨fuel, ⟨result, ends⟩, inner⟩ := safe
  exact entriesAt_of_walk
    (f := fun e highest => if e.stop > highest then e.stop else highest) ends inner

section Passes

variable (fits : EntriesAt arch m addr length addr addrs)

include fits

theorem sizing_ends :
    Ends arch addr length (fun _ => m) sizeBody 0 (highestEnd (addrs.map (readEntry m))) := by
  have fold := scan_yield (fun e highest => if e.stop > highest then e.stop else highest)
    (addrs.map (readEntry m)) 0
  have ends := (fits.reads sizeBody 0).2
  have scanned : scan sizeBody (addrs.map (readEntry m)) 0 = highestEnd (addrs.map (readEntry m)) :=
    fold
  rwa [scanned] at ends

theorem placing_ends (s : PhysMem arch) : Ends arch addr length (fun _ => m) (placeBody s) none
    (((addrs.map (readEntry m)).find? fun e => HasRoom s e).map (·.regionStart arch)) := by
  have ends := (fits.reads (placeBody s) none).2
  have scanned : scan (placeBody s) (addrs.map (readEntry m)) none =
      ((addrs.map (readEntry m)).find? fun e => HasRoom s e).map (·.regionStart arch) :=
    scan_find (HasRoom s) (·.regionStart arch) _
  rwa [scanned] at ends

end Passes

/-- What the bitmap leaves alone while it is laid and while pages are freed. -/
theorem layBitmap_outside {s : PhysMem arch} (word : b < arch.wordSize)
    (bytes : s.physBitmapBytes = (s.physTotalPages + 7) / 8) {s' : PhysMem arch}
    (setup : SameSetup (layBitmap s b) s') {x : Nat} (outside : x < b ∨ b + s.physBitmapBytes ≤ x) :
    s'.mem x = s.mem x := by
  have blank : (blankBitmap s b).mem x = s.mem x := by
    simp only [blankBitmap, fillLoop_eq]
    exact if_neg (by omega)
  have laid : SameSetup (blankBitmap s b) (layBitmap s b) := by
    have base : b % arch.wordSize = b := Nat.mod_eq_of_lt word
    simp only [layBitmap, base]
    exact markLoop_setup _ _ _ _
  have frame : x < b ∨ b + (s.physTotalPages + 7) / 8 ≤ x := by omega
  rw [(laid.trans setup).frame x frame, blank]

theorem setMemSize_bytes (s : PhysMem arch) (highest : Nat) :
    (setMemSize s highest).physBitmapBytes = ((setMemSize s highest).physTotalPages + 7) / 8 := by
  have fit := (setMemSize s highest).pagesFit
  simp only [pmPageSize] at fit
  change ((setMemSize s highest).physTotalPages + 7) / 8 % arch.wordSize = _
  exact Nat.mod_eq_of_lt (by have := arch.le_wordSize; omega)

/-- A place for the bitmap is an address of the build. -/
theorem placeIn_lt {s : PhysMem arch} {highest : Nat} {es : List MmapEntry}
    (placed : placeIn (setMemSize s highest) es = some b) : b < arch.wordSize := by
  have size : (setMemSize s highest).physMemSize < arch.wordSize := roundUpToPage_lt arch highest
  have bytes := setMemSize_bytes s highest
  have fit := (setMemSize s highest).pagesFit
  have top := arch.wordSize_le
  have small := arch.le_wordSize
  generalize setMemSize s highest = sized at size bytes fit placed
  simp only [pmPageSize] at fit
  rw [placeIn] at placed
  cases found : es.find? fun e => HasRoom sized e with
  | some e =>
      rw [found] at placed
      obtain rfl := Option.some.inj placed
      exact roundUpToPage_lt arch e.addr
  | none =>
      rw [found] at placed
      simp only [Option.map_none, placeFrom] at placed
      have room : bitmapRoom sized = sized.physBitmapBytes + pmPageSize := by
        refine Arch.add_eq ?_
        simp only [pmPageSize]
        omega
      rw [room] at placed
      split at placed
      · obtain rfl := Option.some.inj placed
        rw [sub64_eq (a := sized.physMemSize) (by omega) (by omega), sub64_eq (by omega) (by omega)]
        omega
      · cases placed

section Fitting

variable {mem : Mem} (fits : EntriesAt arch mem addr length addr addrs)

include fits

/-- Where the buffer's entries put the bitmap is where the setup puts it. -/
theorem placed_iff {highest : Nat} {found : Option Nat}
    (sizing : Ends arch addr length (fun _ => mem) sizeBody 0 highest)
    (placing : Ends arch addr length (fun _ => mem)
      (placeBody (setMemSize (bootPhys arch mem) highest)) none found) :
    setMemSize (bootPhys arch mem) highest = sizedBy arch mem (addrs.map (readEntry mem)) ∧
      placeFrom (setMemSize (bootPhys arch mem) highest) found =
        placeIn (sizedBy arch mem (addrs.map (readEntry mem))) (addrs.map (readEntry mem)) := by
  obtain rfl := sizing.unique (sizing_ends fits)
  obtain rfl := placing.unique (placing_ends fits _)
  exact ⟨rfl, rfl⟩

/-- A bitmap laid elsewhere leaves both later passes the entries as they were. -/
theorem rereadsFit_of_apart (s : PhysMem arch) (same : s.mem = mem) (word : b < arch.wordSize)
    (bytes : s.physBitmapBytes = (s.physTotalPages + 7) / 8) (apart : ¬ Overlaps s addr length b) :
    RereadsFit s addr length b := by
  have intact : ∀ t, SameSetup (layBitmap s b) t → AgreeOn mem t.mem addr (addr + length) := by
    intro t setup x above below
    have outside : x < b ∨ b + s.physBitmapBytes ≤ x := by
      by_contra inside
      exact apart ⟨x, by omega, by omega, above, below⟩
    rw [layBitmap_outside word bytes setup outside, same]
  have keeps : ∀ e t, SameSetup (layBitmap s b) t →
      SameSetup (layBitmap s b) (freeBody b e t).run :=
    fun e t setup => setup.trans (freeBody_setup b e t)
  obtain ⟨safe, ends⟩ := fits.walkSafe keeps intact (SameSetup.refl _)
  refine ⟨safe, ?_⟩
  intro s' freed
  obtain rfl := freed.unique ends
  have setup : SameSetup (layBitmap s b)
      (scan (freeBody b) (addrs.map (readEntry mem)) (layBitmap s b)) :=
    scan_invariant (fun e _ t => keeps e t) (SameSetup.refl _)
  exact (fits.walkSafe (I := fun _ => True) (fun _ _ _ => trivial) (fun _ _ => intact _ setup)
    trivial).1

end Fitting

/-- The walks of a setup are safe exactly when the entries of the buffer fit and, if
    the bitmap is laid over it, the entries found there by the two later passes do. -/
theorem walks_safe_iff (arch : Arch) (mem : Mem) (addr length : Nat) :
    WalksSafe arch mem addr length ↔ addr = 0 ∨
      ∃ addrs, EntriesAt arch mem addr length addr addrs ∧
        ∀ b, placeIn (sizedBy arch mem (addrs.map (readEntry mem))) (addrs.map (readEntry mem)) =
        some b → Overlaps (sizedBy arch mem (addrs.map (readEntry mem))) addr length b →
          RereadsFit (sizedBy arch mem (addrs.map (readEntry mem))) addr length b := by
  constructor
  · rintro (null | empty | safe)
    · exact .inl null
    · refine .inr ⟨[], ?_, ?_⟩
      · subst empty
        exact Nat.not_lt.mpr (Nat.mod_le addr arch.wordSize)
      · intro b placed ⟨x, _, _, above, below⟩
        omega
    · obtain ⟨addrs, fits⟩ := entriesAt_of_sizing safe.sizing
      refine .inr ⟨addrs, fits, fun b placed _ => ?_⟩
      have sizing := sizing_ends fits
      have placing := placing_ends fits (sizedBy arch mem (addrs.map (readEntry mem)))
      exact ⟨safe.freeing _ _ b sizing placing placed,
        fun s' freed => safe.choosing _ _ b s' sizing placing placed freed⟩
  · rintro (null | ⟨addrs, fits, overlapping⟩)
    · exact .inl null
    · have reread : ∀ b, placeIn (sizedBy arch mem (addrs.map (readEntry mem)))
          (addrs.map (readEntry mem)) = some b →
          RereadsFit (sizedBy arch mem (addrs.map (readEntry mem))) addr length b := by
        intro b placed
        by_cases overlap : Overlaps (sizedBy arch mem (addrs.map (readEntry mem))) addr length b
        · exact overlapping b placed overlap
        · exact rereadsFit_of_apart fits _ rfl (placeIn_lt placed) (setMemSize_bytes _ _) overlap
      refine .inr (.inr ⟨(fits.reads sizeBody 0).1, fun highest _ => (fits.reads _ none).1, ?_, ?_⟩)
      · intro highest found b sizing placing placed
        obtain ⟨sized, same⟩ := placed_iff fits sizing placing
        rw [sized]
        exact (reread b (same ▸ placed)).freeing
      · intro highest found b s' sizing placing placed freed
        obtain ⟨sized, same⟩ := placed_iff fits sizing placing
        rw [sized] at freed
        exact (reread b (same ▸ placed)).choosing s' freed

theorem not_walksSafe (present : addr ≠ 0) (nonempty : length ≠ 0) {mem : Mem}
    (none : ∀ addrs, ¬ EntriesAt arch mem addr length addr addrs) :
    ¬ WalksSafe arch mem addr length := by
  rintro (null | empty | safe)
  · exact present null
  · exact nonempty empty
  · obtain ⟨addrs, fits⟩ := entriesAt_of_sizing safe.sizing
    exact none addrs fits

/-- An entry of size 0xfffffffc on x86 leads back to itself; and on x86_64 a whole
    entry is read from a buffer of four bytes. -/
theorem not_walks_safe :
    ¬ WalksSafe .x86 (store (fun _ => 0) 0x500 4 0xfffffffc) 0x500 24 ∧
    ¬ WalksSafe .x86_64 (fun _ => 0) 0x500 4 := by
  constructor
  · refine not_walksSafe (by decide) (by decide) fun addrs fits => ?_
    have back : nextEntry .x86 (store (fun _ => 0) 0x500 4 0xfffffffc) 0x500 = 0x500 := by decide
    induction addrs with
    | nil => exact fits (by decide)
    | cons x xs ih =>
        obtain ⟨_, _, _, rest⟩ := fits
        exact ih (back ▸ rest)
  · refine not_walksSafe (by decide) (by decide) fun addrs fits => ?_
    cases addrs with
    | nil => exact fits (by decide)
    | cons x xs =>
        obtain ⟨_, _, ⟨_, inside⟩, _⟩ := fits
        exact absurd inside (by decide)

end AurorOS.Phys
