import AurorOS.Phys.Initialised

/-! # What a walk dereferences

The entries a walk over the memory map meets, as it finds them, and what follows
from them: which pages the freeing pass leaves free, whatever the map has become
by then.
-/

namespace AurorOS.Phys

open ByteMemory

variable {arch : Arch} {σ : Type} {m m' : Mem} {mem : σ → Mem} {body : MmapEntry → σ → ForInStep σ}
  {stop fuel a b : Nat} {acc result : σ}

/-- `cur + e->size + sizeof(e->size)`, the next value of the cursor. -/
def nextEntry (arch : Arch) (m : Mem) (cur : Nat) : Nat :=
  arch.add cur (arch.add (readEntry m cur).size 4)

/-- The cursors at which a walk dereferences an entry, each with the entry found there. -/
def visits (arch : Arch) (stop : Nat) (mem : σ → Mem) (body : MmapEntry → σ → ForInStep σ) :
    Nat → Nat → σ → List (Nat × MmapEntry)
  | 0, _, _ => []
  | fuel + 1, cur, acc =>
      if cur < stop then
        (cur, readEntry (mem acc) cur) ::
          match body (readEntry (mem acc) cur) acc with
          | .done _ => []
          | .yield acc => visits arch stop mem body fuel (nextEntry arch (mem acc) cur) acc
      else []

theorem walkLoop_outside (outside : ¬ a < stop) :
    walkLoop arch stop mem body (fuel + 1) a acc = .ok acc := by
  rw [walkLoop]
  exact if_neg outside

theorem walkLoop_done {next : σ} (inside : a < stop)
    (step : body (readEntry (mem acc) a) acc = .done next) :
    walkLoop arch stop mem body (fuel + 1) a acc = .ok next := by
  simp only [walkLoop, if_pos inside, step]

theorem walkLoop_yield {next : σ} (inside : a < stop)
    (step : body (readEntry (mem acc) a) acc = .yield next) :
    walkLoop arch stop mem body (fuel + 1) a acc =
      walkLoop arch stop mem body fuel (nextEntry arch (mem next) a) next := by
  simp only [walkLoop, if_pos inside, step, nextEntry]

theorem visits_outside (outside : ¬ a < stop) : visits arch stop mem body fuel a acc = [] := by
  cases fuel with
  | zero => rfl
  | succ fuel =>
      rw [visits]
      exact if_neg outside

theorem visits_done {next : σ} (inside : a < stop)
    (step : body (readEntry (mem acc) a) acc = .done next) :
    visits arch stop mem body (fuel + 1) a acc = [(a, readEntry (mem acc) a)] := by
  simp only [visits, if_pos inside, step]

theorem visits_yield {next : σ} (inside : a < stop)
    (step : body (readEntry (mem acc) a) acc = .yield next) :
    visits arch stop mem body (fuel + 1) a acc =
      (a, readEntry (mem acc) a) :: visits arch stop mem body fuel (nextEntry arch (mem next) a)
        next := by
  simp only [visits, if_pos inside, step]

/-- What the freeing pass finds with the bitmap at `b`. -/
def MultibootMap.met (M : MultibootMap arch) (b : Nat) : List MmapEntry :=
  (visits arch (M.mmapAddr + M.mmapLength) PhysMem.mem (freeBody b) arch.wordSize M.mmapAddr
    (layBitmap M.sized b)).map Prod.snd

variable {M : MultibootMap arch} {s s' : PhysMem arch}

theorem freeBody_yield (b : Nat) (e : MmapEntry) (s : PhysMem arch) :
    freeBody b e s = .yield (freeBody b e s).run := rfl

/-- The pages that are free after the pass, by the entries it met. -/
theorem freeWalk_free (placed : M.place = some b) (laid : Laid M b s)
    (ends : walkLoop arch stop PhysMem.mem (freeBody b) fuel a s = .ok s') (k : Nat) :
    pageIsFree s' k = true ↔ pageIsFree s k = true ∨
      (k < M.sized.physTotalPages ∧
        (∃ e ∈ (visits arch stop PhysMem.mem (freeBody b) fuel a s).map Prod.snd, e.Frees arch k) ∧
        ¬ BitmapPage M b k) := by
  induction fuel generalizing a s with
  | zero => cases ends
  | succ fuel ih =>
      by_cases inside : a < stop
      · have step := freeBody_yield b (readEntry s.mem a) s
        rw [walkLoop_yield inside step] at ends
        have rest := ih (laid.trans (freeBody_setup b _ s)) ends
        rw [visits_yield inside step, List.map_cons, List.exists_mem_cons_iff, rest,
          freeBody_free placed laid]
        grind
      · rw [walkLoop_outside inside] at ends
        obtain rfl := Except.ok.inj ends
        rw [visits_outside inside]
        simp

/-- A bitmap that leaves the map untouched: the pass meets the map's own entries. -/
theorem visits_intact {lo : Nat} {es : List MmapEntry} (laid : MmapAt M.mem stop a es)
    (inside : lo ≤ a) (word : stop < arch.wordSize) (enough : es.length ≤ fuel)
    (intact : ∀ s, Laid M b s → AgreeOn M.mem s.mem lo stop) (start : Laid M b s) :
    (visits arch stop PhysMem.mem (freeBody b) fuel a s).map Prod.snd = es := by
  induction es generalizing a fuel s with
  | nil =>
      have done : ¬ a < stop := Nat.not_lt.mpr (Nat.le_of_eq (Eq.symm laid))
      rw [visits_outside done, List.map_nil]
  | cons e es ih =>
      obtain ⟨fuel, rfl⟩ : ∃ n, fuel = n + 1 := by
        simp only [List.length_cons] at enough
        exact ⟨fuel - 1, by omega⟩
      have room := MmapAt.room laid
      obtain ⟨entry, size, rest⟩ := laid
      have ahead := MmapAt.room rest
      simp only [List.length_cons] at enough room
      have reads : ∀ s, Laid M b s → readEntry s.mem a = e := by
        intro s inv
        exact (readEntry_congr ((intact s inv).mono inside (by omega))).trans entry
      have here : a < stop := by omega
      have next := start.trans (freeBody_setup b (readEntry s.mem a) s)
      have jump : nextEntry arch (freeBody b (readEntry s.mem a) s).run.mem a = a + e.size + 4 := by
        rw [nextEntry, reads _ next, Arch.add_eq (a := e.size) (by omega), Arch.add_eq (by omega),
          Nat.add_assoc]
      rw [visits_yield here (freeBody_yield b _ s), List.map_cons, jump,
        ih rest (by omega) (by omega) next, reads s start]

theorem MultibootMap.met_untouched (placed : M.place = some b) (untouched : M.Untouched b) :
    M.met b = M.entries := by
  have room := M.laid.room
  have space := M.inSpace
  exact visits_intact M.laid le_rfl space (by omega) (fun s laid => laid.intact untouched)
    (layBitmap_laid placed)

/-- The free pages after the setup, whether or not the bitmap overlaps the map. -/
theorem init_free (placed : M.place = some b) (ended : M.init = .ok s') : Ready M b s' ∧ ∀ k,
    pageIsFree s' k = true ↔ k < M.sized.physTotalPages ∧ (∃ e ∈ M.met b, e.Frees arch k) ∧
    ¬ BitmapPage M b k := by
  have ready : Ready M b s' := by
    rcases init_cases ended with ⟨none, _⟩ | ⟨b', placed', ready⟩
    · rw [none] at placed
      cases placed
    · obtain rfl := Option.some.inj (placed'.symm.trans placed)
      exact ready
  refine ⟨ready, fun k => ?_⟩
  rw [M.init_eq, placed] at ended
  simp only [MultibootMap.finish] at ended
  cases freed : walkMmap arch M.mmapAddr M.mmapLength PhysMem.mem (freeBody b)
    (layBitmap M.sized b) with
  | error fault =>
      rw [freed] at ended
      cases ended
  | ok s =>
      have pages : pageIsFree s' k = pageIsFree s k := by
        rw [freed] at ended
        cases chosen : walkMmap arch M.mmapAddr M.mmapLength (fun _ => s.mem) (windowBody s b)
          (s.earlyAllocPhysPtr, s.earlyAllocPhysEnd) with
        | error fault =>
            simp only [bind, Except.bind, chosen] at ended
            cases ended
        | ok window =>
            simp only [bind, Except.bind, chosen] at ended
            obtain rfl := Except.ok.inj ended
            rfl
      rw [walkMmap, Arch.add_eq M.inSpace] at freed
      rw [pages, freeWalk_free placed (layBitmap_laid placed) freed, layBitmap_used placed k,
        MultibootMap.met]
      simp only [Bool.false_eq_true, false_or]

end AurorOS.Phys
