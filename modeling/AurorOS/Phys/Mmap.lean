import AurorOS.Lib.Scan
import AurorOS.Phys.Boot

/-! # Memory maps and walks over them

A memory map is a buffer filled by entries, one right after another.  A walk whose
body leaves the buffer intact is a scan of these entries.  On x86_64 every walk
ends, even over a buffer that has been overwritten.
-/

namespace AurorOS.Phys

open ByteMemory Scan

/-- The entries `es` fill memory from `a` to `stop`. -/
def MmapAt (m : Mem) (stop : Nat) : Nat → List MmapEntry → Prop
  | a, [] => a = stop
  | a, e :: es => readEntry m a = e ∧ 20 ≤ e.size ∧ MmapAt m stop (a + e.size + 4) es

instance (m : Mem) (stop : Nat) : ∀ a es, Decidable (MmapAt m stop a es)
  | a, [] => inferInstanceAs (Decidable (a = stop))
  | a, e :: es =>
      have := instDecidableMmapAt m stop (a + e.size + 4) es
      inferInstanceAs (Decidable (readEntry m a = e ∧ 20 ≤ e.size ∧
        MmapAt m stop (a + e.size + 4) es))

/-- A memory map as the boot loader leaves it in memory.  Address and length are
    `uint32_t` values, and the buffer ends within the address space. -/
structure MultibootMap (arch : Arch) where
  mem : Mem
  mmapAddr : Nat
  mmapLength : Nat
  entries : List MmapEntry
  addrPos : 0 < mmapAddr
  addrWord : mmapAddr < 2 ^ 32
  lengthWord : mmapLength < 2 ^ 32
  inSpace : mmapAddr + mmapLength < arch.wordSize
  laid : MmapAt mem (mmapAddr + mmapLength) mmapAddr entries

variable {arch : Arch} {σ : Type} {m m' : Mem} {stop a lo : Nat} {es : List MmapEntry}
  {e : MmapEntry}

theorem readEntry_congr (same : AgreeOn m m' a (a + 24)) : readEntry m' a = readEntry m a := by
  have size := load_congr (same.mono le_rfl (by omega) : AgreeOn m m' a (a + 4))
  have addr := load_congr (same.mono (by omega) (by omega) : AgreeOn m m' (a + 4) (a + 4 + 8))
  have len := load_congr (same.mono (by omega) (by omega) : AgreeOn m m' (a + 12) (a + 12 + 8))
  have type := load_congr (same.mono (by omega) (by omega) : AgreeOn m m' (a + 20) (a + 20 + 4))
  simp only [readEntry, size, addr, len, type]

/-- Every entry takes 24 bytes or more of the buffer. -/
theorem MmapAt.room (laid : MmapAt m stop a es) : a + 24 * es.length ≤ stop := by
  induction es generalizing a with
  | nil => exact Nat.le_of_eq laid
  | cons e es ih =>
      obtain ⟨_, size, rest⟩ := laid
      have := ih rest
      simp only [List.length_cons]
      omega

/-- A walk whose accumulators keep the map intact is a scan of its entries. -/
theorem walkLoop_scan {mem : σ → Mem} {body : MmapEntry → σ → ForInStep σ} {I : σ → Prop}
    {fuel : Nat} {acc : σ} (laid : MmapAt m stop a es) (inside : lo ≤ a)
    (word : stop < arch.wordSize) (enough : es.length < fuel)
    (keeps : ∀ e acc, I acc → I (body e acc).run)
    (intact : ∀ acc, I acc → AgreeOn m (mem acc) lo stop) (start : I acc) :
    walkLoop arch stop mem body fuel a acc = .ok (scan body es acc) := by
  induction es generalizing a fuel acc with
  | nil =>
      obtain ⟨fuel, rfl⟩ : ∃ n, fuel = n + 1 := ⟨fuel - 1, by omega⟩
      have done : ¬ a < stop := Nat.not_lt.mpr (Nat.le_of_eq (Eq.symm laid))
      simp only [walkLoop, if_neg done, scan]
  | cons e es ih =>
      obtain ⟨fuel, rfl⟩ : ∃ n, fuel = n + 1 := ⟨fuel - 1, by omega⟩
      have room := MmapAt.room laid
      obtain ⟨entry, size, rest⟩ := laid
      have ahead := MmapAt.room rest
      simp only [List.length_cons] at enough room
      have reads : ∀ acc, I acc → readEntry (mem acc) a = e := by
        intro acc inv
        exact (readEntry_congr ((intact acc inv).mono inside (by omega))).trans entry
      have inv := keeps e acc start
      simp only [walkLoop, if_pos (show a < stop by omega), reads acc start, scan]
      cases step : body e acc with
      | done next => rfl
      | yield next =>
          rw [step] at inv
          have jump : arch.add a (arch.add e.size 4) = a + e.size + 4 := by
            rw [Arch.add_eq (a := e.size) (by omega), Arch.add_eq (by omega), Nat.add_assoc]
          simp only [reads next inv, jump]
          exact ih rest (by omega) (by omega) inv

namespace MultibootMap

variable (M : MultibootMap arch)

theorem walk_scan (mem : σ → Mem) {body : MmapEntry → σ → ForInStep σ} {acc : σ} (I : σ → Prop)
    (keeps : ∀ e acc, I acc → I (body e acc).run)
    (intact : ∀ acc, I acc → AgreeOn M.mem (mem acc) M.mmapAddr (M.mmapAddr + M.mmapLength))
    (start : I acc) :
    walkMmap arch M.mmapAddr M.mmapLength mem body acc = .ok (scan body M.entries acc) := by
  have room := M.laid.room
  have space := M.inSpace
  rw [walkMmap, Arch.add_eq space]
  exact walkLoop_scan M.laid le_rfl space (by omega) keeps intact start

/-- A walk that only reads. -/
theorem walk_reads (body : MmapEntry → σ → ForInStep σ) (acc : σ) :
    walkMmap arch M.mmapAddr M.mmapLength (fun _ => M.mem) body acc =
    .ok (scan body M.entries acc) :=
  M.walk_scan _ (fun _ => True) (fun _ _ _ => trivial) (fun _ _ => AgreeOn.refl _ _ _) trivial

end MultibootMap

/-- What the body keeps holds at the end of every walk that ends. -/
theorem walkLoop_invariant {mem : σ → Mem} {body : MmapEntry → σ → ForInStep σ} {I : σ → Prop}
    {fuel : Nat} {acc result : σ} (keeps : ∀ e acc, I acc → I (body e acc).run) (start : I acc)
    (ends : walkLoop arch stop mem body fuel a acc = .ok result) : I result := by
  induction fuel generalizing a acc with
  | zero => cases ends
  | succ fuel ih =>
      rw [walkLoop] at ends
      split at ends
      · have inv := keeps (readEntry (mem acc) a) acc start
        cases step : body (readEntry (mem acc) a) acc with
        | done next =>
            rw [step] at ends inv
            obtain rfl := Except.ok.inj ends
            exact inv
        | yield next =>
            rw [step] at ends inv
            exact ih inv ends
      · obtain rfl := Except.ok.inj ends
        exact start

theorem readEntry_size_lt (m : Mem) (a : Nat) : (readEntry m a).size < 2 ^ 32 := load_lt m a 4

/-- On x86_64 the buffer lies low, so that the cursor only moves up and passes its
    end whatever sizes are read. -/
theorem walkLoop_ends {mem : σ → Mem} {body : MmapEntry → σ → ForInStep σ} {fuel : Nat} {acc : σ}
    (low : stop < 2 ^ 34) (enough : stop - a < fuel) :
    ∃ result, walkLoop .x86_64 stop mem body fuel a acc = .ok result := by
  induction fuel generalizing a acc with
  | zero => omega
  | succ fuel ih =>
      rw [walkLoop]
      by_cases inside : a < stop
      · rw [if_pos inside]
        cases step : body (readEntry (mem acc) a) acc with
        | done next => exact ⟨next, rfl⟩
        | yield next =>
            have size := readEntry_size_lt (mem next) a
            have word : Arch.x86_64.wordSize = 2 ^ 64 := rfl
            have jump : Arch.x86_64.add a (Arch.x86_64.add (readEntry (mem next) a).size 4) =
                a + (readEntry (mem next) a).size + 4 := by
              rw [Arch.add_eq (a := (readEntry (mem next) a).size) (by omega),
                Arch.add_eq (by omega), Nat.add_assoc]
            simp only [jump]
            exact ih (by omega)
      · exact ⟨acc, if_neg inside⟩

theorem MultibootMap.walk_ends (M : MultibootMap .x86_64) (mem : σ → Mem)
    (body : MmapEntry → σ → ForInStep σ) (acc : σ) :
    ∃ result, walkMmap .x86_64 M.mmapAddr M.mmapLength mem body acc = .ok result := by
  have addr := M.addrWord
  have length := M.lengthWord
  have word : Arch.x86_64.wordSize = 2 ^ 64 := rfl
  rw [walkMmap, Arch.add_eq M.inSpace]
  exact walkLoop_ends (by omega) (by omega)

/-- Its only entry, at 0x500. -/
def regionMem (addr len : Nat) : Mem :=
  store (store (store (store (fun _ => 0) 0x500 4 20) 0x504 8 addr) 0x50c 8 len) 0x514 4 1

theorem readEntry_regionMem (addr len : Nat) :
    readEntry (regionMem addr len) 0x500 = ⟨20, addr % 2 ^ 64, len % 2 ^ 64, 1⟩ := by
  simp only [readEntry, regionMem, Nat.reduceAdd]
  simp (disch := decide) only [load_store_disjoint, load_store_same]
  rfl

def regionMap (arch : Arch) (addr len : Nat) : MultibootMap arch where
  mem := regionMem addr len
  mmapAddr := 0x500
  mmapLength := 24
  entries := [⟨20, addr % 2 ^ 64, len % 2 ^ 64, 1⟩]
  addrPos := by decide
  addrWord := by decide
  lengthWord := by decide
  inSpace := by cases arch <;> decide
  laid := ⟨readEntry_regionMem addr len, le_rfl, rfl⟩

end AurorOS.Phys
