import AurorOS.Shell.Effects
import Mathlib.Data.FinEnum

/-! # Symbolic modes

The letters of a mode make a mask of three bits, which `chmod` sets or clears in the
lowest class, that of the others.
-/

namespace AurorOS.Shell

open Fs Devices Program

/-- The bits that the letters name. -/
def listedBits (letters : CStr) : UInt16 := letters.foldl (fun bits c => bits ||| modeMask c) 0

/-- A class with the listed bits set, for `+`, or cleared, for `-`. -/
def changedClass (op : UInt8) (listed perms : UInt16) : UInt16 :=
  if op = 43 then perms ||| listed else perms &&& ~~~listed

/-- The listed bits are in a class already, for `+`, or none of them is, for `-`. -/
def Settled (op : UInt8) (listed perms : UInt16) : Prop :=
  if op = 43 then listed &&& ~~~perms = 0 else perms &&& listed = 0

variable {op : UInt8} {letters : CStr} {perms mask : UInt16} {k : UInt16}

theorem complement_or (a b : UInt16) : ~~~(a ||| b) = ~~~a &&& ~~~b := by
  rw [← UInt16.toBitVec_inj]
  simp [BitVec.not_or]

/-- Setting bits changes nothing if they are set. -/
theorem eq_or_iff (c m : UInt16) : c = c ||| m ↔ m &&& ~~~c = 0 := by
  simp only [← UInt16.toBitVec_inj, UInt16.toBitVec_or, UInt16.toBitVec_and, UInt16.toBitVec_not,
    UInt16.toBitVec_zero]
  constructor
  · intro same
    rw [same]
    ext i inside
    simp
    grind
  · intro none
    ext i inside
    have bit := congrArg (fun b => b.getLsbD i) none
    simp at bit
    grind

/-- Clearing bits changes nothing if none is set. -/
theorem eq_and_not_iff (c m : UInt16) : c = c &&& ~~~m ↔ c &&& m = 0 := by
  simp only [← UInt16.toBitVec_inj, UInt16.toBitVec_and, UInt16.toBitVec_not, UInt16.toBitVec_zero]
  constructor
  · intro same
    rw [same]
    ext i inside
    simp
  · intro none
    ext i inside
    have bit := congrArg (fun b => b.getLsbD i) none
    simp at bit
    grind

/-- A mask of the three lowest bits. -/
def Three (mask : UInt16) : Prop := mask &&& 7 = mask

/-- There are eight of them. -/
theorem three_cases (three : Three mask) : ∃ n < 8, mask = UInt16.ofNat n := by
  refine ⟨mask.toNat, ?_, (UInt16.ofNat_toNat).symm⟩
  rw [← three, UInt16.toNat_and]
  exact Nat.and_lt_two_pow _ (by decide : (7 : UInt16).toNat < 2 ^ 3)

theorem three_or {a b : UInt16} (first : Three a) (second : Three b) : Three (a ||| b) := by
  obtain ⟨n, small, rfl⟩ := three_cases first
  obtain ⟨k, small', rfl⟩ := three_cases second
  have all : ∀ n < 8, ∀ k < 8, (UInt16.ofNat n ||| UInt16.ofNat k) &&& 7 =
      UInt16.ofNat n ||| UInt16.ofNat k := by
    decide
  exact all n small k small'

theorem three_modeMask (c : UInt8) : Three (modeMask c) := by
  unfold modeMask
  split
  · exact rfl
  split
  · exact rfl
  split
  · exact rfl
  · exact rfl

theorem three_foldl (letters : CStr) (three : Three mask) :
    Three (letters.foldl (fun bits c => bits ||| modeMask c) mask) := by
  induction letters generalizing mask with
  | nil => exact three
  | cons c rest ih => exact ih (three_or three (three_modeMask c))

theorem three_listedBits (letters : CStr) : Three (listedBits letters) := three_foldl letters rfl

/-- Setting bit after bit sets the listed ones. -/
theorem foldl_or (letters : CStr) (perms bits : UInt16) :
    letters.foldl (fun perms c => perms ||| modeMask c) (perms ||| bits) =
      perms ||| letters.foldl (fun bits c => bits ||| modeMask c) bits := by
  induction letters generalizing bits with
  | nil => rfl
  | cons c rest ih => rw [List.foldl_cons, List.foldl_cons, UInt16.or_assoc, ih]

theorem foldl_and_not (letters : CStr) (perms bits : UInt16) :
    letters.foldl (fun perms c => perms &&& ~~~modeMask c) (perms &&& ~~~bits) =
      perms &&& ~~~letters.foldl (fun bits c => bits ||| modeMask c) bits := by
  induction letters generalizing bits with
  | nil => rfl
  | cons c rest ih => rw [List.foldl_cons, List.foldl_cons, UInt16.and_assoc, ← complement_or, ih]

/-- The word that `chmod` stores. -/
theorem changedPermissions_symbolic (symbolic : op = 43 ∨ op = 45) (letters : CStr)
    (perms : UInt16) :
    changedPermissions (op :: letters) perms = changedClass op (listedBits letters) perms := by
  rcases symbolic with rfl | rfl
  · have set := foldl_or letters perms 0
    rw [UInt16.or_zero] at set
    exact set
  · have cleared := foldl_and_not letters perms 0
    have none : perms &&& ~~~0 = perms := by simp
    rw [none] at cleared
    exact cleared

/-- The classes of the owner and of the group are out of reach of the masks. -/
theorem shifted_class (three : Three mask) (shift : k = 6 ∨ k = 3) (op : UInt8) (perms : UInt16) :
    (changedClass op mask perms >>> k) &&& 7 = (perms >>> k) &&& 7 := by
  obtain ⟨n, small, rfl⟩ := three_cases three
  have all : ∀ n < 8, UInt16.ofNat n >>> 6 = 0 ∧ UInt16.ofNat n >>> 3 = 0 ∧
      (~~~UInt16.ofNat n >>> 6) &&& 7 = 7 ∧ (~~~UInt16.ofNat n >>> 3) &&& 7 = 7 := by decide
  obtain ⟨zero₆, zero₃, ones₆, ones₃⟩ := all n small
  have parts : UInt16.ofNat n >>> k = 0 ∧ (~~~UInt16.ofNat n >>> k) &&& 7 = 7 := by
    rcases shift with rfl | rfl
    · exact ⟨zero₆, ones₆⟩
    · exact ⟨zero₃, ones₃⟩
  obtain ⟨zero, ones⟩ := parts
  rw [changedClass]
  split
  · rw [UInt16.shiftRight_or, zero, UInt16.or_zero]
  · rw [UInt16.shiftRight_and, UInt16.and_assoc, ones]

/-- The class of the others is changed as it should be. -/
theorem lowest_class (three : Three mask) (op : UInt8) (perms : UInt16) :
    changedClass op mask perms &&& 7 = changedClass op mask (perms &&& 7) := by
  rw [changedClass, changedClass]
  split
  · rw [Three] at three
    rw [← UInt16.toBitVec_inj] at three ⊢
    simp at three ⊢
    grind
  · rw [UInt16.and_assoc, UInt16.and_comm _ 7, ← UInt16.and_assoc]

/-- A class that is left alone is right if it was settled. -/
theorem eq_changedClass_iff (op : UInt8) (listed perms : UInt16) :
    perms = changedClass op listed perms ↔ Settled op listed perms := by
  rw [changedClass, Settled]
  split
  · exact eq_or_iff perms listed
  · exact eq_and_not_iff perms listed

/-- All three classes are right if and only if those of the owner and of the group were settled. -/
theorem classes_iff (three : Three mask) (op : UInt8) (perms : UInt16) :
    (∀ isOwner inGroup, getPerms isOwner inGroup (changedClass op mask perms) =
        changedClass op mask (getPerms isOwner inGroup perms)) ↔
      Settled op mask (getPerms true true perms) ∧ Settled op mask (getPerms false true perms) := by
  have owner := shifted_class three (.inl rfl) op perms
  have group := shifted_class three (.inr rfl) op perms
  rw [← eq_changedClass_iff, ← eq_changedClass_iff]
  constructor
  · intro each
    exact ⟨owner.symm.trans (each true true), group.symm.trans (each false true)⟩
  · rintro ⟨settled, settled'⟩ isOwner inGroup
    cases isOwner with
    | true => exact owner.trans settled
    | false =>
        cases inGroup with
        | true => exact group.trans settled'
        | false => exact lowest_class three op perms

/-- `chmod` by the owner stores the changed word. -/
theorem shcChmod_eq {m : Machine} {currentDir target : Ptr} {userId : UInt64} {path : CStr}
    {n : FsNode} (mode : CStr) (found : fsResolve m.fs path currentDir = .ok target)
    (nonnull : target ≠ 0) (present : m.fs.nodes target = some n) (owner : n.owner = userId) :
    ∃ m', shcChmod currentDir userId (some mode) (some path) m = (.ok (), m') ∧
      m'.fs.nodes target =
      some { n with permissions := changedPermissions mode n.permissions } := by
  have allowed : ¬ (n.owner ≠ userId ∧ userId ≠ 0) := fun foreign => foreign.1 owner
  let changed := m.fs.setNode target { n with permissions := changedPermissions mode n.permissions }
  refine ⟨(printInfo "Permissions updated" { m with fs := changed }).2, ?_,
    FsState.nodes_setNode_self ..⟩
  refine (bind_of_ok (resolve_eq_ok.mpr ⟨found, rfl⟩)).trans ?_
  rw [if_neg nonnull]
  refine (bind_of_ok (deref_eq_ok.mpr ⟨present, rfl⟩)).trans ?_
  rw [if_neg allowed]
  exact bind_of_ok rfl

/-- After a symbolic `chmod` by the owner, every class has the listed bits set or cleared if and
    only if nothing had to be done in the classes of the owner and of the group. -/
theorem chmod_everyone_iff {m : Machine} {currentDir target : Ptr} {userId : UInt64} {path : CStr}
    {n : FsNode} (symbolic : op = 43 ∨ op = 45) (letters : CStr)
    (found : fsResolve m.fs path currentDir = .ok target) (nonnull : target ≠ 0)
    (present : m.fs.nodes target = some n) (owner : n.owner = userId) :
    ∃ m' n', shcChmod currentDir userId (some (op :: letters)) (some path) m = (.ok (), m') ∧
      m'.fs.nodes target = some n' ∧ n' = { n with permissions := n'.permissions } ∧
      ((∀ isOwner inGroup, getPerms isOwner inGroup n'.permissions =
          changedClass op (listedBits letters) (getPerms isOwner inGroup n.permissions)) ↔
        Settled op (listedBits letters) (getPerms true true n.permissions) ∧
          Settled op (listedBits letters) (getPerms false true n.permissions)) := by
  obtain ⟨m', returned, stored⟩ := shcChmod_eq (op :: letters) found nonnull present owner
  refine ⟨m', _, returned, stored, rfl, ?_⟩
  rw [changedPermissions_symbolic symbolic]
  exact classes_iff (three_listedBits letters) op n.permissions

/-- A machine with the directory `home` and the file `notes` in it, both of user 0. -/
def homeMachine : Machine := ⟨homeState, ⟨⟨fun _ => 0, 0⟩, ⟨false, false, fun _ => false⟩, []⟩, []⟩

theorem chmod_everyone_iff_home :
    ∃ m' n', shcChmod 1 0 (some (43 :: cstr "r")) (some (cstr "home/notes")) homeMachine =
    (.ok (), m') ∧
      m'.fs.nodes 3 = some n' ∧
      n' = { leafNode .file (cstr "notes") 0 2 with permissions := n'.permissions } ∧
      ((∀ isOwner inGroup, getPerms isOwner inGroup n'.permissions =
          changedClass 43 (listedBits (cstr "r")) (getPerms isOwner inGroup 0o755)) ↔
        Settled 43 (listedBits (cstr "r")) (getPerms true true 0o755) ∧
          Settled 43 (listedBits (cstr "r")) (getPerms false true 0o755)) :=
  chmod_everyone_iff (n := leafNode .file (cstr "notes") 0 2) (.inl rfl) (cstr "r")
    (by decide +kernel) (by decide) rfl
    rfl

/-- `chmod -w home/notes` takes the right to write from the others, who have not had it, and
    leaves it to the owner. -/
theorem chmod_not_everyone :
    ∃ m' n', shcChmod 1 0 (some (cstr "-w")) (some (cstr "home/notes")) homeMachine = (.ok (), m') ∧
      m'.fs.nodes 3 = some n' ∧ getPerms true true n'.permissions = 7 ∧
      changedClass 45 (listedBits (cstr "w")) (getPerms true true 0o755) = 5 := by
  obtain ⟨m', returned, stored⟩ := @shcChmod_eq homeMachine 1 3 0 (cstr "home/notes")
    (leafNode .file (cstr "notes") 0 2) (cstr "-w")
    (by decide +kernel : fsResolve homeMachine.fs (cstr "home/notes") 1 = .ok 3) (by decide) rfl rfl
  exact ⟨m', _, returned, stored, by decide +kernel, by decide +kernel⟩

end AurorOS.Shell
