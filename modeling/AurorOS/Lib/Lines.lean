import Mathlib.Tactic

/-! # Lines and what is laid over an array

A text is cut into lines at a separator, which ends a line: the last line may go without
it, and behind a final separator no line begins.  A text that is stored from the start
of an array leaves the rest of the array as it was.
-/

namespace Lines

variable {α β : Type}

section Lines

variable [DecidableEq α]

/-- A character in front of the first line, or of none. -/
def consHead (c : α) : List (List α) → List (List α)
  | [] => [[c]]
  | line :: more => (c :: line) :: more

def lines (sep : α) : List α → List (List α)
  | [] => []
  | c :: rest => if c = sep then [] :: lines sep rest else consHead c (lines sep rest)

variable {sep c : α} {line text : List α} {ls : List (List α)}

omit [DecidableEq α] in
theorem noSep_cons (noSep : sep ∉ c :: text) : c ≠ sep ∧ sep ∉ text := by
  rw [List.mem_cons, not_or] at noSep
  exact ⟨Ne.symm noSep.1, noSep.2⟩

/-- A text without the separator is one line, unless it is empty. -/
theorem lines_last (noSep : sep ∉ line) : lines sep line = if line = [] then [] else [line] := by
  induction line with
  | nil => rfl
  | cons c rest ih =>
      obtain ⟨other, behind⟩ := noSep_cons noSep
      rw [lines, if_neg other, ih behind, if_neg (List.cons_ne_nil c rest)]
      by_cases empty : rest = []
      · rw [if_pos empty, empty]
        rfl
      · rw [if_neg empty]
        rfl

/-- The first separator ends the first line. -/
theorem lines_append (noSep : sep ∉ line) (text : List α) :
    lines sep (line ++ sep :: text) = line :: lines sep text := by
  induction line with
  | nil => rw [List.nil_append, lines, if_pos rfl]
  | cons c rest ih =>
      obtain ⟨other, behind⟩ := noSep_cons noSep
      rw [List.cons_append, lines, if_neg other, ih behind]
      rfl

/-- A text is a line without a separator, or one that the first separator ends. -/
theorem first_line (sep : α) (text : List α) :
    sep ∉ text ∨ ∃ line rest, text = line ++ sep :: rest ∧ sep ∉ line := by
  by_cases present : sep ∈ text
  · exact .inr (List.eq_append_cons_of_mem present)
  · exact .inl present

/-- Induction on a text line by line. -/
theorem induction_on_lines (sep : α) {motive : List α → Prop} (nil : motive [])
    (last : ∀ line, line ≠ [] → sep ∉ line → motive line)
    (line : ∀ line rest, sep ∉ line → motive rest → motive (line ++ sep :: rest)) (text : List α) :
    motive text := by
  induction count : text.length using Nat.strongRecOn generalizing text with
  | ind n ih =>
      rcases first_line sep text with noSep | ⟨first, rest, rfl, noSep⟩
      · by_cases empty : text = []
        · rw [empty]
          exact nil
        · exact last text empty noSep
      · refine line first rest noSep (ih rest.length ?_ rest rfl)
        rw [← count, List.length_append, List.length_cons]
        omega

/-- Lines that are joined by the separator come apart again, if the last one can be told
    from no line. -/
theorem lines_intercalate (noSep : ∀ l ∈ ls, sep ∉ l) (last : ls.getLast? ≠ some []) :
    lines sep ([sep].intercalate ls) = ls := by
  induction ls with
  | nil => rfl
  | cons l more ih =>
      have here := noSep l List.mem_cons_self
      cases more with
      | nil =>
          have nonempty : l ≠ [] := by
            rintro rfl
            exact last rfl
          rw [List.intercalate_singleton, lines_last here, if_neg nonempty]
      | cons l' more =>
          rw [List.intercalate_cons_cons, List.append_assoc, List.singleton_append,
            lines_append here]
          rw [ih (fun x member => noSep x (List.mem_cons_of_mem l member)) last]

/-- So do they with a separator behind them. -/
theorem lines_intercalate_concat (noSep : ∀ l ∈ ls, sep ∉ l) (nonempty : ls ≠ []) :
    lines sep ([sep].intercalate ls ++ [sep]) = ls := by
  induction ls with
  | nil => exact absurd rfl nonempty
  | cons l more ih =>
      have here := noSep l List.mem_cons_self
      cases more with
      | nil =>
          rw [List.intercalate_singleton, lines_append here]
          rfl
      | cons l' more =>
          rw [List.intercalate_cons_cons, List.append_assoc, List.append_assoc,
            List.singleton_append, lines_append here,
            ih (fun x member => noSep x (List.mem_cons_of_mem l member)) (List.cons_ne_nil l' more)]

omit [DecidableEq α] in
theorem not_mem_intercalate (other : c ≠ sep) (plain : ∀ l ∈ ls, c ∉ l) :
    c ∉ [sep].intercalate ls := by
  induction ls with
  | nil => exact List.not_mem_nil
  | cons l more ih =>
      have here := plain l List.mem_cons_self
      have behind := ih fun x member => plain x (List.mem_cons_of_mem l member)
      cases more with
      | nil => rwa [List.intercalate_singleton]
      | cons l' more =>
          rw [List.intercalate_cons_cons, List.mem_append, List.mem_append, List.mem_singleton]
          rintro ((inside | separator) | later)
          · exact here inside
          · exact other separator
          · exact behind later

/-- Lines with a separator behind each. -/
def unlines (sep : α) (ls : List (List α)) : List α := ls.flatMap (· ++ [sep])

omit [DecidableEq α] in
theorem unlines_cons (sep : α) (l : List α) (ls : List (List α)) :
    unlines sep (l :: ls) = l ++ sep :: unlines sep ls := by
  rw [unlines, List.flatMap_cons, List.append_assoc, List.singleton_append, unlines]

/-- Lines come apart again. -/
theorem lines_unlines (noSep : ∀ l ∈ ls, sep ∉ l) : lines sep (unlines sep ls) = ls := by
  induction ls with
  | nil => rfl
  | cons l more ih =>
      rw [List.forall_mem_cons] at noSep
      rw [unlines_cons, lines_append noSep.1, ih noSep.2]

omit [DecidableEq α] in
theorem unlines_consHead (c : α) (ls : List (List α)) :
    unlines sep (consHead c ls) = if ls = [] then [c, sep] else c :: unlines sep ls := by
  cases ls with
  | nil => rfl
  | cons l more => rfl

theorem lines_eq_nil {text : List α} : lines sep text = [] ↔ text = [] := by
  cases text with
  | nil => simp [lines]
  | cons c rest =>
      rw [lines]
      split
      · simp
      · cases lines sep rest <;> simp [consHead]

/-- The lines of a text are the text, but for a separator that the last of them may lack. -/
theorem unlines_lines (sep : α) (text : List α) :
    unlines sep (lines sep text) = text ∨ unlines sep (lines sep text) = text ++ [sep] := by
  induction text with
  | nil => exact .inl rfl
  | cons c rest ih =>
      rw [lines]
      by_cases separator : c = sep
      · rw [if_pos separator, unlines_cons, List.nil_append, separator, List.cons_append]
        exact ih.imp (congrArg (sep :: ·)) (congrArg (sep :: ·))
      · rw [if_neg separator, unlines_consHead]
        by_cases last : rest = []
        · rw [if_pos (lines_eq_nil.mpr last), last]
          exact .inr rfl
        · rw [if_neg fun none => last (lines_eq_nil.mp none), List.cons_append]
          exact ih.imp (congrArg (c :: ·)) (congrArg (c :: ·))

/-- A text without the separator that it ends with, if it ends with one. -/
def dropTrailing (sep : α) (text : List α) : List α :=
  if text.getLast? = some sep then text.dropLast else text

/-- Lines that are joined by the separator are the text again, but for a separator that ends it. -/
theorem intercalate_lines (sep : α) (text : List α) :
    [sep].intercalate (lines sep text) = dropTrailing sep text := by
  induction text using induction_on_lines sep with
  | nil => rfl
  | last line nonempty noSep =>
      have other : ¬ line.getLast? = some sep := fun last => noSep (List.mem_of_getLast? last)
      rw [lines_last noSep, if_neg nonempty, List.intercalate_singleton, dropTrailing, if_neg other]
  | line line rest noSep ih =>
      rw [lines_append noSep]
      cases rest with
      | nil =>
          have last : (line ++ [sep]).getLast? = some sep := List.getLast?_concat
          rw [lines, List.intercalate_singleton, dropTrailing, if_pos last, List.dropLast_concat]
      | cons c rest =>
          have more : lines sep (c :: rest) ≠ [] :=
            fun none => List.cons_ne_nil c rest (lines_eq_nil.mp none)
          obtain ⟨first, others, found⟩ := List.exists_cons_of_ne_nil more
          have last : (line ++ sep :: c :: rest).getLast? = (c :: rest).getLast? := by
            rw [List.getLast?_append_of_ne_nil line (List.cons_ne_nil sep _),
              List.getLast?_cons_cons]
          rw [found, List.intercalate_cons_cons, ← found, ih, dropTrailing, dropTrailing, last]
          by_cases trailing : (c :: rest).getLast? = some sep
          · rw [if_pos trailing, if_pos trailing]
            simp
          · rw [if_neg trailing, if_neg trailing]
            simp

/-- A line takes a character at least. -/
theorem length_lines_le (sep : α) (text : List α) : (lines sep text).length ≤ text.length := by
  induction text using induction_on_lines sep with
  | nil => exact le_rfl
  | last line nonempty noSep =>
      rw [lines_last noSep, if_neg nonempty, List.length_singleton]
      exact List.length_pos_of_ne_nil nonempty
  | line line rest noSep ih =>
      rw [lines_append noSep, List.length_cons, List.length_append, List.length_cons]
      omega

theorem length_unlines_lines_le (sep : α) (text : List α) :
    (unlines sep (lines sep text)).length ≤ text.length + 1 := by
  rcases unlines_lines sep text with same | longer
  · rw [same]
    exact Nat.le_succ _
  · rw [longer, List.length_append, List.length_singleton]

theorem not_mem_of_mem_lines (member : line ∈ lines sep text) : sep ∉ line := by
  induction text generalizing line with
  | nil => cases member
  | cons c rest ih =>
      rw [lines] at member
      by_cases separator : c = sep
      · rw [if_pos separator, List.mem_cons] at member
        rcases member with rfl | later
        · exact List.not_mem_nil
        · exact ih later
      · rw [if_neg separator] at member
        cases behind : lines sep rest with
        | nil =>
            rw [behind, consHead, List.mem_singleton] at member
            rw [member, List.mem_singleton]
            exact Ne.symm separator
        | cons first more =>
            rw [behind, consHead, List.mem_cons] at member
            rcases member with rfl | later
            · rw [List.mem_cons, not_or]
              exact ⟨Ne.symm separator, ih (behind ▸ List.mem_cons_self)⟩
            · exact ih (behind ▸ List.mem_cons_of_mem first later)

/-- What is in a line is in the text. -/
theorem mem_of_mem_lines (other : c ≠ sep) (member : line ∈ lines sep text)
    (inside : c ∈ line) : c ∈ text := by
  have among : c ∈ unlines sep (lines sep text) :=
    List.mem_flatMap.mpr ⟨line, member, List.mem_append_left [sep] inside⟩
  rcases unlines_lines sep text with same | longer
  · exact same ▸ among
  · rw [longer, List.mem_append, List.mem_singleton] at among
    exact among.resolve_right other

theorem length_le_of_mem_lines (member : line ∈ lines sep text) : line.length ≤ text.length := by
  have among : (line ++ [sep]).Sublist (unlines sep (lines sep text)) :=
    List.sublist_flatten_of_mem (List.mem_map.mpr ⟨line, member, rfl⟩)
  have whole := length_unlines_lines_le sep text
  have part := among.length_le
  rw [List.length_append, List.length_singleton] at part
  omega

end Lines

/-- `text` from the start of an array on. -/
def overlay (text old : List α) : List α := text ++ old.drop text.length

variable {text more old : List α} {a : α}

theorem overlay_nil (old : List α) : overlay [] old = old := rfl

theorem length_overlay (fits : text.length ≤ old.length) :
    (overlay text old).length = old.length := by
  rw [overlay, List.length_append, List.length_drop]
  omega

/-- The next store makes the text longer. -/
theorem set_overlay (room : text.length < old.length) (a : α) :
    (overlay text old).set text.length a = overlay (text ++ [a]) old := by
  rw [overlay, overlay, List.set_append_right _ _ le_rfl, Nat.sub_self, List.length_append,
    List.length_singleton, List.append_assoc, List.singleton_append, List.drop_eq_getElem_cons room,
    List.set_cons_zero]

/-- The last element that was stored is stored again. -/
theorem set_overlay_concat (room : text.length < old.length) (a b : α) :
    (overlay (text ++ [a]) old).set text.length b = overlay (text ++ [b]) old := by
  rw [← set_overlay room a, List.set_set, set_overlay room]

/-- A text covers a shorter one that was there. -/
theorem overlay_overlay (covers : more.length ≤ text.length) :
    overlay text (overlay more old) = overlay text old := by
  rw [overlay, overlay, List.drop_append, List.drop_eq_nil_of_le covers, List.nil_append,
    List.drop_drop, overlay]
  congr 2
  omega

/-- The elements of one list are combined with the first of another. -/
def layOver (f : β → α → β) : List α → List β → List β
  | a :: as, b :: bs => f b a :: layOver f as bs
  | _, bs => bs

variable {f : β → α → β} {as : List α} {bs : List β} {b : β} {i : Nat}

theorem layOver_nil (f : β → α → β) (bs : List β) : layOver f [] bs = bs := by
  cases bs <;> rfl

theorem length_layOver : (layOver f as bs).length = bs.length := by
  induction as generalizing bs with
  | nil => rw [layOver_nil]
  | cons a as ih =>
      cases bs with
      | nil => rfl
      | cons b bs => rw [layOver, List.length_cons, List.length_cons, ih]

theorem getElem?_layOver_of_lt {a : α} (here : as[i]? = some a) (present : bs[i]? = some b) :
    (layOver f as bs)[i]? = some (f b a) := by
  induction as generalizing bs i with
  | nil => cases here
  | cons a' as ih =>
      cases bs with
      | nil => cases present
      | cons b' bs =>
          cases i with
          | zero =>
              obtain rfl := Option.some.inj here
              obtain rfl := Option.some.inj present
              rfl
          | succ i => exact ih here present

/-- What holds of the old elements and is kept by a combination. -/
theorem forall_layOver {P : β → Prop} (before : ∀ b ∈ bs, P b)
    (kept : ∀ a ∈ as, ∀ b, P b → P (f b a)) :
    ∀ b ∈ layOver f as bs, P b := by
  induction as generalizing bs with
  | nil =>
      rw [layOver_nil]
      exact before
  | cons a as ih =>
      cases bs with
      | nil => exact before
      | cons b bs =>
          rw [layOver, List.forall_mem_cons]
          rw [List.forall_mem_cons] at before kept
          exact ⟨kept.1 b before.1, ih before.2 kept.2⟩

/-- The elements of a combination, in order. -/
theorem take_layOver (fits : as.length ≤ bs.length) :
    (layOver f as bs).take as.length = List.zipWith f bs as := by
  induction as generalizing bs with
  | nil => rw [List.length_nil, List.take_zero, List.zipWith_nil_right]
  | cons a as ih =>
      cases bs with
      | nil => cases fits
      | cons b bs =>
          rw [layOver, List.length_cons, List.take_succ_cons, List.zipWith_cons_cons,
            ih (Nat.le_of_succ_le_succ fits)]

/-- What each combined element has to do with the element of the one list, they have to do in
    order. -/
theorem forall₂_zipWith {γ : Type} {R : γ → α → Prop} {g : β → α → γ} (fits : as.length ≤ bs.length)
    (each : ∀ b ∈ bs, ∀ a ∈ as, R (g b a) a) : List.Forall₂ R (List.zipWith g bs as) as := by
  induction as generalizing bs with
  | nil =>
      rw [List.zipWith_nil_right]
      exact .nil
  | cons a as ih =>
      cases bs with
      | nil => cases fits
      | cons b bs =>
          refine .cons (each b List.mem_cons_self a List.mem_cons_self)
            (ih (Nat.le_of_succ_le_succ fits) ?_)
          exact fun b' left a' right => each b' (List.mem_cons_of_mem b left) a'
            (List.mem_cons_of_mem a right)

theorem of_forall₂_zipWith {γ : Type} {R : γ → α → Prop} {g : β → α → γ} {a : α}
    (each : List.Forall₂ R (List.zipWith g bs as) as) (member : a ∈ as) :
    ∃ b ∈ bs, R (g b a) a := by
  induction as generalizing bs with
  | nil => cases member
  | cons a' as ih =>
      cases bs with
      | nil => cases each
      | cons b bs =>
          rw [List.zipWith_cons_cons, List.forall₂_cons] at each
          rcases List.mem_cons.mp member with rfl | later
          · exact ⟨b, List.mem_cons_self, each.1⟩
          · obtain ⟨b', among, related⟩ := ih each.2 later
            exact ⟨b', List.mem_cons_of_mem b among, related⟩

theorem mem_zipWith {γ : Type} {g : β → α → γ} {c : γ} (member : c ∈ List.zipWith g bs as) :
    ∃ b ∈ bs, ∃ a ∈ as, g b a = c := by
  obtain ⟨i, inside, same⟩ := List.getElem_of_mem member
  rw [List.getElem_zipWith] at same
  exact ⟨_, List.getElem_mem _, _, List.getElem_mem _, same⟩

theorem mem_zipWith_of_mem {γ : Type} {g : β → α → γ} {a : α} (fits : as.length ≤ bs.length)
    (member : a ∈ as) :
    ∃ b ∈ bs, g b a ∈ List.zipWith g bs as := by
  obtain ⟨i, inside, rfl⟩ := List.getElem_of_mem member
  have short : i < (List.zipWith g bs as).length := by
    rw [List.length_zipWith]
    omega
  refine ⟨bs[i], List.getElem_mem _, ?_⟩
  have entry := List.getElem_mem short
  rwa [List.getElem_zipWith] at entry

/-- Two combinations of the same list, element by element. -/
theorem forall₂_zipWith_zipWith {γ : Type} {R : γ → γ → Prop} {g : β → α → γ} {bs' : List β}
    (same : bs.length = bs'.length)
    (each : ∀ b ∈ bs, ∀ b' ∈ bs', ∀ a ∈ as, R (g b a) (g b' a)) :
    List.Forall₂ R (List.zipWith g bs as) (List.zipWith g bs' as) := by
  rw [List.forall₂_iff_get]
  refine ⟨?_, fun i inside inside' => ?_⟩
  · rw [List.length_zipWith, List.length_zipWith, same]
  · rw [List.get_eq_getElem, List.get_eq_getElem, List.getElem_zipWith, List.getElem_zipWith]
    exact each _ (List.getElem_mem _) _ (List.getElem_mem _) _ (List.getElem_mem _)

/-- The next element is stored where the combination ended. -/
theorem set_layOver (present : bs[as.length]? = some b) (a : α) :
    (layOver f as bs).set as.length (f b a) = layOver f (as ++ [a]) bs := by
  induction as generalizing bs with
  | nil =>
      cases bs with
      | nil => cases present
      | cons b' bs =>
          obtain rfl := Option.some.inj present
          rfl
  | cons a' as ih =>
      cases bs with
      | nil => cases present
      | cons b' bs => exact congrArg (f b' a' :: ·) (ih present)

theorem set_layOver_concat {a : α} (present : bs[as.length]? = some b) (a' : α) :
    (layOver f (as ++ [a]) bs).set as.length (f b a') = layOver f (as ++ [a']) bs := by
  rw [← set_layOver present a, List.set_set, set_layOver present a']

/-- An element that changes nothing need not be there. -/
theorem layOver_concat_same {a : α} (same : ∀ b, f b a = b) :
    layOver f (as ++ [a]) bs = layOver f as bs := by
  induction as generalizing bs with
  | nil =>
      cases bs with
      | nil => rfl
      | cons b bs => rw [List.nil_append, layOver, same, layOver_nil, layOver_nil]
  | cons a' as ih =>
      cases bs with
      | nil => rfl
      | cons b bs => exact congrArg (f b a' :: ·) ih

end Lines
