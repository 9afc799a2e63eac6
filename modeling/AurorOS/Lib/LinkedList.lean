import Mathlib.Tactic

/-! # Singly linked lists

A list in memory is told by its cells, the link that each cell holds, and the null
address.  `Chain` says which addresses following the links visits.  The addresses
are all there is to say: a chain determines them, so none occurs twice.
-/

namespace LinkedList

variable {α β : Type}

/-- Following the links from `p` visits the addresses of the list, each of a live
    cell, and ends at `null`. -/
def Chain (cells : α → Option β) (next : β → α) (null : α) : α → List α → Prop
  | p, [] => p = null
  | p, q :: rest => p = q ∧ q ≠ null ∧ ∃ c, cells q = some c ∧ Chain cells next null (next c) rest

variable {cells cells' : α → Option β} {next : β → α} {null p q : α} {ps qs : List α} {c : β}

theorem chain_null : Chain cells next null null ps ↔ ps = [] := by
  cases ps with
  | nil => exact ⟨fun _ => rfl, fun _ => rfl⟩
  | cons q rest => exact ⟨fun chain => absurd chain.1.symm chain.2.1, fun empty => nomatch empty⟩

namespace Chain

/-- From a live cell on, the chain is that cell and the chain behind it. -/
theorem cons_of_ne_null (chain : Chain cells next null p ps) (present : p ≠ null) :
    ∃ c rest, ps = p :: rest ∧ cells p = some c ∧ Chain cells next null (next c) rest := by
  cases ps with
  | nil => exact absurd chain present
  | cons q rest =>
      obtain ⟨rfl, _, c, here, behind⟩ := chain
      exact ⟨c, rest, rfl, here, behind⟩

theorem live (chain : Chain cells next null p ps) (member : q ∈ ps) :
    q ≠ null ∧ ∃ c, cells q = some c := by
  induction ps generalizing p with
  | nil => cases member
  | cons r rest ih =>
      obtain ⟨_, nonnull, c, here, behind⟩ := chain
      cases List.mem_cons.mp member with
      | inl same => exact same ▸ ⟨nonnull, c, here⟩
      | inr later => exact ih behind later

/-- A chain is the same where its cells are. -/
theorem congr (chain : Chain cells next null p ps) (same : ∀ q ∈ ps, cells' q = cells q) :
    Chain cells' next null p ps := by
  induction ps generalizing p with
  | nil => exact chain
  | cons q rest ih =>
      obtain ⟨atHead, nonnull, c, here, behind⟩ := chain
      have tail := ih behind fun r member => same r (List.mem_cons_of_mem q member)
      exact ⟨atHead, nonnull, c, (same q List.mem_cons_self).trans here, tail⟩

theorem unique (first : Chain cells next null p ps)
    (second : Chain cells next null p qs) : ps = qs := by
  induction ps generalizing p qs with
  | nil =>
      obtain rfl : p = null := first
      exact (chain_null.mp second).symm
  | cons q rest ih =>
      obtain ⟨rfl, nonnull, c, here, behind⟩ := first
      obtain ⟨c', rest', rfl, here', behind'⟩ := second.cons_of_ne_null nonnull
      obtain rfl := Option.some.inj (here.symm.trans here')
      rw [ih behind behind']

/-- The part of a chain from one of its cells on is the chain at that cell. -/
theorem suffix (chain : Chain cells next null p (ps ++ q :: qs)) :
    Chain cells next null q (q :: qs) := by
  induction ps generalizing p with
  | nil =>
      obtain ⟨_, rest⟩ := chain
      exact ⟨rfl, rest⟩
  | cons r front ih =>
      obtain ⟨_, _, c, _, behind⟩ := chain
      exact ih behind

theorem nodup (chain : Chain cells next null p ps) : ps.Nodup := by
  induction ps generalizing p with
  | nil => exact List.nodup_nil
  | cons q rest ih =>
      obtain ⟨atHead, nonnull, c, here, behind⟩ := chain
      have whole : Chain cells next null q (q :: rest) := ⟨rfl, nonnull, c, here, behind⟩
      refine List.nodup_cons.mpr ⟨fun again => ?_, ih behind⟩
      -- a second visit would make the chain at `q` as long as a proper part of itself
      obtain ⟨front, back, split⟩ := List.append_of_mem again
      have lengths := congrArg List.length ((split ▸ behind).suffix.unique whole)
      rw [split] at lengths
      simp only [List.length_cons, List.length_append] at lengths
      omega

/-- Linking a new last cell behind the old one appends its address. -/
theorem append_last (chain : Chain cells next null p (ps ++ [q])) {last new : β} {r : α}
    (fresh : r ∉ ps ++ [q]) (nonnull : r ≠ null) (atLast : cells' q = some last)
    (linked : next last = r) (atNew : cells' r = some new) (ends : next new = null)
    (same : ∀ x ∈ ps, cells' x = cells x) : Chain cells' next null p (ps ++ [q] ++ [r]) := by
  induction ps generalizing p with
  | nil =>
      obtain ⟨atHead, present, _⟩ := chain
      exact ⟨atHead, present, last, atLast, linked, nonnull, new, atNew, ends⟩
  | cons x front ih =>
      obtain ⟨atHead, present, c, here, behind⟩ := chain
      have tail := ih behind (fun member => fresh (List.mem_cons_of_mem x member))
        (fun y member => same y (List.mem_cons_of_mem x member))
      exact ⟨atHead, present, c, (same x List.mem_cons_self).trans here, tail⟩

end Chain

end LinkedList
