import Mathlib.Tactic

/-! # Scans

A scan folds a list from the left with a body that may stop early, the shape of a
loop with `break`.
-/

namespace Scan

variable {α σ : Type}

def scan (body : α → σ → ForInStep σ) : List α → σ → σ
  | [], acc => acc
  | x :: xs, acc =>
      match body x acc with
      | .done acc => acc
      | .yield acc => scan body xs acc

variable {xs : List α} {acc : σ}

/-- A property that the body keeps holds of the result. -/
theorem scan_invariant {body : α → σ → ForInStep σ} {I : σ → Prop}
    (keeps : ∀ x ∈ xs, ∀ acc, I acc → I (body x acc).run) (start : I acc) :
    I (scan body xs acc) := by
  induction xs generalizing acc with
  | nil => exact start
  | cons x xs ih =>
      have here := keeps x (by simp) acc start
      cases step : body x acc with
      | done next =>
          simp only [scan, step]
          rwa [step] at here
      | yield next =>
          simp only [scan, step]
          rw [step] at here
          exact ih (fun y member => keeps y (by simp [member])) here

/-- A body that never stops makes a fold. -/
theorem scan_yield (f : α → σ → σ) (xs : List α) (acc : σ) :
    scan (fun x acc => .yield (f x acc)) xs acc = xs.foldl (fun acc x => f x acc) acc := by
  induction xs generalizing acc with
  | nil => rfl
  | cons x xs ih => exact ih (f x acc)

/-- A body that stops at the first element of a kind makes a search. -/
theorem scan_find {β : Type} (p : α → Prop) [DecidablePred p] (f : α → β) (xs : List α) :
    scan (fun x acc => if p x then .done (some (f x)) else .yield acc) xs none =
    (xs.find? p).map f := by
  induction xs with
  | nil => rfl
  | cons x xs ih =>
      by_cases found : p x
      · simp [scan, found]
      · simp [scan, found, ih]

end Scan
