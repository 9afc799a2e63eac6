import Mathlib.Tactic

/-! # Computations that may not return

Inversion of a computation in `Except` that has returned: its parts have returned,
one after the other.  Two computations are alike if they fail alike or return
related values.
-/

namespace Outcome

variable {ε α β : Type}

theorem bind_eq_ok {x : Except ε α} {f : α → Except ε β} {b : β} :
    x >>= f = .ok b ↔ ∃ a, x = .ok a ∧ f a = .ok b := by
  cases x with
  | error e => simp [bind, Except.bind]
  | ok a => simp [bind, Except.bind]

theorem bind_of_ok {x : Except ε α} {f : α → Except ε β} {a : α} (first : x = .ok a) :
    x >>= f = f a := by
  rw [first]
  rfl

theorem bind_of_error {x : Except ε α} {f : α → Except ε β} {e : ε} (first : x = .error e) :
    x >>= f = .error e := by
  rw [first]
  rfl

theorem pure_eq_ok {a b : α} : (pure a : Except ε α) = .ok b ↔ a = b := by
  simp [pure, Except.pure]

/-- A sequence returns what it returned if its parts do. -/
theorem bind_mono {x x' : Except ε α} {f f' : α → Except ε β} (first : ∀ a, x = .ok a → x' = .ok a)
    (rest : ∀ a b, f a = .ok b → f' a = .ok b) (b : β) (returned : x >>= f = .ok b) :
    x' >>= f' = .ok b := by
  obtain ⟨a, before, after⟩ := bind_eq_ok.mp returned
  exact bind_eq_ok.mpr ⟨a, first a before, rest a b after⟩

/-- A failure of a sequence is a failure of one of its parts. -/
theorem bind_ne_error {x : Except ε α} {f : α → Except ε β} {e : ε} (first : x ≠ .error e)
    (rest : ∀ a, x = .ok a → f a ≠ .error e) : x >>= f ≠ .error e := by
  cases x with
  | error other => exact fun same => first (congrArg Except.error (Except.error.inj same))
  | ok a => exact rest a rfl

variable {γ δ : Type} {R : α → β → Prop} {S : γ → δ → Prop}

/-- Both fail with the same error, or both return and what they return is related. -/
inductive Alike (R : α → β → Prop) : Except ε α → Except ε β → Prop where
  | error (e : ε) : Alike R (.error e) (.error e)
  | ok {a : α} {b : β} (related : R a b) : Alike R (.ok a) (.ok b)

theorem alike_pure {a : α} {b : β} (related : R a b) : Alike R (pure a : Except ε α) (pure b) :=
  .ok related

theorem Alike.bind {x : Except ε α} {y : Except ε β} {f : α → Except ε γ} {g : β → Except ε δ}
    (first : Alike R x y) (rest : ∀ a b, R a b → Alike S (f a) (g b)) :
    Alike S (x >>= f) (y >>= g) := by
  cases first with
  | error e => exact .error e
  | ok related => exact rest _ _ related

/-- Two computations that start with the same one. -/
theorem alike_bind {x : Except ε α} {f : α → Except ε γ} {g : α → Except ε δ}
    (rest : ∀ a, x = .ok a → Alike S (f a) (g a)) : Alike S (x >>= f) (x >>= g) := by
  cases x with
  | error e => exact .error e
  | ok a => exact rest a rfl

end Outcome
