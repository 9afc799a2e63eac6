import Mathlib.Tactic

/-! # Programs

A program over states `σ` returns a value or gives the reason why it stopped, and
leaves a state in either case.  Besides the inversion of runs that return, there is
a judgement about two runs side by side, with a rule for each way of composing
programs.
-/

/-- A program over states `σ` that stops for a reason in `ε` or returns an `α`. -/
def Program (σ ε α : Type) : Type := σ → Except ε α × σ

namespace Program

variable {σ τ ε α β : Type}

instance : Monad (Program σ ε) where
  pure a := fun s => (.ok a, s)
  bind x f := fun s =>
    match x s with
    | (.ok a, t) => f a t
    | (.error e, t) => (.error e, t)

def stop (e : ε) : Program σ ε α := fun s => (.error e, s)

/-- A value that is read off the state. -/
def read (f : σ → α) : Program σ ε α := fun s => (.ok (f s), s)

/-- A change of the state. -/
def modify (f : σ → σ) : Program σ ε Unit := fun s => (.ok (), f s)

/-- A program over a part of the state. -/
def zoom (get : σ → τ) (set : σ → τ → σ) (x : Program τ ε α) : Program σ ε α := fun s =>
  ((x (get s)).1, set s (x (get s)).2)

theorem bind_eq_ok {x : Program σ ε α} {f : α → Program σ ε β} {s t : σ} {b : β} :
    (x >>= f) s = (.ok b, t) ↔ ∃ a u, x s = (.ok a, u) ∧ f a u = (.ok b, t) := by
  change (match x s with | (.ok a, t) => f a t | (.error e, t) => (.error e, t)) = _ ↔ _
  rcases x s with ⟨e | a, u⟩ <;> simp

theorem bind_of_ok {x : Program σ ε α} {f : α → Program σ ε β} {s t : σ} {a : α}
    (first : x s = (.ok a, t)) :
    (x >>= f) s = f a t := by
  change (match x s with | (.ok a, t) => f a t | (.error e, t) => (.error e, t)) = _
  rw [first]

theorem bind_of_error {x : Program σ ε α} {f : α → Program σ ε β} {s t : σ} {e : ε}
    (first : x s = (.error e, t)) :
    (x >>= f) s = (.error e, t) := by
  change (match x s with | (.ok a, t) => f a t | (.error e, t) => (.error e, t)) = _
  rw [first]

theorem pure_eq_ok {a b : α} {s t : σ} :
    (pure a : Program σ ε α) s = (.ok b, t) ↔ a = b ∧ s = t := by
  change (Except.ok a, s) = _ ↔ _
  simp

theorem stop_ne_ok {e : ε} {s t : σ} {a : α} : (stop e : Program σ ε α) s ≠ (.ok a, t) := by
  simp [stop]

theorem read_eq_ok {f : σ → α} {a : α} {s t : σ} :
    (read f : Program σ ε α) s = (.ok a, t) ↔ f s = a ∧ s = t := by
  simp [read]

theorem zoom_eq_ok {get : σ → τ} {set : σ → τ → σ} {x : Program τ ε α} {s t : σ} {a : α} :
    zoom get set x s = (.ok a, t) ↔ ∃ u, x (get s) = (.ok a, u) ∧ set s u = t := by
  rw [zoom]
  rcases x (get s) with ⟨r, u⟩
  simp

instance : LawfulMonad (Program σ ε) := by
  refine LawfulMonad.mk' (Program σ ε) ?_ (fun _ _ => rfl) ?_
  · intro α x
    funext s
    change (match x s with | (.ok a, t) => (.ok a, t) | (.error e, t) => (.error e, t)) = x s
    rcases x s with ⟨e | a, t⟩ <;> rfl
  · intro α β γ x f g
    funext s
    cases outcome : x s with
    | mk r t =>
        cases r with
        | ok a =>
            rw [bind_of_ok outcome]
            change (match (x >>= f) s with | (.ok b, u) => g b u | (.error e, u) => (.error e, u)) =
              _
            rw [bind_of_ok outcome]
            rfl
        | error e => rw [bind_of_error (bind_of_error outcome), bind_of_error outcome]

theorem map_eq_ok {f : α → β} {x : Program σ ε α} {s t : σ} {b : β} :
    (f <$> x) s = (.ok b, t) ↔ ∃ a, x s = (.ok a, t) ∧ f a = b := by
  rw [map_eq_pure_bind, bind_eq_ok]
  constructor
  · rintro ⟨a, u, ran, value⟩
    obtain ⟨same, rfl⟩ := pure_eq_ok.mp value
    exact ⟨a, ran, same⟩
  · rintro ⟨a, ran, same⟩
    exact ⟨a, t, ran, pure_eq_ok.mpr ⟨same, rfl⟩⟩

theorem map_ite {c : Prop} [Decidable c] (f : α → β) (x y : Program σ ε α) :
    f <$> (if c then x else y) = if c then f <$> x else f <$> y := apply_ite (f <$> ·) c x y

/-- Every run that returns leaves the part `f` of the state as it was. -/
def Leaves (f : σ → τ) (x : Program σ ε α) : Prop := ∀ s a t, x s = (.ok a, t) → f t = f s

theorem leaves_pure (f : σ → τ) (a : α) : Leaves f (pure a : Program σ ε α) := by
  intro s b t returned
  rw [(pure_eq_ok.mp returned).2]

theorem leaves_stop (f : σ → τ) (e : ε) : Leaves f (stop e : Program σ ε α) :=
  fun _ _ _ returned => absurd returned stop_ne_ok

theorem leaves_read (f : σ → τ) (g : σ → α) : Leaves f (read g : Program σ ε α) := by
  intro s a t returned
  rw [(read_eq_ok.mp returned).2]

namespace Leaves

theorem bind {f : σ → τ} {x : Program σ ε α} {y : α → Program σ ε β} (first : Leaves f x)
    (rest : ∀ a, Leaves f (y a)) :
    Leaves f (x >>= y) := by
  intro s b t returned
  obtain ⟨a, u, before, after⟩ := bind_eq_ok.mp returned
  exact (rest a u b t after).trans (first s a u before)

theorem zoom {υ : Type} {f : σ → υ} {get : σ → τ} {set : σ → τ → σ} (x : Program τ ε α)
    (apart : ∀ s t, f (set s t) = f s) :
    Leaves f (Program.zoom get set x) := by
  intro s a t returned
  obtain ⟨u, _, rfl⟩ := zoom_eq_ok.mp returned
  exact apart s u

theorem ite {f : σ → τ} {c : Prop} [Decidable c] {x y : Program σ ε α} (yes : c → Leaves f x)
    (no : ¬ c → Leaves f y) :
    Leaves f (if c then x else y) := by
  by_cases holds : c
  · rw [if_pos holds]
    exact yes holds
  · rw [if_neg holds]
    exact no holds

end Leaves

/-- Started in states related by `P`, the two runs have the same outcome.  If they
    return `a`, their states are related by `Q a`; if they stop, by `E`. -/
def Lockstep (P : σ → σ → Prop) (x y : Program σ ε α) (Q : α → σ → σ → Prop)
    (E : σ → σ → Prop) : Prop :=
  ∀ s t, P s t → (∃ a s' t', x s = (.ok a, s') ∧ y t = (.ok a, t') ∧ Q a s' t') ∨
    ∃ e s' t', x s = (.error e, s') ∧ y t = (.error e, t') ∧ E s' t'

variable {P P' E : σ → σ → Prop} {Q Q' : α → σ → σ → Prop} {S : β → σ → σ → Prop}

theorem lockstep_pure {a : α} (post : ∀ s t, P s t → Q a s t) :
    Lockstep P (pure a : Program σ ε α) (pure a) Q E :=
  fun s t related => .inl ⟨a, s, t, rfl, rfl, post s t related⟩

theorem lockstep_stop {e : ε} (post : ∀ s t, P s t → E s t) :
    Lockstep P (stop e : Program σ ε α) (stop e) Q E :=
  fun s t related => .inr ⟨e, s, t, rfl, rfl, post s t related⟩

namespace Lockstep

theorem bind {x y : Program σ ε α} {f g : α → Program σ ε β} (first : Lockstep P x y Q E)
    (rest : ∀ a, Lockstep (Q a) (f a) (g a) S E) : Lockstep P (x >>= f) (y >>= g) S E := by
  intro s t related
  change (∃ b s' t', (match x s with | (.ok a, t) => f a t | (.error e, t) => (.error e, t)) = _ ∧
    (match y t with | (.ok a, t) => g a t | (.error e, t) => (.error e, t)) = _ ∧ _) ∨
    ∃ e s' t', (match x s with | (.ok a, t) => f a t | (.error e, t) => (.error e, t)) = _ ∧
    (match y t with | (.ok a, t) => g a t | (.error e, t) => (.error e, t)) = _ ∧ _
  rcases first s t related with ⟨a, s', t', left, right, post⟩ | ⟨e, s', t', left, right, post⟩
  · simp only [left, right]
    exact rest a s' t' post
  · simp only [left, right]
    exact .inr ⟨e, s', t', rfl, rfl, post⟩

theorem ite {c : Prop} [Decidable c] {x x' y y' : Program σ ε α} (yes : c → Lockstep P x y Q E)
    (no : ¬ c → Lockstep P x' y' Q E) :
    Lockstep P (if c then x else x') (if c then y else y') Q E := by
  by_cases holds : c
  · rw [if_pos holds, if_pos holds]
    exact yes holds
  · rw [if_neg holds, if_neg holds]
    exact no holds

theorem weaken {x y : Program σ ε α} (lockstep : Lockstep P x y Q E) (pre : ∀ s t, P' s t → P s t)
    (post : ∀ a s t, Q a s t → Q' a s t) : Lockstep P' x y Q' E := by
  intro s t related
  rcases lockstep s t (pre s t related) with ⟨a, s', t', left, right, after⟩ | stopped
  · exact .inl ⟨a, s', t', left, right, post a s' t' after⟩
  · exact .inr stopped

/-- Equal parts of the states stay equal, and what relates the rest is kept. -/
theorem zoom {get : σ → τ} {set : σ → τ → σ} {x : Program τ ε α}
    (same : ∀ s t, P s t → get s = get t) (post : ∀ a s t u, P s t → Q a (set s u) (set t u))
    (stopped : ∀ s t u, P s t → E (set s u) (set t u)) :
    Lockstep P (Program.zoom get set x) (Program.zoom get set x) Q E := by
  intro s t related
  cases outcome : x (get s) with
  | mk r u =>
      have left : Program.zoom get set x s = (r, set s u) := by rw [Program.zoom, outcome]
      have right : Program.zoom get set x t = (r, set t u) := by
        rw [Program.zoom, ← same s t related, outcome]
      cases r with
      | ok a => exact .inl ⟨a, _, _, left, right, post a s t u related⟩
      | error e => exact .inr ⟨e, _, _, left, right, stopped s t u related⟩

end Lockstep

end Program
