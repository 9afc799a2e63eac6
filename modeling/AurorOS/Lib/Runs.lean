import Mathlib.Tactic

/-! # Runs of a labelled transition system

A run records, before each of its steps, the state and the event taken there.
The rules below carry the inductions on runs: an invariant kept by every step, or
by every step of a permitted kind, holds in every state of a run.
-/

namespace Runs

/-- `Run step s trace t`: from `s` the events of `trace` lead to `t`.  Each entry
    of the trace is a state and the event that left it. -/
inductive Run {σ ε : Type} (step : σ → ε → σ → Prop) (s : σ) : List (σ × ε) → σ → Prop where
  | nil : Run step s [] s
  | snoc {trace t e u} : Run step s trace t → step t e u → Run step s (trace ++ [(t, e)]) u

/-- Some run leads from `s` to `t`. -/
def Reachable {σ ε : Type} (step : σ → ε → σ → Prop) (s t : σ) : Prop :=
  ∃ trace, Run step s trace t

/-- `P` holds in every state of a run with this trace and this last state. -/
def Always {σ ε : Type} (P : σ → Prop) (trace : List (σ × ε)) (last : σ) : Prop :=
  (∀ entry ∈ trace, P entry.1) ∧ P last

/-- Every step of the trace meets `C`, a condition on the state before the step
    and the event. -/
def EveryStep {σ ε : Type} (C : σ → ε → Prop) (trace : List (σ × ε)) : Prop :=
  ∀ entry ∈ trace, C entry.1 entry.2

variable {σ ε : Type} {step : σ → ε → σ → Prop} {s t u : σ} {trace : List (σ × ε)}

theorem Always.last {P : σ → Prop} (always : Always P trace t) : P t := always.2

theorem Always.mono {P Q : σ → Prop} (always : Always P trace t) (weaker : ∀ s, P s → Q s) :
    Always Q trace t :=
  ⟨fun entry member => weaker _ (always.1 entry member), weaker _ always.2⟩

theorem EveryStep.init {C : σ → ε → Prop} {entry : σ × ε}
    (every : EveryStep C (trace ++ [entry])) : EveryStep C trace :=
  fun other member => every other (List.mem_append_left _ member)

theorem EveryStep.final {C : σ → ε → Prop} {entry : σ × ε}
    (every : EveryStep C (trace ++ [entry])) : C entry.1 entry.2 :=
  every entry (by simp)

theorem everyStep_snoc {C : σ → ε → Prop} {entry : σ × ε} :
    EveryStep C (trace ++ [entry]) ↔ EveryStep C trace ∧ C entry.1 entry.2 := by
  constructor
  · exact fun every => ⟨every.init, every.final⟩
  · rintro ⟨every, final⟩ other member
    rcases List.mem_append.mp member with old | new
    · exact every other old
    · rw [List.mem_singleton.mp new]
      exact final

namespace Run

theorem single {e : ε} (taken : step s e t) : Run step s [(s, e)] t := by
  have start : Run step s [] s := .nil
  exact start.snoc taken

theorem append {later : List (σ × ε)} (first : Run step s trace t) (second : Run step t later u) :
    Run step s (trace ++ later) u := by
  induction second with
  | nil => simpa using first
  | snoc _ taken ih =>
      rw [← List.append_assoc]
      exact .snoc ih taken

theorem reachable (run : Run step s trace t) : Reachable step s t := ⟨trace, run⟩

/-- Each entry of the trace is a step that was taken. -/
theorem taken {entry : σ × ε} (run : Run step s trace t) (member : entry ∈ trace) :
    ∃ next, step entry.1 entry.2 next := by
  induction run with
  | nil => simp at member
  | @snoc trace t e u _ last ih =>
      rcases List.mem_append.mp member with old | new
      · exact ih old
      · rw [List.mem_singleton.mp new]
        exact ⟨u, last⟩

/-- What holds of every state of a run holds behind each of its steps. -/
theorem taken_always {P : σ → Prop} {entry : σ × ε} (run : Run step s trace t)
    (always : Always P trace t) (member : entry ∈ trace) :
    ∃ next, step entry.1 entry.2 next ∧ P next := by
  induction run with
  | nil => simp at member
  | @snoc trace t e u _ last ih =>
      have before : Always P trace t :=
        ⟨fun other old => always.1 other (List.mem_append_left _ old), always.1 (t, e) (by simp)⟩
      rcases List.mem_append.mp member with old | new
      · exact ih before old
      · rw [List.mem_singleton.mp new]
        exact ⟨u, last, always.last⟩

/-- An invariant that every permitted step keeps holds in every state of a run
    of permitted steps. -/
theorem always_of_steps {I : σ → Prop} {C : σ → ε → Prop}
    (keeps : ∀ s e t, I s → C s e → step s e t → I t)
    (run : Run step s trace t) (start : I s) (permitted : EveryStep C trace) :
    Always I trace t := by
  induction run with
  | nil => exact ⟨by simp, start⟩
  | @snoc trace t e u _ taken ih =>
      have before := ih permitted.init
      refine ⟨?_, keeps t e u before.last permitted.final taken⟩
      intro entry member
      rcases List.mem_append.mp member with old | new
      · exact before.1 entry old
      · rw [List.mem_singleton.mp new]
        exact before.last

theorem always {I : σ → Prop} (keeps : ∀ s e t, I s → step s e t → I t)
    (run : Run step s trace t) (start : I s) : Always I trace t :=
  run.always_of_steps (C := fun _ _ => True) (fun s e t inv _ taken => keeps s e t inv taken)
    start (fun _ _ => trivial)

theorem invariant {I : σ → Prop} (keeps : ∀ s e t, I s → step s e t → I t)
    (run : Run step s trace t) (start : I s) : I t :=
  (run.always keeps start).last

end Run

theorem Reachable.refl (s : σ) : Reachable step s s := ⟨[], .nil⟩

theorem Reachable.tail {e : ε} (reach : Reachable step s t) (taken : step t e u) :
    Reachable step s u := by
  obtain ⟨trace, run⟩ := reach
  exact ⟨_, .snoc run taken⟩

theorem Reachable.invariant {I : σ → Prop} (keeps : ∀ s e t, I s → step s e t → I t)
    (reach : Reachable step s t) (start : I s) : I t := by
  obtain ⟨_, run⟩ := reach
  exact run.invariant keeps start

end Runs
