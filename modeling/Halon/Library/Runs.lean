import Mathlib.Init

/-! Runs of a transition system. A step is a partial function of the state and
an action, so the scheduler's choices are the list of actions. Every safety
result is one invariant and one step lemma; the induction is made here. -/

namespace Halon.Library

universe u v

variable {σ : Type u} {α : Type v}

/-- The states reached from `start` when every step meets `allowed`. -/
inductive Run (step : σ → α → Option σ) (allowed : σ → α → Prop) (start : σ) : σ → Prop where
  | refl : Run step allowed start start
  | step {before after : σ} (action : α) (earlier : Run step allowed start before)
      (permitted : allowed before action) (moves : step before action = some after) :
      Run step allowed start after

namespace Run
variable {step : σ → α → Option σ} {allowed : σ → α → Prop} {start final : σ}

theorem invariant {kept : σ → Prop} (run : Run step allowed start final) (initial : kept start)
    (preserved : ∀ before action after, kept before → allowed before action →
      step before action = some after → kept after) : kept final := by
  induction run with
  | refl => exact initial
  | step action _ permitted moves ih => exact preserved _ action _ ih permitted moves

theorem weaken (run : Run step allowed start final)
    (implies : ∀ state action, allowed state action → weaker state action) :
    Run step weaker start final := by
  induction run with
  | refl => exact .refl
  | step action _ permitted moves ih => exact ih.step action (implies _ _ permitted) moves

theorem trans (first : Run step allowed start middle) (rest : Run step allowed middle final) :
    Run step allowed start final := by
  induction rest with
  | refl => exact first
  | step action _ permitted moves ih => exact ih.step action permitted moves

end Run

/-- Execute a schedule, refusing any action that the condition forbids. -/
def execute (step : σ → α → Option σ) (allowed : σ → α → Prop) [∀ state action, Decidable (allowed state action)]
    (start : σ) : List α → Option σ
  | [] => some start
  | action :: rest =>
    if allowed start action then (step start action).bind (fun next => execute step allowed next rest) else none

variable {step : σ → α → Option σ} {allowed : σ → α → Prop}

theorem run_of_execute [∀ state action, Decidable (allowed state action)]
    (executed : execute step allowed start actions = some final) :
    Run step allowed start final := by
  induction actions generalizing start with
  | nil =>
    cases executed
    exact .refl
  | cons action rest ih =>
    simp only [execute] at executed
    split at executed
    next permitted =>
      obtain ⟨_, moves, remaining⟩ := Option.bind_eq_some_iff.mp executed
      exact (Run.step action .refl permitted moves).trans (ih remaining)
    next => cases executed

section Computed
variable [∀ state action, Decidable (allowed state action)] {P Q : σ → Prop} [DecidablePred P] (actions : List α)

/-- What was computed of the state that a schedule leads to is a fact about a run. -/
theorem exists_run (computed : (execute step allowed start actions).any (fun final => P final) = true) :
    ∃ final, Run step allowed start final ∧ P final := by
  obtain ⟨final, executed, holds⟩ := (Option.any_eq_true _ _).mp computed
  exact ⟨final, run_of_execute executed, of_decide_eq_true holds⟩

/-- And so is what follows of it for every run. -/
theorem exists_run_and (computed : (execute step allowed start actions).any (fun final => P final) = true)
    (follows : ∀ final, Run step allowed start final → P final → Q final) :
    ∃ final, Run step allowed start final ∧ P final ∧ Q final := by
  obtain ⟨final, run, holds⟩ := exists_run actions computed
  exact ⟨final, run, holds, follows final run holds⟩

end Computed

end Halon.Library
