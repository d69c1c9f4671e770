import Mathlib.Init

/-! A sequence of choices in which every choice decides where the next one is made.
Positions have type `κ`, choices type `β`; a choice that was made is never changed. -/

namespace Halon.Library.Chain

variable {κ β : Type} {start : κ} {next : κ → β → κ} {chosen more : κ → Option β}

/-- The position after a number of choices, if they all were made. -/
def walk (start : κ) (next : κ → β → κ) (chosen : κ → Option β) : Nat → Option κ
  | 0 => some start
  | n + 1 => (walk start next chosen n).bind fun position => (chosen position).map (next position)

def Grows (chosen more : κ → Option β) : Prop := ∀ position choice, chosen position = some choice → more position = some choice

theorem walk_succ (here : walk start next chosen n = some position)
    (made : chosen position = some choice) : walk start next chosen (n + 1) = some (next position choice) := by
  simp only [walk, here, made, Option.bind_some, Option.map_some]

theorem walk_grows (grows : Grows chosen more) (here : walk start next chosen n = some position) :
    walk start next more n = some position := by
  induction n generalizing position with
  | zero => exact here
  | succ n ih =>
    obtain ⟨before, reached, moved⟩ := Option.bind_eq_some_iff.mp here
    obtain ⟨choice, made, rfl⟩ := Option.map_eq_some_iff.mp moved
    exact walk_succ (ih reached) (grows before choice made)

theorem walk_invariant (kept : Nat → κ → Prop) (initial : kept 0 start)
    (preserved : ∀ n position choice, kept n position → kept (n + 1) (next position choice))
    (here : walk start next chosen n = some position) : kept n position := by
  induction n generalizing position with
  | zero =>
    cases here
    exact initial
  | succ n ih =>
    obtain ⟨before, reached, moved⟩ := Option.bind_eq_some_iff.mp here
    obtain ⟨choice, _, rfl⟩ := Option.map_eq_some_iff.mp moved
    exact preserved n before choice (ih reached)

end Halon.Library.Chain
