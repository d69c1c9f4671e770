import Mathlib.Init

/-! A service answers requests one after another. Two services that answer alike, and stay
related, give the same answers to every sequence of requests. -/

namespace Halon.Library
variable {σ τ α β : Type}

/-- The answers to a sequence of requests, and the state after it. -/
def serve (step : σ → α → β × σ) (state : σ) : List α → List β × σ
  | [] => ([], state)
  | request :: rest =>
    let (answer, next) := step state request
    let (answers, last) := serve step next rest
    (answer :: answers, last)

variable {step : σ → α → β × σ} {spec : τ → α → β × τ} {s : σ} {t : τ}

theorem serve_kept {kept : σ → Prop} (initial : kept s) (preserved : ∀ s request, kept s → kept (step s request).2)
    (requests : List α) : kept (serve step s requests).2 := by
  induction requests generalizing s with
  | nil => exact initial
  | cons request rest ih => exact ih (preserved s request initial)

theorem serve_alike {related : σ → τ → Prop} (initial : related s t)
    (each : ∀ s t request, related s t →
      (step s request).1 = (spec t request).1 ∧ related (step s request).2 (spec t request).2)
    (requests : List α) : (serve step s requests).1 = (serve spec t requests).1 ∧
      related (serve step s requests).2 (serve spec t requests).2 := by
  induction requests generalizing s t with
  | nil => exact ⟨rfl, initial⟩
  | cons request rest ih =>
    obtain ⟨answer, next⟩ := each s t request initial
    obtain ⟨answers, last⟩ := ih next
    refine ⟨?_, last⟩
    change (step s request).1 :: _ = (spec t request).1 :: _
    rw [answer, answers]

end Halon.Library
