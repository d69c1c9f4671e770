import Halon.Library.Effects

/-! Two computations that do the same to the world, from states that are related to states
that are related. Proofs go through both side by side; a step that only one of them makes
is skipped when it stays within the relation. -/

namespace Halon.Library.Stateful
variable {σ τ ω ε α β γ δ : Type}

/-- Whatever the first computation comes to, the second one comes to as well. A computation
returns or fails, so that the converse holds too. -/
structure Alike (related : σ → τ → Prop) (same : α → β → Prop) (x : Stateful σ ω ε α) (y : Stateful τ ω ε β) : Prop where
  returns : ∀ {s t w a s' w'}, related s t → Returns x s w a s' w' → ∃ b t', Returns y t w b t' w' ∧ same a b ∧ related s' t'
  fails : ∀ {s t w error w'}, related s t → Fails x s w error w' → Fails y t w error w'

theorem returns_or_fails (x : Stateful σ ω ε α) (s : σ) (w : ω) :
    (∃ value s' w', Returns x s w value s' w') ∨ ∃ error w', Fails x s w error w' := by
  unfold Returns Fails
  rcases outcome x s w with ⟨error | ⟨value, s'⟩, w'⟩
  · exact .inr ⟨error, w', rfl⟩
  · exact .inl ⟨value, s', w', rfl⟩

variable {x : Stateful σ ω ε α}

theorem Returns.unique (first : Returns x s w a s₁ w₁) (second : Returns x s w b s₂ w₂) :
    a = b ∧ s₁ = s₂ ∧ w₁ = w₂ := by
  have same := first.symm.trans second
  cases same
  exact ⟨rfl, rfl, rfl⟩

theorem Returns.not_fails (returned : Returns x s w a s' w') :
    ¬ Fails x s w error v := by
  intro failed
  cases returned.symm.trans failed

namespace Alike
variable {related : σ → τ → Prop} {same : α → β → Prop} {result : γ → δ → Prop}
  {x : Stateful σ ω ε α} {y : Stateful τ ω ε β} {f : α → Stateful σ ω ε γ} {g : β → Stateful τ ω ε δ}

theorem pure (equal : same a b) : Alike related same (pure a : Stateful σ ω ε α) (pure b : Stateful τ ω ε β) where
  returns alike returned := by
    obtain ⟨rfl, rfl, rfl⟩ := returns_pure.mp returned
    exact ⟨b, _, returns_pure.mpr ⟨rfl, rfl, rfl⟩, equal, alike⟩
  fails _ failed := absurd failed not_fails_pure

theorem bind (first : Alike related same x y) (rest : ∀ a b, same a b → Alike related result (f a) (g b)) :
    Alike related result (x >>= f) (y >>= g) where
  returns alike returned := by
    obtain ⟨a, _, _, returned, later⟩ := returns_bind.mp returned
    obtain ⟨b, _, here, equal, between⟩ := first.returns alike returned
    obtain ⟨d, t', there, equal, after⟩ := (rest a b equal).returns between later
    exact ⟨d, t', returns_bind.mpr ⟨_, _, _, here, there⟩, equal, after⟩
  fails alike failed := by
    rcases fails_bind.mp failed with failed | ⟨a, _, _, returned, failed⟩
    · exact fails_bind.mpr (.inl (first.fails alike failed))
    · obtain ⟨b, _, here, equal, between⟩ := first.returns alike returned
      exact fails_bind.mpr (.inr ⟨_, _, _, here, (rest a b equal).fails between failed⟩)

theorem skip {y : Stateful τ ω ε δ} (quiet : ∀ {s t w}, related s t → ∃ a s', Returns x s w a s' w ∧ related s' t)
    (rest : ∀ a, Alike related result (f a) y) : Alike related result (x >>= f) y where
  returns {s t w _ _ _} alike returned := by
    obtain ⟨a, s', here, between⟩ := quiet (w := w) alike
    obtain ⟨_, _, _, there, later⟩ := returns_bind.mp returned
    obtain ⟨rfl, rfl, rfl⟩ := here.unique there
    exact (rest a).returns between later
  fails {s t w _ _} alike failed := by
    obtain ⟨a, s', here, between⟩ := quiet (w := w) alike
    rcases fails_bind.mp failed with failed | ⟨_, _, _, there, failed⟩
    · exact absurd failed here.not_fails
    · obtain ⟨rfl, rfl, rfl⟩ := here.unique there
      exact (rest a).fails between failed

theorem skip_right {x} (quiet : ∀ {s t w}, related s t → ∃ b t', Returns y t w b t' w ∧ related s t')
    (rest : ∀ b, Alike related result x (g b)) : Alike related result x (y >>= g) where
  returns {s t w _ _ _} alike returned := by
    obtain ⟨b, t', here, between⟩ := quiet (w := w) alike
    obtain ⟨d, t'', there, equal, after⟩ := (rest b).returns between returned
    exact ⟨d, t'', returns_bind.mpr ⟨_, _, _, here, there⟩, equal, after⟩
  fails {s t w _ _} alike failed := by
    obtain ⟨b, t', here, between⟩ := quiet (w := w) alike
    exact fails_bind.mpr (.inr ⟨_, _, _, here, (rest b).fails between failed⟩)

theorem get_bind {f : σ → Stateful σ ω ε γ} {g : τ → Stateful τ ω ε δ}
    (rest : ∀ s t, related s t → Alike related result (f s) (g t)) : Alike related result (get >>= f) (get >>= g) where
  returns alike returned := by
    obtain ⟨d, t', there, equal, after⟩ := (rest _ _ alike).returns alike (returns_get_bind.mp returned)
    exact ⟨d, t', returns_get_bind.mpr there, equal, after⟩
  fails alike failed := by
    rcases fails_bind.mp failed with failed | ⟨_, _, _, got, failed⟩
    · exact absurd failed not_fails_get
    · obtain ⟨rfl, rfl, rfl⟩ := returns_get.mp got
      exact fails_bind.mpr (.inr ⟨_, _, _, returns_get.mpr ⟨rfl, rfl, rfl⟩, (rest _ _ alike).fails alike failed⟩)

theorem modify {g : σ → σ} {h : τ → τ} (kept : ∀ s t, related s t → related (g s) (h t)) :
    Alike related (fun _ _ => True) (modify g : Stateful σ ω ε PUnit) (modify h : Stateful τ ω ε PUnit) where
  returns alike returned := by
    obtain ⟨rfl, rfl⟩ := returns_modify.mp returned
    exact ⟨.unit, _, returns_modify.mpr ⟨rfl, rfl⟩, trivial, kept _ _ alike⟩
  fails _ failed := absurd failed not_fails_modify

theorem lift (m : Process ω ε α) : Alike related Eq (liftM m : Stateful σ ω ε α) (liftM m : Stateful τ ω ε α) where
  returns alike returned := by
    obtain ⟨ran, rfl⟩ := returns_lift.mp returned
    exact ⟨_, _, returns_lift.mpr ⟨ran, rfl⟩, rfl, alike⟩
  fails _ failed := fails_lift.mpr (fails_lift.mp failed)

theorem throw_bind (error : ε) : Alike related result (throw error : Stateful σ ω ε γ)
    ((throw error : Stateful τ ω ε β) >>= g) where
  returns _ returned := absurd returned not_returns_throw
  fails _ failed := fails_bind.mpr (.inl (fails_throw.mpr (fails_throw.mp failed)))

theorem throw (error : ε) : Alike related same (throw error : Stateful σ ω ε α) (throw error : Stateful τ ω ε β) where
  returns _ returned := absurd returned not_returns_throw
  fails _ failed := fails_throw.mpr (fails_throw.mp failed)

def Tried (same : α → β → Prop) : Except ε α → Except ε β → Prop
  | .ok a, .ok b => same a b
  | .error first, .error second => first = second
  | _, _ => False

theorem attempt (first : Alike related same x y) : Alike related (Tried same) (attempt x) (attempt y) where
  returns alike returned := by
    rcases returns_attempt.mp returned with ⟨a, rfl, ran⟩ | ⟨error, rfl, rfl, failed⟩
    · obtain ⟨b, t', there, equal, after⟩ := first.returns alike ran
      exact ⟨.ok b, t', returns_attempt.mpr (.inl ⟨b, rfl, there⟩), equal, after⟩
    · exact ⟨.error error, _, returns_attempt.mpr (.inr ⟨error, rfl, rfl, first.fails alike failed⟩), rfl, alike⟩
  fails _ failed := absurd failed not_fails_attempt

theorem attempt_bind {f g} (first : Alike related same x y)
    (failed : ∀ error, Alike related result (f (.error error)) (g (.error error)))
    (returned : ∀ a b, same a b → Alike related result (f (.ok a)) (g (.ok b))) :
    Alike related result (Stateful.attempt x >>= f) (Stateful.attempt y >>= g) := by
  refine .bind (.attempt first) fun tried tried' equal => ?_
  cases tried <;> cases tried'
  case error.error error error' =>
    obtain rfl : error = error' := equal
    exact failed error
  case error.ok => cases equal
  case ok.error => cases equal
  case ok.ok a b => exact returned a b equal

theorem trans {middle : τ → τ → Prop} {other : β → δ → Prop} {composed : α → δ → Prop}
    (first : Alike related same x y) (second : Alike middle other y z) (refl : ∀ t, middle t t)
    (closed : ∀ {s t u}, related s t → middle t u → related s u)
    (compose : ∀ {a b d}, same a b → other b d → composed a d) : Alike related composed x z where
  returns alike returned := by
    obtain ⟨b, t', there, equal, between⟩ := first.returns alike returned
    obtain ⟨d, u, last, also, after⟩ := second.returns (refl _) there
    exact ⟨d, u, last, compose equal also, closed between after⟩
  fails alike failed := second.fails (refl _) (first.fails alike failed)

end Alike
end Halon.Library.Stateful
