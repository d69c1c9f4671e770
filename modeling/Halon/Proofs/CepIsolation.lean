import Halon.Proofs.CepStacks

/-! One step of a machine. When every phase that forks completes, and the forked
actions with it, the step leaves the machine once and adds one machine per fork. -/

namespace Halon.Cep
open Library Stateful List

/-- No action was forked, or the phase and all actions forked in it are complete. -/
def Settled (results : List (Finished app)) : Prop :=
  results.length ≤ 1 ∨ ∀ finished ∈ results, finished.2.2.isComplete

def StackSettles (fuel : Nat) (rule : Rule app) (subs : Subscribers) (smid : Nat) (l : app.LocalState) (b : Buffer app.Payload) :
    Stack app → EngineState app → app.World → Prop
  | [], _, _ => True
  | jmp :: phs, s, w => ∀ applied between v, Returns (jumpApplyTime rule.key jmp) s w applied between v →
    match applied with
    | .inl _ => StackSettles fuel rule subs smid l b phs between v
    | .inr ph => ∀ results s' w', Returns (runPhase fuel subs smid l b ph) between v results s' w' →
      Settled results ∧ ((∀ finished ∈ results, ¬ finished.2.2.isComplete) → StackSettles fuel rule subs smid l b phs s' w')

def SM.Settles (fuel : Nat) (subs : Subscribers) (s : EngineState app) (w : app.World) : SM app → Prop
  | .bootstrap rule b => ∀ ph between v smid s' w', Returns (jumpEmitTimeout rule.key rule.startPhase) s w ph between v →
    Returns nextSmId between v smid s' w' → StackSettles fuel rule subs smid rule.initialL b [ph] s' w'
  | .interpretInput rule smid l b phs => StackSettles fuel rule subs smid l b phs s w
  | .stopped => True

def SMState.Active (state : SMState) : Prop := state = .SMRunning ∨ state = .SMFinished

/-- What a step of a machine leaves when no fork interferes: the machine once, one
machine for every id handed out, all of them running; or the machine alone. -/
structure Isolated (own before after : Nat) (machines : Machines app) : Prop where
  added : ∃ children, Fresh before after children ∧ (machines.map fun x => x.1.smId).Perm (own :: children)
  active : (∀ x ∈ machines, x.1.smResultState.Active) ∨ machines.length = 1 ∧ after = before

/-- The id that a machine runs under, and the first id that is left for forks. -/
def SM.identity (s : EngineState app) : SM app → Nat × Nat
  | .bootstrap .. => (s.engineStateMaxId, s.engineStateMaxId + 1)
  | .interpretInput _ smid .. => (smid, s.engineStateMaxId)
  | .stopped => (0, s.engineStateMaxId)

def Owned (x : SMResult app.Payload × SM app) : Prop :=
  x.1.smResultState = .SMStopped ∨ ∃ rule l b phs, x.2 = .interpretInput rule x.1.smId l b phs

private theorem empty_owned (returned : Returns (executeStack fuel rule subs smid l b [] f info) s w machines s' w') :
    s' = s ∧ ∃ x, machines = [x] ∧ x.1.smId = smid ∧ Owned x := by
  unfold executeStack at returned
  split at returned
  next =>
    obtain ⟨rfl, rfl, rfl⟩ := returns_pure.mp returned
    exact ⟨rfl, _, rfl, rfl, .inl rfl⟩
  next =>
    obtain ⟨rfl, rfl, rfl⟩ := returns_pure.mp returned
    exact ⟨rfl, _, rfl, rfl, .inr ⟨_, _, _, _, rfl⟩⟩

private theorem next_complete (complete : finished.2.2.isComplete)
    (returned : Returns (next rule info b ph suspended stopped finished) s w machines s' w') :
    s'.engineStateMaxId = s.engineStateMaxId ∧
      ∃ x, machines = [x] ∧ x.1.smId = finished.1 ∧ x.1.smResultState.Active ∧ Owned x := by
  obtain ⟨idm, _, ⟨l', _ | ⟨jmp, _⟩⟩ | _ | _⟩ := finished
  · simp only [next, returns_bind, returns_pure] at returned
    obtain ⟨_, _, _, emitted, rfl, rfl, rfl⟩ := returned
    exact ⟨(Quiet.jumpEmitTimeout _ _).same emitted, _, rfl, rfl, .inr rfl, .inr ⟨_, _, _, _, rfl⟩⟩
  · rw [next, returns_bind] at returned
    obtain ⟨_, _, _, emitted, returned⟩ := returned
    obtain ⟨rfl, rfl, rfl⟩ := returns_pure.mp returned
    refine ⟨?_, _, rfl, rfl, .inl rfl, .inr ⟨_, _, _, _, rfl⟩⟩
    have quiet (jmp : Jump PhaseHandle) : Quiet (do jumpEmitTimeout rule.key (← mkPhase rule jmp)) :=
      (Quiet.mkPhase rule jmp).bind fun target => Quiet.jumpEmitTimeout rule.key target
    exact (Quiet.mapM quiet _).same emitted
  · cases complete
  · cases complete

private theorem all_complete {results : List (Finished app)} {machines}
    (complete : ∀ finished ∈ results, finished.2.2.isComplete)
    (returned : Returns (results.mapM (next rule info b ph suspended stopped)) s w machines s' w') :
    s'.engineStateMaxId = s.engineStateMaxId ∧ machines.flatten.map (fun x => x.1.smId) = results.map Prod.fst ∧
      ∀ x ∈ machines.flatten, x.1.smResultState.Active ∧ Owned x := by
  induction results generalizing s w machines with
  | nil =>
    obtain ⟨rfl, rfl, rfl⟩ := returns_mapM_nil.mp returned
    exact ⟨rfl, rfl, by simp⟩
  | cons finished _ ih =>
    obtain ⟨_, _, v, _, ran, later, rfl⟩ := returns_mapM_cons.mp returned
    obtain ⟨same, x, rfl, id, active, owned⟩ := next_complete (complete finished mem_cons_self) ran
    obtain ⟨equal, ids, others⟩ := ih (fun other member => complete other (mem_cons_of_mem _ member)) later
    refine ⟨equal.trans same, ?_, ?_⟩
    · rw [flatten_cons, map_append, ids]
      simp [id]
    · intro y member
      rw [flatten_cons, singleton_append, mem_cons] at member
      rcases member with rfl | member
      · exact ⟨active, owned⟩
      · exact others y member

theorem executeStack_isolated (settles : StackSettles fuel rule subs smid l b phs s w)
    (returned : Returns (executeStack fuel rule subs smid l b phs f info) s w machines s' w') :
    Isolated smid s.engineStateMaxId s'.engineStateMaxId machines ∧ ∀ x ∈ machines, Owned x := by
  induction phs generalizing s s' w w' f info machines with
  | nil =>
    obtain ⟨rfl, x, rfl, rfl, owned⟩ := empty_owned returned
    exact ⟨⟨⟨[], Fresh.none _, List.Perm.refl _⟩, .inr ⟨rfl, rfl⟩⟩, fun y member => mem_singleton.mp member ▸ owned⟩
  | cons jmp phs ih =>
    rw [executeStack, returns_bind] at returned
    obtain ⟨applied, between, v, tried, returned⟩ := returned
    have same := (Quiet.jumpApplyTime _ _).same tried
    have remaining := settles applied between v tried
    cases applied with
    | inl =>
      rw [← same]
      exact ih remaining returned
    | inr =>
      simp only [returns_bind] at returned
      obtain ⟨_, _, _, ran, _, _, _, followed, returned⟩ := returned
      obtain ⟨rfl, rfl, rfl⟩ := returns_pure.mp returned
      obtain ⟨settled, rest⟩ := remaining _ _ _ ran
      obtain ⟨out, forks, rfl, fresh⟩ := runPhase_fresh ran
      rw [same] at fresh
      by_cases complete : ∀ finished ∈ (smid, out) :: forks, finished.2.2.isComplete
      · obtain ⟨equal, ids, owned⟩ := all_complete complete followed
        rw [equal]
        exact ⟨⟨⟨_, fresh, .of_eq ids⟩, .inl fun x member => (owned x member).1⟩, fun x member => (owned x member).2⟩
      · have alone : forks = [] := length_eq_zero_iff.mp (by
          have count := settled.resolve_right complete
          simp only [length_cons] at count
          omega)
        subst alone
        rw [forall_mem_singleton] at complete
        have later := rest (forall_mem_singleton.mpr complete)
        rw [← fresh.same]
        obtain ⟨_, _, _, _, ran, nothing, rfl⟩ := returns_mapM_cons.mp followed
        obtain ⟨rfl, rfl, rfl⟩ := returns_mapM_nil.mp nothing
        rw [flatten_singleton]
        obtain ⟨_, _ | _ | _⟩ := out
        · exact absurd rfl complete
        · exact ih later ran
        · exact ih later ran

theorem SM.execute_isolated {sm : SM app} (settles : sm.Settles fuel subs s w)
    (returned : Returns (sm.execute fuel subs) s w machines s' w') :
    Isolated (sm.identity s).1 (sm.identity s).2 s'.engineStateMaxId machines ∧ ∀ x ∈ machines, Owned x := by
  cases sm with
  | bootstrap =>
    simp only [SM.execute, returns_bind] at returned
    obtain ⟨_, _, _, emitted, _, _, _, handed, returned⟩ := returned
    have isolated := executeStack_isolated (settles _ _ _ _ _ _ emitted handed) returned
    have same := (Quiet.jumpEmitTimeout _ _).same emitted
    obtain ⟨rfl, rfl, rfl⟩ := returns_nextSmId.mp handed
    rw [same] at isolated
    exact isolated
  | interpretInput => exact executeStack_isolated settles returned
  | stopped => exact absurd returned not_returns_throw

theorem SM.execute_grows {sm : SM app} (returned : Returns (sm.execute fuel subs) s w machines s' w') :
    s.engineStateMaxId ≤ s'.engineStateMaxId := by
  obtain ⟨_, _, l, b, phs, between, v, enters, ran⟩ := execute_enters returned
  have begins : s.engineStateMaxId ≤ between.engineStateMaxId := by
    cases enters with
    | bootstrap emitted => exact ((Quiet.jumpEmitTimeout _ _).same emitted).ge.trans (Nat.le_succ _)
    | interpretInput => exact le_refl _
  refine begins.trans (executeStack_states (R := fun s s' => s.engineStateMaxId ≤ s'.engineStateMaxId) (fun _ =>
    le_refl _) le_trans
    (fun timed => ?_) (fun emitted => ?_) (fun ran => ?_) ran)
  · exact ((Quiet.jumpApplyTime _ _).same timed).ge
  · exact ((Quiet.jumpEmitTimeout _ _).same emitted).ge
  · obtain ⟨_, _, _, fresh⟩ := runPhase_fresh ran
    exact fresh.grows

end Halon.Cep
