import Halon.Proofs.CepLogic

/-! Further rules for phases and stacks: programs that run one after another, programs that
fork, and stacks that are taken apart phase by phase. -/

namespace Halon.Cep
open Library Stateful List
variable {app : Application} {s s' : EngineState app} {w w' : app.World}

namespace PhaseM
variable {subs : Subscribers} {l : app.LocalState} {result : Evaluation app}

/-- What a program that was gone on from did: it reached its end with a value, and the rest
started from there, or it ended the phase. -/
inductive Sequenced (subs : Subscribers) (mindex : Option Index) (f : app.Value → PhaseM app)
    (first : EngineM app (Evaluation app))
    (s : EngineState app) (w : app.World) (result : Evaluation app) (s' : EngineState app) (w' : app.World) : Prop where
  | goesOn {l : app.LocalState}
      (ran : Returns first s w (((buf, .SM_Complete l []), []), some a) between v)
      (rest : Returns ((f a).go subs mindex l buf) between v result s' w')
  | ends (ran : Returns first s w ((out, []), none) s' w')

variable {first : EngineM app (Evaluation app)}

theorem Sequenced.mono (sequenced : Sequenced subs mindex f first s w result s' w')
    (part : ∀ {value between v}, Returns first s w value between v → Returns other s₀ w₀ value between v) :
    Sequenced subs mindex f other s₀ w₀ result s' w' := by
  cases sequenced with
  | goesOn ran rest => exact .goesOn (part ran) rest
  | ends ran => exact .ends (part ran)

theorem forkless_none (forkless : ∀ action, ¬ Forks action p)
    (returned : Returns (p.go subs mindex l buf) s w result s' w') : result.1.2 = [] := by
  rw [eq_nil_iff_forall_not_mem]
  intro child member
  exact forkless _ ((go_evaluated subs mindex p returned).forks child member)

theorem Guards.forkless {f caught h}
    (body : ∀ action, ¬ Forks action f) (handler : ∀ e action, ¬ Forks action (h e))
    (guards : Guards subs mindex f caught h l buf s w result s' w') : result.1.2 = [] := by
  cases guards with
  | body ran => exact forkless_none body ran
  | left ran =>
    have none := forkless_none body ran
    exact none
  | handled _ _ ran | gaveUp _ _ ran =>
    have none := forkless_none (handler _) ran
    exact none

private theorem ended_here (form : first = pure ((out, []), none)) (returned : Returns first s w result s' w') :
    Sequenced subs mindex f first s w result s' w' := by
  subst form
  obtain ⟨rfl, rfl, rfl⟩ := returns_pure.mp returned
  exact .ends returned

theorem go_bind (forkless : ∀ action, ¬ Forks action p)
    (returned : Returns ((p.bind f).go subs mindex l buf) s w result s' w') :
    Sequenced subs mindex f (p.go subs mindex l buf) s w result s' w' := by
  induction p generalizing l buf s s' w w' result with
  | ret => exact .goesOn (returns_ret.mpr ⟨rfl, rfl, rfl⟩) returned
  | Continue | Stop | Suspend | Switch => exact ended_here rfl returned
  | GetGlobal k ih =>
    have sequenced := ih _ (fun action forks => forkless action ⟨_, forks⟩) (returns_GetGlobal.mp returned)
    exact sequenced.mono returns_GetGlobal.mpr
  | GetLocal k ih => exact ih l (fun action forks => forkless action ⟨_, forks⟩) returned
  | PutGlobal g k ih =>
    have sequenced := ih (fun action forks => forkless action forks) (returns_PutGlobal.mp returned)
    exact sequenced.mono returns_PutGlobal.mpr
  | PutLocal l' k ih => exact ih (fun action forks => forkless action forks) returned
  | Fork typ naction => exact absurd (.inl rfl) (forkless naction)
  | Lift m k ih =>
    obtain ⟨a, v, lifted, returned⟩ := returns_Lift.mp returned
    have sequenced := ih a (fun action forks => forkless action ⟨_, forks⟩) returned
    exact sequenced.mono fun ran => returns_Lift.mpr ⟨a, v, lifted, ran⟩
  | Publish e k ih =>
    have sequenced := ih (fun action forks => forkless action forks) (returns_Publish.mp returned)
    exact sequenced.mono returns_Publish.mpr
  | Peek type idx k ih | Shift type idx k ih =>
    rw [bind, go] at returned
    rw [go]
    split at returned
    next => exact ended_here rfl returned
    next => exact ih _ (fun action forks => forkless action ⟨_, forks⟩) returned
  | Catch body caught h next _ _ ih =>
    have alone {result s' w'} (guards : Guards subs mindex body caught h l buf s w result s' w') : result.1.2 = [] :=
      guards.forkless (fun action forks => forkless action (.inl forks))
        fun e action forks => forkless action (.inr (.inl ⟨e, forks⟩))
    rcases returns_Catch.mp returned with ⟨_, l', phs, r, _, _, _, guards, further, rfl⟩ | ⟨out, phs, guards, rfl⟩
    · cases alone guards
      have sequenced := ih r (fun action forks => forkless action (.inr (.inr ⟨r, forks⟩))) further
      exact sequenced.mono fun ran => returns_Catch.mpr (.inl ⟨_, _, _, _, _, _, _, guards, ran, rfl⟩)
    · cases alone guards
      exact .ends (returns_Catch.mpr (.inr ⟨_, _, guards, rfl⟩))

end PhaseM

variable {fuel : Nat} {rule : Rule app} {subs : Subscribers} {smid : Nat} {l : app.LocalState} {b : Buffer app.Payload}
  {ph : Phase app} {machines : Machines app}

private theorem executeStack_head
    (returned : Returns (executeStack fuel rule subs smid l b (.NormalJump ph :: phs) f info) s w machines s' w') :
    ∃ results between v parts, Returns (runPhase fuel subs smid l b ph) s w results between v ∧
      Returns (results.mapM (next rule info b ph
        (executeStack fuel rule subs smid l b phs (f ∘ (.NormalJump ph :: ·)) (info ∘ (.FailExe ph.phName .SuspendExe b :: ·)))
        (executeStack fuel rule subs smid l b phs f (info ∘ (.FailExe ph.phName .StopExe b :: ·))))) between v parts s' w' ∧
      machines = parts.flatten := by
  rw [executeStack, returns_bind] at returned
  obtain ⟨_, _, _, timed, returned⟩ := returned
  obtain ⟨rfl, rfl, rfl⟩ := returns_pure.mp timed
  obtain ⟨results, between, v, ran, returned⟩ := returns_bind.mp returned
  obtain ⟨parts, followed, rfl⟩ := returns_bind_pure.mp returned
  exact ⟨results, between, v, parts, ran, followed, rfl⟩

theorem executeStack_suspends (suspends : ∀ {results between v}, Returns (runPhase fuel subs smid l b ph) s w results between v →
      results = [(smid, b, .SM_Suspend)] ∧ between = s ∧ v = w)
    (returned : Returns (executeStack fuel rule subs smid l b (.NormalJump ph :: phs) f info) s w machines s' w') :
    ∃ info', Returns (executeStack fuel rule subs smid l b phs (f ∘ (.NormalJump ph :: ·)) info') s w machines s' w' := by
  obtain ⟨_, _, _, _, ran, followed, rfl⟩ := executeStack_head returned
  obtain ⟨rfl, rfl, rfl⟩ := suspends ran
  obtain ⟨_, _, _, _, first, none, rfl⟩ := returns_mapM_cons.mp followed
  obtain ⟨rfl, rfl, rfl⟩ := returns_mapM_nil.mp none
  rw [flatten_cons, flatten_nil, append_nil]
  exact ⟨_, first⟩

theorem executeStack_completes
    (completes : ∀ {results between v}, Returns (runPhase fuel subs smid l b ph) s w results between v →
      ∀ finished ∈ results, finished.2.2.isComplete)
    (returned : Returns (executeStack fuel rule subs smid l b (.NormalJump ph :: phs) f info) s w machines s' w') :
    ∃ results between v, Returns (runPhase fuel subs smid l b ph) s w results between v ∧ Housekeeping between v s' w' ∧
      List.Forall₂ (Completed rule) results machines := by
  obtain ⟨results, _, _, _, ran, followed, rfl⟩ := executeStack_head returned
  obtain ⟨kept, completed⟩ := mapM_completed (completes ran) followed
  exact ⟨results, _, _, ran, kept, completed⟩

theorem executeStack_stops (stops : jmp.value.phCall = .DirectCall .Stop)
    (returned : Returns (executeStack fuel rule subs smid l b [jmp] id id) s w machines s' w') :
    Housekeeping s w s' w' ∧ ∃ result sm, machines = [(result, sm)] ∧
      (result.smResultState = .SMStopped ∨ result.smResultState = .SMSuspended ∧
        ∃ back : Jump (Phase app), back.value = jmp.value ∧ sm = .interpretInput rule smid l b [back]) := by
  rw [executeStack, returns_bind] at returned
  obtain ⟨applied, _, _, timed, returned⟩ := returned
  obtain ⟨kept, same⟩ := Housekeeping.jumpApplyTime timed
  cases applied with
  | inl back =>
    obtain ⟨rfl, rfl, rfl⟩ := returns_pure.mp returned
    exact ⟨kept, _, _, rfl, .inr ⟨rfl, back, same, rfl⟩⟩
  | inr ph =>
    obtain ⟨_, _, _, ran, returned⟩ := returns_bind.mp returned
    obtain ⟨_, followed, rfl⟩ := returns_bind_pure.mp returned
    change ph = jmp.value at same
    subst same
    rw [runPhase, stops] at ran
    obtain ⟨_, _, evaluated, rfl, rfl⟩ := runPhaseM_alone (fun evaluated => by rw [(PhaseM.returns_Stop.mp evaluated).1]) ran
    obtain ⟨rfl, rfl, rfl⟩ := PhaseM.returns_Stop.mp evaluated
    obtain ⟨_, _, _, _, first, none, rfl⟩ := returns_mapM_cons.mp followed
    obtain ⟨rfl, rfl, rfl⟩ := returns_mapM_nil.mp none
    obtain ⟨rfl, rfl, rfl⟩ := returns_pure.mp first
    exact ⟨⟨kept.global, kept.world⟩, _, _, rfl, .inl rfl⟩

theorem completed_cons (completed : List.Forall₂ (Completed rule) ((idm, buffer, .SM_Complete l xs) :: results) machines) :
    ∃ result sm others, machines = (result, sm) :: others ∧ Follows rule idm buffer l xs result.smResultState sm ∧
      List.Forall₂ (Completed rule) results others := by
  obtain ⟨made, others, ⟨_, _, out, follows⟩, rest, rfl⟩ := forall₂_cons_left_iff.mp completed
  cases out
  exact ⟨made.1, made.2, others, rfl, follows, rest⟩

theorem completed_one (completed : List.Forall₂ (Completed rule) [(idm, buffer, .SM_Complete l xs)] machines) :
    ∃ result sm, machines = [(result, sm)] ∧ Follows rule idm buffer l xs result.smResultState sm := by
  obtain ⟨result, sm, _, rfl, follows, none⟩ := completed_cons completed
  obtain rfl := forall₂_nil_left_iff.mp none
  exact ⟨result, sm, rfl, follows⟩

theorem lookup_phaseMap (names : (phases.map Phase.phName).Nodup) (member : ph ∈ phases) :
    (phaseMap phases).lookup ph.phName = some (.NormalJump ph) := by
  induction phases with
  | nil => cases member
  | cons first _ ih =>
    rw [map_cons, nodup_cons] at names
    rw [phaseMap, map_cons, lookup_cons]
    rcases mem_cons.mp member with rfl | member
    · rw [beq_self_eq_true]
    · have other : ph.phName ≠ first.phName := fun same => names.1 (same ▸ mem_map_of_mem member)
      rw [beq_false_of_ne other]
      exact ih names.2 member

end Halon.Cep
