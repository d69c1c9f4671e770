import Halon.Proofs.CepForks

/-! What all results of a step of a machine have in common. The rule for a step is given what
its parts guarantee: taking up a jump, emitting its timeout, and running a phase. -/

namespace Halon.Cep
open Library Stateful List
variable {app : Application} {s s' : EngineState app} {w w' : app.World} {fuel : Nat} {rule : Rule app}
    {subs : Subscribers} {smid : Nat}
  {l : app.LocalState} {b : Buffer app.Payload} {machines : Machines app}

def leftSM (rule : Rule app) (smid : Nat) (l : app.LocalState) (b : Buffer app.Payload)
    (infos : List (ExecutionInfo app.Payload)) :
    Stack app → SMResult app.Payload × SM app
  | [] => stoppedSM (fun _ => infos) smid
  | back => (⟨smid, .SMSuspended, infos⟩, .interpretInput rule smid l b back)

theorem executeStack_nil (returned : Returns (executeStack fuel rule subs smid l b [] f info) s w machines s' w') :
    s' = s ∧ w' = w ∧ machines = [leftSM rule smid l b (info []) (f [])] := by
  unfold executeStack at returned
  split at returned
  next none =>
    obtain ⟨rfl, rfl, rfl⟩ := returns_pure.mp returned
    rw [none]
    exact ⟨rfl, rfl, rfl⟩
  next some =>
    obtain ⟨rfl, rfl, rfl⟩ := returns_pure.mp returned
    obtain ⟨_, _, here⟩ := exists_cons_of_ne_nil some
    rw [here]
    exact ⟨rfl, rfl, rfl⟩

/-- What the parts of a step guarantee: `R` of the states before and after, `T` of jumps that are put back, `G` of the results
of a phase, and `Q` of the machines that are made. -/
structure Guarantees (fuel : Nat) (rule : Rule app) (subs : Subscribers) (smid : Nat) (l : app.LocalState)
    (b : Buffer app.Payload)
    (R : EngineState app → EngineState app → Prop) (T : EngineState app → Jump (Phase app) → Prop) (G : Finished app → Prop)
    (Q : EngineState app → SMResult app.Payload × SM app → Prop) : Prop where
  refl : ∀ s, R s s
  trans : ∀ {s s' s''}, R s s' → R s' s'' → R s s''
  waits : ∀ {s s' jmp}, T s jmp → R s s' → T s' jmp
  stays : ∀ {s s' made}, Q s made → R s s' → Q s' made
  timed : ∀ {jmp s w applied s' w'}, Returns (jumpApplyTime rule.key jmp) s w applied s' w' →
    R s s' ∧ ∀ nxt, applied = .inl nxt → T s' nxt
  normal : ∀ s ph, T s (.NormalJump ph)
  emits : ∀ {jmp s w emitted s' w'}, Returns
    (jumpEmitTimeout rule.key jmp : EngineM app (Jump (Phase app))) s w emitted s' w' → R s s'
  runs : ∀ {ph s w results s' w'}, Returns (runPhase fuel subs smid l b ph) s w results s' w' → R s s' ∧
    ∀ finished ∈ results, G finished
  made : ∀ {s idm buffer l' xs state infos l'' phs}, G (idm, buffer, .SM_Complete l' xs) → state ≠ .SMSuspended → phs ≠ [] →
    Q s (⟨idm, state, infos⟩, .interpretInput rule idm l'' buffer phs)
  left : ∀ {s infos back}, (∀ jmp ∈ back, T s jmp) → Q s (leftSM rule smid l b infos back)

namespace Guarantees
variable {R : EngineState app → EngineState app → Prop} {T : EngineState app → Jump (Phase app) → Prop} {G : Finished app → Prop}
  {Q : EngineState app → SMResult app.Payload × SM app → Prop}

theorem next (guarantees : Guarantees fuel rule subs smid l b R T G Q) (good : G (idm, buffer, .SM_Complete l' xs))
    (returned : Returns (next rule info b ph suspended stopped (idm, buffer, .SM_Complete l' xs)) s w machines s' w') :
    R s s' ∧ ∀ made ∈ machines, Q s' made := by
  cases xs with
  | nil =>
    obtain ⟨_, emitted, rfl⟩ := returns_bind_pure.mp returned
    exact ⟨guarantees.emits emitted, forall_mem_singleton.mpr (guarantees.made good nofun (cons_ne_nil _ _))⟩
  | cons jmp =>
    obtain ⟨_, emitted, rfl⟩ := returns_bind_pure.mp returned
    have emits := forall_of_mapM (R := R) (P := fun _ _ => True) guarantees.refl guarantees.trans (fun _ _ => trivial) ?_ emitted
    · obtain ⟨_, _, _, _, _, _, rfl⟩ := returns_mapM_cons.mp emitted
      exact ⟨emits.1, forall_mem_singleton.mpr (guarantees.made good nofun (cons_ne_nil _ _))⟩
    · intro jmp _ before v result after v' _ ran
      obtain ⟨_, _, _, found, emitted⟩ := returns_bind.mp ran
      unfold mkPhase at found
      split at found
      next =>
        obtain ⟨_, rfl, _⟩ := returns_pure.mp found
        exact ⟨guarantees.emits emitted, trivial⟩
      next => exact absurd found not_returns_throw

/-- The rule for alternatives that are tried in order, after those in `tried` were put back. -/
theorem executeStack (guarantees : Guarantees fuel rule subs smid l b R T G Q) {f : Stack app → Stack app}
    {info : List (ExecutionInfo app.Payload) → List (ExecutionInfo app.Payload)} (form : f = (tried ++ ·))
    (put : ∀ jmp ∈ tried, T s jmp) (returned : Returns (executeStack fuel rule subs smid l b phs f info) s w machines s' w') :
    R s s' ∧ ∀ made ∈ machines, Q s' made := by
  induction phs generalizing tried f info s w machines s' w' with
  | nil =>
    obtain ⟨rfl, rfl, rfl⟩ := executeStack_nil returned
    refine ⟨guarantees.refl _, forall_mem_singleton.mpr (guarantees.left ?_)⟩
    simpa [form] using put
  | cons jmp phs ih =>
    rw [Cep.executeStack, returns_bind] at returned
    obtain ⟨applied, _, _, timed, returned⟩ := returned
    obtain ⟨moves, waits⟩ := guarantees.timed timed
    have kept {after : EngineState app} (since : R s after) : ∀ jmp ∈ tried, T after jmp :=
      fun jmp member => guarantees.waits (put jmp member) since
    have more {after : EngineState app} (since : R s after) {back : Jump (Phase app)} (last : T after back) :
        ∀ jmp ∈ tried ++ [back], T after jmp :=
      forall_mem_append.mpr ⟨kept since, forall_mem_singleton.mpr last⟩
    have form' (back : Jump (Phase app)) : f ∘ (back :: ·) = ((tried ++ [back]) ++ ·) := by
      funext rest
      simp [form]
    cases applied with
    | inl nxt =>
      have later := ih (form' nxt) (more moves (waits nxt rfl)) returned
      exact ⟨guarantees.trans moves later.1, later.2⟩
    | inr ph =>
      obtain ⟨_, _, _, ran, returned⟩ := returns_bind.mp returned
      obtain ⟨_, followed, rfl⟩ := returns_bind_pure.mp returned
      have since := guarantees.trans moves (guarantees.runs ran).1
      have all := forall_of_mapM (R := R) (P := fun part s => ∀ made ∈ part, Q s made) guarantees.refl guarantees.trans
        (fun good later made member => guarantees.stays (good made member) later) ?_ followed
      · exact ⟨guarantees.trans since all.1, forall_mem_flatten.mpr all.2⟩
      · intro ⟨idm, buffer, out⟩ listed before _ part _ _ later ran'
        have now := guarantees.trans since later
        cases out with
        | SM_Complete => exact guarantees.next ((guarantees.runs ran).2 _ listed) ran'
        | SM_Suspend => exact ih (form' _) (more now (guarantees.normal _ ph)) ran'
        | SM_Stop => exact ih form (kept now) ran'

theorem run (guarantees : Guarantees fuel rule subs smid l b R T G Q)
    (returned : Returns (Cep.executeStack fuel rule subs smid l b phs id id) s w machines s' w') :
    R s s' ∧ ∀ made ∈ machines, Q s' made := by
  have form : id = (([] : Stack app) ++ ·) := rfl
  exact guarantees.executeStack form (nofun) returned

end Guarantees

theorem executeStack_states {R : EngineState app → EngineState app → Prop} (refl : ∀ s, R s s)
    (trans : ∀ {s s' s''}, R s s' → R s' s'' → R s s'')
    (timed : ∀ {jmp s w applied s' w'},
    Returns (jumpApplyTime rule.key jmp : EngineM app (Jump (Phase app) ⊕ Phase app)) s w applied s' w' → R s s')
    (emits : ∀ {jmp s w emitted s' w'}, Returns (jumpEmitTimeout rule.key jmp : EngineM app (Jump (Phase app))) s w
    emitted s' w' → R s s')
    (runs : ∀ {ph s w results s' w'}, Returns (runPhase fuel subs smid l b ph) s w results s' w' → R s s')
    (returned : Returns (executeStack fuel rule subs smid l b phs id id) s w machines s' w') : R s s' := by
  have guarantees : Guarantees fuel rule subs smid l b R (fun _ _ => True) (fun _ => True) (fun _ _ => True) :=
    ⟨refl, trans, fun _ _ => trivial, fun _ _ => trivial, fun returned =>
      ⟨timed returned, fun _ _ => trivial⟩, fun _ _ => trivial,
      emits, fun ran => ⟨runs ran, fun _ _ => trivial⟩, fun _ _ _ => trivial, fun _ => trivial⟩
  exact (guarantees.run returned).1

theorem executeStack_machines {G : Finished app → Prop} {Q : SMResult app.Payload × SM app → Prop}
    (runs : ∀ {ph s w results s' w'}, Returns (runPhase fuel subs smid l b ph) s w results s' w' →
    ∀ finished ∈ results, G finished)
    (made : ∀ {idm buffer l' xs state infos l'' phs}, G (idm, buffer, .SM_Complete l' xs) → state ≠ .SMSuspended → phs ≠ [] →
      Q (⟨idm, state, infos⟩, .interpretInput rule idm l'' buffer phs))
    (left : ∀ infos back, Q (leftSM rule smid l b infos back))
    (returned : Returns (executeStack fuel rule subs smid l b phs id id) s w machines s' w') : ∀ made ∈ machines, Q made := by
  have guarantees : Guarantees fuel rule subs smid l b (fun _ _ => True) (fun _ _ => True) G (fun _ => Q) :=
    ⟨fun _ => trivial, fun _ _ => trivial, fun _ _ => trivial, fun good _ => good, fun _ => ⟨trivial, fun _ _ => trivial⟩,
      fun _ _ => trivial, fun _ => trivial, fun ran => ⟨trivial, runs ran⟩, made, fun _ => left _ _⟩
  exact (guarantees.run returned).2

/-- How a step of a machine begins: one that was not run yet emits its start phase and takes an id. -/
inductive SM.Enters : SM app → EngineState app → app.World → Rule app → Nat → app.LocalState → Buffer app.Payload →
    Stack app → EngineState app → app.World → Prop where
  | bootstrap {rule : Rule app} {b : Buffer app.Payload} {s between : EngineState app} {w v : app.World}
      (emitted : Returns (jumpEmitTimeout rule.key rule.startPhase) s w ph between v) :
      Enters (.bootstrap rule b) s w rule between.engineStateMaxId rule.initialL b [ph]
        { between with engineStateMaxId := between.engineStateMaxId + 1 } v
  | interpretInput (rule : Rule app) (smid : Nat) (l : app.LocalState) (b : Buffer app.Payload) (phs : Stack app)
      (s : EngineState app) (w : app.World) : Enters (.interpretInput rule smid l b phs) s w rule smid l b phs s w

theorem SM.execute_enters {sm : SM app} (returned : Returns (sm.execute fuel subs) s w machines s' w') :
    ∃ rule smid l b phs between v, sm.Enters s w rule smid l b phs between v ∧
      Returns (executeStack fuel rule subs smid l b phs id id) between v machines s' w' := by
  cases sm with
  | bootstrap =>
    simp only [SM.execute, returns_bind] at returned
    obtain ⟨_, _, _, emitted, _, _, _, handed, returned⟩ := returned
    obtain ⟨rfl, rfl, rfl⟩ := returns_nextSmId.mp handed
    exact ⟨_, _, _, _, _, _, _, .bootstrap emitted, returned⟩
  | interpretInput rule smid l b phs => exact ⟨_, _, _, _, _, _, _, .interpretInput rule smid l b phs s w, returned⟩
  | stopped => exact absurd returned not_returns_throw

end Halon.Cep
