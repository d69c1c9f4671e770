import Halon.Recovery.Dispatch
import Halon.Proofs.CepRollback

/-! What a machine waits for while its dispatcher is in charge. The dispatcher waits for every
registered phase and for the time; a notifier that is not done yet waits for itself only. -/

namespace Halon.Recovery
open List
open Library Cep Stateful mkDispatcher

section
variable {s s' : EngineState app} {w w' : app.World}

/-- The program forks nothing and completes with the buffer it has, in a local state and with jumps as given. -/
def Jumps (p : PhaseM app) (l : app.LocalState) (R : app.LocalState → List (Jump PhaseHandle) → Prop) : Prop :=
  ∀ ⦃subs mindex buf s w evaluation s' w'⦄, Returns (p.go subs mindex l buf) s w evaluation s' w' →
    ∃ l' xs, evaluation.1 = ((buf, .SM_Complete l' xs), []) ∧ R l' xs

namespace Jumps
variable {l : app.LocalState} {R : app.LocalState → List (Jump PhaseHandle) → Prop}

theorem continue_ (here : R l [ph]) : Jumps (.Continue ph) l R := by
  intro subs mindex buf s w evaluation s' w' returned
  rw [(PhaseM.returns_Continue.mp returned).1]
  exact ⟨l, [ph], rfl, here⟩

theorem switch (here : R l xs) : Jumps (.Switch xs) l R := by
  intro subs mindex buf s w evaluation s' w' returned
  rw [(PhaseM.returns_Switch.mp returned).1]
  exact ⟨l, xs, rfl, here⟩

theorem getLocal {k} (rest : Jumps (k l) l R) : Jumps (.GetLocal k) l R :=
  fun _ _ _ _ _ _ _ _ returned => rest (PhaseM.returns_GetLocal.mp returned)

theorem modifyLocal (rest : Jumps k (f l) R) : Jumps (k.modifyLocal f) l R :=
  fun _ _ _ _ _ _ _ _ returned => rest (PhaseM.returns_PutLocal.mp (PhaseM.returns_GetLocal.mp returned))

theorem modifyGlobal (rest : Jumps k l R) : Jumps (k.modifyGlobal f) l R :=
  fun _ _ _ _ _ _ _ _ returned => rest (PhaseM.returns_PutGlobal.mp (PhaseM.returns_GetGlobal.mp returned))

variable {subs : Subscribers} {b : Buffer app.Payload} {results : List (Finished app)}

theorem runPhaseM (jumps : Jumps p l R)
    (returned : Returns (runPhaseM fuel subs smid l mindex b p) s w results s' w') :
    ∃ l' xs, results = [(smid, b, .SM_Complete l' xs)] ∧ R l' xs := by
  have forkless {evaluation between v} (ran : Returns (p.go subs mindex l b) s w evaluation between v) : evaluation.1.2 = [] := by
    obtain ⟨_, _, out, _⟩ := jumps ran
    rw [out]
  obtain ⟨_, _, ran, rfl, _⟩ := runPhaseM_alone forkless returned
  obtain ⟨l', xs, out, here⟩ := jumps ran
  rw [out]
  exact ⟨l', xs, rfl, here⟩

theorem directly
    (returned : Returns (runPhase fuel subs smid l b (Cep.directly name p)) s w results s' w') (jumps : Jumps p l R) :
    ∃ l' xs, results = [(smid, b, .SM_Complete l' xs)] ∧ R l' xs := jumps.runPhaseM returned

theorem setPhase (returned : Returns (runPhase fuel subs smid l b (Cep.setPhase name type action)) s w results s' w')
    (jumps : ∀ {idx m rest}, bufferGet type b = some (idx, m, rest) → Jumps (action m) l R) :
    bufferGet type b = none ∧ results = [(smid, b, .SM_Suspend)] ∨ ∃ idx m rest l' xs, bufferGet type b = some (idx, m, rest) ∧
      results = [(smid, rest, .SM_Complete l' xs)] ∧ R l' xs := by
  obtain ⟨_, _, _, extracts, goes⟩ := returns_bind.mp returned
  obtain ⟨rfl, rfl, rfl⟩ := returns_pure.mp extracts
  rw [extractNormalMsg] at goes
  cases found : bufferGet type b with
  | none =>
    rw [found] at goes
    exact .inl ⟨rfl, (returns_pure.mp goes).1⟩
  | some message =>
    obtain ⟨idx, m, rest⟩ := message
    rw [found] at goes
    simp only [Option.map_some, returns_bind, returns_pure] at goes
    obtain ⟨_, _, _, ran, _, _, _, _, rfl, _, _⟩ := goes
    obtain ⟨l', xs, here, there⟩ := (jumps found).runPhaseM ran
    exact .inr ⟨idx, m, rest, l', xs, rfl, here, there⟩

end Jumps
end

variable {set : DispatchSetting} {l : DispatchLocal set} {b : Buffer set.app.Payload} {fuel : Nat}
  {subs : Subscribers} {smid : Nat} {s s' : EngineState set.app} {w w' : set.World}
  {results : List (Finished set.app)}

theorem dispatcherPhase_jumps (returned : Returns (runPhase fuel subs smid l b dispatcherPhase) s w results s' w') :
    ∃ l' xs, results = [(smid, b, .SM_Complete l' xs)] ∧ l = l' ∧ (l.dispatch.waitPhases ≠ [] → xs = awaited l.dispatch) := by
  refine Jumps.directly returned (.getLocal ?_)
  split
  next none => exact .continue_ ⟨rfl, (absurd none ·)⟩
  next => exact .switch ⟨rfl, fun _ => rfl⟩

namespace mkNotifier'
variable {toPred : set.Notification → set.StateChange → Bool} {act : PhaseM set.app}

theorem checkPhase_jumps (some : l.notifications ≠ [])
    (returned : Returns (runPhase fuel subs smid l b (checkPhase act)) s w results s' w') :
    ∃ l' xs, results = [(smid, b, .SM_Complete l' xs)] ∧ xs = [dispatcher] := by
  refine Jumps.directly returned (.getLocal ?_)
  split
  next none => exact absurd none some
  next => exact .modifyLocal (.modifyLocal (.continue_ rfl))

/-- A message with state changes that do not match all notifications that are expected. -/
def Partial (toPred : set.Notification → set.StateChange → Bool) (l : DispatchLocal set)
    (m : Message set.app.Payload) : Prop :=
  ∃ eid msg, m.payload = .HAEvent eid msg ∧ ∀ iosc, set.decodeP msg = .ok iosc → remaining toPred iosc l.notifications ≠ []

theorem notified_jumps (some : l.notifications ≠ [])
    (incomplete : ∀ iosc, set.decodeP msg = .ok iosc → remaining toPred iosc l.notifications ≠ []) :
    Jumps (notified toPred act eid msg) l fun (l' : DispatchLocal set) xs => l'.dispatch = l.dispatch ∧ xs = [notifier] := by
  refine .modifyGlobal (.getLocal ?_)
  split
  next none => exact absurd none some
  next =>
    intro subs mindex buf s w evaluation s' w' returned
    obtain ⟨value, v, decoded, returned⟩ := PhaseM.returns_Lift.mp returned
    dsimp only [decodeChanges] at decoded
    cases changes : set.decodeP msg with
    | error =>
      rw [changes] at decoded
      cases decoded
    | ok iosc =>
      rw [changes] at decoded
      cases decoded
      refine Jumps.modifyLocal ?_ returned
      split
      next none => exact absurd none (incomplete iosc changes)
      next => exact .modifyGlobal (.continue_ ⟨rfl, rfl⟩)

theorem notifierPhase_jumps (some : l.notifications ≠ [])
    (incomplete : ∀ idx m rest, bufferGet DispatchMessage.stateChange b = .some (idx, m, rest) → Partial toPred l m)
    (returned : Returns (runPhase fuel subs smid l b (notifierPhase toPred act)) s w results s' w') :
    bufferGet DispatchMessage.stateChange b = none ∧ results = [(smid, b, .SM_Suspend)] ∨
      ∃ idx m rest l' xs, bufferGet DispatchMessage.stateChange b = .some (idx, m, rest) ∧
        results = [(smid, rest, .SM_Complete l' xs)] ∧ l'.dispatch = l.dispatch ∧ xs = [notifier] := by
  refine Jumps.setPhase returned fun found => ?_
  obtain ⟨eid, msg, payload, changes⟩ := incomplete _ _ _ found
  rw [payload]
  exact notified_jumps some changes

end mkNotifier'
open mkNotifier'

/-- A phase that is tried while the dispatcher is in charge: the dispatcher with something to wait for, a phase that is done and
continues to the dispatcher, the notifier when a message does not bring all that is expected, and phases that are suspended. -/
inductive NotifierRule.Drives (r : NotifierRule set) (smid : Nat) (l : DispatchLocal set)
    (b : Buffer set.app.Payload) :
    Phase set.app → List (Finished set.app) → Prop where
  | dispatcher {results : List (Finished set.app)} (some : l.dispatch.waitPhases ≠ []) :
      Drives r smid l b dispatcherPhase results
  | continues (ph : Phase set.app) (buffer : Buffer set.app.Payload)
      (l' : DispatchLocal set) : Drives r smid l b ph [(smid, buffer, .SM_Complete l' [mkDispatcher.dispatcher])]
  | notifier {results : List (Finished set.app)} (some : l.notifications ≠ [])
      (incomplete : ∀ idx m rest, bufferGet DispatchMessage.stateChange b = .some (idx, m, rest) → Partial r.toPred l m) :
      Drives r smid l b (notifierPhase r.toPred r.act) results
  | waits (ph : Phase set.app) (buffer : Buffer set.app.Payload) :
      Drives r smid l b ph [(smid, buffer, .SM_Suspend)]

/-- A registered phase, or the time, is among the alternatives. -/
def NotifierRule.Armed (r : NotifierRule set) (l : DispatchLocal set) (phs : Stack set.app) : Prop :=
  ∀ jmp ∈ awaited l.dispatch, ∃ alternative ∈ phs, Leads r.rule jmp alternative

namespace DispatchSystem

def Driven (r : NotifierRule set) : DispatchSystem set → DispatchAction set → Prop
  | ⟨.interpretInput _ smid l b phs, _, engine, world⟩, .executes fuel subs =>
    Along fuel r.rule subs smid l b (r.Drives smid l b) phs engine world
  | _, _ => True

/-- There is a message for the notifier that does not bring all that is expected. -/
def Incomplete (r : NotifierRule set) (l : DispatchLocal set) (b : Buffer set.app.Payload) : Prop :=
  ∃ idx m rest, bufferGet DispatchMessage.stateChange b = some (idx, m, rest) ∧ Partial r.toPred l m

/-- When there is such a message, the notifier is all that is waited for. -/
def Alone (r : NotifierRule set) : DispatchSystem set → DispatchAction set → Prop
  | ⟨.interpretInput _ _ l b phs, _, _, _⟩, .executes _ _ =>
    (∃ jmp ∈ phs, jmp.value = notifierPhase r.toPred r.act) → Incomplete r l b →
      ∀ jmp ∈ awaited l.dispatch, jmp.value = notifier.value
  | _, _ => True

def Armed (r : NotifierRule set) (s : DispatchSystem set) : Prop :=
  ∃ smid l b phs, s.machine = .interpretInput r.rule smid l b phs ∧ r.Armed l phs

/-- The dispatcher is about to run, or the machine waits for all it should. -/
structure Dispatching (r : NotifierRule set) (s : DispatchSystem set) (smid : Nat) (l : DispatchLocal set)
    (b : Buffer set.app.Payload) (phs : Stack set.app) : Prop where
  machine : s.machine = .interpretInput r.rule smid l b phs
  some : phs ≠ []
  stack : phs = [.NormalJump dispatcherPhase] ∧ s.state ≠ .SMSuspended ∨ r.Armed l phs

end DispatchSystem

theorem leads_timed (leads : Leads rule origin jmp) (timed : jmp.Timed set.app now back) :
    Leads rule origin back := by
  obtain ⟨target, found, value, normal⟩ := leads
  obtain ⟨_, fixed, expired⟩ := timed
  refine ⟨target, found, ?_, fun now soon => ?_⟩
  · cases fixed <;> cases expired <;> exact value
  · have here := normal now soon
    cases fixed <;> cases expired
    all_goals first
      | exact here
      | cases here

variable {r : NotifierRule set} {phs : Stack set.app}

theorem NotifierRule.Armed.timed (armed : r.Armed l phs)
    (timed : List.Forall₂ (Jump.Timed set.app now) phs back) : r.Armed l back := by
  intro jmp awaits
  obtain ⟨alternative, member, leads⟩ := armed jmp awaits
  obtain ⟨put, inside, same⟩ := exists_partner timed.flip alternative member
  exact ⟨put, inside, leads_timed leads same⟩

theorem NotifierRule.Drives.settled (drives : r.Drives smid l b ph results)
    (returned : Returns (runPhase fuel subs smid l b ph) s w results s' w') : Settled results := by
  refine .inl ?_
  cases drives with
  | dispatcher =>
    obtain ⟨_, _, rfl, _⟩ := dispatcherPhase_jumps returned
    exact le_refl 1
  | notifier some incomplete =>
    rcases notifierPhase_jumps some incomplete returned with ⟨_, rfl⟩ | ⟨_, _, _, _, _, _, rfl, _⟩
    · exact le_refl 1
    · exact le_refl 1
  | continues | waits => exact le_refl 1

theorem NotifierRule.Drives.running (returned : Returns (runPhase fuel subs smid l b ph) s w [(smid, buffer, .SM_Stop)] s' w') :
    ¬ r.Drives smid l b ph [(smid, buffer, .SM_Stop)] := by
  intro drives
  cases drives with
  | dispatcher =>
    obtain ⟨_, _, here, _⟩ := dispatcherPhase_jumps returned
    cases here
  | notifier some incomplete =>
    rcases notifierPhase_jumps some incomplete returned with ⟨_, here⟩ | ⟨_, _, _, _, _, _, here, _⟩ <;> cases here

theorem NotifierRule.Armed.resolved (resolved : Resolved r.rule (awaited l.dispatch) phs) : r.Armed l phs :=
  exists_partner resolved.flip

theorem resolved_dispatcher (resolved : Resolved r.rule [dispatcher] phs) : phs = [.NormalJump dispatcherPhase] := by
  obtain ⟨jmp, _, ⟨_, found, value, normal⟩, nothing, rfl⟩ := forall₂_cons_left_iff.mp resolved
  cases nothing
  cases found
  rw [normal rfl rfl, value]
  rfl

theorem leads_name (leads : Leads r.rule origin jmp) :
    jmp.value.phName = origin.value := by
  obtain ⟨target, found, value, _⟩ := leads
  obtain ⟨_, _, here, _⟩ := lookup_eq_some_iff.mp found
  have member : (origin.value, target) ∈ r.rule.ps := by
    rw [here]
    exact mem_append_right _ mem_cons_self
  obtain ⟨ph, _, entry⟩ := mem_map.mp member
  obtain ⟨name, rfl⟩ := Prod.mk.inj entry
  rw [value, ← name]
  rfl

/-- A machine that waits for the notifier waits for all it should exactly if nothing else is registered. -/
theorem armed_notifier (resolved : Resolved r.rule [notifier] phs) :
    r.Armed l phs ↔ ∀ jmp ∈ awaited l.dispatch, jmp.value = notifier.value := by
  obtain ⟨alternative, _, leads, nothing, rfl⟩ := forall₂_cons_left_iff.mp resolved
  cases nothing
  constructor
  · intro armed jmp awaits
    obtain ⟨_, member, there⟩ := armed jmp awaits
    cases mem_singleton.mp member
    rw [← leads_name there, leads_name leads]
  · intro only jmp awaits
    obtain ⟨target, found, value, normal⟩ := leads
    exact ⟨alternative, mem_cons_self, target, only jmp awaits ▸ found, value, fun _ => normal rfl⟩

namespace DispatchSystem

theorem jumped {xs machine}
    (some : xs ≠ [])
    (made : List.Forall₂ (Completed rule) [(smid, b, .SM_Complete l xs)] [(result, machine)]) :
    ∃ phs, machine = .interpretInput rule smid l b phs ∧ Resolved rule xs phs ∧ phs ≠ [] ∧ result.smResultState = .SMRunning := by
  obtain ⟨_, _, _, here, follows, _⟩ := completed_cons made
  cases here
  have waits := follows.waits
  generalize state : result.smResultState = ended at follows
  cases follows with
  | restart => exact absurd rfl some
  | run _ resolved => exact ⟨_, rfl, resolved, waits, rfl⟩

variable {r : NotifierRule set} {after before : DispatchSystem set} {phs : Stack set.app}

theorem moves_dispatching (drives : r.Drives smid l b ph results)
    (ran : Returns (runPhase fuel subs smid l b ph) s w results s' w')
    (alone : ph = notifierPhase r.toPred r.act → Incomplete r l b →
      ∀ jmp ∈ awaited l.dispatch, jmp.value = notifier.value) (complete : ∀ finished ∈ results, finished.2.2.isComplete)
    (state : after.state = result.smResultState) (made : List.Forall₂ (Completed r.rule) results [(result, after.machine)]) :
    ∃ l' b' phs', Dispatching r after smid l' b' phs' := by
  cases drives with
  | dispatcher some =>
    obtain ⟨_, _, rfl, rfl, jumps⟩ := dispatcherPhase_jumps ran
    rw [jumps some] at made
    have awaits : awaited l.dispatch ≠ [] := fun none => some (append_eq_nil_iff.mp none).1
    obtain ⟨phs, machine, resolved, waits, _⟩ := jumped awaits made
    exact ⟨l, b, phs, machine, waits, .inr (.resolved resolved)⟩
  | continues _ b l' =>
    obtain ⟨phs, machine, resolved, waits, running⟩ := jumped (cons_ne_nil _ _) made
    have alert : after.state ≠ .SMSuspended := by
      rw [state, running]
      exact SMState.noConfusion
    exact ⟨l', b, phs, machine, waits, .inl ⟨resolved_dispatcher resolved, alert⟩⟩
  | notifier some incomplete =>
    rcases notifierPhase_jumps some incomplete ran with ⟨_, rfl⟩ | ⟨idx, m, rest, l', _, found, rfl, same, rfl⟩
    · cases complete _ mem_cons_self
    · obtain ⟨phs, machine, resolved, waits, _⟩ := jumped (cons_ne_nil _ _) made
      refine ⟨l', rest, phs, machine, waits, .inr ((armed_notifier resolved).mpr ?_)⟩
      rw [same]
      exact alone rfl ⟨idx, m, rest, found, incomplete idx m rest found⟩
  | waits => cases complete _ mem_cons_self

theorem step_executes (moves : before.step (.executes fuel subs) = some after) : ∃ result, result.smResultState = after.state ∧
      Returns (before.machine.execute fuel subs) before.engine before.world [(result, after.machine)] after.engine
      after.world := by
  rw [step] at moves
  split at moves
  next result machine engine world returned =>
    cases moves
    exact ⟨result, rfl, returned⟩
  next => cases moves

theorem not_passes_dispatcher :
    ¬ Passes fuel rule subs smid l b [.NormalJump dispatcherPhase] back s w s' w' := by
  intro passes
  cases passes with
  | putOff timed => cases (returns_pure.mp timed).1
  | suspends _ ran | stops _ ran =>
    obtain ⟨_, _, here, _⟩ := dispatcherPhase_jumps ran
    cases here

theorem executes_dispatching (dispatching : Dispatching r before smid l b phs) (driven : before.Driven r (.executes fuel subs))
    (alone : before.Alone r (.executes fuel subs)) (moves : before.step (.executes fuel subs) = some after) :
    ∃ l' b' phs', Dispatching r after smid l' b' phs' := by
  obtain ⟨_, state, returned⟩ := step_executes moves
  obtain ⟨machine, _, _, _⟩ := before
  obtain ⟨rfl, some, stack⟩ := dispatching
  have settles := driven.settles fun ran drives => drives.settled ran
  have form : id = (([] : Stack set.app) ++ ·) := rfl
  cases executeStack_switched form settles returned with
  | none _ back passes _ left =>
    have timed := passes.timed driven fun ran => NotifierRule.Drives.running ran
    rw [nil_append] at left
    cases timed with
    | nil => exact absurd rfl some
    | @cons jmp put phs back first rest =>
      have machine := (Prod.mk.inj (List.cons.inj left).1).2
      rcases stack with ⟨only, _⟩ | armed
      · rw [only] at passes
        exact absurd passes not_passes_dispatcher
      · exact ⟨l, b, put :: back, machine, cons_ne_nil _ _, .inr (armed.timed (.cons first rest))⟩
  | one order passes due _ ran complete made _ =>
    subst order
    have drives := (passes.behind driven _ _ _ due _ _ _ ran).1
    refine moves_dispatching drives ran ?_ complete state.symm made
    intro phase
    exact alone ⟨_, mem_append_right _ mem_cons_self, phase⟩

theorem step_dispatching (allowed : before.Driven r action ∧ before.Alone r action)
    (moves : before.step action = some after) (dispatching : ∃ smid l b phs, Dispatching r before smid l b phs) :
    ∃ smid l b phs, Dispatching r after smid l b phs := by
  obtain ⟨smid, l, b, phs, dispatching⟩ := dispatching
  cases action with
  | arrives m =>
    cases moves
    refine ⟨smid, l, bufferInsert m.message b, phs, ?_, dispatching.some, dispatching.stack⟩
    rw [dispatching.machine]
    rfl
  | executes => exact ⟨smid, executes_dispatching dispatching allowed.1 allowed.2 moves⟩
  | others =>
    cases moves
    exact ⟨smid, l, b, phs, dispatching.machine, dispatching.some, dispatching.stack⟩

/-- While its dispatcher is in charge, and no other phase and no time is waited for when there is a message for the notifier, a
machine that is suspended waits for every registered phase and for the time. -/
theorem dispatcher_armed {r : NotifierRule set} {smid : Nat} {engine : EngineState set.app} {world : set.World}
    {final : DispatchSystem set}
    (run : Run step (fun s action => s.Driven r action ∧ s.Alone r action) (start r smid l b engine world) final)
    (suspended : final.state = .SMSuspended) : final.Armed r := by
  have always : ∃ smid' l' b' phs, Dispatching r final smid' l' b' phs := by
    refine run.invariant ?_ fun _ _ _ before allowed moves => step_dispatching allowed moves before
    exact ⟨smid, l, b, _, rfl, cons_ne_nil _ _, .inl ⟨rfl, SMState.noConfusion⟩⟩
  obtain ⟨smid', l', b', phs, machine, _, stack⟩ := always
  rcases stack with ⟨_, alert⟩ | armed
  · exact absurd suspended alert
  · exact ⟨smid', l', b', phs, machine, armed⟩

end DispatchSystem

/-- The alternatives are as they should be, whatever the engine and the world. -/
def NotifierRule.Allows (r : NotifierRule set) (fuel : Nat) (subs : Subscribers) (smid : Nat) (l : DispatchLocal set)
    (b : Buffer set.app.Payload) (phs : Stack set.app) : Prop :=
  ∀ s w, Along fuel r.rule subs smid l b (r.Drives smid l b) phs s w

namespace NotifierRule

theorem allows_nil : r.Allows fuel subs smid l b [] := fun _ _ => trivial

theorem allows_cons (drives : ∀ {s w results s' w'}, Returns (runPhase fuel subs smid l b ph) s w results s' w' →
    r.Drives smid l b ph results)
    (rest : r.Allows fuel subs smid l b phs ∨ ∀ {s w results s' w'},
      Returns (runPhase fuel subs smid l b ph) s w results s' w' → ∃ finished ∈ results, finished.2.2.isComplete) :
    r.Allows fuel subs smid l b (.NormalJump ph :: phs) := by
  intro s w applied between v timed
  obtain ⟨rfl, rfl, rfl⟩ := returns_pure.mp timed
  intro results s' w' ran
  refine ⟨drives ran, fun incomplete => ?_⟩
  rcases rest with along | completes
  · exact along s' w'
  · obtain ⟨finished, member, complete⟩ := completes ran
    exact absurd complete (incomplete finished member)

theorem allows_dispatcher (some : l.dispatch.waitPhases ≠ []) : r.Allows fuel subs smid l b [.NormalJump dispatcherPhase] :=
  allows_cons (fun _ => .dispatcher some) (.inl allows_nil)

theorem allows_check (some : l.notifications ≠ []) :
    r.Allows fuel subs smid l b (.NormalJump (checkPhase r.act) :: phs) := by
  refine allows_cons (fun ran => ?_) (.inr fun ran => ?_)
  · obtain ⟨_, _, rfl, rfl⟩ := checkPhase_jumps some ran
    exact .continues _ _ _
  · obtain ⟨_, _, rfl, _⟩ := checkPhase_jumps some ran
    exact ⟨_, mem_cons_self, rfl⟩

theorem allows_notifier (some : l.notifications ≠ [])
    (incomplete : ∀ idx m rest, bufferGet DispatchMessage.stateChange b = .some (idx, m, rest) → Partial r.toPred l m)
    (rest : r.Allows fuel subs smid l b phs ∨ bufferGet DispatchMessage.stateChange b ≠ none) :
    r.Allows fuel subs smid l b (.NormalJump (notifierPhase r.toPred r.act) :: phs) := by
  refine allows_cons (fun _ => .notifier some incomplete) (rest.imp_right fun waits _ _ _ _ _ ran => ?_)
  rcases notifierPhase_jumps some incomplete ran with ⟨none, _⟩ | ⟨_, _, _, _, _, _, rfl, _⟩
  · exact absurd none waits
  · exact ⟨_, mem_cons_self, rfl⟩

theorem Allows.driven {s : DispatchSystem set} (machine : s.machine = .interpretInput r.rule smid l b phs)
    (allows : r.Allows fuel subs smid l b phs) : s.Driven r (.executes fuel subs) := by
  obtain ⟨_, _, _, _⟩ := s
  cases machine
  exact allows _ _

end NotifierRule

namespace DispatchSystem
open NotifierRule
variable {r : NotifierRule set} {phs : Stack set.app}

theorem alone_without {s : DispatchSystem set} (machine : s.machine = .interpretInput r.rule smid l b phs)
    (none : bufferGet DispatchMessage.stateChange b = none) : s.Alone r (.executes fuel subs) := by
  obtain ⟨_, _, _, _⟩ := s
  cases machine
  rintro _ ⟨_, _, _, found, _⟩
  cases none.symm.trans found

namespace Example

def setting : DispatchSetting where
  Notification := Nat
  StateChange := Nat
  StateChangeMsg := List Nat
  Payload := Unit
  Local := Unit
  Global := Unit
  World := Unit
  Value := Unit
  Exception := Empty
  decodeP := .ok
  getTime w := (0, w)
  usend _ _ w := w

def abort : Phase setting.app := setPhase "abort" 5 fun _ => .ret .unit

def worker : Phase setting.app :=
  setPhase "worker" 6 fun _ => waitDone (.NormalJump "worker") (.Continue dispatcher)

/-- A rule that waits for notifications of numbers, and has phases of its own to do other work and to give up. -/
def numbers : NotifierRule setting where
  key := ⟨1, "numbers"⟩
  toPred (a b : Nat) := a == b
  act := .ret .unit
  own := [abort, worker]
  startPhase := .NormalJump abort
  initialL := ⟨⟨[], .NormalJump "abort", none⟩, [], ()⟩
  names := by decide

def expecting (others : List (Jump PhaseHandle)) (time : Option (Int × Jump PhaseHandle)) : DispatchSystem setting :=
  start numbers 1 ⟨⟨check_notifications :: others, .NormalJump "abort", time⟩, [(1 : Nat), (2 : Nat)], ()⟩ emptyFifoBuffer
    ⟨2, 0, .empty, ⟨.empty, ()⟩⟩ ()

def waiting (nextIndex : Index) (registered : List (Jump PhaseHandle)) (phs : Stack setting.app) :
    DispatchSystem setting :=
  ⟨.interpretInput numbers.rule 1 ⟨⟨registered, .NormalJump "abort", none⟩, [(1 : Nat), (2 : Nat)], ()⟩
    ⟨.Unbounded, .empty, nextIndex⟩ phs,
    .SMRunning, ⟨2, 0, .empty, ⟨.empty, ()⟩⟩, ()⟩

def executes : DispatchAction setting := .executes 5 .empty

def work : DispatchAction setting := .arrives (.Other 5 ())

theorem worker_drives {l : DispatchLocal setting} {b subs fuel s w results s' w'}
    (ran : Returns (runPhase fuel subs smid l b worker) s w results s' w') : numbers.Drives smid l b worker results := by
  have jumps := Jumps.setPhase (R := fun _ xs => xs = [dispatcher]) ran fun _ => .modifyLocal (.continue_ rfl)
  rcases jumps with ⟨_, rfl⟩ | ⟨_, _, _, _, _, _, rfl, rfl⟩
  · exact .waits _ _
  · exact .continues _ _ _

def number : DispatchAction setting := .arrives (.HAEvent 7 [(1 : Nat)])

theorem one_partial {rest : Unit} {d idx} {m : Message (DispatchMessage (List Nat) Unit)} {b b'}
    (first : (bufferGet DispatchMessage.stateChange b).map (·.2.1) = some (DispatchMessage.HAEvent 7 [1]).message)
    (found : bufferGet DispatchMessage.stateChange b = some (idx, m, b')) :
    Partial numbers.toPred (⟨d, [(1 : Nat), (2 : Nat)], rest⟩ : DispatchLocal setting) m := by
  rw [found] at first
  cases first
  refine ⟨7, [1], rfl, ?_⟩
  intro iosc decoded
  cases decoded
  exact cons_ne_nil _ _

end Example

open Example in
/-- After the first of two notifications the machine waits for the notifier only: neither for another registered
phase nor for the time. -/
theorem partly_notified_unarmed : ∃ final,
    Run step (fun s action => s.Driven numbers action) (expecting [.NormalJump "abort"] (some (10, .NormalJump "abort"))) final ∧
      final.state = .SMSuspended ∧ ¬ final.Armed numbers := by
  have some {α : Type} {a : α} {as : List α} : a :: as ≠ [] := cons_ne_nil a as
  have run : Run step (fun s action => s.Driven numbers action)
    (expecting [.NormalJump "abort"] (.some (10, .NormalJump "abort"))) _ :=
    .step executes .refl (Allows.driven rfl (allows_dispatcher some)) rfl
  have run := run.step executes (Allows.driven rfl (allows_check some)) rfl
  have run := run.step executes (Allows.driven rfl (allows_dispatcher some)) rfl
  have run := run.step number trivial rfl
  have run := run.step executes
    (Allows.driven rfl (allows_notifier some (fun _ _ _ found => one_partial rfl found) (.inr nofun))) rfl
  have run := run.step executes (Allows.driven rfl (allows_notifier some nofun (.inl allows_nil))) rfl
  refine ⟨_, run, rfl, ?_⟩
  rintro ⟨_, _, _, _, machine, armed⟩
  cases machine
  obtain ⟨_, member, leads⟩ := armed (.NormalJump "abort") (mem_cons_of_mem _ mem_cons_self)
  cases mem_singleton.mp member
  have name : "notifier" = "abort" := leads_name leads
  exact absurd name (by decide)

open Example in
/-- A registered phase is done, and the dispatcher goes on to wait for the notifier. -/
theorem worker_done :
    Run step (fun s action => s.Driven numbers action ∧ s.Alone numbers action) (expecting [.NormalJump "worker"] none)
      (waiting 1 [notifier] [.NormalJump (notifierPhase numbers.toPred numbers.act)]) := by
  have some {α : Type} {a : α} {as : List α} : a :: as ≠ [] := cons_ne_nil a as
  have quiet {i : Index} : bufferGet DispatchMessage.stateChange
    (⟨.Unbounded, .empty, i⟩ : Buffer setting.app.Payload) = none := rfl
  have dispatches {i registered} (first : registered ≠ []) :
    (waiting i registered [.NormalJump dispatcherPhase]).Driven numbers executes :=
    Allows.driven rfl (allows_dispatcher first)
  have run : Run step (fun s action => s.Driven numbers action ∧ s.Alone numbers action) (expecting [.NormalJump "worker"] none)
      (waiting 0 [check_notifications, .NormalJump "worker"] [.NormalJump (checkPhase numbers.act), .NormalJump worker]) :=
    .step executes .refl ⟨dispatches some, alone_without rfl quiet⟩ rfl
  have run : Run _ _ _ (waiting 0 [notifier, .NormalJump "worker"] [.NormalJump dispatcherPhase]) :=
    run.step executes ⟨Allows.driven rfl (allows_check some), alone_without rfl quiet⟩ rfl
  have run : Run _ _ _ (waiting 0 [notifier, .NormalJump "worker"]
      [.NormalJump (notifierPhase numbers.toPred numbers.act), .NormalJump worker]) :=
    run.step executes ⟨dispatches some, alone_without rfl quiet⟩ rfl
  have run := run.step work ⟨trivial, trivial⟩ rfl
  have run : Run _ _ _ (waiting 1 [notifier] [.NormalJump dispatcherPhase]) :=
    run.step executes ⟨Allows.driven rfl (allows_notifier some nofun
      (.inl (allows_cons worker_drives (.inl allows_nil)))), alone_without rfl rfl⟩ rfl
  exact run.step executes ⟨dispatches some, alone_without rfl quiet⟩ rfl

open Example in
theorem dispatcher_armed_partly : ∃ final,
    Run step (fun s action => s.Driven numbers action ∧ s.Alone numbers action) (expecting [.NormalJump "worker"] none) final ∧
      final.state = .SMSuspended ∧ final.Armed numbers := by
  have some {α : Type} {a : α} {as : List α} : a :: as ≠ [] := cons_ne_nil a as
  have only : ∀ jmp ∈ [notifier], jmp.value = notifier.value := forall_mem_singleton.mpr rfl
  have run := worker_done.step number ⟨trivial, trivial⟩ rfl
  have run := run.step executes ⟨Allows.driven rfl (allows_notifier some (fun _ _ _ found => one_partial rfl found)
    (.inl allows_nil)), fun _ _ => only⟩ rfl
  have run := run.step executes ⟨Allows.driven rfl (allows_notifier some nofun (.inl allows_nil)), fun _ _ => only⟩ rfl
  exact ⟨_, run, rfl, dispatcher_armed run rfl⟩

end DispatchSystem

end Halon.Recovery
