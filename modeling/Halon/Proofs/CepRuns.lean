import Halon.Proofs.CepEngine
import Halon.Proofs.CepIsolation
import Halon.Proofs.CepTermination

/-! What handling one request can come to. While the init rule runs, and when a request is not for
the machines, these are left alone. -/

namespace Halon.Cep
open Library Stateful
variable {app : Application}

structure Machine.Rests (m m' : Machine app) : Prop where
  running : m'.machRunningSM = m.machRunningSM
  suspended : m'.machSuspendedSM = m.machSuspendedSM
  grows : m.machMaxThreadId ≤ m'.machMaxThreadId

namespace Engine

/-- The cases of a request that is handled without an error. -/
inductive Handles (fuel : Nat) (w : app.World) : Request app.Payload → Engine app → Engine app → Prop where
  | tick
      (ran : Returns (Machine.executeTick fuel) m w infos m' w') : Handles fuel w .Tick (.cepCruise m) (.cepCruise m')
  | timeout (ts : Int) (m : Machine app) :
      Handles fuel w (.TimeoutArrived ts) (.cepCruise m) (.cepCruise (m.timeoutArrived ts).2)
  | incoming (req : Request app.Payload) (msg : Message app.Payload) (m : Machine app) :
      Handles fuel w req (.cepCruise m) (.cepCruise (m.incoming msg).2)
  | other (rests : m.Rests m') (events : m'.machEvents = m.machEvents) :
      Handles fuel w req (.cepCruise m) (.cepCruise m')
  | init (rests : m.Rests e.machine) :
      Handles fuel w req (.cepInitRule ir m) e

variable {m : Machine app} {ir : InitRule app} {e : Engine app} {fuel : Nat} {req req' : Request app.Payload} {w w' : app.World}
  {response : Response app.Payload}

private theorem defaultHandler_rests {next} (ok : (response, e) = defaultHandler m next req) :
    ∃ m', e = next m' ∧ m.Rests m' ∧ m'.machEvents = m.machEvents := by
  cases req <;> (cases ok; exact ⟨_, rfl, ⟨rfl, rfl, le_refl _⟩, rfl⟩)

private theorem initTick_rests (ok : (initTick fuel left ir m).outcome w = (.ok (response, e), w')) :
    m.Rests e.machine := by
  induction left generalizing ir m w with
  | zero => cases ok
  | succ left ih =>
    obtain ⟨⟨_, s'⟩, v, ran, ok⟩ := Process.bind_ok ok
    dsimp only at ok
    split at ok
    next out infos nxt_stk =>
      cases out with
      | SMFinished =>
        cases ok
        exact ⟨rfl, rfl, SM.execute_grows ran⟩
      | SMRunning =>
        dsimp only at ok
        have rests := ih (m := { m with machState := s'.engineStateGlobal, machEvents := s'.engineEvents }) ok
        exact { rests with }
      | SMSuspended | SMStopped =>
        cases ok
        exact ⟨rfl, rfl, le_refl _⟩
    next => cases ok

private theorem initRuleStep_rests (ok : (initRuleStep fuel ir m req).outcome w = (.ok (response, e), w')) :
    m.Rests e.machine := by
  have handled (ok : (response, e) = defaultHandler m (.cepInitRule ir) req) : m.Rests e.machine := by
    obtain ⟨m', rfl, rests, _⟩ := defaultHandler_rests ok
    exact rests
  unfold initRuleStep at ok
  split at ok
  next => exact initTick_rests ok
  next =>
    split at ok
    next =>
      cases ok
      exact ⟨rfl, rfl, le_refl _⟩
    next => exact handled (Process.pure_ok ok)
  next => exact handled (Process.pure_ok ok)

private theorem cruiseStep_handles (read : m.decode req = some req')
    (ok : (cruiseStep fuel m req').outcome w = (.ok (response, e), w')) : Handles fuel w req (.cepCruise m) e := by
  have handled (ok : (response, e) = defaultHandler m .cepCruise req') : Handles fuel w req (.cepCruise m) e := by
    obtain ⟨m', rfl, rests, events⟩ := defaultHandler_rests ok
    exact .other rests events
  -- a request other than a persisted message is read as it is
  have plain (other : ∀ msg, req' ≠ .Incoming msg) : req = req' := by
    cases req with
    | Unpersist =>
      obtain ⟨fp, _, same⟩ := Option.map_eq_some_iff.mp read
      exact absurd same.symm (other _)
    | _ => exact Option.some.inj read
  unfold cruiseStep at ok
  split at ok
  next =>
    obtain ⟨⟨_, _⟩, v, ran, ok⟩ := Process.bind_ok ok
    cases ok
    obtain rfl := plain nofun
    exact .tick ran
  next ts =>
    cases ok
    obtain rfl := plain nofun
    exact .timeout ts m
  next msg =>
    split at ok
    next =>
      cases ok
      exact .incoming req msg m
    next => exact handled (Process.pure_ok ok)
  next => exact handled (Process.pure_ok ok)

theorem stepForward_handles (ok : (stepForward fuel req before).outcome w = (.ok (response, e), w')) :
    Handles fuel w req before e := by
  cases before with
  | cepInitRule =>
    rw [stepForward] at ok
    split at ok
    next => exact .init (initRuleStep_rests ok)
    next =>
      obtain ⟨_, _, _, ok⟩ := Process.bind_ok ok
      cases ok
      exact .init ⟨rfl, rfl, le_refl _⟩
  | cepCruise =>
    rw [stepForward] at ok
    split at ok
    next found => exact cruiseStep_handles found ok
    next =>
      obtain ⟨_, _, _, ok⟩ := Process.bind_ok ok
      cases ok
      exact .other ⟨rfl, rfl, le_refl _⟩ rfl

theorem step_handles (moves : before.step i = some after) :
    Handles i.fuel i.world i.request before after := by
  unfold step at moves
  split at moves
  next ok =>
    cases moves
    exact stepForward_handles ok
  next => cases moves

end Engine

/-! Runs of the engine from any specification. What a machine leaves in the engine
when it is executed is stated per machine; that ids stay distinct, for all runs. -/

open List

namespace Machine
variable {m m' : Machine app} {w w' : app.World} {fuel : Nat}

/-- A specification that was read in part: no machine runs yet, and none of its rules has an id. -/
structure Unstarted (st : Machine app) : Prop where
  suspended : st.machSuspendedSM = []
  bootstrap : ∀ entry ∈ st.machRuleData, ∃ rule b, entry.2.ruleStack = .bootstrap rule b

theorem Unstarted.declare (unstarted : Unstarted st) (decl : Declare app) : Unstarted (st.declare decl) := by
  cases decl with
  | DefineRule =>
    refine ⟨unstarted.suspended, ?_⟩
    intro entry member
    rcases mem_append.mp member with old | new
    · exact unstarted.bootstrap entry old
    · rw [mem_singleton.mp new]
      exact ⟨_, _, rfl⟩
  | Init | RuleFinalizer | PhaseBuffer | DefaultHandler => exact ⟨unstarted.suspended, unstarted.bootstrap⟩

theorem buildMachine_unstarted (g : app.GlobalState) (defs : List (Declare app)) : Unstarted (buildMachine g defs) := by
  have declared (defs : List (Declare app)) (st : Machine app) (unstarted : Unstarted st) :
    Unstarted (defs.foldl declare st) := by
    induction defs generalizing st with
    | nil => exact unstarted
    | cons decl defs ih => exact ih _ (unstarted.declare decl)
  have built := declared defs (emptyMachine g) ⟨rfl, by simp [emptyMachine]⟩
  exact ⟨built.suspended, built.bootstrap⟩

theorem start_valid (unstarted : Unstarted st) : Valid st.start.machMaxThreadId st.start.machines := by
  have listed : st.start.machines =
      st.machRuleData.zipIdx.map fun entry => ⟨st.machMaxThreadId + entry.2, entry.1.1, entry.1.2⟩ := by
    simp [machines, start, unstarted.suspended]
  have ids : st.start.machines.map SMData.smId = (List.range' 0 st.machRuleData.length).map (st.machMaxThreadId + ·) := by
    rw [listed, map_map, ← zipIdx_map_snd 0 st.machRuleData, map_map]
    rfl
  constructor
  · rw [ids]
    exact List.Nodup.map (fun a b same => Nat.add_left_cancel same) nodup_range'
  · intro d member
    have inside := mem_map_of_mem (f := SMData.smId) member
    rw [ids, mem_map] at inside
    obtain ⟨i, position, _⟩ := inside
    rw [mem_range'_1] at position
    have limit : st.start.machMaxThreadId = st.machMaxThreadId + st.machRuleData.length := by simp [start]
    omega
  · intro d member
    rw [listed] at member
    obtain ⟨⟨entry, i⟩, position, rfl⟩ := mem_map.mp member
    obtain ⟨_, b, same⟩ := unstarted.bootstrap entry (fst_mem_of_mem_zipIdx position)
    simp [SMData.Bound, same]

end Machine

namespace Engine

/-- A tick of all machines finds every phase that forks to complete, and so does every action forked in it. -/
def Settles : Engine app → Input app → Prop
  | .cepCruise st, ⟨.Tick, w, fuel⟩ => Machine.TickSettles fuel st.machRunningSM { st with machRunningSM := [] } w
  | _, _ => True

def Valid (e : Engine app) : Prop := Machine.Valid e.machine.machMaxThreadId e.machine.machines

theorem step_valid {e e' : Engine app} (valid : e.Valid) (settles : e.Settles i) (moves : e.step i = some e') :
    e'.Valid := by
  have rest {m m' : Machine app} (rests : m.Rests m') (valid : Machine.Valid m.machMaxThreadId m.machines) :
      Machine.Valid m'.machMaxThreadId m'.machines := by
    have same : m'.machines = m.machines := by
      rw [Machine.machines, rests.running, rests.suspended, Machine.machines]
    rw [same]
    exact valid.grow rests.grows
  obtain ⟨req, w, _⟩ := i
  cases step_handles moves with
  | tick ran => exact Machine.executeTick_valid valid settles ran
  | timeout => exact Machine.timeoutArrived_valid valid
  | incoming => exact Machine.incoming_valid _ valid
  | other rests | init rests => exact rest rests valid

end Engine

namespace ForkExample

def plain : Application where
  GlobalState := Unit
  LocalState := Unit
  Value := Unit
  Payload := Unit
  World := Unit
  Exception := Empty
  getTime w := (0, w)
  usend _ _ w := w

def rule (action : PhaseM plain) : List (Declare plain) :=
  [.DefineRule "rule" ⟨.NormalJump ⟨"phase", .DirectCall action⟩, [("phase", .NormalJump ⟨"phase", .DirectCall action⟩)], (), []⟩]

def again : PhaseM plain := .Continue (.NormalJump "phase")

def tick : Engine.Input plain := ⟨.Tick, (), 5⟩

def ids (e : Engine plain) : List Nat × List Nat :=
    (e.machine.machRunningSM.map SMData.smId, e.machine.machSuspendedSM.map SMData.smId)

end ForkExample

end Halon.Cep
