import Halon.Library.Runs
import Halon.Proofs.JobAccounts
import Halon.Proofs.JobInstances

/-! All requests of a job are accounted for. In whatever order requests arrive and machines
run, the job follows the ledger: it runs one instance for an input, acknowledges every request
once, and tells every listener of an instance once, when that finishes. -/

namespace Halon.Recovery
open Library Stateful Cep List
variable {set : Setting}

variable (mine : EventId → Bool) (job : Job set) in
/-- All requests are accounted for. One machine listens, and what was not taken yet waits at it; for each input of the
ledger an instance runs, and one only. -/
structure Accounts (s : JobSystem set) (a : JobLedger set.Input) : Prop where
  arrived : (s.requests : Multiset (JobRequest set.Input)) = a.requests
  waiting : s.machines.filterMap (waiting? job) = [a.waiting]
  running : (s.machines.filterMap (instance? job) : Multiset set.Input) = a.running.val
  shows : Shows mine job (books mine s.engine s.world) a

/-- Other rules leave the storage alone, and requests that arrive are among those of the job. -/
def JobSystem.Undisturbed (mine : EventId → Bool) (s : JobSystem set) : JobAction set → Prop
  | .others engine _ => engine.engineStateGlobal.storage = s.engine.engineStateGlobal.storage
  | .arrives m => ∀ r ∈ m.request?, mine r.eid
  | .executes .. => True

/-- All machines have their roles, and the requests are accounted for. -/
structure Tracked (mine : EventId → Bool) (key : RuleKey) (job : Job set) (s : JobSystem set)
    (a : JobLedger set.Input) : Prop where
  plays : ∀ sm ∈ s.machines, Plays job key sm
  accounts : Accounts mine job s a

namespace Tracked
variable {key : RuleKey} {job : Job set} {s s' : JobSystem set} {a : JobLedger set.Input}

theorem start (g : set.Global) (w : set.World) :
    Tracked mine key job (.start key job g w) .empty := by
  refine ⟨forall_mem_singleton.mpr (.fresh .empty), ⟨rfl, rfl, rfl, fun _ none => ?_, rfl, fun _ => rfl, fun input => ?_⟩⟩
  · exact absurd none (Multiset.notMem_zero _)
  · exact ⟨Finset.notMem_empty _, rfl⟩

theorem arrives (names : ((mkJobRule.phases job).map Phase.phName).Nodup) (tracked : Tracked mine key job s a)
    {m : JobMessage set.Input set.Output} (asked : ∀ r ∈ m.request?, mine r.eid) :
    ∃ b, Relation.ReflGen JobLedger.Change a b ∧ Tracked mine key job { s with
      machines := s.machines.map (SM.message m.message)
      requests := m.request?.toList ++ s.requests } b := by
  have each := fun sm member => (tracked.plays sm member).message names m
  have plays : ∀ sm ∈ s.machines.map (SM.message m.message), Plays job key sm :=
    forall_mem_map.mpr fun sm member => (each sm member).1
  have waiting : (s.machines.map (SM.message m.message)).filterMap (waiting? job) =
      [(m.request?.toList : Multiset (JobRequest set.Input)) + a.waiting] := by
    have same := filterMap_congr fun sm member => (each sm member).2.1
    rw [filterMap_map]
    refine same.trans ?_
    rw [← map_filterMap, tracked.accounts.waiting, map_singleton]
  have running : (s.machines.map (SM.message m.message)).filterMap (instance? job) = s.machines.filterMap (instance? job) := by
    rw [filterMap_map]
    exact filterMap_congr fun sm member => (each sm member).2.2
  have arrived := tracked.accounts.arrived
  cases request : m.request? with
  | none =>
    rw [request] at waiting
    refine ⟨a, .refl, plays, arrived, waiting.trans ?_, ?_, tracked.accounts.shows⟩
    · exact congrArg (fun waiting => [waiting]) (zero_add a.waiting)
    · rw [running]
      exact tracked.accounts.running
  | some r =>
    rw [request] at waiting
    refine ⟨_, .single (.arrive r), plays, ?_, waiting, ?_, tracked.accounts.shows.arrive (asked r request)⟩
    · rw [JobLedger.requests_arrive, ← arrived]
      rfl
    · rw [running]
      exact tracked.accounts.running

theorem executes (orderly : job.Orderly mine) (tracked : Tracked mine key job s a)
    (moves : s.step (.executes index fuel subs) = some s') : ∃ b, Relation.ReflGen JobLedger.Change a b ∧
    Tracked mine key job s' b := by
  unfold JobSystem.step at moves
  dsimp only at moves
  split at moves
  next => cases moves
  next sm found =>
    split at moves
    next machines engine world returned =>
      cases moves
      have split : s.machines = s.machines.take index ++ sm :: s.machines.drop (index + 1) := by
        obtain ⟨_, same⟩ := List.getElem?_eq_some_iff.mp found
        rw [← same, ← drop_eq_getElem_cons, take_append_drop]
      have member : sm ∈ s.machines := mem_of_getElem? found
      obtain ⟨made, acts⟩ := (tracked.plays sm member).execute orderly returned
      obtain ⟨arrived, waiting, running, shows⟩ := tracked.accounts
      rw [split] at waiting running
      obtain ⟨b, changes, requests, waiting, running, shows⟩ := acts.accounts waiting running shows
      refine ⟨b, changes, ?_, arrived.trans requests.symm, waiting, running, shows⟩
      intro other inside
      rcases mem_append.mp inside with inside | last
      · rcases mem_append.mp inside with first | new
        · exact tracked.plays other (mem_of_mem_take first)
        · exact made other new
      · exact tracked.plays other (mem_of_mem_drop last)
    next => cases moves

theorem step (orderly : job.Orderly mine) (tracked : Tracked mine key job s a) (permitted : s.Undisturbed mine action)
    (moves : s.step action = some s') : ∃ b, Relation.ReflGen JobLedger.Change a b ∧ Tracked mine key job s' b := by
  cases action with
  | arrives m =>
    cases moves
    exact tracked.arrives orderly.names permitted
  | executes => exact tracked.executes orderly moves
  | others engine rest =>
    cases moves
    have same : books mine engine { s.world with rest } = books mine s.engine s.world := by
      rw [books, books, permitted]
    refine ⟨a, .refl, tracked.plays, tracked.accounts.arrived, tracked.accounts.waiting, tracked.accounts.running, ?_⟩
    change Shows mine job (books mine engine { s.world with rest }) a
    rw [same]
    exact tracked.accounts.shows

theorem run (orderly : job.Orderly mine) (tracked : Tracked mine key job s a)
    (run : Run JobSystem.step (JobSystem.Undisturbed mine) s s') :
    ∃ b, Relation.ReflTransGen JobLedger.Change a b ∧ Tracked mine key job s' b := by
  apply run.invariant
  · exact ⟨a, .refl, tracked⟩
  · intro before action after kept permitted moves
    obtain ⟨b, changes, tracked⟩ := kept
    obtain ⟨c, change, tracked⟩ := tracked.step orderly permitted moves
    exact ⟨c, changes.trans change.to_reflTransGen, tracked⟩

end Tracked

namespace Scenario

@[reducible] def setting : Setting where
  Input := Nat
  Output := Nat
  Local := Unit
  Global := Unit
  World := Unit
  Value := Unit
  Exception := Empty
  getTime w := (0, w)
  usend _ _ w := w

/-- An event that is no request of the job below. -/
def event : EventId := 9

def mine (eid : EventId) : Bool := eid != event

def work (change : JobLocal setting → JobLocal setting) : Phase setting.app :=
  directly "work" (messageProcessed event (.modifyLocal change (.Continue (.NormalJump "job -> finish"))))

/-- A job whose body is one phase, which acknowledges an event, changes the local state and goes to the finish. -/
def job (change : JobLocal setting → JobLocal setting) : Job setting where
  name := "job"
  args := ⟨none, none, ()⟩
  check_input _ := .ret (.checked (.ok ((0 : Nat), [.NormalJump "work"])))
  phases := [work change]

variable {change : JobLocal setting → JobLocal setting}

theorem work_returns (returned : Returns (runPhase fuel subs idm l buf (work change)) s w results s' w') :
    results = [(idm, buf, .SM_Complete (change l) [.NormalJump "job -> finish"])] ∧ s' = s ∧
      w' = { w with processed := w.processed ++ [event] } := by
  obtain ⟨_, _, _, _, _, ran, later, rfl⟩ := consume_first returned
  obtain ⟨_, _, acknowledged, ran⟩ := PhaseM.returns_Lift.mp ran
  cases acknowledged
  obtain ⟨rfl, rfl, rfl⟩ := PhaseM.returns_Continue.mp (PhaseM.returns_PutLocal.mp (PhaseM.returns_GetLocal.mp ran))
  obtain ⟨rfl, rfl, rfl⟩ := consume_none later
  exact ⟨rfl, rfl, rfl⟩

theorem inner_names (change : JobLocal setting → JobLocal setting) :
    (job change).inner.map Phase.phName = ["job -> finish", "work"] := by
  change ["job" ++ " -> finish", "work"] = _
  decide

theorem orderly (same : ∀ l, (change l).request = l.request) : (job change).Orderly mine where
  names := by
    change ["wrapper_init", "wrapper_clear", "wrapper_end", "job" ++ " -> request", "job" ++
      " -> indexed request", "job" ++ " -> end",
      "job" ++ " -> finish", "work"].Nodup
    decide
  checks input := by
    refine ⟨fun action forks => forks, ?_⟩
    intro subs mindex l buf s w result s' w' returned
    obtain ⟨rfl, rfl, rfl⟩ := PhaseM.returns_ret.mp returned
    refine ⟨rfl, l, _, rfl, rfl, ?_⟩
    intro def' next answer
    cases answer
    refine ⟨cons_ne_nil _ _, ?_⟩
    rw [inner_names]
    decide
  works ph member := by
    cases mem_singleton.mp member
    intro fuel subs idm l buf s w results s' w' _ returned
    obtain ⟨rfl, rfl, rfl⟩ := work_returns returned
    refine ⟨?_, buf, .inr ⟨_, _, rfl, same l, cons_ne_nil _ _, ?_⟩⟩
    · rw [books, books, filter_append, filter_cons_of_neg (by decide), filter_nil, append_nil]
    · rw [inner_names]
      decide

theorem replies (same : ∀ l, l.reply ≠ none → (change l).reply ≠ none) : (job change).Replies := by
  intro ph member fuel subs idm l buf s w results s' w' returned replied finished inside l' xs ends
  cases mem_singleton.mp member
  obtain ⟨rfl, _, _⟩ := work_returns returned
  cases mem_singleton.mp inside
  cases ends
  exact same l replied

def start (change : JobLocal setting → JobLocal setting) : JobSystem setting := .start ⟨1, "job"⟩ (job change) () ()

def executes (index : Nat) : JobAction setting := .executes index 5 .empty

def summary (s : JobSystem setting) : List EventId × List (List ListenerId × Nat) := (s.world.processed, s.world.finished)

def own : JobAction setting → Bool
  | .others .. => false
  | .arrives m => decide (∀ r ∈ m.request?, mine r.eid)
  | .executes .. => true

def run (s : JobSystem setting) (actions : List (JobAction setting)) : Option (JobSystem setting) :=
  execute JobSystem.step (fun _ action => own action) s actions

end Scenario
open Scenario

end Halon.Recovery
