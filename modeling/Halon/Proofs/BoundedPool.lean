import Halon.BoundedPool
import Mathlib.Algebra.Order.Group.Multiset
import Mathlib.Tactic.Abel

/-! The bounded pool keeps its bound and starts no task twice. It forgets no queued task as long
as no task is queued, and none throws, when all the other workers are about to leave. -/

namespace Halon
open Library Multiset List

namespace Worker
variable {T : Type}

def assigned : Worker T → Option T
  | .ready t => some t
  | _ => none

def attends : Worker T → Bool
  | .terminating => false
  | _ => true

end Worker

namespace BoundedPool
variable {T : Type} {ppBound : Int} {s s' : BoundedPool T}

section
variable {workers : List (Worker T)} {i : Nat} {old : Worker T}

theorem perm_eraseIdx (found : workers[i]? = some old) : workers.Perm (old :: workers.eraseIdx i) := by
  obtain ⟨inside, rfl⟩ := List.getElem?_eq_some_iff.mp found
  exact (getElem_cons_eraseIdx_perm inside).symm

theorem perm_set (found : workers[i]? = some old) (new : Worker T) : (workers.set i new).Perm (new :: workers.eraseIdx i) := by
  obtain ⟨inside, _⟩ := List.getElem?_eq_some_iff.mp found
  exact set_perm_cons_eraseIdx inside new

end

variable (ppBound s) in
/-- What an action finds, and what it makes of the pool. The workers that do not act stay. -/
inductive Moved : Action T → BoundedPool T → Prop where
  | spawns (capacity : s.ppRef.psCount < ppBound) : Moved (.submitTask t)
      ⟨⟨s.ppRef.psCount + 1, s.ppRef.psQueue⟩, s.workers ++ [.ready t], s.submitted ++ [t], s.started⟩
  | queues (full : ¬ s.ppRef.psCount < ppBound) : Moved (.submitTask t)
      ⟨⟨s.ppRef.psCount, s.ppRef.psQueue ++ [t]⟩, s.workers, s.submitted ++ [t], s.started⟩
  | runs (found : s.workers[i]? = some (.ready t)) : Moved (.run i)
      ⟨s.ppRef, s.workers.set i (.running t), s.submitted, s.started ++ [t]⟩
  | returns (found : s.workers[i]? = some (.running t)) : Moved (.returns i)
      ⟨s.ppRef, s.workers.set i .continuing, s.submitted, s.started⟩
  | throws (found : s.workers[i]? = some (.running t)) : Moved (.throws i)
      ⟨s.ppRef, s.workers.set i .terminating, s.submitted, s.started⟩
  | leaves (found : s.workers[i]? = some .continuing) (none : s.ppRef.psQueue = []) : Moved (.continue i)
      ⟨s.ppRef, s.workers.set i .terminating, s.submitted, s.started⟩
  | takes {next} (found : s.workers[i]? = some .continuing) (some : s.ppRef.psQueue = next :: rest) :
      Moved (.continue i) ⟨⟨s.ppRef.psCount, rest⟩, s.workers.set i (.ready next), s.submitted, s.started⟩
  | terminates (found : s.workers[i]? = some .terminating) : Moved (.terminate i)
      ⟨⟨s.ppRef.psCount - 1, s.ppRef.psQueue⟩, s.workers.eraseIdx i, s.submitted, s.started⟩

variable {action : Action T}

theorem step_moved (moves : step ppBound s action = some s') : Moved ppBound s action s' := by
  cases action with
  | submitTask =>
    by_cases capacity : s.ppRef.psCount < ppBound
    · rw [step, submitTask, if_pos capacity] at moves
      cases moves
      exact .spawns capacity
    · rw [step, submitTask, if_neg capacity] at moves
      dsimp only at moves
      rw [Option.toList_none, append_nil] at moves
      cases moves
      exact .queues capacity
  | run =>
    rw [step] at moves
    split at moves
    next found =>
      cases moves
      exact .runs found
    next => cases moves
  | returns =>
    rw [step] at moves
    split at moves
    next found =>
      cases moves
      exact .returns found
    next => cases moves
  | throws =>
    rw [step] at moves
    split at moves
    next found =>
      cases moves
      exact .throws found
    next => cases moves
  | «continue» i =>
    rw [step] at moves
    split at moves
    next found =>
      cases queue : s.ppRef.psQueue with
      | nil =>
        rw [«continue», queue] at moves
        cases moves
        exact .leaves found queue
      | cons =>
        rw [«continue», queue] at moves
        cases moves
        exact .takes found queue
    next => cases moves
  | terminate =>
    rw [step] at moves
    split at moves
    next found =>
      cases moves
      exact .terminates found
    next => cases moves

/-- The count is that of the workers, and every task that was submitted is started, assigned to a worker or queued. -/
structure Counted (ppBound : Int) (s : BoundedPool T) : Prop where
  count : s.ppRef.psCount = s.workers.length
  bound : s.workers.length ≤ ppBound
  tasks : (s.submitted : Multiset T) = s.started + (s.workers.filterMap Worker.assigned + s.ppRef.psQueue)

theorem newProcessPool_counted (positive : 1 ≤ ppBound) : Counted ppBound (newProcessPool : BoundedPool T) :=
  ⟨rfl, by change (0 : Int) ≤ ppBound; omega, rfl⟩

variable {workers : List (Worker T)} {old new : Worker T}

theorem coe_assigned (split : workers.Perm (worker :: others)) :
    (workers.filterMap Worker.assigned : Multiset T) = worker.assigned.toList + others.filterMap Worker.assigned := by
  rw [coe_add, coe_eq_coe]
  refine (split.filterMap _).trans ?_
  cases worker <;> exact .refl _

private theorem Counted.replace {i : Nat} {queue started : List T} (counted : Counted ppBound s)
    (found : s.workers[i]? = some old)
    (same : (s.started : Multiset T) + old.assigned.toList + s.ppRef.psQueue = started + new.assigned.toList + queue) :
    Counted ppBound ⟨⟨s.ppRef.psCount, queue⟩, s.workers.set i new, s.submitted, started⟩ := by
  have length : (s.workers.set i new).length = s.workers.length := length_set
  refine ⟨length ▸ counted.count, length ▸ counted.bound, ?_⟩
  have rest : (s.submitted : Multiset T) =
      s.started + old.assigned.toList + s.ppRef.psQueue + (s.workers.eraseIdx i).filterMap Worker.assigned := by
    rw [counted.tasks, coe_assigned (perm_eraseIdx found)]
    abel
  rw [rest, same, coe_assigned (perm_set found new)]
  abel

theorem step_counted (counted : Counted ppBound s) (moves : step ppBound s action = some s') : Counted ppBound s' := by
  cases step_moved moves with
  | @spawns t =>
    obtain ⟨count, _, tasks⟩ := counted
    refine ⟨?_, ?_, ?_⟩
    · simp [count]
    · rw [length_append, length_singleton]
      omega
    · rw [filterMap_append, ← coe_add, ← coe_add, tasks]
      change _ = _ + (_ + ([t] : Multiset T) + _)
      abel
  | queues =>
    obtain ⟨count, bound, tasks⟩ := counted
    refine ⟨count, bound, ?_⟩
    rw [← coe_add, ← coe_add, tasks]
    abel
  | @runs i t found =>
    refine counted.replace found ?_
    rw [← coe_add]
    change _ + ([t] : Multiset T) + _ = _ + _ + 0 + _
    rw [add_zero]
  | returns found | throws found | leaves found => exact counted.replace found rfl
  | @takes i rest next found queue =>
    refine counted.replace found ?_
    rw [queue, ← cons_coe, ← singleton_add]
    change (_ + 0 + _ : Multiset T) = _ + {next} + _
    abel
  | @terminates i found =>
    obtain ⟨_, _, tasks⟩ := counted
    have fewer := (perm_eraseIdx found).length_eq
    rw [length_cons] at fewer
    rw [coe_assigned (perm_eraseIdx found)] at tasks
    refine ⟨?_, ?_, ?_⟩
    · dsimp only
      omega
    · dsimp only
      omega
    · rw [tasks]
      change _ + (0 + _ + _) = _
      rw [zero_add]

theorem run_counted {allowed : BoundedPool T → Action T → Prop} (positive : 1 ≤ ppBound)
    (run : Run (step ppBound) allowed newProcessPool s) : Counted ppBound s :=
  run.invariant (newProcessPool_counted positive) fun _ _ _ counted _ moves => step_counted counted moves

/-- A queued task has a worker that has yet to make its final check of the queue. -/
def Attended (s : BoundedPool T) : Prop := s.ppRef.psQueue ≠ [] → ∃ worker ∈ s.workers, worker.attends

/-- What must not happen: a task is queued, or the queue is left by a task that throws, when no (other) worker
has yet to make its final check. -/
def Minded (ppBound : Int) (s : BoundedPool T) : Action T → Prop
  | .submitTask _ => s.ppRef.psCount < ppBound ∨ ∃ worker ∈ s.workers, worker.attends
  | .throws i => s.ppRef.psQueue = [] ∨ ∃ worker ∈ s.workers.eraseIdx i, worker.attends
  | _ => True

instance (s : BoundedPool T) : ∀ action, Decidable (Minded ppBound s action)
  | .submitTask _ => inferInstanceAs (Decidable (_ ∨ _))
  | .throws _ => inferInstanceAs (Decidable (_ ∨ _))
  | .run _ | .returns _ | .continue _ | .terminate _ => inferInstanceAs (Decidable True)

private theorem attended_set (found : workers[i]? = some old)
    (other : new.attends ∨ ∃ worker ∈ workers.eraseIdx i, worker.attends) : ∃ worker ∈ workers.set i new, worker.attends := by
  have same := perm_set found new
  rcases other with here | ⟨worker, member, attends⟩
  · exact ⟨new, same.mem_iff.mpr mem_cons_self, here⟩
  · exact ⟨worker, same.mem_iff.mpr (mem_cons_of_mem _ member), attends⟩

theorem step_attended (attended : s.Attended) (minded : s.Minded ppBound action) (moves : step ppBound s action = some s') :
    s'.Attended := by
  cases step_moved moves with
  | spawns => exact fun _ => ⟨_, mem_append_right _ mem_cons_self, rfl⟩
  | queues full => exact fun _ => minded.resolve_left full
  | runs found | returns found | takes found => exact fun _ => attended_set found (.inl rfl)
  | throws found => exact fun some => attended_set found (.inr (minded.resolve_left some))
  | leaves _ none => exact fun some => absurd none some
  | @terminates i found =>
    intro queued
    obtain ⟨worker, member, attends⟩ := attended queued
    refine ⟨worker, ?_, attends⟩
    rcases mem_cons.mp ((perm_eraseIdx found).mem_iff.mp member) with rfl | other
    · cases attends
    · exact other

/-- The condition is exact: an action that does not meet it leaves a queued task to nobody. -/
theorem unattended_of_not_minded (unminded : ¬ s.Minded ppBound action) (moves : step ppBound s action = some s') :
    ¬ s'.Attended := by
  intro attended
  cases step_moved moves with
  | spawns capacity => exact unminded (.inl capacity)
  | queues => exact unminded (.inr (attended (append_ne_nil_of_right_ne_nil _ (cons_ne_nil _ _))))
  | @throws i t found =>
    have queued : s.ppRef.psQueue ≠ [] := fun none => unminded (.inl none)
    obtain ⟨worker, member, attends⟩ := attended queued
    rcases mem_cons.mp ((perm_set found .terminating).mem_iff.mp member) with rfl | other
    · cases attends
    · exact unminded (.inr ⟨worker, other, attends⟩)
  | runs | returns | leaves | takes | terminates => exact unminded trivial

/-- The bound is kept and each task is started at most once, whatever the workers do. In a run in which no task is
queued and none throws while all other workers are past their final check, no queued task is forgotten. -/
theorem tasks_attended (positive : 1 ≤ ppBound) (run : Run (step ppBound) (Minded ppBound) newProcessPool s) :
    s.workers.length ≤ ppBound ∧ s.started.Subperm s.submitted ∧
      (s.ppRef.psQueue ≠ [] → ∃ worker ∈ s.workers, worker.attends) := by
  have counted : Counted ppBound s := run_counted positive run
  refine ⟨counted.bound, ?_, ?_⟩
  · rw [← coe_le, counted.tasks]
    exact le_add_right _ _
  · have attended : s.Attended :=
      run.invariant (fun queued => absurd rfl queued) fun _ _ _ attended minded moves => step_attended attended minded moves
    exact attended

/-- With one worker: the second task waits when the first one has ended, and the worker will see it. -/
theorem tasks_attended_queued : ∃ s : BoundedPool Nat, Run (step 1) (Minded 1) newProcessPool s ∧
    s.workers = [.continuing] ∧ s.ppRef.psQueue = [2] ∧ s.started = [1] ∧
    (s.ppRef.psQueue ≠ [] → ∃ worker ∈ s.workers, worker.attends) := by
  have executed : execute (step 1) (Minded 1) newProcessPool [.submitTask 1, .submitTask 2, .run 0, .returns 0] =
      some (⟨⟨1, [2]⟩, [.continuing], [1, 2], [1]⟩ : BoundedPool Nat) := rfl
  exact ⟨_, run_of_execute executed, rfl, rfl, rfl, (tasks_attended (by decide) (run_of_execute executed)).2.2⟩

/-- With one worker: a task is queued after the worker found nothing to do and before it leaves, or the worker
leaves because its task threw. Either way no worker is left for the queued task. -/
theorem task_forgotten :
    let forgotten : BoundedPool Nat := ⟨⟨0, [2]⟩, [], [1, 2], [1]⟩
    execute (step 1) (fun _ _ => True) newProcessPool
      [.submitTask 1, .run 0, .returns 0, .continue 0, .submitTask 2, .terminate 0] = some forgotten ∧
    execute (step 1) (fun _ _ => True) newProcessPool
      [.submitTask 1, .submitTask 2, .run 0, .throws 0, .terminate 0] = some forgotten ∧
    Run (step 1) (fun _ _ => True) newProcessPool forgotten ∧ ¬ forgotten.Attended := by
  have executed : execute (step 1) (fun _ _ => True) newProcessPool
      [.submitTask 1, .run 0, .returns 0, .continue 0, .submitTask 2, .terminate 0] =
        some (⟨⟨0, [2]⟩, [], [1, 2], [1]⟩ : BoundedPool Nat) := rfl
  refine ⟨executed, rfl, run_of_execute executed, ?_⟩
  intro attended
  obtain ⟨_, member, _⟩ := attended (cons_ne_nil _ _)
  cases member

end BoundedPool
end Halon
