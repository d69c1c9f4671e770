import Halon.Proofs.ProposerWorkers

/-! The messages that a proposer sends about requests. Every request that is handled is answered with one
message, which is the result of its worker if there is a result. -/

namespace Halon.Log
open Library List

variable {A P : Type}

def Mail.id? : Mail A → Option Nat
  | .request id _ => some id
  | _ => none

def Answer.id? (a : Answer A) : Option Nat :=
  match a.ending with
  | .passed _ | .rejected => some a.id
  | .again => none

namespace Worker
variable {worker next : Worker A P} {action : WorkerAction A P}

structure Honest (worker : Worker A P) : Prop where
  putting : ∀ v s, worker.stage = .putting v s → worker.outcome = some (v, s)
  put : ∀ v s, worker.mv = .result v s → worker.outcome = some (v, s) ∧ worker.stage ≠ .proposing

theorem Honest.step (honest : Honest worker) (steps : Steps worker action next) : Honest next := by
  have ⟨putting, put⟩ := honest
  cases steps with
  | @proposed v s stage =>
    refine ⟨fun v' s' same => ?_, fun v' s' full => absurd stage (put v' s' full).2⟩
    cases same
    rfl
  | @puts v s stage =>
    refine ⟨nofun, fun v' s' same => ?_⟩
    cases same
    exact ⟨putting v s stage, nofun⟩
  | fails stage | refused stage full | notifies stage | exits told =>
    exact ⟨nofun, fun v' s' full => ⟨(put v' s' full).1, nofun⟩⟩

def Proposes (worker : Worker A P) (r : ProposerRequest A) : Prop :=
  worker.proposal.2.1 = r.prDecree ∧ worker.proposal.2.2.1 = r.prRequest.requestValue

/-- A worker that has ended does not change its outcome any more. -/
structure Evolves (worker next : Worker A P) : Prop where
  proposal : next.proposal = worker.proposal
  ended : worker.stage = .ended → next.stage = .ended ∧ next.outcome = worker.outcome

theorem Evolves.refl (worker : Worker A P) : Evolves worker worker := ⟨rfl, fun ended => ⟨ended, rfl⟩⟩

theorem Evolves.proposes (evolves : Evolves worker next) (proposes : worker.Proposes r) :
    next.Proposes r := by
  rw [Proposes, evolves.proposal]
  exact proposes

theorem Steps.evolves (steps : Steps worker action next) : Evolves worker next := by
  cases steps with
  | proposed stage => exact ⟨rfl, fun ended => nomatch stage.symm.trans ended⟩
  | fails stage | refused stage full | notifies stage | exits told => exact ⟨rfl, fun _ => ⟨rfl, rfl⟩⟩
  | puts stage => exact ⟨rfl, fun ended => nomatch stage.symm.trans ended⟩

end Worker

namespace ProposerProcess
variable {p p' : ProposerProcess A P}

def waiting (p : ProposerProcess A P) (id : Nat) : Nat :=
  (p.mailbox.filterMap Mail.id?).count id + (p.stage.current.map Handling.id).toList.count id

def answered (p : ProposerProcess A P) (id : Nat) : Nat := (p.answers.filterMap Answer.id?).count id

structure Ledger (p : ProposerProcess A P) : Prop where
  /-- There is one for each request that was taken up, in the same order, except for the one that is being handled. -/
  one : p.taken = p.answers.map (fun a => (a.id, a.r)) ++ (p.stage.current.map fun h => (h.id, h.r)).toList
  beyond : ∀ a ∈ p.answers, a.ending = .rejected → a.r.prDecree < a.w
  /-- Each request that was sent is in the mailbox, being handled or answered, and only once. -/
  requests : ∀ id, p.waiting id + p.answered id = if id < p.submitted then 1 else 0

theorem Ledger.frame (ledger : Ledger p) (stage : p'.stage.current = p.stage.current) (taken : p'.taken = p.taken)
    (answers : p'.answers = p.answers) (submitted : p'.submitted = p.submitted)
    (ids : ∀ id, (p'.mailbox.filterMap Mail.id?).count id = (p.mailbox.filterMap Mail.id?).count id) : Ledger p' := by
  refine ⟨?_, ?_, fun id => ?_⟩
  · rw [taken, answers, stage]
    exact ledger.one
  · rw [answers]
    exact ledger.beyond
  · rw [waiting, answered, ids, answers, stage, submitted]
    exact ledger.requests id

theorem count_received (received : takeFirst accepts p.mailbox = some (m, rest)) (id : Nat) :
    (p.mailbox.filterMap Mail.id?).count id = ((m :: rest).filterMap Mail.id?).count id :=
  ((takeFirst_perm received).filterMap _).count_eq id

variable {worker next : Worker A P}

theorem Ledger.finish (ledger : Ledger p) {h αs w ending s}
    (current : p.stage.current = some h) (rejected : ending = .rejected → h.r.prDecree < w) :
    Ledger (p.finish h αs w ending s worker) := by
  have ⟨one, beyond, requests⟩ := ledger
  rw [current] at one
  refine ⟨?_, fun a member => ?_, fun id => ?_⟩
  · simp [ProposerProcess.finish, one]
  · rcases mem_append.mp member with older | new
    · exact beyond a older
    · cases mem_singleton.mp new
      exact rejected
  · refine Eq.trans ?_ (requests id)
    cases ending with
    | again => simp [ProposerProcess.finish, waiting, answered, current, filterMap_cons, Mail.id?, Answer.id?]
    | passed v | rejected =>
      simp [ProposerProcess.finish, waiting, answered, current, Answer.id?]
      omega

theorem Ledger.take (ledger : Ledger p) {accepts id r rest}
    (stage : p.stage = .waiting) (received : takeFirst accepts p.mailbox = some (.request id r, rest)) :
    Ledger (ProposerProcess.take { p with mailbox := rest } id r) := by
  have ⟨one, beyond, requests⟩ := ledger
  rw [stage] at one
  unfold ProposerProcess.take
  split
  next old =>
    refine ⟨?_, fun a member => ?_, fun other => Eq.trans ?_ (requests other)⟩
    · simp [one, stage]
    · rcases mem_append.mp member with older | new
      · exact beyond a older
      · cases mem_singleton.mp new
        exact fun _ => old
    · simp [waiting, answered, count_received received, stage, Answer.id?, Mail.id?, count_cons]
      omega
  next =>
    refine ⟨?_, beyond, fun other => Eq.trans ?_ (requests other)⟩
    · simp [one]
    · simp [waiting, answered, count_received received, stage, Mail.id?, count_cons]

theorem proceed_ledger (proceeds : Proceeds p p') (ledger : Ledger p) : Ledger p' := by
  cases proceeds with
  | newAcceptors stage received | newWatermark stage received | ignores stage received within =>
    exact ledger.frame rfl rfl rfl rfl fun id => (count_received received id).symm
  | loses stage received | passes stage received beyond | hears stage received =>
    exact ledger.frame (by rw [stage]; rfl) rfl rfl rfl fun id => (count_received received id).symm
  | @consumes h _ _ m rest stage received =>
    refine ledger.frame (by rw [stage]; rfl) rfl rfl rfl fun id => ?_
    rw [count_received received id]
    cases m with
    | request => cases takeFirst_accepted received
    | acceptors | watermark | notification => rfl
  | blocks stage found empty | late stage found full => exact ledger.frame (by rw [stage]; rfl) rfl rfl rfl fun _ => rfl
  | rejects stage received old =>
    have taken := ledger.take stage received
    rwa [take, if_pos old] at taken
  | spawns stage received recent =>
    have taken := ledger.take stage received
    rwa [take, if_neg (not_lt.mpr recent)] at taken
  | abandons stage =>
    refine ledger.finish (by rw [stage]; rfl) fun rejected => ?_
    split at rejected
    next => cases rejected
    next beyond => exact not_le.mp beyond
  | answers stage => exact ledger.finish (by rw [stage]; rfl) nofun

theorem step_ledger (taken : p.step action = some p') (ledger : Ledger p) : Ledger p' := by
  cases action with
  | request =>
    cases taken
    refine ⟨ledger.one, ledger.beyond, fun id => ?_⟩
    have before := ledger.requests id
    simp only [waiting, answered, post, filterMap_append, filterMap_cons, filterMap_nil, Mail.id?, count_append,
      count_singleton, beq_iff_eq] at before ⊢
    split_ifs at before ⊢ <;> omega
  | acceptors αs | watermark w =>
    cases taken
    exact ledger.frame rfl rfl rfl rfl fun id => by simp [post, filterMap_cons, Mail.id?]
  | proceed => exact proceed_ledger (proceed_cases taken) ledger
  | work k action =>
    obtain ⟨_, _, _, _, rfl⟩ := work_cases taken
    refine ledger.frame rfl rfl rfl rfl fun id => ?_
    cases action with
    | notify => simp [post, WorkerAction.sends, filterMap_cons, Mail.id?]
    | proposed | fails | put | exits => simp [post, WorkerAction.sends]

theorem initial_ledger (w : DecreeId) (s : P) (αs : List Nat) : Ledger (initial w s αs : ProposerProcess A P) :=
  ⟨rfl, by simp [initial], fun _ => rfl⟩

/-- If the answer is a result, it is what the worker of the request got for it. -/
def Supports (p : ProposerProcess A P) (a : Answer A) : Prop :=
  ∀ v, a.ending = .passed v → ∃ k worker s, a.worker = some k ∧ p.workers[k]? = some worker ∧ worker.Proposes a.r ∧
    worker.stage = .ended ∧ worker.outcome = some (v, s)

structure Results (p : ProposerProcess A P) : Prop where
  honest : ∀ worker ∈ p.workers, worker.Honest
  proposes : ∀ h ∈ p.stage.current, ∃ worker, p.workers[h.worker]? = some worker ∧ worker.Proposes h.r
  supported : ∀ a ∈ p.answers, p.Supports a

def Grows (p p' : ProposerProcess A P) : Prop :=
  ∀ (k : Nat) (worker : Worker A P), p.workers[k]? = some worker → ∃ next, p'.workers[k]? = some next ∧ worker.Evolves next

theorem grows_same (workers : p'.workers = p.workers) : Grows p p' :=
  fun _ worker found => ⟨worker, workers ▸ found, .refl worker⟩

theorem grows_set (workers : p'.workers = p.workers.set k next) (found : p.workers[k]? = some worker)
    (evolves : worker.Evolves next) : Grows p p' := by
  intro j other there
  by_cases same : k = j
  · subst same
    cases found.symm.trans there
    exact ⟨next, by rw [workers, List.getElem?_set_self (List.getElem?_eq_some_iff.mp found).1], evolves⟩
  · exact ⟨other, by rw [workers, List.getElem?_set_ne same, there], .refl other⟩

theorem Supports.grow (supports : p.Supports a) (grows : Grows p p') : p'.Supports a := by
  intro v passed
  obtain ⟨k, worker, s, named, found, proposes, ended, outcome⟩ := supports v passed
  obtain ⟨next, there, evolves⟩ := grows k worker found
  obtain ⟨still, same⟩ := evolves.ended ended
  exact ⟨k, next, s, named, there, evolves.proposes proposes, still, same.trans outcome⟩

theorem Results.frame (results : Results p) (grows : Grows p p') (honest : ∀ worker ∈ p'.workers, worker.Honest)
    (current : ∀ h ∈ p'.stage.current, h ∈ p.stage.current) (answers : ∀ a ∈ p'.answers, a ∈ p.answers ∨ p'.Supports a) :
    Results p' := by
  refine ⟨honest, fun h member => ?_, fun a member => ?_⟩
  · obtain ⟨worker, found, proposes⟩ := results.proposes h (current h member)
    obtain ⟨next, there, evolves⟩ := grows h.worker worker found
    exact ⟨next, there, evolves.proposes proposes⟩
  · rcases answers a member with older | supports
    · exact (results.supported a older).grow grows
    · exact supports

theorem honest_set (workers : ∀ worker ∈ p.workers, worker.Honest) (honest : next.Honest) :
    ∀ worker ∈ p.workers.set k next, worker.Honest := by
  intro worker member
  rcases mem_or_eq_of_mem_set member with older | same
  · exact workers worker older
  · exact same ▸ honest

theorem Results.settle (results : Results p) (found : p.workers[k]? = some worker) (workers : p'.workers = p.workers.set k next)
    (evolves : worker.Evolves next) (honest : next.Honest) (current : ∀ h ∈ p'.stage.current, h ∈ p.stage.current)
    (answers : ∀ a ∈ p'.answers, a ∈ p.answers ∨ p'.Supports a) : Results p' :=
  results.frame (grows_set workers found evolves) (workers ▸ honest_set results.honest honest) current answers

theorem proceed_results (proceeds : Proceeds p p') (valid : Valid p) (results : Results p) : Results p' := by
  have honest {k : Nat} {worker : Worker A P} (found : p.workers[k]? = some worker) : worker.Honest :=
    results.honest worker (mem_of_getElem? found)
  cases proceeds with
  | rejects =>
    refine results.frame (grows_same rfl) results.honest (fun _ member => member) fun a member => ?_
    rcases mem_append.mp member with older | new
    · exact .inl older
    · cases mem_singleton.mp new
      exact .inr nofun
  | newAcceptors stage | newWatermark stage | ignores stage =>
    exact results.frame (grows_same rfl) results.honest (fun _ member => member) fun _ => .inl
  | loses stage | passes stage | hears stage | late stage | consumes stage =>
    exact results.frame (grows_same rfl) results.honest (fun _ member => stage ▸ member) fun _ => .inl
  | spawns =>
    have grows : ∀ {worker}, Grows p { p with workers := p.workers ++ [worker] } := fun j older found =>
      ⟨older, (List.getElem?_append_left (List.getElem?_eq_some_iff.mp found).1).trans found, .refl older⟩
    refine ⟨fun worker member => ?_, fun h member => ?_, fun a member => (results.supported a member).grow grows⟩
    · rcases mem_append.mp member with older | new
      · exact results.honest worker older
      · cases mem_singleton.mp new
        exact ⟨nofun, nofun⟩
    · cases member
      exact ⟨_, List.getElem?_concat_length .., rfl, rfl⟩
  | blocks stage found =>
    exact results.settle found rfl ⟨rfl, fun ended => ⟨ended, rfl⟩⟩ ⟨(honest found).putting, nofun⟩
      (fun _ member => stage ▸ member) fun _ => .inl
  | abandons _ found =>
    refine results.settle found rfl ⟨rfl, fun ended => ⟨ended, rfl⟩⟩ ⟨(honest found).putting, (honest found).put⟩ nofun
      fun a member => ?_
    rcases mem_append.mp member with older | new
    · exact .inl older
    · cases mem_singleton.mp new
      refine .inr fun v passed => ?_
      simp only at passed
      split at passed <;> cases passed
  | @answers h _ _ worker v' s' stage found put =>
    have current : h ∈ p.stage.current := by rw [stage]; rfl
    obtain ⟨_, here, fits⟩ := valid.current h current
    cases found.symm.trans here
    rw [stage] at fits
    refine results.settle found rfl ⟨rfl, fun ended => ⟨ended, rfl⟩⟩ ⟨(honest found).putting, nofun⟩ nofun fun a member => ?_
    rcases mem_append.mp member with older | new
    · exact .inl older
    · cases mem_singleton.mp new
      obtain ⟨_, there, proposes⟩ := results.proposes h current
      cases found.symm.trans there
      refine .inr fun v passed => ?_
      cases passed
      exact ⟨h.worker, _, s', rfl, List.getElem?_set_self (List.getElem?_eq_some_iff.mp found).1, proposes, fits.ended,
        ((honest found).put _ _ put).1⟩

theorem step_results (taken : p.step action = some p') (valid : Valid p) (results : Results p) :
    Results p' := by
  cases action with
  | request r | acceptors αs | watermark w =>
    cases taken
    exact results.frame (grows_same rfl) results.honest (fun _ member => member) fun _ => .inl
  | proceed => exact proceed_results (proceed_cases taken) valid results
  | work =>
    obtain ⟨worker, _, found, steps, rfl⟩ := work_cases taken
    have honest := (results.honest worker (mem_of_getElem? found)).step steps
    exact results.settle found rfl steps.evolves honest (fun _ member => member) fun _ => .inl

theorem initial_results (w : DecreeId) (s : P) (αs : List Nat) : Results (initial w s αs : ProposerProcess A P) :=
  ⟨fun _ member => absurd member not_mem_nil, nofun, fun _ member => absurd member not_mem_nil⟩

structure Sound (p : ProposerProcess A P) : Prop where
  valid : Valid p
  ledger : Ledger p
  results : Results p

theorem run_sound {w s} {αs : List Nat} (run : Run step (fun _ _ => True) (initial w s αs) p) : Sound p :=
  run.invariant ⟨initial_valid w s αs, initial_ledger w s αs, initial_results w s αs⟩
    fun _ _ _ ⟨valid, ledger, results⟩ _ taken =>
      ⟨step_valid taken valid, step_ledger taken ledger, step_results taken valid results⟩

/-- There is one message for each request that was taken up, unless it is still being handled, and a result is
that of the worker. The replica gets one answer to a request, or none while the request waits. A request is rejected
only by a later watermark. And while the proposer waits for a request, no notification is left or on its way. -/
theorem answers_once {w : DecreeId} {s : P} {αs : List Nat} (run : Run step (fun _ _ => True) (initial w s αs) p) :
    p.taken = p.answers.map (fun a => (a.id, a.r)) ++ (p.stage.current.map fun h => (h.id, h.r)).toList ∧
    (∀ a ∈ p.answers, p.Supports a) ∧
    (∀ h, p.stage.current = some h → p.stage ≠ .handling h →
      (p.step .proceed).isSome ∨ (p.step (.work h.worker .notify)).isSome) ∧
    (∀ id, p.waiting id + p.answered id = if id < p.submitted then 1 else 0) ∧
    (∀ a ∈ p.answers, a.ending = .rejected → a.r.prDecree < a.w) ∧
    (p.stage = .waiting → (∀ k, .notification k ∉ p.mailbox) ∧
      ∀ p', Run step (fun _ _ => True) p p' → ∀ k < p.workers.length, .notification k ∉ p'.mailbox) := by
  obtain ⟨valid, ledger, results⟩ := run_sound run
  refine ⟨ledger.one, results.supported, fun h => valid.progress, ledger.requests, ledger.beyond, fun stage =>
    ⟨fun k member => ?_, ?_⟩⟩
  · have notified : p.notes k ≠ 0 := (countP_pos_iff.mpr ⟨_, member, decide_eq_true rfl⟩ : 0 < p.notes k).ne'
    obtain ⟨h, current, -⟩ := valid.notifier notified
    rw [stage] at current
    cases current
  · intro p' later k before
    have past : Past p.workers.length p' := later.invariant (valid.past stage) fun _ _ _ past _ taken => step_past taken past
    exact past.unheard before

namespace Example

def propose (n : Int) (x : Nat) : Action Nat Unit := .request ⟨⟨0, n⟩, true, 0, ⟨[5], .Values [x], .None⟩⟩

/-- The worker of the first request is faster than the new acceptors. The second request is tried again after new
acceptors, and goes back to the replica when the watermark passes it. -/
def three : List (Action Nat Unit) :=
  [propose 0 7, .proceed, .acceptors [1], .work 0 (.proposed (.Values [7]) ()), .proceed, .work 0 .put, .proceed,
    .work 0 .notify, .proceed, .proceed,
    propose 1 8, .proceed, .acceptors [2], .work 1 (.proposed (.Values [8]) ()), .proceed, .proceed, .work 1 .put, .proceed,
    .proceed, .watermark ⟨0, 5⟩, .proceed, .proceed, .proceed]

def ending : Ending Nat → Option (List Nat)
  | .passed (.Values xs) => some xs
  | .passed (.Reconf ..) | .rejected | .again => none

def summary (p : ProposerProcess Nat Unit) : List (Nat × Int × Option (List Nat)) × Nat :=
  (p.answers.map fun a => (a.id, a.w.decreeNumber, ending a.ending), p.workers.length)

end Example

open Example in
theorem answers_once_three : ∃ p : ProposerProcess Nat Unit,
    Run step (fun _ _ => True) (initial ⟨0, 0⟩ () [0]) p ∧
    summary p = ([(0, 0, some [7]), (1, 0, none), (1, 5, none)], 3) ∧
    p.taken = p.answers.map (fun a => (a.id, a.r)) ++ (p.stage.current.map fun h => (h.id, h.r)).toList ∧
    ∀ a ∈ p.answers, a.ending = .rejected → a.r.prDecree < a.w := by
  refine exists_run_and three (by decide) fun p run _ => ?_
  obtain ⟨one, -, -, -, beyond, -⟩ := answers_once run
  exact ⟨one, beyond⟩

end ProposerProcess
end Halon.Log
