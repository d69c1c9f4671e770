import Halon.Log.ProposerWorkers

/-! The proposer and its workers. A worker notifies the proposer if its result was not blocked, and
the notification is consumed before the next request is taken up. -/

namespace Halon.Log
open Library List Option

variable {A P : Type}

def Mail.notifies (k : Nat) : Mail A → Bool
  | .notification j => j = k
  | _ => false

def WorkerAction.notes : WorkerAction A P → Nat
  | .notify => 1
  | _ => 0

theorem countP_sends (action : WorkerAction A P) (j k : Nat) :
    (action.sends k).countP (Mail.notifies j) = if j = k then action.notes else 0 := by
  cases action with
  | notify => simp [WorkerAction.sends, WorkerAction.notes, Mail.notifies, countP_cons, eq_comm]
  | proposed | fails | put | exits => simp [WorkerAction.sends, WorkerAction.notes]

namespace Worker
variable {worker next : Worker A P} {notes : Nat} {action : WorkerAction A P}

/-- The result of the worker can still be put, or blocked. -/
structure Open (worker : Worker A P) (notes : Nat) : Prop where
  empty : worker.mv = .empty
  silent : worker.stage ≠ .notifying
  kept : worker.exited = false
  unheard : notes = 0

/-- The worker has put its result. It will notify the proposer, or has done so. -/
inductive Reported (worker : Worker A P) : Nat → Prop where
  | sending (put : worker.mv = .result v s) (stage : worker.stage = .notifying)
      (kept : worker.exited = false) : Reported worker 0
  | sent (put : worker.mv = .result v s) (stage : worker.stage = .ended)
      (kept : worker.exited = false) : Reported worker 1

/-- The notification of the worker was consumed, and its result is there. -/
structure Heard (worker : Worker A P) (notes : Nat) : Prop where
  put : ∃ v s, worker.mv = .result v s
  ended : worker.stage = .ended
  unheard : notes = 0

structure Blocked (worker : Worker A P) (notes : Nat) : Prop where
  put : worker.mv = .undefined
  silent : worker.stage ≠ .notifying
  unheard : notes = 0

structure Quiet (worker : Worker A P) (notes : Nat) : Prop where
  silent : worker.stage ≠ .notifying
  closed : worker.stage = .ended ∨ worker.mv ≠ .empty
  unheard : notes = 0

inductive Steps (worker : Worker A P) : WorkerAction A P → Worker A P → Prop where
  | proposed (stage : worker.stage = .proposing) :
      Steps worker (.proposed v s) { worker with stage := .putting v s, outcome := some (v, s) }
  | fails (stage : worker.stage = .proposing) : Steps worker .fails { worker with stage := .ended }
  | puts (stage : worker.stage = .putting v s) (empty : worker.mv = .empty) :
      Steps worker .put { worker with mv := .result v s, stage := .notifying }
  | refused (stage : worker.stage = .putting v s) (full : worker.mv ≠ .empty) :
      Steps worker .put { worker with stage := .ended }
  | notifies (stage : worker.stage = .notifying) : Steps worker .notify { worker with stage := .ended }
  | exits (told : worker.exited = true) : Steps worker .exits { worker with stage := .ended }

theorem step_cases (taken : worker.step action = some next) : Steps worker action next := by
  cases action with
  | proposed =>
    simp only [step] at taken
    split at taken
    next stage =>
      cases taken
      exact .proposed stage
    next => cases taken
  | fails =>
    simp only [step] at taken
    split at taken
    next stage =>
      cases taken
      exact .fails stage
    next => cases taken
  | put =>
    simp only [step] at taken
    split at taken
    next stage empty =>
      cases taken
      exact .puts stage empty
    next stage full =>
      cases taken
      exact .refused stage full
    next => cases taken
  | notify =>
    simp only [step] at taken
    split at taken
    next stage =>
      cases taken
      exact .notifies stage
    next => cases taken
  | exits =>
    obtain ⟨told, same⟩ := ite_none_right_eq_some.mp taken
    cases same
    exact .exits told

theorem Quiet.step (quiet : Quiet worker notes) (steps : Steps worker action next) : Quiet next (notes + action.notes) := by
  have unheard := quiet.unheard
  cases steps with
  | proposed stage => exact ⟨nofun, .inr (quiet.closed.resolve_left (by rw [stage]; nofun)), unheard⟩
  | fails | refused | exits => exact ⟨nofun, .inl rfl, unheard⟩
  | puts stage empty => exact absurd empty (quiet.closed.resolve_left (by rw [stage]; nofun))
  | notifies stage => exact absurd stage quiet.silent

theorem Open.step (opened : Open worker notes) (steps : Steps worker action next) :
    Open next (notes + action.notes) ∨ Reported next (notes + action.notes) := by
  obtain ⟨empty, silent, kept, rfl⟩ := opened
  cases steps with
  | proposed | fails => exact .inl ⟨empty, nofun, kept, rfl⟩
  | puts => exact .inr (.sending rfl rfl kept)
  | refused _ full => exact absurd empty full
  | notifies stage => exact absurd stage silent
  | exits told => cases told.symm.trans kept

theorem Reported.step (reported : Reported worker notes) (steps : Steps worker action next) :
    Reported next (notes + action.notes) := by
  cases reported with
  | sending put stage kept =>
    cases steps with
    | notifies => exact .sent put rfl kept
    | exits told => cases told.symm.trans kept
    | proposed other | fails other | puts other _ | refused other _ => cases stage.symm.trans other
  | sent put stage kept =>
    cases steps with
    | exits told => cases told.symm.trans kept
    | proposed other | fails other | puts other _ | refused other _ | notifies other => cases stage.symm.trans other

theorem Reported.full (reported : Reported worker notes) : worker.mv ≠ .empty := by
  cases reported with
  | sending put | sent put =>
    rw [put]
    nofun

theorem Reported.heard (reported : Reported worker (notes + 1)) : Heard worker notes := by
  cases reported with
  | sent put stage => exact ⟨⟨_, _, put⟩, stage, rfl⟩

theorem Heard.step (heard : Heard worker notes) (steps : Steps worker action next) : Heard next (notes + action.notes) := by
  obtain ⟨put, ended, unheard⟩ := heard
  cases steps with
  | exits => exact ⟨put, rfl, unheard⟩
  | proposed other | fails other | puts other _ | refused other _ | notifies other => cases ended.symm.trans other

theorem Blocked.step (blocked : Blocked worker notes) (steps : Steps worker action next) :
    Blocked next (notes + action.notes) := by
  obtain ⟨put, silent, unheard⟩ := blocked
  cases steps with
  | proposed | fails | refused | exits => exact ⟨put, nofun, unheard⟩
  | puts _ empty => cases put.symm.trans empty
  | notifies stage => exact absurd stage silent

end Worker

namespace ProposerStage

def current : ProposerStage A → Option (Handling A)
  | .waiting => none
  | .handling h | .clearing h _ _ | .expecting h _ _ | .concluding h _ _ _ => some h

@[simp] theorem current_waiting : (waiting : ProposerStage A).current = none := rfl

@[simp] theorem current_handling (h : Handling A) : (handling h).current = some h := rfl

/-- How the worker of the request stands, and the workers of earlier requests while the proposer waits. -/
def Fits (worker : Worker A P) (notes : Nat) : ProposerStage A → Prop
  | .waiting => worker.Quiet notes
  | .handling _ | .clearing .. => worker.Open notes ∨ worker.Reported notes
  | .expecting .. => worker.Reported notes
  | .concluding _ _ _ true => worker.Blocked notes
  | .concluding _ _ _ false => worker.Heard notes

theorem Fits.step {stage : ProposerStage A} {next} (fits : stage.Fits worker notes) (steps : worker.Steps action next) :
    stage.Fits next (notes + action.notes) := by
  cases stage with
  | waiting => exact Worker.Quiet.step fits steps
  | handling h | clearing h αs w =>
    rcases fits with opened | reported
    · exact opened.step steps
    · exact .inr (reported.step steps)
  | expecting => exact Worker.Reported.step fits steps
  | concluding h αs w blocked =>
    cases blocked with
    | true => exact Worker.Blocked.step fits steps
    | false => exact Worker.Heard.step fits steps

end ProposerStage

namespace ProposerProcess

inductive Proceeds (p : ProposerProcess A P) : ProposerProcess A P → Prop where
  | rejects {id : Nat} (stage : p.stage = .waiting)
      (received : takeFirst (fun m => !m.isNotification) p.mailbox = some (.request id r, rest)) (old : r.prDecree < p.w) :
      Proceeds p { p with
        mailbox := rest, answers := p.answers ++ [⟨id, r, none, p.w, .rejected⟩], taken := p.taken ++ [(id, r)] }
  | spawns {id : Nat} (stage : p.stage = .waiting)
      (received : takeFirst (fun m => !m.isNotification) p.mailbox = some (.request id r, rest)) (recent : p.w ≤ r.prDecree) :
      Proceeds p { p with
        mailbox := rest
        stage := .handling ⟨id, r, p.workers.length⟩
        workers := p.workers ++ [⟨(p.αs, r.prDecree, r.prRequest.requestValue, p.s), .empty, .proposing, false, none⟩]
        taken := p.taken ++ [(id, r)] }
  | newAcceptors (stage : p.stage = .waiting)
      (received : takeFirst (fun m => !m.isNotification) p.mailbox = some (.acceptors αs', rest)) :
      Proceeds p { p with mailbox := rest, αs := αs' }
  | newWatermark (stage : p.stage = .waiting)
      (received : takeFirst (fun m => !m.isNotification) p.mailbox = some (.watermark w', rest)) :
      Proceeds p { p with mailbox := rest, w := max p.w w' }
  | hears (stage : p.stage = .handling h)
      (received : takeFirst (fun m => !m.isRequest) p.mailbox = some (.notification k, rest)) :
      Proceeds p { p with mailbox := rest, stage := .concluding h p.αs p.w false }
  | ignores (stage : p.stage = .handling h)
      (received : takeFirst (fun m => !m.isRequest) p.mailbox = some (.watermark w', rest)) (within : w' ≤ h.r.prDecree) :
      Proceeds p { p with mailbox := rest }
  | loses (stage : p.stage = .handling h)
      (received : takeFirst (fun m => !m.isRequest) p.mailbox = some (.acceptors αs', rest)) :
      Proceeds p { p with mailbox := rest, stage := .clearing h αs' p.w }
  | passes (stage : p.stage = .handling h)
      (received : takeFirst (fun m => !m.isRequest) p.mailbox = some (.watermark w', rest)) (beyond : h.r.prDecree < w') :
      Proceeds p { p with mailbox := rest, stage := .clearing h p.αs w' }
  | blocks (stage : p.stage = .clearing h αs' w')
      (found : p.workers[h.worker]? = some worker) (empty : worker.mv = .empty) :
      Proceeds p { p with
        workers := p.workers.set h.worker { worker with mv := .undefined }, stage := .concluding h αs' w' true }
  | late (stage : p.stage = .clearing h αs' w')
      (found : p.workers[h.worker]? = some worker) (full : worker.mv ≠ .empty) :
      Proceeds p { p with stage := .expecting h αs' w' }
  | consumes
      (stage : p.stage = .expecting h αs' w') (received : takeFirst Mail.isNotification p.mailbox = some (m, rest)) :
      Proceeds p { p with mailbox := rest, stage := .concluding h αs' w' false }
  | abandons
      (stage : p.stage = .concluding h αs' w' true) (found : p.workers[h.worker]? = some worker) :
      Proceeds p (finish p h αs' w' (if w' ≤ h.r.prDecree then .again else .rejected) p.s { worker with exited := true })
  | answers
      (stage : p.stage = .concluding h αs' w' false) (found : p.workers[h.worker]? = some worker)
      (put : worker.mv = .result v' s') : Proceeds p (finish p h αs' w' (.passed v') s' { worker with mv := .empty })

variable {p p' : ProposerProcess A P}

theorem proceed_cases (taken : p.proceed = some p') : Proceeds p p' := by
  unfold proceed at taken
  split at taken
  next stage =>
    split at taken
    next received =>
      cases taken
      unfold take
      split
      next old => exact .rejects stage received old
      next recent => exact .spawns stage received (not_lt.mp recent)
    next received =>
      cases taken
      exact .newAcceptors stage received
    next received =>
      cases taken
      exact .newWatermark stage received
    next => cases taken
  next stage =>
    split at taken
    next received =>
      cases taken
      exact .hears stage received
    next received =>
      cases taken
      exact .loses stage received
    next received =>
      split at taken
      next within =>
        cases taken
        exact .ignores stage received within
      next beyond =>
        cases taken
        exact .passes stage received (not_le.mp beyond)
    next => cases taken
  next stage =>
    obtain ⟨_, found, taken⟩ := bind_eq_some_iff.mp taken
    split at taken
    next empty =>
      cases taken
      exact .blocks stage found empty
    next full =>
      cases taken
      exact .late stage found full
  next stage =>
    split at taken
    next received =>
      cases taken
      exact .consumes stage received
    next => cases taken
  next stage =>
    obtain ⟨_, found, taken⟩ := bind_eq_some_iff.mp taken
    cases taken
    exact .abandons stage found
  next stage =>
    obtain ⟨_, found, taken⟩ := bind_eq_some_iff.mp taken
    split at taken
    next put =>
      cases taken
      exact .answers stage found put
    next => cases taken

variable {k : Nat} {accepts : Mail A → Bool} {rest : List (Mail A)} {h : Handling A} {worker : Worker A P}

theorem work_cases (taken : p.step (.work k action) = some p') :
    ∃ worker next, p.workers[k]? = some worker ∧ worker.Steps action next ∧
      p' = { p.post (action.sends k) with workers := p.workers.set k next } := by
  obtain ⟨worker, found, taken⟩ := bind_eq_some_iff.mp taken
  obtain ⟨next, steps, same⟩ := bind_eq_some_iff.mp taken
  exact ⟨worker, next, found, Worker.step_cases steps, (Option.some.inj same).symm⟩

def notes (p : ProposerProcess A P) (k : Nat) : Nat := p.mailbox.countP (Mail.notifies k)

/-- Every worker but that of the request that is being handled is quiet. -/
structure Valid (p : ProposerProcess A P) : Prop where
  current : ∀ h ∈ p.stage.current, ∃ worker, p.workers[h.worker]? = some worker ∧ p.stage.Fits worker (p.notes h.worker)
  earlier : ∀ k worker, p.workers[k]? = some worker → (∀ h ∈ p.stage.current, h.worker ≠ k) → worker.Quiet (p.notes k)
  senders : ∀ k, p.workers[k]? = none → p.notes k = 0

theorem notes_received (received : takeFirst accepts p.mailbox = some (m, rest)) (k : Nat) :
    p.notes k = rest.countP (Mail.notifies k) + if m.notifies k then 1 else 0 := by
  rw [notes, (takeFirst_perm received).countP_eq, countP_cons]

theorem Valid.notifier (valid : Valid p) (notified : p.notes k ≠ 0) : ∃ h ∈ p.stage.current, h.worker = k := by
  cases found : p.workers[k]? with
  | none => exact absurd (valid.senders k found) notified
  | some worker =>
    by_contra other
    refine notified (valid.earlier k worker found fun h current same => ?_).unheard
    exact other ⟨h, current, same⟩

theorem Valid.update (valid : Valid p) (stage : p'.stage.current = p.stage.current ∨ p'.stage = .waiting)
    (others : ∀ k, (∀ h ∈ p.stage.current, h.worker ≠ k) → p'.workers[k]? = p.workers[k]? ∧ p'.notes k = p.notes k)
    (own : ∀ h ∈ p.stage.current, ∃ worker, p'.workers[h.worker]? = some worker ∧ p'.stage.Fits worker (p'.notes h.worker)) :
    Valid p' := by
  have kept : ∀ h ∈ p'.stage.current, h ∈ p.stage.current := by
    rcases stage with same | waiting
    · exact fun h current => same ▸ current
    · intro h current
      rw [waiting] at current
      cases current
  refine ⟨fun h current => own h (kept h current), fun k worker found other => ?_, fun k absent => ?_⟩
  · by_cases mine : ∃ h ∈ p.stage.current, h.worker = k
    · obtain ⟨h, current, rfl⟩ := mine
      obtain ⟨same, here, fits⟩ := own h current
      cases here.symm.trans found
      rcases stage with same | waiting
      · exact absurd rfl (other h (same ▸ current))
      · rw [waiting] at fits
        exact fits
    · have apart : ∀ h ∈ p.stage.current, h.worker ≠ k := fun h current same => mine ⟨h, current, same⟩
      obtain ⟨same, count⟩ := others k apart
      rw [count]
      exact valid.earlier k worker (same ▸ found) apart
  · by_cases mine : ∃ h ∈ p.stage.current, h.worker = k
    · obtain ⟨h, current, rfl⟩ := mine
      obtain ⟨_, here, -⟩ := own h current
      cases here.symm.trans absent
    · obtain ⟨same, count⟩ := others k fun h current same => mine ⟨h, current, same⟩
      rw [count]
      exact valid.senders k (same ▸ absent)

theorem Valid.frame (valid : Valid p) (stage : p'.stage.current = p.stage.current) (workers : p'.workers = p.workers)
    (notes : ∀ k, p'.notes k = p.notes k)
    (fits : ∀ worker k, (∀ h ∈ p.stage.current, h.worker = k) → p.workers[k]? = some worker →
      p.stage.Fits worker (p.notes k) → p'.stage.Fits worker (p.notes k)) : Valid p' := by
  refine valid.update (.inl stage) (fun k _ => ⟨by rw [workers], notes k⟩) fun h current => ?_
  obtain ⟨worker, found, fit⟩ := valid.current h current
  refine ⟨worker, workers ▸ found, ?_⟩
  rw [notes]
  refine fits worker _ (fun other same => ?_) found fit
  cases current.symm.trans same
  rfl

theorem notes_kept (received : takeFirst accepts p.mailbox = some (m, rest)) (other : ∀ k, m.notifies k = false)
    (mailbox : p'.mailbox = rest) (k : Nat) : p'.notes k = p.notes k := by
  rw [notes_received received k, notes, mailbox, other k]
  rfl

theorem Valid.heard (valid : Valid p) {j αs w}
    (received : takeFirst accepts p.mailbox = some (.notification j, rest)) (current : h ∈ p.stage.current)
    (standing : ∀ worker : Worker A P, p.stage.Fits worker (p.notes h.worker) →
      worker.Open (p.notes h.worker) ∨ worker.Reported (p.notes h.worker)) :
    Valid { p with mailbox := rest, stage := .concluding h αs w false } := by
  have counted := notes_received received
  have notified : p.notes j ≠ 0 := by
    rw [counted j]
    simp [Mail.notifies]
  obtain ⟨h', current', worked⟩ := valid.notifier notified
  cases current.symm.trans current'
  refine valid.update (.inl current.symm) (fun k apart => ⟨rfl, ?_⟩) fun h' current' => ?_
  · have different : ¬ j = k := worked ▸ apart h current
    rw [counted k]
    simp [Mail.notifies, different, notes]
  · cases current.symm.trans current'
    obtain ⟨worker, found, fits⟩ := valid.current h current
    refine ⟨worker, found, ?_⟩
    have once : p.notes h.worker = rest.countP (Mail.notifies h.worker) + 1 := by
      rw [counted h.worker, worked]
      simp [Mail.notifies]
    rcases standing worker fits with opened | reported
    · cases opened.unheard.symm.trans once
    · rw [once] at reported
      exact reported.heard

theorem Valid.settle {next} (valid : Valid p) (current : h ∈ p.stage.current) (found : p.workers[h.worker]? = some worker)
    (stage : p'.stage.current = p.stage.current ∨ p'.stage = .waiting) (workers : p'.workers = p.workers.set h.worker next)
    (notes : ∀ k, p'.notes k = p.notes k)
    (fits : p.stage.Fits worker (p.notes h.worker) → p'.stage.Fits next (p.notes h.worker)) :
    Valid p' := by
  refine valid.update stage (fun k apart => ⟨?_, notes k⟩) fun h' current' => ?_
  · rw [workers, List.getElem?_set_ne (apart h current)]
  · cases current.symm.trans current'
    obtain ⟨_, here, fit⟩ := valid.current h current
    cases found.symm.trans here
    refine ⟨next, ?_, notes h.worker ▸ fits fit⟩
    rw [workers, List.getElem?_set_self (List.getElem?_eq_some_iff.mp found).1]

theorem notes_finish (h : Handling A) (αs : List Nat) (w : DecreeId) (ending : Ending A) (s : P) (worker : Worker A P) (k : Nat) :
    (p.finish h αs w ending s worker).notes k = p.notes k := by
  cases ending with
  | again => simp [finish, notes, Mail.notifies]
  | passed | rejected => rfl

theorem Valid.spawn (valid : Valid p) {id r} (stage : p.stage = .waiting)
    (taken : p'.stage = .handling ⟨id, r, p.workers.length⟩) (workers : p'.workers = p.workers ++ [worker])
    (notes : ∀ k, p'.notes k = p.notes k) (opened : worker.Open 0) : Valid p' := by
  have unheard : p.notes p.workers.length = 0 := valid.senders _ (List.getElem?_eq_none le_rfl)
  refine ⟨fun h current => ?_, fun k older found apart => ?_, fun k absent => ?_⟩
  · rw [taken] at current ⊢
    cases current
    exact ⟨worker, by rw [workers, List.getElem?_concat_length], .inl (by rw [notes, unheard]; exact opened)⟩
  · have different : p.workers.length ≠ k := apart _ (by rw [taken]; rfl)
    have inside : k < p.workers.length := by
      have := (List.getElem?_eq_some_iff.mp found).1
      rw [workers, length_append, length_singleton] at this
      omega
    rw [notes]
    rw [workers, List.getElem?_append_left inside] at found
    refine valid.earlier k older found fun h current => ?_
    rw [stage] at current
    cases current
  · rw [notes]
    refine valid.senders k (List.getElem?_eq_none ?_)
    have outside := List.getElem?_eq_none_iff.mp absent
    rw [workers, length_append] at outside
    omega

theorem proceed_valid (proceeds : Proceeds p p') (valid : Valid p) : Valid p' := by
  cases proceeds with
  | rejects stage received | newAcceptors stage received | newWatermark stage received | ignores stage received =>
    exact valid.frame rfl rfl (notes_kept received (fun _ => rfl) rfl) fun _ _ _ _ fits => fits
  | loses stage received | passes stage received beyond =>
    refine valid.frame (by rw [stage]; rfl) rfl (notes_kept received (fun _ => rfl) rfl) fun worker k _ _ fits => ?_
    rw [stage] at fits
    exact fits
  | spawns stage received =>
    exact valid.spawn stage rfl rfl (notes_kept received (fun _ => rfl) rfl) ⟨rfl, nofun, rfl, rfl⟩
  | hears stage received =>
    refine valid.heard received (by rw [stage]; rfl) fun worker fits => ?_
    rw [stage] at fits
    exact fits
  | @blocks h _ _ _ stage found empty =>
    have current : h ∈ p.stage.current := by rw [stage]; rfl
    refine valid.settle current found (.inl current.symm) rfl (fun _ => rfl) fun fits => ?_
    rw [stage] at fits
    rcases fits with opened | reported
    · exact ⟨rfl, opened.silent, opened.unheard⟩
    · exact absurd empty reported.full
  | @late h _ _ _ stage found full =>
    have current : h ∈ p.stage.current := by rw [stage]; rfl
    refine valid.frame current.symm rfl (fun _ => rfl) fun other k own here fits => ?_
    cases own h current
    cases found.symm.trans here
    rw [stage] at fits
    exact fits.resolve_left fun opened => full opened.empty
  | @consumes h _ _ m rest stage received =>
    cases m with
    | notification =>
      refine valid.heard received (by rw [stage]; rfl) fun worker fits => ?_
      rw [stage] at fits
      exact .inr fits
    | request | acceptors | watermark => cases takeFirst_accepted received
  | @abandons h _ _ _ stage found =>
    have current : h ∈ p.stage.current := by rw [stage]; rfl
    refine valid.settle current found (.inr rfl) rfl (fun _ => notes_finish ..) fun fits => ?_
    rw [stage] at fits
    obtain ⟨put, silent, unheard⟩ := fits
    exact ⟨silent, .inr (by rw [put]; nofun), unheard⟩
  | @answers h _ _ _ _ _ stage found =>
    have current : h ∈ p.stage.current := by rw [stage]; rfl
    refine valid.settle current found (.inr rfl) rfl (fun _ => notes_finish ..) fun fits => ?_
    rw [stage] at fits
    obtain ⟨-, ended, unheard⟩ := fits
    exact ⟨by rw [ended]; nofun, .inl ended, unheard⟩

theorem notes_post (messages : List (Mail A)) (k : Nat) :
    (p.post messages).notes k = p.notes k + messages.countP (Mail.notifies k) :=
  countP_append

theorem work_valid {next} (found : p.workers[k]? = some worker) (steps : worker.Steps action next) (valid : Valid p) :
    Valid { p.post (action.sends k) with workers := p.workers.set k next } := by
  have counted : ∀ j, (p.post (action.sends k)).notes j = p.notes j + if j = k then action.notes else 0 := by
    intro j
    rw [notes_post, countP_sends]
  have mine : (p.post (action.sends k)).notes k = p.notes k + action.notes := by rw [counted, if_pos rfl]
  have here : (p.workers.set k next)[k]? = some next := List.getElem?_set_self (List.getElem?_eq_some_iff.mp found).1
  have other {j : Nat} (different : j ≠ k) : (p.workers.set k next)[j]? = p.workers[j]? ∧
      (p.post (action.sends k)).notes j = p.notes j := by
    refine ⟨List.getElem?_set_ne (Ne.symm different), ?_⟩
    rw [counted, if_neg different, Nat.add_zero]
  refine ⟨fun h current => ?_, fun j older there apart => ?_, fun j absent => ?_⟩
  · obtain ⟨current_worker, there, fits⟩ := valid.current h current
    by_cases same : h.worker = k
    · refine ⟨next, same ▸ here, ?_⟩
      cases (same ▸ there).symm.trans found
      have advanced := fits.step steps
      rw [same] at advanced ⊢
      exact mine ▸ advanced
    · obtain ⟨unchanged, count⟩ := other same
      exact ⟨current_worker, unchanged.trans there, count ▸ fits⟩
  · by_cases same : j = k
    · subst same
      cases here.symm.trans there
      exact mine ▸ (valid.earlier j worker found apart).step steps
    · obtain ⟨unchanged, count⟩ := other same
      exact count ▸ valid.earlier j older (unchanged.symm.trans there) apart
  · by_cases same : j = k
    · subst same
      cases here.symm.trans absent
    · obtain ⟨unchanged, count⟩ := other same
      exact count.trans (valid.senders j (unchanged.symm.trans absent))

theorem step_valid (taken : p.step action = some p') (valid : Valid p) : Valid p' := by
  cases action with
  | request r | acceptors αs | watermark w =>
    cases taken
    exact valid.frame rfl rfl (fun k => notes_post _ k) fun _ _ _ _ fits => fits
  | proceed => exact proceed_valid (proceed_cases taken) valid
  | work =>
    obtain ⟨_, _, found, steps, rfl⟩ := work_cases taken
    exact work_valid found steps valid

theorem initial_valid (w : DecreeId) (s : P) (αs : List Nat) : Valid (initial w s αs : ProposerProcess A P) :=
  ⟨nofun, fun _ _ found => absurd (mem_of_getElem? found) not_mem_nil, fun _ _ => rfl⟩

/-- The workers that were spawned before there were `n` of them have been done with. -/
structure Past (n : Nat) (p : ProposerProcess A P) : Prop where
  valid : Valid p
  spawned : n ≤ p.workers.length
  newer : ∀ h ∈ p.stage.current, n ≤ h.worker

theorem Past.unheard (past : Past n p) (before : k < n) : .notification k ∉ p.mailbox := by
  intro member
  have notified : p.notes k ≠ 0 := by
    have positive : 0 < p.notes k := countP_pos_iff.mpr ⟨_, member, decide_eq_true rfl⟩
    omega
  obtain ⟨h, current, _⟩ := past.valid.notifier notified
  have later := past.newer h current
  omega

theorem proceed_past (proceeds : Proceeds p p') (spawned : n ≤ p.workers.length)
    (newer : ∀ h ∈ p.stage.current, n ≤ h.worker) : n ≤ p'.workers.length ∧ ∀ h ∈ p'.stage.current, n ≤ h.worker := by
  cases proceeds with
  | rejects stage | newAcceptors stage | newWatermark stage | ignores stage => exact ⟨spawned, newer⟩
  | loses stage | passes stage | hears stage | late stage | consumes stage =>
    rw [stage] at newer
    exact ⟨spawned, newer⟩
  | spawns =>
    refine ⟨by simp; omega, fun h current => ?_⟩
    cases current
    exact spawned
  | blocks stage =>
    rw [stage] at newer
    exact ⟨by simpa using spawned, newer⟩
  | abandons stage found | answers stage found put => exact ⟨by simpa [finish] using spawned, nofun⟩

theorem step_past (taken : p.step action = some p') (past : Past n p) : Past n p' := by
  have valid := step_valid taken past.valid
  cases action with
  | request r | acceptors αs | watermark w =>
    cases taken
    exact ⟨valid, past.spawned, past.newer⟩
  | proceed =>
    obtain ⟨spawned, newer⟩ := proceed_past (proceed_cases taken) past.spawned past.newer
    exact ⟨valid, spawned, newer⟩
  | work =>
    obtain ⟨_, _, _, _, rfl⟩ := work_cases taken
    exact ⟨valid, by simpa using past.spawned, past.newer⟩

/-- When the proposer is done with waiting for the worker, it goes on, or the worker does so that it can go on. -/
theorem Valid.progress (valid : Valid p) (current : p.stage.current = some h) (leaving : p.stage ≠ .handling h) :
    (p.step .proceed).isSome ∨ (p.step (.work h.worker .notify)).isSome := by
  obtain ⟨worker, found, fits⟩ := valid.current h current
  cases stage : p.stage with
  | waiting =>
    rw [stage] at current
    cases current
  | handling =>
    rw [stage] at current
    cases current
    exact absurd stage leaving
  | clearing =>
    rw [stage] at current
    cases current
    left
    cases content : worker.mv with
    | empty | undefined | result => simp [step, proceed, stage, found, content]
  | expecting =>
    rw [stage] at current fits
    cases current
    generalize counted : p.notes h.worker = notes at fits
    cases fits with
    | sending put notifying => exact .inr (by simp [step, found, Worker.step, notifying])
    | sent =>
      obtain ⟨m, member, notifies⟩ := countP_pos_iff.mp (counted.symm ▸ Nat.one_pos : 0 < p.mailbox.countP _)
      have notification : m.isNotification = true := by
        cases m with
        | notification => rfl
        | request | acceptors | watermark => cases notifies
      obtain ⟨_, _, received⟩ := takeFirst_isSome member notification
      exact .inl (by simp [step, proceed, stage, received])
  | concluding _ αs w blocked =>
    rw [stage] at current fits
    cases current
    cases blocked with
    | true => exact .inl (by simp [step, proceed, stage, found])
    | false =>
      obtain ⟨v, s, put⟩ := fits.put
      exact .inl (by simp [step, proceed, stage, found, put])

/-- While the proposer waits for a request, no worker that it had is heard of again. -/
theorem Valid.past (valid : Valid p) (stage : p.stage = .waiting) : Past p.workers.length p := by
  refine ⟨valid, le_rfl, fun h current => ?_⟩
  rw [stage] at current
  cases current

end ProposerProcess
end Halon.Log
