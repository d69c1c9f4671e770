import Halon.Proofs.BufferContents
import Halon.Proofs.CepSteps
import Halon.Recovery.Job
import Mathlib.Data.Multiset.Filter

/-! The machines of a job by their roles. One listens for requests, the others are instances
or about to stop. The books that all of them share change by a few acts. -/

namespace Halon.Recovery
open Library Stateful Cep
variable {set : Setting}

/-- The storage of a job, the requests of it that were acknowledged, and what was told to listeners. -/
structure Books (set : Setting) where
  storage : OrderedMap set.Input JobDescription
  processed : List EventId
  finished : List (List ListenerId × set.Output)

/-- The books, where `mine` says which events are requests of the job. -/
def books (mine : EventId → Bool) (s : EngineState set.app) (w : JobWorld set) : Books set :=
  ⟨s.engineStateGlobal.storage, w.processed.filter mine, w.finished⟩

theorem blind_logs (w : JobWorld set) : @Blind set.app fun v => v.processed = w.processed ∧ v.finished = w.finished :=
  ⟨fun _ same => same, fun _ _ _ same => same⟩

theorem books_housekeeping (kept : Housekeeping s w s' w') :
    books mine s' w' = books mine s w := by
  obtain ⟨processed, finished⟩ := kept.world _ (blind_logs w) ⟨rfl, rfl⟩
  rw [books, books, kept.global, processed, finished]

theorem books_kept (kept : Housekeeping s₁ w₁ s₂ w₂)
    (same : books mine s₁ w₁ = books mine s w) : books mine s₂ w₂ = books mine s w := (books_housekeeping kept).trans same

namespace Books

def acknowledge (mine : EventId → Bool) (books : Books set) (r : JobRequest set.Input) : Books set :=
  { books with processed := books.processed ++ [r.eid].filter mine }

def record (books : Books set) (r : JobRequest set.Input) : Books set :=
  { books with storage := books.storage.insertWith JobDescription.mappend r.input ⟨[r.eid], r.listeners⟩ }

def finish (mine : EventId → Bool) (books : Books set) (input : set.Input) (reply : Option set.Output) : Books set :=
  match books.storage.lookup input with
  | none => { books with storage := books.storage.delete input }
  | some description =>
    { storage := books.storage.delete input
      processed := books.processed ++ description.requestUUIDS.filter mine
      finished := books.finished ++
        if description.listenersUUIDS.isEmpty then [] else (reply.map fun output => (description.listenersUUIDS, output)).toList }

end Books

theorem books_acknowledge (w : JobWorld set) (r : JobRequest set.Input) :
    books mine s { w with processed := w.processed ++ [r.eid] } = (books mine s w).acknowledge mine r := by
  rw [books, List.filter_append]
  rfl

namespace Job

def inner (job : Job set) : List (Phase set.app) := mkJobRule.finishPhase job :: job.phases

/-- Jumps that lead from the body to the body or to the finish. -/
def Leads (job : Job set) (xs : List (Jump PhaseHandle)) : Prop :=
  xs ≠ [] ∧ ∀ jmp ∈ xs, jmp.value ∈ job.inner.map Phase.phName

/-- The check of an input decides about the request and does nothing else that the job's machines could notice. -/
structure Checks (mine : EventId → Bool) (job : Job set) (check : PhaseM set.app) : Prop where
  alone : ∀ action, ¬ PhaseM.Forks action check
  decides : ∀ ⦃subs mindex l buf s w result s' w'⦄, Returns (check.go subs mindex l buf) s w result s' w' →
    books mine s' w' = books mine s w ∧ ∃ l' answer, result = (((buf, .SM_Complete l' []), []), some (.checked answer)) ∧
      l'.request = l.request ∧ ∀ def' next, answer = .ok (def', next) → job.Leads next

/-- A phase of the body is suspended or goes on, in the end to the finish. It leaves the request and the books alone, but may
acknowledge other events than requests of the job. -/
def Works (mine : EventId → Bool) (job : Job set) (ph : Phase set.app) : Prop :=
  ∀ ⦃fuel subs idm l buf s w results s' w'⦄, l.request ≠ none → Returns (runPhase fuel subs idm l buf ph) s w results s' w' →
    books mine s' w' = books mine s w ∧ ∃ buffer, results = [(idm, buffer, .SM_Suspend)] ∨
      ∃ l' xs, results = [(idm, buffer, .SM_Complete l' xs)] ∧ l'.request = l.request ∧ job.Leads xs

/-- A job whose body does not change the request and ends through the finish. -/
structure Orderly (mine : EventId → Bool) (job : Job set) : Prop where
  names : ((mkJobRule.phases job).map Phase.phName).Nodup
  checks : ∀ input, job.Checks mine (job.check_input input)
  works : ∀ ph ∈ job.phases, job.Works mine ph

/-- The body does not take the reply back. -/
def Replies (job : Job set) : Prop :=
  ∀ ph ∈ job.phases, ∀ ⦃fuel subs idm l buf s w results s' w'⦄, Returns (runPhase fuel subs idm l buf ph) s w results s' w' →
    l.reply ≠ none → ∀ finished ∈ results, ∀ l' xs, finished.2.2 = .SM_Complete l' xs → l'.reply ≠ none

end Job

def requestsIn (b : Buffer set.app.Payload) : Multiset (JobRequest set.Input) :=
  (b.contents.filterMap fun m => m.payload.request? : List (JobRequest set.Input))

theorem requestsIn_perm (perm : b.contents.Perm (m :: rest.contents)) :
    requestsIn b = (m.payload.request?.toList : Multiset (JobRequest set.Input)) + requestsIn rest := by
  refine (Multiset.coe_eq_coe.mpr (perm.filterMap fun m => m.payload.request?)).trans ?_
  rw [List.filterMap_cons]
  cases m.payload.request? <;> rfl

structure Receives (b : Buffer set.app.Payload) : Prop where
  sound : b.Sound
  typed : ∀ m ∈ b.contents, m.fingerprint = m.payload.fingerprint

namespace Receives
variable {b rest : Buffer set.app.Payload}

theorem empty : Receives (emptyFifoBuffer : Buffer set.app.Payload) :=
  ⟨Buffer.sound_empty, nofun⟩

theorem insert (receives : Receives b) (m : JobMessage set.Input set.Output) : Receives (bufferInsert m.message b) := by
  refine ⟨receives.sound.insert _, ?_⟩
  intro other member
  rcases List.mem_cons.mp ((receives.sound.contents_insert m.message).mem_iff.mp member) with rfl | member
  · rfl
  · exact receives.typed other member

theorem requestsIn_insert (receives : Receives b) (m : JobMessage set.Input set.Output) :
    requestsIn (bufferInsert m.message b) = (m.request?.toList : Multiset (JobRequest set.Input)) + requestsIn b :=
  requestsIn_perm (receives.sound.contents_insert m.message)

theorem get (receives : Receives b)
    (found : bufferGet type b = some (idx, m, rest)) :
    m.payload.fingerprint = type ∧ Receives rest ∧
      requestsIn b = (m.payload.request?.toList : Multiset (JobRequest set.Input)) + requestsIn rest := by
  obtain ⟨same, perm, sound⟩ := receives.sound.get_some found
  have typed := receives.typed m (perm.mem_iff.mpr List.mem_cons_self)
  refine ⟨typed.symm.trans same, ⟨sound, ?_⟩, requestsIn_perm perm⟩
  intro other member
  exact receives.typed other (perm.mem_iff.mpr (List.mem_cons_of_mem m member))

theorem requestsIn_none (receives : Receives b) (plain : bufferGet JobMessage.Type.HAEvent.fingerprint b = none)
    (indexed : bufferGet JobMessage.Type.HAEvent_JobStartRequest.fingerprint b = none) : requestsIn b = 0 := by
  refine (Multiset.coe_eq_zero _).mpr (List.filterMap_eq_nil_iff.mpr ?_)
  intro m member
  have typed := receives.typed m member
  have first := receives.sound.get_none plain m member
  have second := receives.sound.get_none indexed m member
  rw [typed] at first second
  cases payload : m.payload with
  | HAEvent =>
    rw [payload] at first
    exact absurd rfl first
  | HAEvent_JobStartRequest =>
    rw [payload] at second
    exact absurd rfl second
  | _ => rfl

end Receives

section
variable (job : Job set)

def waiting? : SM set.app → Option (Multiset (JobRequest set.Input))
  | .bootstrap _ b => some (requestsIn b)
  | .interpretInput _ _ _ b (jmp :: _) =>
    if jumpPhaseName jmp ∈ [startForks.wrapper_init.value, (mkJobRule.request job).value] then some (requestsIn b) else none
  | _ => none

def instance? : SM set.app → Option set.Input
  | .interpretInput _ _ l _ (jmp :: _) => if jumpPhaseName jmp ∈ job.inner.map Phase.phName then l.request else none
  | _ => none

inductive Plays (key : RuleKey) : SM set.app → Prop where
  | fresh {b} (receives : Receives b) : Plays key (.bootstrap (mkJobRule key job) b)
  | inits {smid l b start} (receives : Receives b) (first : start.value = startForks.initPhase (mkJobRule.listened job)) :
      Plays key (.interpretInput (mkJobRule key job) smid l b [start])
  | listens {smid l b clear} (receives : Receives b) (last : clear.value = startForks.clearPhase (mkJobRule.listened job)) :
      Plays key (.interpretInput (mkJobRule key job) smid l b
        [.NormalJump (mkJobRule.requestPhase job), .NormalJump (mkJobRule.indexedRequestPhase job), clear])
  | runs {smid l b phs} (request : l.request ≠ none) (reply : job.Replies → l.reply ≠ none) (some : phs ≠ [])
      (inside : ∀ jmp ∈ phs, jmp.value ∈ job.inner) : Plays key (.interpretInput (mkJobRule key job) smid l b phs)
  | leaves {smid l b jmp} (last : jmp.value = startForks.endPhase ∨ jmp.value = mkJobRule.endPhase job) :
      Plays key (.interpretInput (mkJobRule key job) smid l b [jmp])

structure InRole (key : RuleKey) (sm : SM set.app) (waiting : Option (Multiset (JobRequest set.Input)))
    (input : Option set.Input) : Prop where
  plays : Plays job key sm
  waiting : waiting? job sm = waiting
  input : instance? job sm = input

structure Takes (sm : SM set.app) (made : List (SM set.app)) (r : JobRequest set.Input)
    (started : List set.Input) : Prop where
  was : ∃ rest, waiting? job sm = some (r ::ₘ rest) ∧ made.filterMap (waiting? job) = [rest]
  apart : instance? job sm = none
  instances : made.filterMap (instance? job) = started

variable (mine : EventId → Bool) (sm : SM set.app) (made : List (SM set.app)) (before : Books set) in
inductive Acts : Books set → Prop where
  | idles (waiting : made.filterMap (waiting? job) = (waiting? job sm).toList)
      (instances : made.filterMap (instance? job) = (instance? job sm).toList) : Acts before
  | dismisses {r} (takes : Takes job sm made r []) : Acts (before.acknowledge mine r)
  | joins {r} (takes : Takes job sm made r []) (runs : (before.storage.lookup r.input).isSome) :
      Acts (before.record r)
  | starts {r} (takes : Takes job sm made r [r.input]) (free : before.storage.lookup r.input = none) :
      Acts (before.record r)
  | finishes {input reply} (was : instance? job sm = some input) (apart : waiting? job sm = none)
      (waiting : made.filterMap (waiting? job) = []) (instances : made.filterMap (instance? job) = [])
      (replied : job.Replies → reply ≠ none) : Acts (before.finish mine input reply)

end

theorem Acts.congr (acts : Acts job mine sm made before after) (waiting : waiting? job other = waiting? job sm)
    (input : instance? job other = instance? job sm) : Acts job mine other made before after := by
  have takes {r started} (takes : Takes job sm made r started) : Takes job other made r started := by
    obtain ⟨was, _, instances⟩ := takes
    exact ⟨by rwa [waiting], by rwa [input], instances⟩
  cases acts with
  | idles => exact .idles (by rwa [waiting]) (by rwa [input])
  | dismisses taken => exact .dismisses (takes taken)
  | joins taken runs => exact .joins (takes taken) runs
  | starts taken free => exact .starts (takes taken) free
  | finishes was _ none instances replied => exact .finishes (by rwa [input]) (by rwa [waiting]) none instances replied

variable {job : Job set} {key : RuleKey} {smid : Nat} {l : JobLocal set}
  {b : Buffer set.app.Payload} {jmp : Jump (Phase set.app)} {phs : Stack set.app}

variable (job) in
def outer : List (Phase set.app) :=
  [startForks.initPhase (mkJobRule.listened job), startForks.clearPhase (mkJobRule.listened job), startForks.endPhase,
    mkJobRule.requestPhase job, mkJobRule.indexedRequestPhase job, mkJobRule.endPhase job]

variable (names : ((mkJobRule.phases job).map Phase.phName).Nodup)
include names

theorem outer_names : ((outer job).map Phase.phName).Nodup ∧
    ∀ ph ∈ outer job, ph.phName ∉ job.inner.map Phase.phName := by
  have split : (mkJobRule.phases job).map Phase.phName = (outer job).map Phase.phName ++ job.inner.map Phase.phName := by
    rw [← List.map_append]
    rfl
  rw [split, List.nodup_append] at names
  refine ⟨names.1, fun ph member inside => ?_⟩
  exact names.2.2 _ (List.mem_map_of_mem member) _ inside rfl

theorem listening_apart (first : name ∈ [startForks.wrapper_init.value, (mkJobRule.request job).value]) :
    name ∉ job.inner.map Phase.phName ∧ name ≠ startForks.wrapper_end.value ∧ name ≠ (mkJobRule.end' job).value := by
  obtain ⟨distinct, apart⟩ := outer_names names
  have init := apart (startForks.initPhase (mkJobRule.listened job)) List.mem_cons_self
  have request := apart (mkJobRule.requestPhase job) (by simp [outer])
  change [startForks.wrapper_init.value, startForks.wrapper_clear.value, startForks.wrapper_end.value,
    (mkJobRule.request job).value,
    (mkJobRule.indexed_request job).value, (mkJobRule.end' job).value].Nodup at distinct
  simp only [List.nodup_cons, List.mem_cons, List.not_mem_nil, or_false, not_or] at distinct
  obtain ⟨⟨_, initEnds, _, _, initEnd⟩, _, ⟨requestEnds, _, _⟩, ⟨_, requestEnd⟩, _⟩ := distinct
  simp only [List.mem_cons, List.not_mem_nil, or_false] at first
  rcases first with rfl | rfl
  · exact ⟨init, initEnds, initEnd⟩
  · exact ⟨request, fun same => requestEnds same.symm, requestEnd⟩

namespace InRole

theorem inits (receives : Receives b) (first : jmp.value = startForks.initPhase (mkJobRule.listened job)) :
    InRole job key (.interpretInput (mkJobRule key job) smid l b [jmp]) (some (requestsIn b)) none := by
  have listed : jumpPhaseName jmp ∈ [startForks.wrapper_init.value, (mkJobRule.request job).value] := by
    rw [jumpPhaseName, first]
    exact List.mem_cons_self
  exact ⟨.inits receives first, if_pos listed, if_neg (listening_apart names listed).1⟩

theorem listens (receives : Receives b) (last : jmp.value = startForks.clearPhase (mkJobRule.listened job)) :
    InRole job key (.interpretInput (mkJobRule key job) smid l b
      [.NormalJump (mkJobRule.requestPhase job), .NormalJump (mkJobRule.indexedRequestPhase job), jmp]) (some
      (requestsIn b)) none := by
  have listed : (mkJobRule.request job).value ∈ [startForks.wrapper_init.value, (mkJobRule.request job).value] :=
    List.mem_cons_of_mem _ List.mem_cons_self
  exact ⟨.listens receives last, if_pos listed, if_neg (listening_apart names listed).1⟩

theorem runs (request : l.request ≠ none) (reply : job.Replies → l.reply ≠ none) (some : phs ≠ [])
    (inside : ∀ jmp ∈ phs, jmp.value ∈ job.inner) :
    InRole job key (.interpretInput (mkJobRule key job) smid l b phs) none l.request := by
  refine ⟨.runs request reply some inside, ?_, ?_⟩
  all_goals
    cases phs with
    | nil => exact absurd rfl some
    | cons jmp =>
      have inner : jumpPhaseName jmp ∈ job.inner.map Phase.phName := List.mem_map_of_mem (inside jmp List.mem_cons_self)
      first
      | exact if_pos inner
      | exact if_neg fun listed => (listening_apart names listed).1 inner

theorem leaves (last : jmp.value = startForks.endPhase ∨ jmp.value = mkJobRule.endPhase job) :
    InRole job key (.interpretInput (mkJobRule key job) smid l b [jmp]) none none := by
  have outside := (outer_names names).2
  refine ⟨.leaves last, if_neg fun listed => ?_, if_neg ?_⟩
  · rcases last with same | same
    · exact (listening_apart names listed).2.1 (congrArg Phase.phName same)
    · exact (listening_apart names listed).2.2 (congrArg Phase.phName same)
  · rcases last with same | same
    · rw [jumpPhaseName, same]
      exact outside _ (by simp [outer])
    · rw [jumpPhaseName, same]
      exact outside _ (by simp [outer])

end InRole
end Halon.Recovery
