import Halon.Proofs.JobMachines

/-! The machine that listens. It takes the requests in its buffer one by one, and hands over
to another machine only when there is none. -/

namespace Halon.Recovery
open Library Stateful Cep PhaseM
variable {set : Setting} {job : Job set} {key : RuleKey}

variable {fuel : Nat} {subs : Subscribers} {smid : Nat} {l : JobLocal set} {b : Buffer set.app.Payload}
  {s s' : EngineState set.app} {w w' : JobWorld set}
  {machines : Machines set.app}

inductive Processed (mine : EventId → Bool) (job : Job set) (r : JobRequest set.Input) (smid : Nat) (b : Buffer set.app.Payload)
    (before : Books set) : List (Finished set.app) → Books set → Prop where
  | dismissed {l'} : Processed mine job r smid b before [(smid, b, .SM_Complete l' [])] (before.acknowledge mine r)
  | joined {l'} (runs : (before.storage.lookup r.input).isSome) :
      Processed mine job r smid b before [(smid, b, .SM_Complete l' [])] (before.record r)
  | started {l' child buffer own next} (free : before.storage.lookup r.input = none) (request : own.request = some r.input)
      (reply : own.reply ≠ none) (leads : job.Leads next) :
      Processed mine job r smid b before [(smid, b, .SM_Complete l' []), (child, buffer, .SM_Complete own next)] (before.record r)

theorem processRequest_processed (orderly : job.Orderly mine)
    (returned : Returns (runPhaseM fuel subs smid l mindex b (mkJobRule.processRequest job r.eid r.input r.listeners))
    s w results s' w') :
    Processed mine job r smid b (books mine s w) results (books mine s' w') := by
  obtain ⟨_, evaluation, between, v, rest, ran, later, rfl⟩ := consume_first returned
  change Returns ((mkJobRule.processRequest job r.eid r.input r.listeners).go subs mindex l b) s w evaluation between v at ran
  rw [mkJobRule.processRequest, returns_GetGlobal] at ran
  split at ran
  next runs =>
    split at ran
    next =>
      obtain ⟨_, _, acknowledged, ran⟩ := returns_Lift.mp ran
      cases acknowledged
      obtain ⟨rfl, rfl, rfl⟩ := returns_ret.mp ran
      obtain ⟨rfl, rfl, rfl⟩ := consume_none later
      rw [books_acknowledge]
      exact .dismissed
    next =>
      obtain ⟨rfl, rfl, rfl⟩ := returns_ret.mp (returns_PutGlobal.mp (returns_GetGlobal.mp ran))
      obtain ⟨rfl, rfl, rfl⟩ := consume_none later
      exact .joined runs
  next free =>
    cases go_bind (orderly.checks r.input).alone (returns_PutLocal.mp (returns_GetLocal.mp ran)) with
    | goesOn checked ran =>
      obtain ⟨same, l', answer, equal, request, leads⟩ := (orderly.checks r.input).decides checked
      cases equal
      rw [Bool.not_eq_true, Option.isSome_eq_false_iff, Option.isNone_iff_eq_none] at free
      rw [← same]
      cases answer with
      | error =>
        obtain ⟨_, _, acknowledged, ends⟩ := returns_Lift.mp ran
        cases acknowledged
        obtain ⟨rfl, rfl, rfl⟩ := returns_ret.mp ends
        obtain ⟨rfl, rfl, rfl⟩ := consume_none later
        rw [books_acknowledge]
        exact .dismissed
      | ok decided =>
        obtain ⟨def', next⟩ := decided
        obtain ⟨_, mid, ends, rfl, rfl⟩ := returns_Fork.mp ran
        obtain ⟨rfl, rfl, rfl⟩ := returns_ret.mp ends
        obtain ⟨_, _, _, _, _, starts, last, rfl⟩ := consume_first later
        obtain ⟨rfl, rfl, rfl⟩ := returns_Switch.mp (returns_PutGlobal.mp (returns_GetGlobal.mp
          (returns_PutLocal.mp (returns_GetLocal.mp starts))))
        obtain ⟨rfl, rfl, rfl⟩ := consume_none last
        refine .started (same ▸ free) request (by simp) (leads def' next rfl)
    | ends checked =>
      obtain ⟨_, _, _, same, _⟩ := (orderly.checks r.input).decides checked
      cases same

def Asks (job : Job set) (type : Nat) (ph : Phase set.app) : Prop :=
  ∃ k, ph.phCall = .ContCall (.PhaseNone type) k ∧ ∀ m, m.payload.fingerprint = type →
    ∃ r, m.payload.request? = some r ∧ k m = mkJobRule.processRequest job r.eid r.input r.listeners

theorem asks_request (job : Job set) : Asks job JobMessage.Type.HAEvent.fingerprint (mkJobRule.requestPhase job) := by
  refine ⟨_, rfl, fun m typed => ?_⟩
  cases payload : m.payload with
  | HAEvent => exact ⟨_, rfl, rfl⟩
  | _ =>
    rw [payload] at typed
    simp [JobMessage.fingerprint, JobMessage.Type.fingerprint, JobMessage.Type.ctorIdx] at typed

theorem asks_indexed (job : Job set) :
    Asks job JobMessage.Type.HAEvent_JobStartRequest.fingerprint (mkJobRule.indexedRequestPhase job) := by
  refine ⟨_, rfl, fun m typed => ?_⟩
  cases payload : m.payload with
  | HAEvent_JobStartRequest => exact ⟨_, rfl, rfl⟩
  | _ =>
    rw [payload] at typed
    simp [JobMessage.fingerprint, JobMessage.Type.fingerprint, JobMessage.Type.ctorIdx] at typed

section
variable {type : Nat} {ph : Phase set.app} {phs : Stack set.app}
  {f : Stack set.app → Stack set.app}
  {info : List (ExecutionInfo set.app.Payload) → List (ExecutionInfo set.app.Payload)}
  {results : List (Finished set.app)}

theorem Asks.suspends (asks : Asks job type ph) (none : bufferGet type b = none)
    (ran : Returns (runPhase fuel subs smid l b ph) s w results s' w') : results = [(smid, b, .SM_Suspend)] ∧
    s' = s ∧ w' = w := by
  obtain ⟨k, call, _⟩ := asks
  rw [runPhase, call] at ran
  obtain ⟨_, _, _, extracts, goes⟩ := returns_bind.mp ran
  obtain ⟨rfl, rfl, rfl⟩ := returns_pure.mp extracts
  rw [extractNormalMsg, none] at goes
  exact returns_pure.mp goes

theorem Asks.processed (orderly : job.Orderly mine) (asks : Asks job type ph) (receives : Receives b)
    (found : bufferGet type b = some (idx, m, rest)) (ran : Returns (runPhase fuel subs smid l b ph) s w results s' w') :
    ∃ r, requestsIn b = r ::ₘ requestsIn rest ∧ Receives rest ∧ Processed mine job r smid rest
    (books mine s w) results (books mine s' w') := by
  obtain ⟨k, call, each⟩ := asks
  rw [runPhase, call] at ran
  obtain ⟨_, _, _, extracts, goes⟩ := returns_bind.mp ran
  obtain ⟨rfl, rfl, rfl⟩ := returns_pure.mp extracts
  rw [extractNormalMsg, found] at goes
  obtain ⟨typed, kept, requests⟩ := receives.get found
  obtain ⟨r, asked, program⟩ := each m typed
  simp only [Option.map_some, returns_bind, returns_pure] at goes
  obtain ⟨_, _, _, processes, _, _, _, notifies, rfl, rfl, rfl⟩ := goes
  rw [asked] at requests
  rw [program] at processes
  refine ⟨r, requests, kept, ?_⟩
  rw [books_housekeeping (forM_notify notifies).2]
  exact processRequest_processed orderly processes

theorem Processed.complete (processed : Processed mine job r smid b before results after) :
    ∀ finished ∈ results, finished.2.2.isComplete := by
  cases processed <;> simp [PhaseOut.isComplete]

theorem request_step (orderly : job.Orderly mine) (asks : Asks job type ph) (receives : Receives b)
    (found : bufferGet type b = some (idx, m, rest)) (was : InRole job key sm (some (requestsIn b)) none)
    (returned : Returns (executeStack fuel (mkJobRule key job) subs smid l b (.NormalJump ph :: phs) f info) s w machines s' w') :
    Steps mine key job sm (JobSystem.remaining machines) (books mine s w) (books mine s' w') := by
  obtain ⟨results, between, v, ran, kept, completed⟩ := executeStack_completes (fun ran => by
    obtain ⟨_, _, _, processed⟩ := asks.processed orderly receives found ran
    exact processed.complete) returned
  obtain ⟨r, requests, receives, processed⟩ := asks.processed orderly receives found ran
  rw [requests] at was
  rw [books_housekeeping kept]
  generalize books mine between v = after at processed
  -- The machine starts anew with the rest of its buffer, whatever became of the request.
  cases processed with
  | dismissed =>
    obtain ⟨result, sm, rfl, follows⟩ := completed_one completed
    have now := follows_restart orderly.names receives follows
    rw [remaining_cons (follows_goes follows)]
    exact ⟨List.forall_mem_singleton.mpr now.plays, .dismisses (Steps.takes was now)⟩
  | joined runs =>
    obtain ⟨result, sm, rfl, follows⟩ := completed_one completed
    have now := follows_restart orderly.names receives follows
    rw [remaining_cons (follows_goes follows)]
    exact ⟨List.forall_mem_singleton.mpr now.plays, .joins (Steps.takes was now) runs⟩
  | started free request reply leads =>
    obtain ⟨result, sm, others, rfl, follows, more⟩ := completed_cons completed
    obtain ⟨result', child, others, rfl, forked, none⟩ := completed_cons more
    obtain rfl := List.forall₂_nil_left_iff.mp none
    have other := follows_running orderly.names leads (by simp [request]) (fun _ => reply) forked
    rw [request] at other
    rw [remaining_cons (follows_goes follows), remaining_cons (follows_goes forked)]
    exact .starts was (follows_restart orderly.names receives follows) other free

end

theorem clear_step (names : ((mkJobRule.phases job).map Phase.phName).Nodup) (receives : Receives b)
    (clean : requestsIn b = 0) (last : clear.value = startForks.clearPhase (mkJobRule.listened job))
    (returned : Returns (executeStack fuel (mkJobRule key job) subs smid l b [clear]
      ([.NormalJump (mkJobRule.requestPhase job), .NormalJump (mkJobRule.indexedRequestPhase job)] ++ ·) info) s w
      machines s' w') :
    Steps mine key job (.interpretInput (mkJobRule key job) smid l b
      [.NormalJump (mkJobRule.requestPhase job), .NormalJump (mkJobRule.indexedRequestPhase job), clear])
      (JobSystem.remaining machines) (books mine s w) (books mine s' w') := by
  have tries : ∀ jmp ∈ [clear], Tries fuel subs smid l b (fun s₁ w₁ => books mine s₁ w₁ = books mine s w) (fun _ results s₁ w₁ =>
      (∃ child, results = [(smid, b, .SM_Complete l [startForks.wrapper_end]), (child, emptyFifoBuffer, .SM_Complete l
        [mkJobRule.request job, mkJobRule.indexed_request job, timeout 60 startForks.wrapper_clear])]) ∧
        books mine s₁ w₁ = books mine s w) jmp.value := by
    intro jmp member s₁ w₁ results s₂ w₂ same ran
    rw [List.mem_singleton.mp member, last] at ran
    obtain ⟨_, evaluation, _, _, _, clears, later, rfl⟩ := consume_first ran
    obtain ⟨_, _, ends, rfl, rfl⟩ := returns_Fork.mp clears
    obtain ⟨rfl, rfl, rfl⟩ := returns_Continue.mp ends
    obtain ⟨_, _, _, _, _, starts, nothing, rfl⟩ := consume_first later
    obtain ⟨rfl, rfl, rfl⟩ := returns_Switch.mp starts
    obtain ⟨rfl, rfl, rfl⟩ := consume_none nothing
    refine .inr ⟨?_, ⟨_, rfl⟩, same⟩
    simp [PhaseOut.isComplete]
  have lasts : List.Forall₂ Lasts
      [.NormalJump (mkJobRule.requestPhase job), .NormalJump (mkJobRule.indexedRequestPhase job), clear]
      ([.NormalJump (mkJobRule.requestPhase job), .NormalJump (mkJobRule.indexedRequestPhase job)] ++ [clear]) :=
    List.forall₂_same.mpr fun jmp _ => .refl jmp
  cases executeStack_rest books_kept tries rfl lasts (List.cons_ne_nil _ _) (by simp) rfl returned with
  | waits _ phs lasts here kept =>
    subst here
    rcases lasts with _ | ⟨first, _ | ⟨second, _ | ⟨back, _ | _⟩⟩⟩
    obtain rfl := first.2 rfl
    obtain rfl := second.2 rfl
    rw [kept, remaining_cons (by simp)]
    exact .idle (.listens names receives last) (.listens names receives (back.1.trans last))
  | moves jmp _ _ _ v done kept completed =>
    obtain ⟨⟨_, rfl⟩, same⟩ := done
    obtain ⟨_, sm, others, rfl, follows, more⟩ := completed_cons completed
    obtain ⟨_, sm', _, rfl, forked, none⟩ := completed_cons more
    obtain rfl := List.forall₂_nil_left_iff.mp none
    rw [books_kept kept same, remaining_cons (follows_goes follows), remaining_cons (follows_goes forked)]
    refine .cleared (.listens names receives last) (follows_leaving names (.inl rfl) follows) ?_
    have named : (timeout 60 startForks.wrapper_clear).value = startForks.wrapper_clear.value := rfl
    rw [clean]
    exact follows_listening names named .empty forked

theorem listening_step (orderly : job.Orderly mine) (receives : Receives b)
    (last : clear.value = startForks.clearPhase (mkJobRule.listened job))
    (returned : Returns (executeStack fuel (mkJobRule key job) subs smid l b
      [.NormalJump (mkJobRule.requestPhase job), .NormalJump (mkJobRule.indexedRequestPhase job), clear] id id) s w
      machines s' w') :
    Steps mine key job (.interpretInput (mkJobRule key job) smid l b
      [.NormalJump (mkJobRule.requestPhase job), .NormalJump (mkJobRule.indexedRequestPhase job), clear])
      (JobSystem.remaining machines) (books mine s w) (books mine s' w') := by
  cases plain : bufferGet JobMessage.Type.HAEvent.fingerprint b with
  | some => exact request_step orderly (asks_request job) receives plain (.listens orderly.names receives last) returned
  | none =>
    obtain ⟨_, returned⟩ := executeStack_suspends ((asks_request job).suspends plain) returned
    cases indexed : bufferGet JobMessage.Type.HAEvent_JobStartRequest.fingerprint b with
    | some => exact request_step orderly (asks_indexed job) receives indexed (.listens orderly.names receives last) returned
    | none =>
      obtain ⟨_, returned⟩ := executeStack_suspends ((asks_indexed job).suspends indexed) returned
      exact clear_step orderly.names receives (receives.requestsIn_none plain indexed) last returned

/-! The instances of a job. They work until they come to the finish, where all requests that
were recorded with them are settled. -/

open List Option

theorem notified_logs (subs : Subscribers) (e : Message (JobMessage set.Input set.Output)) (w : JobWorld set) :
    (@notified set.app subs e w).processed = w.processed ∧
      (@notified set.app subs e w).finished = w.finished :=
  (blind_logs w).notified subs e ⟨rfl, rfl⟩

theorem returns_messagesProcessed (returned : Returns ((messagesProcessed eids k).go subs mindex l b) s w result s' w') :
    Returns (k.go subs mindex l b) s { w with processed := w.processed ++ eids } result s' w' := by
  induction eids generalizing w with
  | nil =>
    rw [append_nil]
    exact returned
  | cons eid eids ih =>
    obtain ⟨_, _, acknowledged, returned⟩ := returns_Lift.mp returned
    cases acknowledged
    have later := ih returned
    rw [append_assoc] at later
    exact later

theorem settle_books (returned : Returns ((mkJobRule.settle job reply mdescription).go subs mindex l b) s w result s' w') :
    result = (((b, .SM_Complete l [mkJobRule.end' job]), []), none) ∧ s' = s ∧
      w'.processed = w.processed ++ (mdescription.map JobDescription.requestUUIDS).getD [] ∧
      w'.finished = w.finished ++ mdescription.elim [] fun description =>
        if description.listenersUUIDS.isEmpty then [] else (reply.map fun output =>
        (description.listenersUUIDS, output)).toList := by
  cases mdescription with
  | none =>
    obtain ⟨rfl, rfl, rfl⟩ := returns_Continue.mp returned
    exact ⟨rfl, rfl, (append_nil _).symm, (append_nil _).symm⟩
  | some =>
    have told := returns_messagesProcessed returned
    rw [elim_some]
    split at told
    next none =>
      obtain ⟨rfl, rfl, rfl⟩ := returns_Continue.mp told
      rw [if_pos none]
      exact ⟨rfl, rfl, rfl, (append_nil _).symm⟩
    next some =>
      rw [if_neg some]
      cases reply with
      | none =>
        obtain ⟨rfl, rfl, rfl⟩ := returns_Continue.mp told
        exact ⟨rfl, rfl, rfl, (append_nil _).symm⟩
      | some =>
        obtain ⟨_, _, tells, ends⟩ := returns_Lift.mp told
        cases tells
        obtain ⟨rfl, rfl, rfl⟩ := returns_Continue.mp (returns_Publish.mp ends)
        exact ⟨rfl, rfl, (notified_logs _ _ _).1, (notified_logs _ _ _).2⟩

theorem finish_books (request : l.request = some input)
    (returned : Returns (runPhase fuel subs smid l b (mkJobRule.finishPhase job)) s w results s' w') :
    results = [(smid, b, .SM_Complete l [mkJobRule.end' job])] ∧ books mine s' w' =
    (books mine s w).finish mine input l.reply := by
  obtain ⟨_, evaluation, between, v, _, ran, later, rfl⟩ := consume_first returned
  have started := returns_GetLocal.mp ran
  simp only [mkJobRule.takeDescription, request] at started
  have looked := returns_GetGlobal.mp started
  have taken := returns_PutGlobal.mp looked
  -- Telling the reply does not touch the logs.
  obtain ⟨told, processed, finished, ends⟩ : ∃ told : JobWorld set, told.processed = w.processed ∧ told.finished = w.finished ∧
      Returns ((mkJobRule.settle job l.reply (s.engineStateGlobal.storage.lookup input)).go subs none l b)
        { s with engineStateGlobal := { s.engineStateGlobal with storage := s.engineStateGlobal.storage.delete input } } told
        evaluation between v := by
    cases reply : l.reply with
    | none =>
      rw [reply] at taken
      exact ⟨w, rfl, rfl, taken⟩
    | some =>
      rw [reply] at taken
      obtain ⟨_, _, tells, ends⟩ := returns_Lift.mp taken
      cases tells
      refine ⟨_, ?_, ?_, returns_Publish.mp ends⟩
      · exact (notified_logs _ _ _).1
      · exact (notified_logs _ _ _).2
  obtain ⟨rfl, rfl, acknowledged, published⟩ := settle_books ends
  obtain ⟨rfl, rfl, rfl⟩ := consume_none later
  refine ⟨rfl, ?_⟩
  unfold Books.finish
  rw [books, acknowledged, published, processed, finished, filter_append]
  have same : (books mine s w).storage = s.engineStateGlobal.storage := rfl
  rw [same]
  cases s.engineStateGlobal.storage.lookup input with
  | none =>
    rw [map_none, getD_none, elim_none, filter_nil, append_nil, append_nil]
    rfl
  | some => rfl

/-- What an instance can come to: it goes on in its body, or has finished. -/
inductive Worked (mine : EventId → Bool) (job : Job set) (smid : Nat) (l : JobLocal set) (before : Books set) :
    List (Finished set.app) → Books set → Prop where
  | goes {buffer own xs} (request : own.request = l.request) (reply : job.Replies → own.reply ≠ none) (leads : job.Leads xs) :
      Worked mine job smid l before [(smid, buffer, .SM_Complete own xs)] before
  | ends {buffer input} (request : l.request = some input) :
      Worked mine job smid l before [(smid, buffer, .SM_Complete l [mkJobRule.end' job])] (before.finish mine input l.reply)

theorem instance_tries (orderly : job.Orderly mine) (member : ph ∈ job.inner) (request : l.request ≠ none)
    (reply : job.Replies → l.reply ≠ none) (before : Books set) :
    Tries fuel subs smid l b (fun s w => books mine s w = before)
    (fun _ results s w => Worked mine job smid l before results (books mine s w)) ph := by
  intro s₁ w₁ results s₂ w₂ same ran
  rcases mem_cons.mp member with rfl | member
  · obtain ⟨_, asked⟩ := ne_none_iff_exists'.mp request
    obtain ⟨rfl, finishes⟩ := finish_books asked ran
    refine .inr ⟨by simp [PhaseOut.isComplete], ?_⟩
    dsimp only
    rw [finishes, same]
    exact .ends asked
  · obtain ⟨kept, buffer, rfl | ⟨own, xs, rfl, equal, leads⟩⟩ := orderly.works ph member request ran
    · exact .inl ⟨smid, buffer, rfl, kept.trans same⟩
    · have replied := fun replies : job.Replies => replies ph member ran (reply replies) _ mem_cons_self own xs rfl
      refine .inr ⟨by simp [PhaseOut.isComplete], ?_⟩
      dsimp only
      rw [kept, same]
      exact .goes equal replied leads

theorem running_step (orderly : job.Orderly mine) (request : l.request ≠ none)
    (reply : job.Replies → l.reply ≠ none) (some : phs ≠ []) (inside : ∀ jmp ∈ phs, jmp.value ∈ job.inner)
    (returned : Returns (executeStack fuel (mkJobRule key job) subs smid l b phs id id) s w machines s' w') :
    Steps mine key job (.interpretInput (mkJobRule key job) smid l b phs) (JobSystem.remaining machines)
    (books mine s w) (books mine s' w') := by
  have was : InRole job key (.interpretInput (mkJobRule key job) smid l b phs) none l.request :=
    .runs orderly.names request reply some inside
  have tries : ∀ jmp ∈ phs, Tries fuel subs smid l b _ _ jmp.value :=
    fun jmp member => instance_tries orderly (inside jmp member) request reply (books mine s w)
  cases executeStack_stepped books_kept tries some rfl returned with
  | waits _ phs' lasts here kept =>
    subst here
    rw [kept, remaining_cons (by simp)]
    refine .idle was (.runs orderly.names request reply ?_ fun back member => ?_)
    · intro none
      rw [none] at lasts
      exact some (forall₂_nil_right_iff.mp lasts)
    · obtain ⟨jmp, listed, equal⟩ := exists_partner lasts back member
      rw [equal.1]
      exact inside jmp listed
  | moves jmp _ _ between v done kept completed =>
    rw [books_housekeeping kept]
    generalize books mine between v = after at done
    cases done with
    | goes equal replied leads =>
      obtain ⟨_, sm, rfl, follows⟩ := completed_one completed
      have now := follows_running orderly.names leads (by rwa [equal]) replied follows
      rw [equal] at now
      rw [remaining_cons (follows_goes follows)]
      exact .idle was now
    | ends asked =>
      obtain ⟨_, sm, rfl, follows⟩ := completed_one completed
      rw [asked] at was
      rw [remaining_cons (follows_goes follows)]
      exact .finishes was (follows_leaving orderly.names (.inr rfl) follows) reply

theorem Plays.execute (orderly : job.Orderly mine) (plays : Plays job key sm)
    (returned : Returns (sm.execute fuel subs) s w machines s' w') :
    Steps mine key job sm (JobSystem.remaining machines) (books mine s w) (books mine s' w') := by
  cases plays with
  | fresh receives =>
    obtain ⟨start, smid, _, v, kept, same, executed⟩ := execute_bootstrap returned
    have steps : Steps mine key job _ _ _ _ := init_step orderly.names receives same executed
    rw [books_housekeeping kept] at steps
    have role : InRole job key (.interpretInput (mkJobRule key job) smid job.args _ [start]) _ none :=
      .inits orderly.names receives same
    exact ⟨steps.plays, steps.acts.congr role.waiting.symm role.input.symm⟩
  | inits receives first => exact init_step orderly.names receives first returned
  | listens receives last => exact listening_step orderly receives last returned
  | runs request reply some inside => exact running_step orderly request reply some inside returned
  | leaves last => exact leaving_step orderly.names last returned

end Halon.Recovery
