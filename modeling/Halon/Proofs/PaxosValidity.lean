import Halon.Paxos.Cluster
import Halon.Proofs.PaxosIntervals
import Halon.Proofs.PaxosReceive

/-! Where values come from. A value that is stored or returned for a decree was proposed for it, or was stored
for it at the start. The proof follows values through messages, jobs, stores and calls. -/

namespace Halon.Paxos
open Halon.Library List OrderedMap

variable {N π V : Type} {known wider : DecreeId → V → Prop}

/-- Whether all values that the request carries are known for their decrees. -/
def Request.Known (known : DecreeId → V → Prop) : Request N π V → Prop
  | .syn d _ _ x => known d x
  | .syncResponse _ dvs => ∀ entry ∈ dvs, known entry.1 entry.2.value
  | _ => True

def Reply.Known (known : DecreeId → V → Prop) : Reply N π V → Prop
  | .promise _ _ acks | .decrees acks => ∀ ack ∈ acks, known ack.decree ack.value
  | .ack vote => known vote.decree vote.value
  | .nack _ | .syncCompleted _ => True

def Send.Known (known : DecreeId → V → Prop) : Send N π V → Prop
  | .reply _ message => message.Known known
  | .request _ message => message.Known known

def Store.Known (known : DecreeId → V → Prop) (store : Store π V) : Prop :=
  ∀ entry ∈ store.decrees, known entry.1 entry.2.value

/-- Whether the job inserts and sends known values only, given that what it finds in the store is known.
More may be known by the time when the job reads the store. -/
def Job.Known : (DecreeId → V → Prop) → Job N π V → Prop
  | known, .send messages => ∀ message ∈ messages, message.Known known
  | known, .storeInsert dvs done => (∀ entry ∈ dvs, known entry.1 entry.2.value) ∧ done.Known known
  | known, .storeWrite _ written done => (∀ entry ∈ written, known entry.1 entry.2.value) ∧ done.Known known
  | known, .storeLookup d done => ∀ wider : DecreeId → V → Prop, (∀ d x, known d x → wider d x) →
      ∀ found, (∀ vote ∈ found, wider d vote.value) → (done found).Known wider
  | known, .storePut _ done => done.Known known
  | _, .storeTrim _ => True
  | known, .storeList done => ∀ wider : DecreeId → V → Prop, (∀ d x, known d x → wider d x) →
      ∀ dvs, (∀ entry ∈ dvs, wider entry.1 entry.2.value) → (done dvs).Known wider
  | known, .storeMap done => ∀ wider : DecreeId → V → Prop, (∀ d x, known d x → wider d x) →
      ∀ m : Decrees π V, (∀ entry ∈ m, wider entry.1 entry.2.value) → (done m).Known wider

def Call.Known (known : DecreeId → V → Prop) : Call N π V → Prop
  | .scouting d x _ _ resps => known d x ∧ ∀ resp ∈ resps, ∀ ack ∈ resp.2, known ack.decree ack.value
  | .commanding d x _ _ x' _ => known d x ∧ known d x'
  | .returned d x' => known d x'
  | _ => True

section mono
variable (grows : ∀ d x, known d x → wider d x)
include grows

theorem Request.Known.mono {request : Request N π V} (valid : request.Known known) : request.Known wider := by
  cases request with
  | syn d b _ x => exact grows d x valid
  | syncResponse => exact fun entry member => grows _ _ (valid entry member)
  | prepare | trim | syncStart | syncAdvertise | syncRequest | queryDecrees => trivial

theorem Reply.Known.mono {reply : Reply N π V} (valid : reply.Known known) : reply.Known wider := by
  cases reply with
  | promise b name acks | decrees acks => exact fun ack member => grows _ _ (valid ack member)
  | ack => exact grows _ _ valid
  | nack | syncCompleted => trivial

theorem Send.Known.mono {message : Send N π V} (valid : message.Known known) : message.Known wider := by
  cases message with
  | reply => exact Reply.Known.mono grows valid
  | request => exact Request.Known.mono grows valid

theorem Job.Known.mono {job : Job N π V} (valid : job.Known known) : job.Known wider := by
  induction job generalizing known wider with
  | send => exact fun message member => (valid message member).mono grows
  | storeInsert _ done ih | storeWrite _ _ done ih =>
      exact ⟨fun entry member => grows _ _ (valid.1 entry member), ih grows valid.2⟩
  | storeLookup d => exact fun later more found => valid later (fun d x known => more d x (grows d x known)) found
  | storePut b done ih => exact ih grows valid
  | storeTrim => trivial
  | storeList => exact fun later more dvs => valid later (fun d x known => more d x (grows d x known)) dvs
  | storeMap => exact fun later more m => valid later (fun d x known => more d x (grows d x known)) m

theorem Call.Known.mono {call : Call N π V} (valid : call.Known known) : call.Known wider := by
  cases call with
  | scouting d x =>
    exact ⟨grows d x valid.1, fun resp member ack inside => grows _ _ (valid.2 resp member ack inside)⟩
  | commanding d x b _ x' => exact ⟨grows d x valid.1, grows d x' valid.2⟩
  | returned d x' => exact grows d x' valid
  | idle | querying | answered | syncing | synced => trivial

end mono

theorem storedAcks_known {found : Option (Vote π V)} (valid : ∀ vote ∈ found, known d vote.value) :
    ∀ ack ∈ storedAcks d found, known ack.decree ack.value := by
  intro ack member
  cases found with
  | none => cases member
  | some vote =>
    cases mem_singleton.mp member
    exact valid vote rfl

theorem Job.known_single {message : Send N π V} (valid : message.Known known) : (Job.send [message]).Known known := by
  intro other member
  cases mem_singleton.mp member
  exact valid

theorem handle_known [LinearOrder π] (name : N) (loop : Loop π) (valid : request.Known known) :
    (handle name loop request).2.Known known := by
  cases request with
  | prepare =>
    simp only [handle]
    split_ifs
    · exact forall_mem_nil _
    · exact fun later more found stored => Job.known_single (storedAcks_known stored)
    · exact Job.known_single trivial
  | syn d b sender x =>
    have voted : (Job.storeInsert [(d, ⟨b, x⟩)] (.send [.reply sender (.ack ⟨d, b, x⟩)]) : Job N π V).Known known := by
      refine ⟨fun entry member => ?_, Job.known_single valid⟩
      cases mem_singleton.mp member
      exact valid
    simp only [handle]
    split_ifs
    · exact forall_mem_nil _
    · exact voted
    · exact voted
    · exact Job.known_single trivial
  | trim => trivial
  | syncStart =>
    intro later more dvs stored message member
    obtain ⟨α, -, rfl⟩ := mem_map.mp member
    trivial
  | syncAdvertise =>
    intro later more dvs stored
    dsimp only
    split_ifs
    · exact Job.known_single trivial
    · exact Job.known_single trivial
  | syncRequest =>
    exact fun later more m stored => Job.known_single fun entry member => stored entry (mem_of_mem_lookupRanges member)
  | syncResponse => exact ⟨valid, Job.known_single trivial⟩
  | queryDecrees =>
    intro later more m stored
    refine Job.known_single fun ack member => ?_
    obtain ⟨entry, inside, rfl⟩ := mem_map.mp member
    refine stored entry ?_
    rcases mem_append.mp inside with first | others
    · obtain ⟨_, found, rfl⟩ := Option.map_eq_some_iff.mp (Option.mem_toList.mp first)
      exact OrderedMap.lookup_eq_some.mp found
    · exact (OrderedMap.mem_filter.mp others).1

variable {store : Store π V}

theorem Store.Known.insert (valid : store.Known known)
    (inserted : ∀ entry ∈ dvs, known entry.1 entry.2.value) : (store.insert dvs).Known known := by
  intro entry member
  have found := lookup_eq_some.mpr member
  rw [Store.insert, lookup_insertAll] at found
  rcases Option.or_eq_some_iff.mp found with new | ⟨-, old⟩
  · obtain ⟨before, _, rfl, -⟩ := lookup_eq_some_iff.mp new
    exact inserted entry (mem_append_right before mem_cons_self)
  · exact valid entry (lookup_eq_some.mp old)

theorem perform_known (stored : store.Known known) (valid : job.Known known) :
    (store.perform job).1.Known known ∧ (store.perform job).2.Known known := by
  cases job with
  | send | storePut => exact ⟨stored, valid⟩
  | storeInsert => exact ⟨stored, stored.insert valid.1, valid.2⟩
  | storeWrite => exact valid
  | storeLookup d =>
    refine ⟨stored, valid known (fun _ _ known => known) _ fun vote found => ?_⟩
    exact stored (d, vote) (lookup_eq_some.mp found)
  | storeTrim => exact ⟨stored, fun entry member => stored entry (Store.mem_trim.mp member).1, nofun⟩
  | storeList | storeMap => exact ⟨stored, valid known (fun _ _ known => known) _ stored⟩

namespace Async

structure Known (known : DecreeId → V → Prop) (state : Async N π V) : Prop where
  store : state.store.Known known
  pending : ∀ entry ∈ state.pending, entry.2.Known known

def news (state next : Async N π V) : List (Send N π V) := (next.sent.drop state.sent.length).map Prod.snd

variable {state next : Async N π V}

theorem silent_known (same : next.sent = state.sent) : ∀ message ∈ news state next, message.Known known := by
  intro message member
  rw [news, same, drop_length] at member
  cases member

variable {request : Request N π V}

theorem news_append (sent : next.sent = state.sent ++ messages.map fun message => (request, message)) :
    news state next = messages := by
  rw [news, sent, drop_left, map_map]
  exact map_id messages

theorem submit_known {loop job} (valid : state.Known known) (job_known : job.Known known) :
    (state.submit loop request job).Known known ∧
      ∀ message ∈ news state (state.submit loop request job), message.Known known := by
  have waits : ({ state with loop := loop, pending := state.pending ++ [(request, job)] } : Async N π V).Known known := by
    refine ⟨valid.store, fun entry member => ?_⟩
    rcases mem_append.mp member with older | new
    · exact valid.pending entry older
    · cases mem_singleton.mp new
      exact job_known
  cases job with
  | send =>
    refine ⟨⟨valid.store, valid.pending⟩, ?_⟩
    rw [news_append rfl]
    exact job_known
  | storeInsert | storeWrite | storeLookup | storePut | storeTrim | storeList | storeMap =>
    exact ⟨waits, silent_known rfl⟩

theorem finish_known {index store job} (valid : state.Known known) (stored : store.Known known)
    (job_known : job.Known known) : (state.finish index store request job).Known known ∧
      ∀ message ∈ news state (state.finish index store request job), message.Known known := by
  have goes_on : ({ state with store := store, pending := state.pending.set index (request, job) } :
    Async N π V).Known known := by
    refine ⟨stored, fun entry member => ?_⟩
    rcases mem_or_eq_of_mem_set member with older | new
    · exact valid.pending entry older
    · exact new ▸ job_known
  cases job with
  | send =>
    refine ⟨⟨stored, fun entry member => valid.pending entry (mem_of_mem_eraseIdx member)⟩, ?_⟩
    rw [news_append rfl]
    exact job_known
  | storeInsert | storeWrite | storeLookup | storePut | storeTrim | storeList | storeMap =>
    exact ⟨goes_on, silent_known rfl⟩

variable [LinearOrder π]

theorem receive_known (taken : state.step name (.receive request) = some next) (valid : state.Known known)
    (request_known : request.Known known) : next.Known known ∧ ∀ message ∈ news state next, message.Known known := by
  cases taken
  exact submit_known valid (handle_known name state.loop request_known)

theorem work_known (taken : state.step name (.work index) = some next) (valid : state.Known known) :
    next.Known known ∧ ∀ message ∈ news state next, message.Known known := by
  obtain ⟨entry, found, same⟩ := Option.map_eq_some_iff.mp taken
  cases same
  obtain ⟨stored, job_known⟩ := perform_known valid.store (valid.pending entry (mem_of_getElem? found))
  exact finish_known valid stored job_known

end Async
theorem broadcast_known {acceptors : List N} {request : Request N π V} (valid : request.Known known) :
    ∀ entry ∈ acceptors.map fun α => (α, request), entry.2.Known known := by
  intro entry member
  obtain ⟨α, -, rfl⟩ := mem_map.mp member
  exact valid

section
variable {acceptors : List N} {self : π} {d : DecreeId} {x : V} {b : BallotId π} {child : Nat}

def CallKnown (known : DecreeId → V → Prop) (next : Call N π V × List (N × Request N π V)) : Prop :=
  next.1.Known known ∧ ∀ entry ∈ next.2, entry.2.Known known

theorem scout_known (proposed : known d x) : CallKnown known (Propose.scout acceptors self d x b child) :=
  ⟨⟨proposed, nofun⟩, broadcast_known trivial⟩

theorem command_known (proposed : known d x) (chosen : known d x') :
    CallKnown known (Propose.command acceptors self d x b x' child) :=
  ⟨⟨proposed, chosen⟩, broadcast_known chosen⟩

variable {call : Call N π V}

theorem silent_call (valid : call.Known known) : CallKnown known (call, ([] : List (N × Request N π V))) :=
  ⟨valid, nofun⟩

theorem afterCommand_known (proposed : known d x) (chosen : known d x') :
    CallKnown known (Propose.afterCommand acceptors self d x b x' child result) := by
  cases result with
  | error => exact scout_known proposed
  | ok => exact silent_call chosen

theorem timeout_known {next} (taken : timeout acceptors self call = some next)
    (valid : call.Known known) : CallKnown known next := by
  cases call with
  | scouting =>
    cases taken
    exact scout_known valid.1
  | commanding =>
    cases taken
    exact command_known valid.1 valid.2
  | idle | returned | querying | answered | syncing | synced => cases taken

variable [LinearOrder π]

theorem chosen_known {acks : List (Ack π V)} (proposed : known d x) (reported : ∀ ack ∈ acks, known ack.decree ack.value) :
    known d ((chooseValue d acks).getD x) := by
  cases chosen : chooseValue d acks with
  | none => exact proposed
  | some =>
    obtain ⟨ack, member, rfl, rfl, -⟩ := chooseValue_eq_some chosen
    exact reported ack member

theorem afterScout_known (proposed : known d x)
    (reported : ∀ acks, result = .ok acks → ∀ ack ∈ acks, known ack.decree ack.value) :
    CallKnown known (Propose.afterScout acceptors self d x b child result) := by
  cases result with
  | error =>
    simp only [Propose.afterScout]
    split_ifs
    · exact scout_known proposed
    · exact scout_known proposed
  | ok acks => exact command_known proposed (chosen_known proposed (reported acks rfl))

theorem receive_known (valid : call.Known known) (message_known : message.Known known) :
    CallKnown known (call.receive acceptors self child source message) := by
  cases call with
  | scouting d x b _ resps =>
    simp only [Call.receive]
    split
    next =>
      cases message with
      | nack => exact afterScout_known valid.1 nofun
      | promise b' name acks =>
        have collected : ∀ resp ∈ (source, acks) :: resps, ∀ ack ∈ resp.2, known ack.decree ack.value :=
          forall_mem_cons.mpr ⟨message_known, valid.2⟩
        simp only [scoutClauses, expectQuorum, Except.map]
        split
        next waits =>
          split at waits
          next => cases waits
          next =>
            cases waits
            exact silent_call ⟨valid.1, collected⟩
        next finished =>
          split at finished
          next =>
            cases finished
            refine afterScout_known valid.1 fun acks' same ack member => ?_
            cases same
            obtain ⟨_, inside, within⟩ := mem_flatten.mp member
            obtain ⟨resp, sent, rfl⟩ := mem_map.mp inside
            exact collected resp sent ack within
          next => cases finished
      | ack | syncCompleted | decrees => exact silent_call valid
    next => exact silent_call valid
  | commanding =>
    simp only [Call.receive]
    split
    next =>
      cases message with
      | nack => exact afterCommand_known valid.1 valid.2
      | ack =>
        simp only [commandClauses, expectQuorum, Except.map]
        split
        next => exact silent_call valid
        next => exact afterCommand_known valid.1 valid.2
      | promise | syncCompleted | decrees => exact silent_call valid
    next => exact silent_call valid
  | querying =>
    cases message with
    | decrees =>
      simp only [Call.receive, Query.collect]
      split_ifs
      · exact silent_call trivial
      · exact silent_call trivial
      · exact silent_call trivial
    | promise | nack | ack | syncCompleted => exact silent_call trivial
  | syncing =>
    cases message with
    | syncCompleted =>
      simp only [Call.receive, Sync.collect]
      split_ifs
      · exact silent_call trivial
      · exact silent_call trivial
    | promise | nack | ack | decrees => exact silent_call trivial
  | idle | returned | answered | synced => exact silent_call valid

end

def Caller.Known (known : DecreeId → V → Prop) (caller : Caller N π V) : Prop := caller.call.Known known

namespace Cluster
variable {s s' : Cluster N π V}

structure Known (known : DecreeId → V → Prop) (s : Cluster N π V) : Prop where
  acceptors : ∀ α, (s.acceptors α).Known known
  callers : ∀ p, (s.callers p).Known known
  requests : ∀ entry ∈ s.requests, entry.2.Known known
  replies : ∀ letter ∈ s.replies, letter.message.Known known
  returned : ∀ entry ∈ s.returned, known entry.1 entry.2

theorem Known.mono (valid : s.Known known) (grows : ∀ d x, known d x → wider d x) : s.Known wider where
  acceptors α := ⟨fun entry member => grows _ _ ((valid.acceptors α).store entry member),
    fun entry member => ((valid.acceptors α).pending entry member).mono grows⟩
  callers p := Call.Known.mono grows (valid.callers p)
  requests entry member := (valid.requests entry member).mono grows
  replies letter member := (valid.replies letter member).mono grows
  returned entry member := grows _ _ (valid.returned entry member)

theorem known_update {I T : Type} [DecidableEq I] {valid : T → Prop} {parts : I → T} {i part}
    (others : ∀ j, valid (parts j)) (new : valid part) : ∀ j, valid (Function.update parts i part j) :=
  (Function.forall_update_iff parts fun _ => valid).mpr ⟨new, fun j _ => others j⟩

theorem known_append {T : Type} {valid : T → Prop} {older new : List T} (first : ∀ item ∈ older, valid item)
    (second : ∀ item ∈ new, valid item) : ∀ item ∈ older ++ new, valid item :=
  forall_mem_append.mpr ⟨first, second⟩

section
variable [DecidableEq N]

theorem settle_known {α} {next : Async N π V} (valid : s.Known known) (next_known : next.Known known)
    (sent : ∀ message ∈ (s.acceptors α).news next, message.Known known) : (s.settle α next).Known known where
  acceptors := known_update valid.acceptors next_known
  callers := valid.callers
  requests := by
    refine known_append valid.requests fun entry member => ?_
    exact sent (.request entry.1 entry.2) (System.mem_sentRequests.mp member)
  replies := by
    refine known_append valid.replies fun letter member => ?_
    exact sent (.reply letter.receiver letter.message) (System.mem_sentReplies.mp member).2
  returned := valid.returned

end

section
variable [LinearOrder π]

theorem advance_known {p} {next : Call N π V × List (N × Request N π V)} (valid : s.Known known)
    (next_known : CallKnown known next) : (s.advance p next).Known known where
  acceptors := valid.acceptors
  callers := known_update valid.callers next_known.1
  requests := known_append valid.requests next_known.2
  replies := valid.replies
  returned := by
    refine known_append valid.returned fun entry member => ?_
    have own := next_known.1
    split at member
    next returned =>
      cases mem_singleton.mp member
      rw [returned] at own
      exact own
    next => cases member

end

variable [DecidableEq N] [LinearOrder π]

def called (s : Cluster N π V) (p : π) (acceptors : List N) (d : DecreeId) (x : V) : Cluster N π V :=
  { s with callers := Function.update s.callers p { s.callers p with acceptors := acceptors }
           proposed := s.proposed ++ [(d, x)] }

theorem propose_eq {p acceptors d x} (taken : s.step (.propose p acceptors d x) = some s') :
    s' = (s.called p acceptors d x).advance p (Propose.scout acceptors p d x ⟨0, p⟩ (s.callers p).children) := by
  simp only [step] at taken
  split at taken
  next => exact (Option.some.inj taken).symm
  next => exact (Option.some.inj taken).symm
  next => cases taken

variable {action : Action N π V}

theorem proposed_grows (taken : s.step action = some s') (member : entry ∈ s.proposed) : entry ∈ s'.proposed := by
  cases action with
  | propose =>
    rw [propose_eq taken]
    exact mem_append_left _ member
  | abandon p | restart α startDecree =>
    cases taken
    exact member
  | timeout =>
    obtain ⟨_, -, rfl⟩ := Option.map_eq_some_iff.mp taken
    exact member
  | ask =>
    obtain ⟨-, same⟩ := Option.ite_none_right_eq_some.mp taken
    cases same
    exact member
  | receiveRequest =>
    obtain ⟨-, -, taken⟩ := Option.bind_eq_some_iff.mp taken
    obtain ⟨_, -, same⟩ := Option.bind_eq_some_iff.mp taken
    cases same
    exact member
  | work =>
    obtain ⟨_, -, same⟩ := Option.bind_eq_some_iff.mp taken
    cases same
    exact member
  | receiveReply =>
    obtain ⟨_, -, same⟩ := Option.bind_eq_some_iff.mp taken
    cases same
    exact member

theorem step_known (taken : s.step action = some s') (valid : s.Known known)
    (proposed : ∀ entry ∈ s'.proposed, known entry.1 entry.2) :
    s'.Known known := by
  cases action with
  | propose p acceptors d x =>
    rw [propose_eq taken] at proposed ⊢
    have begun : (s.called p acceptors d x).Known known :=
      { valid with callers := known_update valid.callers (valid.callers p) }
    exact advance_known begun (scout_known (proposed (d, x) (mem_append_right _ mem_cons_self)))
  | abandon =>
    cases taken
    exact { valid with callers := known_update valid.callers trivial }
  | timeout p =>
    obtain ⟨_, retried, rfl⟩ := Option.map_eq_some_iff.mp taken
    exact advance_known valid (timeout_known retried (valid.callers p))
  | ask α request =>
    obtain ⟨outside, same⟩ := Option.ite_none_right_eq_some.mp taken
    cases same
    refine { valid with requests := known_append valid.requests fun entry member => ?_ }
    cases mem_singleton.mp member
    cases request with
    | syncStart | trim | queryDecrees => trivial
    | prepare | syn | syncAdvertise | syncRequest | syncResponse => cases outside
  | receiveRequest index =>
    obtain ⟨⟨α, request⟩, found, taken⟩ := Option.bind_eq_some_iff.mp taken
    obtain ⟨_, received, same⟩ := Option.bind_eq_some_iff.mp taken
    cases same
    obtain ⟨next_known, sent⟩ := Async.receive_known received (valid.acceptors α)
      (valid.requests (α, request) (mem_of_getElem? found))
    have rest : ({ s with requests := s.requests.eraseIdx index } : Cluster N π V).Known known :=
      { valid with requests := fun entry member => valid.requests entry (mem_of_mem_eraseIdx member) }
    exact settle_known rest next_known sent
  | work α =>
    obtain ⟨_, worked, same⟩ := Option.bind_eq_some_iff.mp taken
    cases same
    obtain ⟨next_known, sent⟩ := Async.work_known worked (valid.acceptors α)
    exact settle_known valid next_known sent
  | receiveReply index =>
    obtain ⟨letter, found, same⟩ := Option.bind_eq_some_iff.mp taken
    cases same
    have rest : ({ s with replies := s.replies.eraseIdx index } : Cluster N π V).Known known :=
      { valid with replies := fun letter member => valid.replies letter (mem_of_mem_eraseIdx member) }
    exact advance_known rest (receive_known (valid.callers _) (valid.replies letter (mem_of_getElem? found)))
  | restart α startDecree =>
    cases taken
    have reopened : (Async.start startDecree (s.acceptors α).store : Async N π V).Known known :=
      ⟨(valid.acceptors α).store, nofun⟩
    exact { valid with acceptors := known_update valid.acceptors reopened }

/-- The value was proposed for the decree, or stored for it at the start. -/
def Origin (stores : N → Store π V) (s : Cluster N π V) (d : DecreeId) (x : V) : Prop :=
  (d, x) ∈ s.proposed ∨ ∃ α b, (stores α).decrees.lookup d = some ⟨b, x⟩

def Valid (stores : N → Store π V) (s : Cluster N π V) : Prop := s.Known (Origin stores s)

omit [DecidableEq N] [LinearOrder π] in
theorem start_valid (startDecree : N → DecreeId) (stores : N → Store π V) : Valid stores (start startDecree stores) where
  acceptors α := by
    refine ⟨fun entry member => .inr ⟨α, entry.2.ballot, ?_⟩, nofun⟩
    exact lookup_eq_some.mpr member
  callers _ := trivial
  requests _ member := absurd member not_mem_nil
  replies _ member := absurd member not_mem_nil
  returned _ member := absurd member not_mem_nil

theorem step_valid (taken : s.step action = some s') (valid : Valid stores s) : Valid stores s' := by
  have grows : ∀ d x, Origin stores s d x → Origin stores s' d x :=
    fun d x origin => origin.imp_left fun member => proposed_grows taken member
  exact step_known taken (valid.mono grows) fun entry member => .inl member

/-- What calls return and acceptors store for a decree was proposed for it, or stored for it at the start. -/
theorem values_proposed {startDecree : N → DecreeId} {stores : N → Store π V}
    (run : Run step (fun _ _ => True) (start startDecree stores) s) :
    (∀ d x, (d, x) ∈ s.returned ∨ (∃ p, (s.callers p).call = .returned d x) → Origin stores s d x) ∧
    ∀ α d vote, (s.acceptors α).store.decrees.lookup d = some vote → Origin stores s d vote.value := by
  have valid : Valid stores s := run.invariant (start_valid startDecree stores) fun _ _ _ valid _ taken => step_valid taken valid
  refine ⟨fun d x ended => ?_, fun α d vote stored => ?_⟩
  · rcases ended with member | ⟨p, call⟩
    · exact valid.returned (d, x) member
    · have own := valid.callers p
      rw [Caller.Known, call] at own
      exact own
  · exact (valid.acceptors α).store (d, vote) (lookup_eq_some.mp stored)

namespace Example

def stores (α : Nat) : Store Nat Nat := if α = 0 then ⟨OrderedMap.empty.insert ⟨0, 1⟩ ⟨⟨0, 3⟩, 9⟩, none⟩ else .empty

/-- Process 5 proposes 7 for decree 0 to acceptor 0 alone. Acceptor 1 gets the votes by a synchronisation, and starts again. -/
def copied : List (Action Nat Nat Nat) :=
  [.propose 5 [0] ⟨0, 0⟩ 7, .receiveRequest 0, .work 0 0, .receiveReply 0, .receiveRequest 0, .work 0 0, .work 0 0,
    .receiveReply 0, .ask 0 (.syncStart ⟨6, 0⟩ [1]), .receiveRequest 0, .work 0 0, .receiveRequest 0, .work 1 0,
    .receiveRequest 0, .work 0 0, .receiveRequest 0, .work 1 0, .work 1 0, .restart 1 ⟨0, 0⟩]

def summary (s : Cluster Nat Nat Nat) : List (DecreeId × Nat) × List (DecreeId × Nat) :=
  (s.returned, (s.acceptors 1).store.decrees.entries.map fun entry => (entry.1, entry.2.value))

end Example

open Example in
theorem values_proposed_copied : ∃ s : Cluster Nat Nat Nat,
    Run step (fun _ _ => True) (start (fun _ => ⟨0, 0⟩) stores) s ∧
    summary s = ([(⟨0, 0⟩, 7)], [(⟨0, 0⟩, 7), (⟨0, 1⟩, 9)]) ∧ Origin stores s ⟨0, 0⟩ 7 := by
  refine exists_run_and copied (by decide +kernel) fun s run found => (values_proposed run).1 ⟨0, 0⟩ 7 (.inl ?_)
  have returned : s.returned = [(⟨0, 0⟩, 7)] := (Prod.mk.inj found).1
  rw [returned]
  exact mem_cons_self

end Cluster
end Halon.Paxos
