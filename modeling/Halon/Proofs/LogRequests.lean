import Halon.Proofs.LogNodes

/-! Requests on their way through a replica. Wherever a value waits to be proposed,
stored or acknowledged together with the clients to tell, these clients asked for it. -/

namespace Halon.Log
open Library List Option

variable {A S : Type} {history : List (Nat × Event A S)} {i here κ : Nat}

/-- The client asked for the value with this event, by itself or together with others. -/
def Event.AskedBy (κ : Nat) (v : Value A) : Event A S → Prop
  | .batch rs => ∃ m ∈ rs, κ ∈ m.batcherMsgRequest.requestSender ∧
      ∀ ys, m.batcherMsgRequest.requestValue = .Values ys → ∃ xs, v = .Values xs ∧ ys <:+: xs
  | .recover _ π _ _ => κ = π
  | _ => False

def Asked (history : List (Nat × Event A S)) (i : Nat) (κs : List Nat) (v : Value A) : Prop :=
  ∀ κ ∈ κs, ∃ event, (i, event) ∈ history ∧ event.AskedBy κ v

/-- The client sent a request to a node in a batch that changes nothing. -/
def Served (history : List (Nat × Event A S)) (i κ : Nat) : Prop :=
  ∃ rs, (i, .batch rs) ∈ history ∧ (∀ m ∈ rs, m.batcherMsgRequest.requestHint = .Nullipotent) ∧
    ∃ m ∈ rs, κ ∈ m.batcherMsgRequest.requestSender

theorem Asked.nobody : Asked history i [] v := nofun

theorem Asked.mono (asked : Asked history i κs v)
    (grows : history ⊆ more) : Asked more i κs v := by
  intro κ member
  obtain ⟨event, recorded, asks⟩ := asked κ member
  exact ⟨event, grows recorded, asks⟩

def Locale.clients : Locale → List Nat
  | .Local κs => κs
  | .Remote | .Stored => []

def Message.Asked (history : List (Nat × Event A S)) (i : Nat) : Message A S → Prop
  | .Decree _ locale _ v => Log.Asked history i locale.clients v
  | .Passed _ r | .Rejected r => Log.Asked history i r.prRequest.requestSender r.prRequest.requestValue
  | _ => True

def ProposerMsg.Asked (history : List (Nat × Event A S)) (i : Nat) : ProposerMsg A → Prop
  | .request r => Log.Asked history i r.prRequest.requestSender r.prRequest.requestValue
  | _ => True

def Task.Asked (history : List (Nat × Event A S)) (i : Nat) : Task A → Prop
  | .commit _ locale _ v | .store _ locale _ v => Log.Asked history i locale.clients v
  | .reconf .. => True

/-- An event that comes from outside is recorded, and a message carries only what clients asked for. -/
def Event.Told (history : List (Nat × Event A S)) (i : Nat) : Event A S → Prop
  | .message m => m.Asked history i
  | event => (i, event) ∈ history

structure Effects.Asked (history : List (Nat × Event A S)) (here : Nat) (effects : Effects A S) : Prop where
  sends : ∀ sent ∈ effects.sends, sent.2.Asked history sent.1
  proposer : ∀ message ∈ effects.proposer, message.Asked history here
  tasks : ∀ task ∈ effects.tasks, task.Asked history here
  replies : ∀ reply ∈ effects.replies, reply.2 = true → Served history here reply.1

section handlers
variable {st : ReplicaState A S} {config : Config} {machine : StateMachine A S}

theorem Effects.Asked.none : Effects.Asked history here ({} : Effects A S) := by
  constructor <;> intro item member <;> cases member

private theorem tells_all {ρs : List Nat} {message : Message A S} (asked : ∀ ρ, message.Asked history ρ) :
    ∀ sent ∈ ρs.map (fun ρ => (ρ, message)), sent.2.Asked history sent.1 := by
  intro sent member
  obtain ⟨ρ, _, rfl⟩ := mem_map.mp member
  exact asked ρ

private theorem updateAcceptors_asked (ρs ρs' : List Nat) :
    ∀ message ∈ (updateAcceptors ρs ρs' : List (ProposerMsg A)), message.Asked history here := by
  unfold updateAcceptors
  split
  next => exact nofun
  next => exact forall_mem_singleton.mpr trivial

theorem queryMissingFrom_asked (w : Int) (ρs : List Nat) (log : OrderedMap Int (Value A)) :
    ∀ sent ∈ (queryMissingFrom here w ρs log : List (Nat × Message A S)), sent.2.Asked history sent.1 := by
  intro sent member
  obtain ⟨n, _, inside⟩ := mem_flatMap.mp member
  obtain ⟨ρ, _, rfl⟩ := mem_map.mp inside
  trivial

private theorem rejects {κs : List Nat} : ∀ reply ∈ κs.map (fun κ => (κ, false)), reply.2 = true →
    Served history here reply.1 := by
  intro reply member told
  obtain ⟨κ, _, rfl⟩ := mem_map.mp member
  cases told

theorem executeEntry_asked : (executeEntry config machine here di v st).2.Asked history here := by
  have watermark (w' : DecreeId) : ∀ message ∈ [ProposerMsg.watermark w'], message.Asked history here :=
    forall_mem_singleton.mpr trivial
  cases v with
  | Values => exact { Effects.Asked.none with proposer := watermark _ }
  | Reconf =>
    unfold executeEntry
    dsimp only
    split
    next =>
      exact { Effects.Asked.none with
        sends := forall_mem_singleton.mpr trivial
        proposer := forall_mem_append.mpr ⟨updateAcceptors_asked _ _, watermark _⟩ }
    next => exact { Effects.Asked.none with proposer := watermark _ }

variable {next : ReplicaState A S} {effects : Effects A S}

theorem decree_asked (told : Asked history here locale.clients v)
    (handled : decree config machine here now requestStart locale di v st = some (.continues next effects)) :
    effects.Asked history here := by
  cases decree_cases handled with
  | skips => exact { Effects.Asked.none with sends := tells_all fun _ => trivial }
  | commits | stores => exact { Effects.Asked.none with tasks := forall_mem_singleton.mpr told }
  | executes => exact executeEntry_asked

private theorem infix_flatMap {α β : Type} {f : α → List β} {x} {xs : List α} (member : x ∈ xs) : f x <:+: xs.flatMap f := by
  obtain ⟨_, _, rfl⟩ := append_of_mem member
  rw [flatMap_append, flatMap_cons, ← append_assoc]
  exact infix_append _ _ _

theorem batchRequest_asked (recorded : (here, .batch rs) ∈ history) (included : ∀ m ∈ r :: rest, m ∈ rs) :
    Asked history here (batchRequest legD r (r :: rest)).requestSender (batchRequest legD r (r :: rest)).requestValue := by
  intro κ member
  refine ⟨.batch rs, recorded, ?_⟩
  unfold batchRequest at member ⊢
  dsimp only at member ⊢
  split at member
  next reconf =>
    rw [if_pos reconf]
    refine ⟨r, included r mem_cons_self, member, ?_⟩
    intro ys value
    rw [value] at reconf
    cases reconf
  next plain =>
    rw [if_neg plain]
    obtain ⟨m, inside, sender⟩ := mem_flatMap.mp member
    refine ⟨m, included m inside, sender, ?_⟩
    intro ys value
    refine ⟨_, rfl, ?_⟩
    have part := infix_flatMap (f := fun m : BatcherMsg A => values m.batcherMsgRequest.requestValue) inside
    rw [value] at part
    exact part

theorem batch_asked {rs next} (recorded : (here, .batch rs) ∈ history)
    (handled : batch config machine here now rs st = some next) : next.2.Asked history here := by
  cases (batch_cases handled).2 with
  | asks => exact { Effects.Asked.none with proposer := forall_mem_singleton.mpr Asked.nobody }
  | ignores => exact .none
  | answers nullipotent =>
    refine { Effects.Asked.none with replies := ?_ }
    intro reply member _
    obtain ⟨κ, asking, rfl⟩ := mem_map.mp member
    exact ⟨rs, recorded, nullipotent, mem_flatMap.mp asking⟩
  | proposes _ included =>
    have asked (m) (member) := (included m member).1
    exact { Effects.Asked.none with proposer := forall_mem_singleton.mpr (batchRequest_asked recorded asked) }

theorem passed_asked [DecidableEq A]
    (told : Asked history here r.prRequest.requestSender r.prRequest.requestValue) :
    (passed here vi r st).2.Asked history here := by
  refine { Effects.Asked.none with sends := forall_mem_cons.mpr ⟨?_, ?_⟩, replies := forall_mem_ite fun _ => rejects }
  · by_cases own : r.prRequest.requestValue = vi
    · simp only [own, if_true]
      exact own ▸ told
    · simp only [own, if_false]
      exact Asked.nobody
  · exact tells_all fun _ => Asked.nobody

theorem query_asked (handled : query ρ n st = .continues next effects) : effects.Asked history here := by
  cases query_cases handled with
  | logged => exact { Effects.Asked.none with sends := forall_mem_singleton.mpr Asked.nobody }
  | saved => exact { Effects.Asked.none with sends := forall_mem_singleton.mpr trivial }
  | missing => exact .none

theorem snapshotInfo_asked :
    (snapshotInfo m ρs' legD' epoch' sref' w0' n st).2.Asked history here := by
  unfold snapshotInfo
  dsimp only
  split
  next =>
    exact { Effects.Asked.none with
      proposer := forall_mem_append.mpr
        ⟨forall_mem_ite fun _ => updateAcceptors_asked _ _, forall_mem_ite fun _ => forall_mem_singleton.mpr trivial⟩ }
  next => exact .none

theorem maxDecree_asked :
    (maxDecree here now ρ d' legD' epoch' ρs' st).2.Asked history here := by
  unfold maxDecree
  dsimp only
  split
  next =>
    exact { Effects.Asked.none with
      tasks := forall_mem_ite fun _ => forall_mem_singleton.mpr trivial
      sends := queryMissingFrom_asked _ _ _
      proposer := forall_mem_ite fun _ => updateAcceptors_asked _ _ }
  next => exact .none

theorem recover_asked (recorded : (here, .recover e π ρs' edvs) ∈ history) :
    (recover config here now e π ρs' edvs st).2.Asked history here := by
  generalize handled : recover config here now e π ρs' edvs st = next
  cases recover_cases handled with
  | waits => exact .none
  | refuses => exact { Effects.Asked.none with replies := forall_mem_singleton.mpr fun told => absurd told Bool.false_ne_true }
  | proposes =>
    refine { Effects.Asked.none with
      sends := forall_mem_append.mpr ⟨?_, queryMissingFrom_asked _ _ _⟩
      proposer := forall_mem_cons.mpr ⟨?_, updateAcceptors_asked _ _⟩ }
    · intro sent member
      obtain ⟨p, _, rfl⟩ := mem_map.mp member
      exact Asked.nobody
    · exact fun κ member => ⟨_, recorded, mem_singleton.mp member⟩

theorem handle_asked [DecidableEq A] (told : event.Told history here)
    (handled : handle config machine here m st event = some (.continues next effects)) : effects.Asked history here := by
  cases event with
  | message message =>
    cases message with
    | Decree => exact decree_asked told handled
    | Query => exact query_asked (Option.some.inj handled)
    | Max =>
      cases handled
      exact maxDecree_asked
    | SnapshotInfo =>
      cases handled
      exact snapshotInfo_asked
    | Status =>
      cases handled
      exact { Effects.Asked.none with sends := tells_all fun _ => trivial }
    | Dumped =>
      cases handled
      unfold dumped
      split
      next => exact { Effects.Asked.none with }
      next => exact .none
    | Passed =>
      cases handled
      exact passed_asked told
    | Rejected =>
      cases handled
      exact { Effects.Asked.none with replies := forall_mem_ite fun _ => rejects }
  | leaseRenewalTime =>
    obtain ⟨_, moved, rfl, rfl⟩ := continues_of_map handled
    obtain ⟨_, rfl | rfl⟩ := leaseRenewalTime_cases moved
    · exact { Effects.Asked.none with proposer := forall_mem_singleton.mpr Asked.nobody }
    · exact .none
  | batch =>
    obtain ⟨_, moved, rfl, rfl⟩ := continues_of_map handled
    exact batch_asked told moved
  | membershipQuery =>
    obtain ⟨_, moved, rfl, rfl⟩ := continues_of_map handled
    rcases membershipQuery_cases moved with rfl | rfl
    · exact { Effects.Asked.none with }
    · exact .none
  | recover =>
    cases handled
    exact recover_asked told

end handlers

structure Proposer.Asked (history : List (Nat × Event A S)) (i : Nat) (p : Proposer A) : Prop where
  mailbox : ∀ message ∈ p.mailbox, message.Asked history i
  working : ∀ work ∈ p.working, Log.Asked history i work.1.prRequest.requestSender work.1.prRequest.requestValue

namespace Proposer
variable {p : Proposer A} {outcome : Outcome A S}

private theorem idle_asked {w αs mailbox}
    (asked : ∀ message ∈ mailbox, message.Asked history i) : Proposer.Asked history i ⟨w, αs, mailbox, none⟩ :=
  ⟨asked, fun _ found => absurd found (not_mem_none _)⟩

private theorem abort_asked (mailbox : ∀ message ∈ p.mailbox, message.Asked history i)
    (work : Log.Asked history i r.prRequest.requestSender r.prRequest.requestValue) :
    (abort p r result : Outcome A S).next.Asked history i ∧
      ∀ message ∈ (abort p r result : Outcome A S).sends, message.Asked history i := by
  unfold abort
  split
  next => exact ⟨idle_asked mailbox, forall_mem_singleton.mpr work⟩
  next =>
    split
    next =>
      have again : ∀ message ∈ p.mailbox ++ [.request r], message.Asked history i :=
        forall_mem_append.mpr ⟨mailbox, forall_mem_singleton.mpr work⟩
      exact ⟨idle_asked again, by simp⟩
    next => exact ⟨idle_asked mailbox, forall_mem_singleton.mpr work⟩

theorem receive_asked (asked : p.Asked history i) (received : p.receive = some outcome) :
    outcome.next.Asked history i ∧ ∀ message ∈ outcome.sends, message.Asked history i := by
  have quiet : ∀ message ∈ ([] : List (Message A S)), message.Asked history i := by simp
  unfold receive at received
  split at received
  next =>
    split at received
    next => cases received
    next waiting =>
      obtain ⟨request, later⟩ := forall_mem_cons.mp (waiting ▸ asked.mailbox)
      split at received
      next =>
        cases received
        exact ⟨⟨later, asked.working⟩, forall_mem_singleton.mpr request⟩
      next =>
        cases received
        refine ⟨⟨later, ?_⟩, quiet⟩
        rintro work ⟨⟩
        exact request
    next waiting =>
      cases received
      exact ⟨⟨(forall_mem_cons.mp (waiting ▸ asked.mailbox)).2, asked.working⟩, quiet⟩
    next waiting =>
      cases received
      exact ⟨⟨(forall_mem_cons.mp (waiting ▸ asked.mailbox)).2, asked.working⟩, quiet⟩
  next r result busy =>
    have work := asked.working (r, result) busy
    split at received
    next taken =>
      cases received
      exact abort_asked (fun message member => asked.mailbox message (mem_takeUpdate taken message member)) work
    next rest taken =>
      have kept : ∀ message ∈ rest, message.Asked history i :=
        fun message member => asked.mailbox message (mem_takeUpdate taken message member)
      split at received
      next =>
        cases received
        exact ⟨⟨kept, asked.working⟩, quiet⟩
      next =>
        cases received
        exact abort_asked kept work
    next => cases received

theorem decided_asked {next} (asked : p.Asked history i)
    (answered : p.decided value = some next) : next.Asked history i := by
  unfold decided at answered
  split at answered
  next r busy =>
    obtain ⟨v, _, rfl⟩ := map_eq_some_iff.mp answered
    refine ⟨asked.mailbox, ?_⟩
    rintro work ⟨⟩
    exact asked.working (r, none) busy
  next => cases answered

theorem finish_asked (asked : p.Asked history i) (finished : p.finish = some outcome) :
    outcome.next.Asked history i ∧ ∀ message ∈ outcome.sends, message.Asked history i := by
  unfold finish at finished
  split at finished
  next busy =>
    cases finished
    exact ⟨idle_asked asked.mailbox, forall_mem_singleton.mpr (asked.working _ busy)⟩
  next => cases finished

end Proposer

structure Replica.Asked (history : List (Nat × Event A S)) (i : Nat) (r : Replica A S) : Prop where
  tasks : ∀ task ∈ r.tasks, task.Asked history i
  proposer : r.proposer.Asked history i

variable {more : List (Nat × Event A S)} (grows : history ⊆ more)
include grows

theorem Message.Asked.mono {message : Message A S} (asked : message.Asked history i) : message.Asked more i := by
  cases message with
  | Decree | Passed | Rejected => exact Log.Asked.mono asked grows
  | Query | Max | SnapshotInfo | Status | Dumped => trivial

theorem Replica.Asked.mono {r : Replica A S} (asked : r.Asked history i) : r.Asked more i := by
  refine ⟨?_, ?_, fun work found => (asked.proposer.working work found).mono grows⟩
  · intro task member
    have old := asked.tasks task member
    cases task with
    | commit | store => exact Log.Asked.mono old grows
    | reconf => trivial
  · intro message member
    have old := asked.proposer.mailbox message member
    cases message with
    | request => exact Log.Asked.mono old grows
    | acceptors | watermark => trivial

end Halon.Log
