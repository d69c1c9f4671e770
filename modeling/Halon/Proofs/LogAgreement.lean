import Halon.Proofs.LogNodes

/-! Replicas agree on the log. As long as no replica takes over a configuration from
a `Max` that was sent for a skipped decree, and no recovery or batched reconfiguration
is proposed for an unreachable decree, whatever is executed is an entry of the log. -/

namespace Halon.Log
open Library List Option

variable {A S : Type}

def Message.Advertises (k : Ledger A) : Message A S → Prop
  | .Max _ _ legD _ ρs => Configured k legD ρs
  | _ => True

namespace System

def ledger (s : System A S) : Ledger A := s.decided.lookup

structure Valid (s : System A S) : Prop where
  decided : ∀ di v, s.ledger di = some v → (di, v) ∈ s.proposals
  proposals : ∀ proposal ∈ s.proposals, Proposed s.ledger proposal.1 proposal.2
  nodes : ∀ i, (s.nodes i).Sound s.ledger
  network : ∀ sent ∈ s.network, sent.2.Sound s.ledger
  memberships : ∀ membership ∈ s.memberships, Configured s.ledger membership.1 membership.2
  executed : ∀ entry ∈ s.executed, Entry s.ledger entry.2.1 entry.2.2
  inserted : ∀ entry ∈ s.inserted, Entry s.ledger entry.2.1 entry.2.2
  advertised : ∀ sent ∈ s.advertised, sent.2.Advertises s.ledger

variable {s s' : System A S}

theorem Valid.consistent (valid : s.Valid) : s.ledger.Consistent :=
  fun di v decided => valid.proposals (di, v) (valid.decided di v decided)

theorem initial_valid (members : List Nat) : (initial members : System A S).Valid := by
  have none {α : Type} {kept : α → Prop} : ∀ item ∈ ([] : List α), kept item := nofun
  refine ⟨fun _ _ found => absurd found (by simp [ledger, initial]), none, ?_, none, none, none, none, none⟩
  intro i
  have empty {α : Type} {kept : α → Prop} : ∀ item ∈ (Option.none : Option α), kept item :=
    fun _ found => absurd found (not_mem_none _)
  refine ⟨?_, ⟨empty, none, none⟩, none, none, empty⟩
  intro membership found
  dsimp only [initial] at found
  split at found
  next =>
    cases found
    exact .inl rfl
  next => cases found

theorem setNode_valid (valid : s.Valid) (sound : node.Sound s.ledger) : (s.setNode i node).Valid :=
  { valid with nodes := setNode_nodes (fun _ => Node.Sound s.ledger) valid.nodes sound }

theorem post_valid (valid : s.Valid) (told : ∀ sent ∈ messages, sent.2.Sound s.ledger) :
    (s.post messages).Valid :=
  { valid with network := forall_mem_append.mpr ⟨valid.network, told⟩ }

theorem settle_valid (valid : s.Valid) (running : r ∈ (s.nodes i).replica) (keeps : Keeps s.ledger (st, effects)) :
    (s.settle config i later r st effects).Valid := by
  have node : ((s.nodes i).resume config i later r st effects).Sound s.ledger :=
    Node.resume_sound (valid.nodes i) ((valid.nodes i).replica r running) keeps
  have also := keeps.2
  refine { post_valid (setNode_valid valid node) also.sends with
    memberships := forall_mem_append.mpr ⟨valid.memberships, also.memberships⟩
    executed := forall_mem_append.mpr ⟨valid.executed, ?_⟩
    inserted := forall_mem_append.mpr ⟨valid.inserted, ?_⟩ }
  · intro entry member
    obtain ⟨found, inside, rfl⟩ := mem_map.mp member
    exact also.executed found inside
  · intro entry member
    obtain ⟨found, inside, rfl⟩ := mem_map.mp member
    obtain ⟨write, written, inside⟩ := mem_flatMap.mp inside
    exact also.writes write written found inside

/-- What a replica must not do. A `Max` that tells it of later decrees and whose configuration it takes over told a
status, and was not sent for a skipped decree. A leader handles a batch with a reconfiguration only in the legislature
of the last reconfiguration. A recovery that is acted on proposes for a decree that was reached. -/
def Cautious (config : Config) (s : System A S) : Action A S → Prop
  | .deliver index _ => ∀ i ρ d legD epoch ρs, s.network[index]? = some (i, .Max ρ d legD epoch ρs) →
      ∀ r ∈ (s.nodes i).replica, r.state.stateUnconfirmedDecree.decreeNumber < d.decreeNumber →
        r.state.stateReconfDecree < legD → (i, .Max ρ d legD epoch ρs) ∈ s.advertised
  | .request i (.batch rs) m => ∀ r ∈ (s.nodes i).replica, r.state.stateCurrentDecree = r.state.stateWatermark →
      r.state.Leads config i m.now → ∀ b ∈ rs, r.state.stateEpoch ≤ b.batcherMsgEpoch →
        isReconf b.batcherMsgRequest.requestValue →
        r.state.stateReconfDecree.decreeLegislatureId = r.state.stateCurrentDecree.decreeLegislatureId
  | .request i (.recover e _ ρs (some dvs)) m => ∀ r ∈ (s.nodes i).replica, r.state.Recovering config i m.now e ρs dvs →
      Reached s.ledger (recoveryDecree r.state.stateUnconfirmedDecree
        (trimUnreachable dvs r.state.stateWatermark.decreeLegislatureId))
  | _ => True

private theorem proposer_valid (valid : s.Valid)
    (running : r ∈ (s.nodes i).replica) (sound : outcome.Sound s.ledger) : (s.proposerMoved i r outcome).Valid := by
  have node := valid.nodes i
  have old := node.replica r running
  have replica : Replica.Sound s.ledger { r with proposer := outcome.next } := ⟨old.state, old.tasks, sound.next⟩
  have moved : (s.setNode i { s.nodes i with replica := some { r with proposer := outcome.next } }).Valid :=
    setNode_valid valid { node with replica := fun _ found => mem_some_iff.mp found ▸ replica }
  have sent : ∀ sent ∈ outcome.sends.map (fun message => (i, message)), sent.2.Sound s.ledger := by
    intro sent member
    obtain ⟨message, inside, rfl⟩ := mem_map.mp member
    exact sound.sends message inside
  exact { post_valid moved sent with
    decided := fun di v found => mem_append_left _ (valid.decided di v found)
    proposals := forall_mem_append.mpr ⟨valid.proposals, sound.starts⟩ }

private theorem decide_valid (valid : s.Valid) (proposed : (di, v) ∈ s.proposals)
    (undecided : s.decided.lookup di = none) : ({ s with decided := s.decided.insert di v } : System A S).Valid := by
  have grows : Chain.Grows s.ledger (s.decided.insert di v).lookup := by
    intro dj value found
    have different : dj ≠ di := by
      rintro rfl
      exact absurd (found.symm.trans undecided) (by simp)
    rw [OrderedMap.lookup_insert_ne v _ different]
    exact found
  constructor
  · intro dj value found
    change (s.decided.insert di v).lookup dj = some value at found
    rw [OrderedMap.lookup_insert] at found
    split at found
    next same =>
      cases found
      exact same ▸ proposed
    next => exact valid.decided dj value found
  · exact fun proposal member => (valid.proposals proposal member).grow grows
  · exact fun i => (valid.nodes i).grow grows
  · exact fun sent member => (valid.network sent member).grow grows
  · exact fun membership member => (valid.memberships membership member).grow grows
  · exact fun entry member => (valid.executed entry member).grow grows
  · exact fun entry member => (valid.inserted entry member).grow grows
  · intro sent member
    have told := valid.advertised sent member
    obtain ⟨i, message⟩ := sent
    cases message with
    | Max => exact Configured.grow told grows
    | Decree | Query | SnapshotInfo | Status | Dumped | Passed | Rejected => trivial

section
variable [DecidableEq A] {config : Config} {machine : StateMachine A S}

theorem handleEvent_valid (valid : s.Valid)
    (told : ∀ r ∈ (s.nodes i).replica, event.Sound config i m.now s.ledger r.state)
    (moves : handleEvent config machine s i m event = some s') : s'.Valid := by
  obtain ⟨r, running, moves⟩ := bind_eq_some_iff.mp moves
  obtain ⟨handled, found, moves⟩ := bind_eq_some_iff.mp moves
  cases handled with
  | dies =>
    cases moves
    have node := valid.nodes i
    exact setNode_valid valid { node with replica := fun _ none => absurd none (not_mem_none _) }
  | continues st effects =>
    have keeps := handle_keeps valid.consistent ((valid.nodes i).replica r running).state (told r running) found
    have settled : (s.settle config i m.later r st effects).Valid := settle_valid valid running keeps
    dsimp only at moves
    split at moves
    next =>
      cases moves
      refine { settled with advertised := forall_mem_append.mpr ⟨valid.advertised, ?_⟩ }
      cases found
      intro sent member
      obtain ⟨ρ, _, rfl⟩ := mem_map.mp member
      exact ((valid.nodes i).replica r running).state.configured
    next =>
      cases moves
      exact settled

private theorem deliver_valid (valid : s.Valid)
    (cautious : s.Cautious config (.deliver index m)) (found : s.network[index]? = some (i, message))
    (moves : handleEvent config machine { s with network := s.network.eraseIdx index } i m (.message message) =
    some s') : s'.Valid := by
  have told := valid.network (i, message) (mem_of_getElem? found)
  have taken : ({ s with network := s.network.eraseIdx index } : System A S).Valid :=
    { valid with network := fun sent member => valid.network sent (mem_of_mem_eraseIdx member) }
  refine handleEvent_valid taken ?_ moves
  intro r running
  cases message with
  | Max ρ d legD epoch ρs =>
    intro further newer
    exact valid.advertised _ (cautious i ρ d legD epoch ρs found r running further newer)
  | Decree | Query | SnapshotInfo | Status | Dumped | Passed | Rejected => exact told

private theorem request_valid (valid : s.Valid)
    (cautious : s.Cautious config (.request i event m)) (outside : s.fromOutside i event = true)
    (moves : handleEvent config machine { s with requested := s.requested ++ [(i, event)] } i m event = some s') : s'.Valid := by
  have recorded : ({ s with requested := s.requested ++ [(i, event)] } : System A S).Valid := { valid with }
  refine handleEvent_valid recorded ?_ moves
  intro r running
  cases event with
  | message message =>
    cases message with
    | Status => trivial
    | Decree | Query | Max | SnapshotInfo | Dumped | Passed | Rejected => cases outside
  | leaseRenewalTime | membershipQuery => trivial
  | batch => exact cautious r running
  | recover =>
    rintro dvs ⟨⟩
    have answered := (all_eq_true _ _).mp outside r running
    rw [decide_eq_true_eq] at answered
    exact ⟨fun p member => (answered.2 p member).2, cautious r running⟩

theorem step_valid (valid : s.Valid) (cautious : s.Cautious config action)
    (moves : step config machine s action = some s') : s'.Valid := by
  cases step_cases moves with
  | @storeConf membership i known =>
    have node := valid.nodes i
    refine setNode_valid valid { node with config := ?_ }
    rintro found ⟨⟩
    exact valid.memberships membership known
  | @start i legD0 replicas0 restores leaseStart now later stored =>
    have node := valid.nodes i
    have started : (startReplica machine i leaseStart now restores legD0 replicas0 (s.nodes i)).1.Sound s.ledger ∧ _ :=
      startReplica_sound node (node.config (legD0, replicas0) stored)
    refine post_valid (setNode_valid valid ⟨node.config, ?_, node.snapshots, node.dumping, ?_⟩) started.2
    · exact ⟨node.handle.membership, node.handle.log, nofun⟩
    · exact fun _ found => mem_some_iff.mp found ▸ started.1.enter
  | @die i =>
    have node := valid.nodes i
    exact setNode_valid valid { node with replica := fun _ none => absurd none (not_mem_none _) }
  | deliver found handled => exact deliver_valid valid cautious found handled
  | lose => exact { valid with network := fun sent member => valid.network sent (mem_of_mem_eraseIdx member) }
  | request outside handled => exact request_valid valid cautious outside handled
  | @persist i r _ task running waiting =>
    have node := valid.nodes i
    have old := node.replica r running
    have entry := old.tasks task (mem_of_getElem? waiting)
    have sent : ∀ sent ∈ (task.sends : List (Message A S)).map (fun message => (i, message)), sent.2.Sound s.ledger := by
      intro sent member
      obtain ⟨_, inside, rfl⟩ := mem_map.mp member
      cases task with
      | commit | store =>
        rw [mem_singleton.mp inside]
        exact entry
      | reconf => cases inside
    refine { post_valid (setNode_valid valid ?_) sent with
      inserted := forall_mem_append.mpr ⟨valid.inserted, forall_mem_singleton.mpr entry⟩ }
    refine ⟨node.config, PersistenceHandle.insertInLog_sound node.handle entry, node.snapshots, node.dumping, ?_⟩
    rintro found ⟨⟩
    exact ⟨old.state, fun other member => old.tasks other (mem_of_mem_eraseIdx member), old.proposer⟩
  | @dump i _ sn dumping =>
    have node := valid.nodes i
    have reached := node.dumping sn (mem_of_getElem? dumping)
    refine post_valid (setNode_valid valid ⟨node.config, node.handle, ?_, ?_, node.replica⟩) ?_
    · exact forall_mem_cons.mpr ⟨reached, node.snapshots⟩
    · exact fun other member => node.dumping other (mem_of_mem_eraseIdx member)
    · exact forall_mem_singleton.mpr ⟨reached, reached⟩
  | @propose i r _ running received =>
    exact proposer_valid valid running (Proposer.receive_sound ((valid.nodes i).replica r running).proposer received)
  | @workerDecided i r proposer running answered =>
    have node := valid.nodes i
    have old := node.replica r running
    refine setNode_valid valid { node with replica := ?_ }
    rintro found ⟨⟩
    exact ⟨old.state, old.tasks, Proposer.decided_sound old.proposer answered⟩
  | @workerFinished i r _ running finished =>
    exact proposer_valid valid running (Proposer.finish_sound ((valid.nodes i).replica r running).proposer finished)
  | decide proposed fresh => exact decide_valid valid proposed fresh

theorem run_valid (run : Run (step config machine) (Cautious config) (initial members) s) : s.Valid :=
  run.invariant (initial_valid members) fun _ _ _ valid cautious moves => step_valid valid cautious moves

/-- Over any group of replicas and any run in which replicas are cautious, two
replicas that execute the entry with an index execute the same value. -/
theorem execution_agrees {members : List Nat} (run : Run (step config machine) (Cautious config) (initial members) s) :
    ∀ i j n v v', (i, n, v) ∈ s.executed → (j, n, v') ∈ s.executed → v = v' := by
  have valid := run_valid run
  intro i j n v v' first second
  have entry : Entry s.ledger n v := valid.executed _ first
  exact entry.unique (valid.executed _ second)

end

namespace Example

def leases : Config := ⟨10, 11, 10, fun _ => false⟩

def recorder : StateMachine Nat (List Nat) := ⟨[], fun xs x => xs ++ [x]⟩

def moment (t : Int) : Moment := ⟨t, t, true⟩

def begin (now : Int) (nodes : List Nat) : List (Action Nat (List Nat)) := nodes.map fun i => .start i 0 now now fun _ => true

/-- A leader's proposal is decided. Its replica gets the result, stores it and executes it. -/
def pass (i tries : Nat) (di : DecreeId) (v : Value Nat) (index : Nat) (t : Int) : List (Action Nat (List Nat)) :=
  List.replicate tries (.propose i) ++ [.decide di v, .workerDecided i, .workerFinished i, .deliver index (moment t),
    .deliver index (moment t), .persist i 0, .deliver (index + 2) (moment t)]

def append (x κ : Nat) : Event Nat (List Nat) := .batch [⟨9, 5, ⟨[κ], .Values [x], .None⟩⟩]

/-- Node 0 leads and passes two reconfigurations. Node 2, which heard nothing of them, gets the lease decree that node 0
made and tells it to node 0, which skips it. The `Max` that node 0 sends then to node 1 makes node 1 store the
configuration with index 2. It executes that entry when it starts again, and node 0 executes its client's request. -/
def misplaced : List (Action Nat (List Nat)) :=
  begin 0 [0, 1, 2] ++
  .request 0 .leaseRenewalTime (moment 1) :: pass 0 1 ⟨0, 0⟩ (.Reconf 1 [0, 1, 2]) 0 1 ++
  .request 0 .leaseRenewalTime (moment 2) :: pass 0 2 ⟨1, 1⟩ (.Reconf 2 [0, 1, 2]) 3 2 ++
  [.request 2 .leaseRenewalTime (moment 20000), .propose 2, .workerDecided 2, .workerFinished 2,
    .deliver 6 (moment 20000), .deliver 7 (moment 3), .deliver 8 (moment 3), .deliver 0 (moment 3), .deliver 2 (moment 3),
    .persist 1 1, .persist 1 1, .persist 1 0, .die 1] ++
  begin 4 [1] ++ [.deliver 10 (moment 5), .deliver 10 (moment 5), .deliver 10 (moment 5)] ++
  .request 0 (append 7 5) (moment 6) :: pass 0 2 ⟨2, 2⟩ (.Values [7]) 10 6

/-- The leader's lease and a client's request pass, and a second replica follows. -/
def followed : List (Action Nat (List Nat)) :=
  begin 0 [0, 1, 2] ++
  .request 0 .leaseRenewalTime (moment 1) :: pass 0 1 ⟨0, 0⟩ (.Reconf 1 [0, 1, 2]) 0 1 ++
  [.deliver 0 (moment 1), .persist 1 0, .deliver 2 (moment 1)] ++
  .request 0 (append 7 5) (moment 2) :: pass 0 2 ⟨1, 1⟩ (.Values [7]) 3 2 ++
  [.deliver 3 (moment 2), .persist 1 0, .deliver 4 (moment 2)]

/-- No `Max` is delivered, nothing is recovered, and no client asks for a reconfiguration. -/
def steady (s : System Nat (List Nat)) : Action Nat (List Nat) → Bool
  | .deliver index _ => s.network[index]?.all fun sent => match sent.2 with
    | .Max .. => false
    | _ => true
  | .request _ (.batch rs) _ => rs.all fun m => !isReconf m.batcherMsgRequest.requestValue
  | .request _ (.recover ..) _ => false
  | _ => true

theorem cautious_of_steady (s : System Nat (List Nat)) (action : Action Nat (List Nat)) (quiet : steady s action = true) :
    s.Cautious leases action := by
  cases action with
  | deliver =>
    intro i ρ d legD epoch ρs found
    simp [steady, found] at quiet
  | request i event m =>
    cases event with
    | batch =>
      intro r running _ _ m member _ reconf
      have plain := all_eq_true.mp quiet m member
      simp [reconf] at plain
    | recover => cases quiet
    | message | leaseRenewalTime | membershipQuery => trivial
  | storeConf | start | die | lose | persist | dump | propose | workerDecided | workerFinished | decide => trivial

end Example

open Example in
/-- A value is appended through node 0, and node 1 learns of it. -/
theorem followed_computed : ∃ s : System Nat (List Nat), Run (step leases recorder) (Cautious leases) (initial [0, 1, 2]) s ∧
    (0, 1, .Values [7]) ∈ s.executed ∧ (1, 1, .Values [7]) ∈ s.executed := by
  obtain ⟨s, run, facts⟩ : ∃ s : System Nat (List Nat), Run (step leases recorder) (fun s action => steady s action)
      (initial [0, 1, 2]) s ∧ (0, 1, .Values [7]) ∈ s.executed ∧ (1, 1, .Values [7]) ∈ s.executed :=
    exists_run followed (by decide)
  exact ⟨s, run.weaken cautious_of_steady, facts⟩

open Example in
theorem execution_agrees_followed : ∃ s : System Nat (List Nat), Run (step leases recorder) (Cautious leases)
    (initial [0, 1, 2]) s ∧
    (0, 1, .Values [7]) ∈ s.executed ∧ (1, 1, .Values [7]) ∈ s.executed ∧
    ∀ i j n v v', (i, n, v) ∈ s.executed → (j, n, v') ∈ s.executed → v = v' := by
  obtain ⟨s, run, first, second⟩ := followed_computed
  exact ⟨s, run, first, second, execution_agrees run⟩

open Example in
theorem execution_disagrees : ¬ ∀ (config : Config) (machine : StateMachine Nat (List Nat)) (members : List Nat)
    (s : System Nat (List Nat)), Run (step config machine) (fun _ _ => True) (initial members) s →
      ∀ i j n v v', (i, n, v) ∈ s.executed → (j, n, v') ∈ s.executed → v = v' := by
  intro agreement
  obtain ⟨s, run, one, other⟩ : ∃ s : System Nat (List Nat), Run (step leases recorder) (fun _ _ => True)
      (initial [0, 1, 2]) s ∧ (1, 2, .Reconf 2 [0, 1, 2]) ∈ s.executed ∧ (0, 2, .Values [7]) ∈ s.executed :=
    exists_run misplaced (by decide)
  cases agreement _ _ _ s run 1 0 2 _ _ one other

end System
end Halon.Log
