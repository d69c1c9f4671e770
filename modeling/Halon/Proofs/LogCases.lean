import Halon.Log.System

/-! What the handlers of a replica can come to, one case for each of their branches,
and what each step of the group does. -/

namespace Halon.Log
open Library Option
variable {A S : Type} {config : Config} {machine : StateMachine A S} {here : Nat} {st : ReplicaState A S}

variable (config machine here) in
/-- A decree is old, or is stored, executed or kept for later. -/
inductive Decreed (now requestStart : Int) (locale : Locale) (di : DecreeId) (v : Value A) (st : ReplicaState A S) :
    ReplicaState A S → Effects A S → Prop where
  | skips : Decreed now requestStart locale di v st st (skip here st)
  | commits : Decreed now requestStart locale di v st st { tasks := [.commit requestStart locale di v] }
  | executes (stored : locale = .Stored) (reached : st.stateWatermark ≤ di)
      (number : di.decreeNumber = st.stateWatermark.decreeNumber) :
      Decreed now requestStart locale di v st
        (renewLease config here now requestStart st (executeEntry config machine here di v st).1)
        (executeEntry config machine here di v st).2
  | stores : Decreed now requestStart locale di v st st { tasks := [.store requestStart locale di v] }

theorem continues_of_map {result : Option (ReplicaState A S × Effects A S)}
    (handled : result.map continued = some (.continues next effects)) :
    ∃ found, result = some found ∧ next = found.1 ∧ effects = found.2 := by
  obtain ⟨found, is, same⟩ := Option.map_eq_some_iff.mp handled
  cases same
  exact ⟨found, is, rfl, rfl⟩

variable {now : Int} {next : ReplicaState A S × Effects A S}

theorem decree_cases {requestStart locale di v next effects}
    (handled : decree config machine here now requestStart locale di v st = some (.continues next effects)) :
    Decreed config machine here now requestStart locale di v st next effects := by
  unfold decree at handled
  dsimp only at handled
  split at handled
  next =>
    cases handled
    exact .skips
  next =>
    split at handled
    next =>
      cases handled
      exact .commits
    next =>
      split at handled
      next execute =>
        cases handled
        exact .executes execute.1 execute.2.1 execute.2.2
      next =>
        split at handled
        next =>
          cases handled
          exact .stores
        next => cases handled

def asksForLease (here : Nat) (now : Int) (st : ReplicaState A S) : ReplicaState A S × Effects A S :=
  ({ st with stateCurrentDecree := st.stateCurrentDecree.succ, stateLastProposed := some st.stateCurrentDecree },
    { proposer := [proposeLeaseRequest here st.stateCurrentDecree [] st.stateReplicas now] })

def ReplicaState.Leads (config : Config) (here : Nat) (now : Int) (st : ReplicaState A S) : Prop :=
  getLeader config here now st.stateLeaseStart st.stateReplicas = some here

variable (config machine here) in
/-- A batch is put off while nobody leads, ignored by those that do not lead, and otherwise answered at once or proposed. -/
inductive Batched (now : Int) (rs : List (BatcherMsg A))
    (st : ReplicaState A S) : ReplicaState A S × Effects A S → Prop where
  | asks : Batched now rs st (asksForLease here now st)
  | ignores : Batched now rs st (st, {})
  | answers (nullipotent : ∀ m ∈ rs, m.batcherMsgRequest.requestHint = .Nullipotent) : Batched now rs st
      ({ st with
        stateLogState := (rs.flatMap fun m => values m.batcherMsgRequest.requestValue).foldl machine.logNextState
          st.stateLogState },
        { replies := (rs.flatMap fun m => m.batcherMsgRequest.requestSender).map fun κ => (κ, true) })
  | proposes (leads : st.Leads config here now)
      (included : ∀ m ∈ r :: rest, m ∈ rs ∧ st.stateEpoch ≤ m.batcherMsgEpoch) : Batched now rs st
      ({ st with stateCurrentDecree := st.stateCurrentDecree.succ, stateLastProposed := some st.stateCurrentDecree },
        { proposer := [.request ⟨st.stateCurrentDecree, true, now, batchRequest st.stateReconfDecree r (r :: rest)⟩] })

theorem batch_cases (handled : batch config machine here now rs st = some next) :
    st.stateCurrentDecree = st.stateWatermark ∧ Batched config machine here now rs st next := by
  unfold batch at handled
  dsimp only at handled
  split at handled
  next => cases handled
  next current =>
    refine ⟨not_ne_iff.mp current, ?_⟩
    split at handled
    next =>
      split at handled
      next =>
        cases handled
        exact .asks
      next =>
        cases handled
        exact .ignores
    next found =>
      split at handled
      next =>
        cases handled
        exact .ignores
      next own =>
        split at handled
        next nullipotent =>
          cases handled
          exact .answers fun m inside => of_decide_eq_true (List.all_eq_true.mp nullipotent m inside)
        next =>
          split at handled
          next =>
            cases handled
            exact .ignores
          next kept =>
            cases handled
            refine .proposes (not_ne_iff.mp own ▸ found) fun m member => ?_
            obtain ⟨included, epoch⟩ := List.mem_filter.mp (kept ▸ member)
            exact ⟨included, of_decide_eq_true epoch⟩

/-- A query is answered from the log, with the last snapshot, or not at all. -/
inductive Queried (ρ : Nat) (n : Int) (st : ReplicaState A S) : ReplicaState A S → Effects A S → Prop where
  | logged (found : st.log.lookup n = some v) :
      Queried ρ n st st { sends := [(ρ, .Decree 0 .Remote ⟨maxBound, n⟩ v)] }
  | saved (found : st.stateSnapshotRef = some sref) : Queried ρ n st st { sends :=
      [(ρ, .SnapshotInfo st.stateReplicas st.stateReconfDecree st.stateEpoch sref st.stateSnapshotWatermark n)] }
  | missing : Queried ρ n st st {}

theorem query_cases {ρ n next effects}
    (handled : query ρ n st = .continues next effects) : Queried ρ n st next effects := by
  unfold query at handled
  split at handled
  next => cases handled
  next =>
    split at handled
    next =>
      split at handled
      next found =>
        cases handled
        exact .logged found
      next =>
        cases handled
        exact .missing
    next =>
      split at handled
      next found =>
        cases handled
        exact .saved found
      next =>
        cases handled
        exact .missing

theorem leaseRenewalTime_cases (handled : leaseRenewalTime config here now st = some next) :
    st.stateWatermark = st.stateCurrentDecree ∧ (next = asksForLease here now st ∨ next = (st, {})) := by
  unfold leaseRenewalTime at handled
  dsimp only at handled
  split at handled
  next => cases handled
  next current =>
    refine ⟨not_ne_iff.mp current, ?_⟩
    split at handled
    next =>
      cases handled
      exact .inl rfl
    next =>
      cases handled
      exact .inr rfl

theorem membershipQuery_cases (handled : membershipQuery config here now st = some next) :
    next = (st, { memberships := [(st.stateReconfDecree, st.stateReplicas)] }) ∨ next = (st, {}) := by
  unfold membershipQuery at handled
  split at handled
  next => cases handled
  next =>
    split at handled
    next =>
      cases handled
      exact .inl rfl
    next =>
      cases handled
      exact .inr rfl

def recovers (dvs : List (DecreeId × Value A)) (st : ReplicaState A S) : ReplicaState A S :=
  let d' := recoveryDecree st.stateUnconfirmedDecree (trimUnreachable dvs st.stateWatermark.decreeLegislatureId)
  { st with stateUnconfirmedDecree := d', stateCurrentDecree := max d'.succ st.stateCurrentDecree, stateLastProposed := some d' }

/-- A request to recover is acted on: it is not out of date, comes to a member of the new group, in which no leader
is accepted, and the answers of the acceptors have no gap. -/
def ReplicaState.Recovering (config : Config) (here : Nat) (now e : Int) (ρs' : List Nat) (dvs : List (DecreeId × Value A))
    (st : ReplicaState A S) : Prop :=
  st.stateEpoch ≤ e ∧ here ∈ ρs' ∧ caughtUp st.stateWatermark dvs ∧ acceptedLeader st.stateReplicas
    (here :: ρs'.filter (· ≠ here)) (getLeader config here now st.stateLeaseStart st.stateReplicas) = none
deriving Decidable

variable (config here) in
/-- A request to recover is put off, refused, or followed by a proposal after the answers of the acceptors. -/
inductive Recovered (now e : Int) (π : Nat) (ρs' : List Nat)
    (edvs : Option (List (DecreeId × Value A))) (st : ReplicaState A S) : ReplicaState A S × Effects A S → Prop where
  | waits : Recovered now e π ρs' edvs st (st, {})
  | refuses : Recovered now e π ρs' edvs st (st, { replies := [(π, false)] })
  | proposes (answered : edvs = some dvs) (recovering : st.Recovering config here now e ρs' dvs)
      (trimmed : dvs' = trimUnreachable dvs st.stateWatermark.decreeLegislatureId)
        (decree : d' = recoveryDecree st.stateUnconfirmedDecree dvs') :
      Recovered now e π ρs' edvs st (recovers dvs st,
        { sends := dvs'.map (fun p => (here, .Decree 0 .Remote p.1 p.2)) ++
            queryMissingFrom here st.stateWatermark.decreeNumber ρs' log
          proposer := proposeLeaseRequest here d' [π] ρs'' now :: updateAcceptors st.stateReplicas ρs' })

theorem recover_cases (handled : recover config here now e π ρs' edvs st = next) :
    Recovered config here now e π ρs' edvs st next := by
  subst handled
  unfold recover
  split
  next epoch =>
    dsimp only
    split
    next leader =>
      split
      next member =>
        cases edvs with
        | none => exact .waits
        | some =>
          dsimp only
          split
          next answers =>
            rw [if_pos member] at leader
            exact .proposes rfl ⟨epoch, member, answers, leader⟩ rfl rfl
          next => exact .waits
      next => exact .refuses
    next =>
      split
      next => exact .waits
      next => exact .refuses
  next => exact .refuses

namespace System
variable [DecidableEq A]

variable (config machine) in
/-- What each action of the scheduler finds, and the group it leaves. -/
inductive Moved (s : System A S) : Action A S → System A S → Prop where
  | storeConf (known : membership ∈ s.memberships) :
      Moved s (.storeConf i membership) (s.setNode i { s.nodes i with config := some membership })
  | start {leaseStart now later : Int}
      (stored : (s.nodes i).config = some (legD0, replicas0)) : Moved s (.start i leaseStart now later restores)
        (post (s.setNode i { s.nodes i with
          handle := { (s.nodes i).handle with persistentLogCache := .empty }
          replica := some ((startReplica machine i leaseStart now restores legD0 replicas0 (s.nodes i)).1.enter config i later)
          history := .started :: (s.nodes i).history })
          (startReplica machine i leaseStart now restores legD0 replicas0 (s.nodes i)).2)
  | die : Moved s (.die i) (s.setNode i { s.nodes i with replica := none })
  | deliver (found : s.network[index]? = some (i, message))
      (moves : handleEvent config machine { s with network := s.network.eraseIdx index } i m (.message message) = some after) :
      Moved s (.deliver index m) after
  | lose : Moved s (.lose index) { s with network := s.network.eraseIdx index }
  | request (outside : s.fromOutside i event = true)
      (moves : handleEvent config machine { s with requested := s.requested ++ [(i, event)] } i m event = some after) :
      Moved s (.request i event m) after
  | persist (running : (s.nodes i).replica = some r)
      (waiting : r.tasks[index]? = some task) : Moved s (.persist i index)
        { post (s.setNode i { s.nodes i with
            handle := (s.nodes i).handle.insertInLog task.entry.1 task.entry.2
            replica := some { r with tasks := r.tasks.eraseIdx index }
            history := .wrote (.insertInLog task.entry.1 task.entry.2) :: (s.nodes i).history })
            (task.sends.map fun message => (i, message)) with
          inserted := s.inserted ++ [(i, task.entry)]
          replied := s.replied ++ task.acks.map fun κ => (i, κ, true) }
  | dump (dumping : (s.nodes i).dumping[index]? = some sn) :
      Moved s (.dump i index)
        (post (s.setNode i { s.nodes i with
          dumping := (s.nodes i).dumping.eraseIdx index
          snapshots := sn :: (s.nodes i).snapshots }) [(i, .Dumped sn.watermark sn)])
  | propose (running : (s.nodes i).replica = some r)
      (received : r.proposer.receive = some outcome) : Moved s (.propose i) (s.proposerMoved i r outcome)
  | workerDecided (running : (s.nodes i).replica = some r)
      (answered : r.proposer.decided s.decided.lookup = some proposer) : Moved s (.workerDecided i)
        (s.setNode i { s.nodes i with replica := some { r with proposer := proposer } })
  | workerFinished (running : (s.nodes i).replica = some r)
      (finished : r.proposer.finish = some outcome) : Moved s (.workerFinished i) (s.proposerMoved i r outcome)
  | decide (proposed : (di, v) ∈ s.proposals) (fresh : s.decided.lookup di = none) :
      Moved s (.decide di v) { s with decided := s.decided.insert di v }

theorem step_cases (moves : step config machine s action = some s') :
    Moved config machine s action s' := by
  cases action with
  | storeConf =>
    unfold step at moves
    dsimp only at moves
    split at moves
    next known =>
      cases moves
      exact .storeConf known.1
    next => cases moves
  | start =>
    unfold step at moves
    dsimp only at moves
    split at moves
    next stored _ =>
      cases moves
      exact .start stored
    next => cases moves
  | die =>
    cases moves
    exact .die
  | deliver =>
    obtain ⟨⟨i, _⟩, found, moves⟩ := bind_eq_some_iff.mp moves
    exact .deliver found moves
  | lose =>
    cases moves
    exact .lose
  | request =>
    unfold step at moves
    dsimp only at moves
    split at moves
    next outside => exact .request outside moves
    next => cases moves
  | persist =>
    obtain ⟨r, running, moves⟩ := bind_eq_some_iff.mp moves
    obtain ⟨_, waiting, moves⟩ := bind_eq_some_iff.mp moves
    cases moves
    exact .persist running waiting
  | dump =>
    obtain ⟨sn, dumping, moves⟩ := bind_eq_some_iff.mp moves
    cases moves
    exact .dump dumping
  | propose =>
    obtain ⟨r, running, moves⟩ := bind_eq_some_iff.mp moves
    obtain ⟨_, received, moves⟩ := bind_eq_some_iff.mp moves
    cases moves
    exact .propose running received
  | workerDecided =>
    obtain ⟨r, running, moves⟩ := bind_eq_some_iff.mp moves
    obtain ⟨_, answered, moves⟩ := bind_eq_some_iff.mp moves
    cases moves
    exact .workerDecided running answered
  | workerFinished =>
    obtain ⟨r, running, moves⟩ := bind_eq_some_iff.mp moves
    obtain ⟨_, finished, moves⟩ := bind_eq_some_iff.mp moves
    cases moves
    exact .workerFinished running finished
  | decide =>
    unfold step at moves
    dsimp only at moves
    split at moves
    next allowed =>
      cases moves
      exact .decide allowed.1 allowed.2
    next => cases moves

section every
variable {s s' : System A S}

omit [DecidableEq A] in
theorem setNode_nodes (kept : Nat → Node A S → Prop) (every : ∀ i, kept i (s.nodes i)) (here : kept i node) :
    ∀ j, kept j ((s.setNode i node).nodes j) :=
  (Function.forall_update_iff s.nodes kept).mpr ⟨here, fun j _ => every j⟩

theorem handleEvent_nodes (kept : Node A S → Prop) (every : ∀ i, kept (s.nodes i))
    (died : kept { s.nodes i with replica := none })
    (resumed : ∀ r ∈ (s.nodes i).replica, ∀ {next effects}, handle config machine i m r.state event =
    some (.continues next effects) →
      kept ((s.nodes i).resume config i m.later r next effects))
    (moves : handleEvent config machine s i m event = some s') : ∀ j, kept (s'.nodes j) := by
  obtain ⟨r, running, moves⟩ := bind_eq_some_iff.mp moves
  obtain ⟨outcome, found, moves⟩ := bind_eq_some_iff.mp moves
  cases outcome with
  | dies =>
    cases moves
    exact setNode_nodes (fun _ => kept) every died
  | continues st effects =>
    have settled : ∀ j, kept ((s.settle config i m.later r st effects).nodes j) :=
      setNode_nodes (fun _ => kept) every (resumed r running found)
    dsimp only at moves
    split at moves
    next =>
      cases moves
      exact settled
    next =>
      cases moves
      exact settled

variable {kept : ReplicaState A S → Prop}

omit [DecidableEq A] in
theorem setNode_every (every : ∀ i, ∀ r ∈ (s.nodes i).replica, kept r.state)
    (here : ∀ r ∈ node.replica, kept r.state) : ∀ j, ∀ r ∈ ((s.setNode i node).nodes j).replica, kept r.state :=
  setNode_nodes (fun _ node => ∀ r ∈ node.replica, kept r.state) every here

/-- The event that a replica handles in a step, and when it does. -/
inductive Handles (s : System A S) : Action A S → Nat → Event A S → Moment → Prop where
  | deliver (found : s.network[index]? = some (i, message)) :
      Handles s (.deliver index m) i (.message message) m
  | request (outside : s.fromOutside i event = true) : Handles s (.request i event m) i event m

theorem handleEvent_every (every : ∀ i, ∀ r ∈ (s.nodes i).replica, kept r.state)
    (handled : ∀ r ∈ (s.nodes i).replica, ∀ {next effects} log, handle config machine i m r.state event =
    some (.continues next effects) →
      kept { (go config i m.later next).1 with log := log })
    (moves : handleEvent config machine s i m event = some s') : ∀ i, ∀ r ∈ (s'.nodes i).replica, kept r.state := by
  refine handleEvent_nodes (fun node => ∀ r ∈ node.replica, kept r.state) every ?_ ?_ moves
  · exact fun _ none => absurd none (not_mem_none _)
  · rintro r running next effects found _ ⟨⟩
    exact handled r running _ found

/-- What is true of replicas when they start, and kept by their loops, is kept by every step. -/
theorem step_every (every : ∀ i, ∀ r ∈ (s.nodes i).replica, kept r.state)
    (started : ∀ i leaseStart now later restores legD0 replicas0 node,
      kept (go config i later (startReplica machine i leaseStart now restores legD0 replicas0 node).1.state).1)
    (handled : ∀ {i event m}, s.Handles action i event m → ∀ r ∈ (s.nodes i).replica, ∀ {next effects} log,
      handle config machine i m r.state event = some (.continues next effects) →
      kept { (go config i m.later next).1 with log := log })
    (moves : step config machine s action = some s') : ∀ i, ∀ r ∈ (s'.nodes i).replica, kept r.state := by
  cases step_cases moves with
  | @storeConf _ i | @dump i => exact setNode_every every (every i)
  | start =>
    refine setNode_every every ?_
    rintro r ⟨⟩
    exact started _ _ _ _ _ _ _ _
  | die => exact setNode_every every fun _ none => absurd none (not_mem_none _)
  | @deliver index _ _ _ _ found moves =>
    exact handleEvent_every (s := { s with network := s.network.eraseIdx index }) every (handled (.deliver found)) moves
  | lose => exact every
  | @request i event m _ outside moves =>
    exact handleEvent_every (s := { s with requested := s.requested ++ [(i, event)] }) every (handled (.request outside)) moves
  | @persist i r _ _ running _ | @propose i r _ running _ | @workerDecided i r _ running _ | @workerFinished i r _ running _ =>
    refine setNode_every every ?_
    rintro found ⟨⟩
    exact every i r running
  | decide => exact every

end every

end System
end Halon.Log
