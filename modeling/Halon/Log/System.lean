import Halon.Library.Runs
import Halon.Log.Proposer
import Halon.Log.Replica
import Mathlib.Data.List.Sort

/-! A group of replicas, each on its node, with the network between them and a
consensus protocol that decides one value for a decree. Messages arrive in any
order or never, persistence operations finish in any order, and replicas die and
start again from what their node has stored. -/

namespace Halon.Log
open Library

variable {A S : Type}

/-- The persisted log and membership, and the log in memory. -/
structure PersistenceHandle (A : Type) where
  persistentMembershipMap : Option (DecreeId × List Nat)
  persistentLogMap : OrderedMap Int (Value A)
  persistentLogCache : OrderedMap Int (Value A)

namespace PersistenceHandle

def insertInLog (n : Int) (v : Value A) (ph : PersistenceHandle A) : PersistenceHandle A where
  persistentMembershipMap :=
    match v with
    | .Reconf leg' rs' => some (⟨leg', n⟩, rs')
    | .Values _ => ph.persistentMembershipMap
  persistentLogMap := ph.persistentLogMap.insert n v
  persistentLogCache := ph.persistentLogCache.insert n v

/-- Remove the entries below the index. Only those that are also in memory are found in the persisted log. -/
def trimTheLog (w0 : Int) (ph : PersistenceHandle A) : PersistenceHandle A :=
  let w0' := w0 - 1
  let toTrim := (ph.persistentLogCache.below w0').keys ++ [w0']
  { ph with persistentLogMap := ph.persistentLogMap.filter fun entry => entry.1 ∉ toTrim
            persistentLogCache := ph.persistentLogCache.above w0' }

def write (ph : PersistenceHandle A) : Write A → PersistenceHandle A
  | .insertInLog n v => ph.insertInLog n v
  | .trimTheLog w0 => ph.trimTheLog w0

end PersistenceHandle

structure Replica (A S : Type) where
  state : ReplicaState A S
  tasks : List (Task A)
  proposer : Proposer A

/-- What happens to the log in memory: an operation on it, a start of the replica, which makes a new one, and a turn of
the replica's loop, which reads it. -/
inductive LogEvent (A : Type) where
  | wrote (write : Write A)
  | started
  | turned
deriving DecidableEq

structure Node (A S : Type) where
  /-- The membership that was stored when the node joined the group. -/
  config : Option (DecreeId × List Nat)
  handle : PersistenceHandle A
  snapshots : List (Snapshot S)
  dumping : List (Snapshot S)
  replica : Option (Replica A S)
  /-- What happened to the log in memory, the latest first. No step reads this. -/
  history : List (LogEvent A)

def Node.resume (config : Config) (here : Nat) (later : Int) (node : Node A S) (r : Replica A S) (st : ReplicaState A S)
    (effects : Effects A S) : Node A S :=
  let handle := effects.writes.foldl PersistenceHandle.write node.handle
  let next := go config here later st
  { node with
    handle := handle
    snapshots := effects.fetched ++ node.snapshots
    dumping := node.dumping ++ effects.dumps
    replica := some
      { state := { next.1 with log := handle.persistentLogCache }
        tasks := r.tasks ++ effects.tasks
        proposer := { r.proposer with mailbox := r.proposer.mailbox ++ effects.proposer ++ next.2 } }
    history := .turned :: effects.writes.foldl (fun history write => .wrote write :: history) node.history }

structure System (A S : Type) where
  nodes : Nat → Node A S
  network : List (Nat × Message A S)
  /-- The memberships that leaders told to clients. -/
  memberships : List (DecreeId × List Nat)
  proposals : List (DecreeId × Value A)
  decided : OrderedMap DecreeId (Value A)
  /-- What happened so far: the entries executed and inserted by each node, the answers given to clients,
  the requests of clients, and the messages that told a status. No step reads these. -/
  executed : List (Nat × Int × Value A)
  inserted : List (Nat × Int × Value A)
  replied : List (Nat × Nat × Bool)
  requested : List (Nat × Event A S)
  advertised : List (Nat × Message A S)

/-- The scheduler's choices. Messages, tasks and dumps are named by their position among those that are waiting. -/
inductive Action (A S : Type) where
  | storeConf (i : Nat) (membership : DecreeId × List Nat)
  | start (i : Nat) (leaseStart now later : Int) (restores : Snapshot S → Bool)
  | die (i : Nat)
  | deliver (index : Nat) (m : Moment)
  | lose (index : Nat)
  | request (i : Nat) (event : Event A S) (m : Moment)
  | persist (i index : Nat)
  | dump (i index : Nat)
  | propose (i : Nat)
  | workerDecided (i : Nat)
  | workerFinished (i : Nat)
  | decide (di : DecreeId) (v : Value A)

namespace Task

def entry : Task A → Int × Value A
  | .commit _ _ di v | .store _ _ di v => (di.decreeNumber, v)
  | .reconf n v => (n, v)

def sends : Task A → List (Message A S)
  | .commit requestStart _ di v => [.Decree requestStart .Stored di v]
  | .store requestStart locale di v => [.Decree requestStart locale di v]
  | .reconf .. => []

def acks : Task A → List Nat
  | .commit _ (.Local κs) _ _ => κs
  | _ => []

end Task

def Write.entries : Write A → List (Int × Value A)
  | .insertInLog n v => [(n, v)]
  | .trimTheLog _ => []

def findSnapshot (machine : StateMachine A S) (restores : Snapshot S → Bool) : List (Snapshot S) → DecreeId × S
  | [] => (⟨0, 0⟩, machine.logInitialize)
  | sn :: xs => if restores sn then (sn.watermark, sn.state) else findSnapshot machine restores xs

def startReplica (machine : StateMachine A S) (here : Nat) (leaseStart0 now : Int) (restores : Snapshot S → Bool)
    (legD0 : DecreeId) (replicas0 : List Nat) (node : Node A S) : Replica A S × List (Nat × Message A S) :=
  let sns := node.snapshots.insertionSort fun a b => b.watermark ≤ a.watermark
  let (w0, s) := findSnapshot machine restores sns
  let log := node.handle.persistentLogMap
  let (legD', replicas') := node.handle.persistentMembershipMap.getD (legD0, replicas0)
  let replicas := if legD0 < legD' then replicas' else replicas0
  let legD := max legD0 legD'
  let last := match log.keys.getLast? with
    | none => w0.decreeNumber
    | some n => n + 1
  let d : DecreeId := { legD with decreeNumber := max initialDecreeId.decreeNumber last }
  let leaseStart0' := if replicas.take 1 = [here] then leaseStart0 else now
  (⟨{ stateLeaseStart := leaseStart0'
      stateReplicas := replicas
      stateLastProposed := none
      stateUnconfirmedDecree := d
      stateCurrentDecree := d
      stateSnapshotDumper := none
      stateSnapshotRef := none
      stateSnapshotWatermark := w0
      stateWatermark := w0
      stateLogState := s
      stateEpoch := legD.decreeLegislatureId
      stateReconfDecree := legD
      log := .empty }, [], ⟨w0, replicas, [], none⟩⟩,
    log.entries.map (fun entry => (here, .Decree 0 .Stored ⟨maxBound, entry.1⟩ entry.2)) ++
      queryMissingFrom here w0.decreeNumber (others here replicas) (log.insert d.decreeNumber (.Values [])))

/-- The first turn of the loop, before any event. -/
def Replica.enter (config : Config) (here : Nat) (later : Int) (r : Replica A S) : Replica A S :=
  let (st, proposals) := go config here later r.state
  { r with state := st, proposer := { r.proposer with mailbox := r.proposer.mailbox ++ proposals } }

namespace System

/-- The group that `new` makes: its nodes know the initial membership. -/
def initial (members : List Nat) : System A S where
  nodes i := ⟨if i ∈ members then some (⟨0, -1⟩, members) else none, ⟨none, .empty, .empty⟩, [], [], none, []⟩
  network := []
  memberships := []
  proposals := []
  decided := .empty
  executed := []
  inserted := []
  replied := []
  requested := []
  advertised := []

def setNode (s : System A S) (i : Nat) (node : Node A S) : System A S := { s with nodes := Function.update s.nodes i node }

def post (s : System A S) (messages : List (Nat × Message A S)) : System A S := { s with network := s.network ++ messages }

def settle (config : Config) (s : System A S) (i : Nat) (later : Int) (r : Replica A S) (st : ReplicaState A S)
    (effects : Effects A S) : System A S :=
  let s' := post (s.setNode i ((s.nodes i).resume config i later r st effects)) effects.sends
  { s' with memberships := s.memberships ++ effects.memberships
            executed := s.executed ++ effects.executed.map fun entry => (i, entry)
            inserted := s.inserted ++ (effects.writes.flatMap Write.entries).map fun entry => (i, entry)
            replied := s.replied ++ effects.replies.map fun reply => (i, reply) }

def handleEvent [DecidableEq A] (config : Config) (machine : StateMachine A S) (s : System A S) (i : Nat) (m : Moment)
    (event : Event A S) : Option (System A S) := do
  let r ← (s.nodes i).replica
  match ← handle config machine i m r.state event with
  | .continues st effects =>
    let s' := s.settle config i m.later r st effects
    match event with
    | .message .Status => pure { s' with advertised := s.advertised ++ effects.sends }
    | _ => pure s'
  | .dies => pure (s.setNode i { s.nodes i with replica := none })

/-- The proposer of a node moved: its messages go to the replica, and its proposal to the protocol. -/
def proposerMoved (s : System A S) (i : Nat) (r : Replica A S) (outcome : Proposer.Outcome A S) : System A S :=
  let s' := post (s.setNode i { s.nodes i with replica := some { r with proposer := outcome.next } })
    (outcome.sends.map fun message => (i, message))
  { s' with proposals := s.proposals ++ outcome.starts }

/-- The events that come from outside: requests of clients, and anyone may ask for the status. The acceptors
answer the query of a recovery with decided values, in ascending order from the watermark on. -/
def fromOutside [DecidableEq A] (s : System A S) (i : Nat) : Event A S → Bool
  | .recover _ _ _ (some dvs) => (s.nodes i).replica.all fun r =>
      decide (dvs.Pairwise (fun a b => a.1 < b.1) ∧ ∀ p ∈ dvs, r.state.stateWatermark ≤ p.1 ∧ s.decided.lookup p.1 = some p.2)
  | .message .Status => true
  | .message _ => false
  | _ => true

def step [DecidableEq A] (config : Config) (machine : StateMachine A S) (s : System A S) : Action A S → Option (System A S)
  | .storeConf i membership =>
    let node := s.nodes i
    if membership ∈ s.memberships ∧ node.config = none ∧ node.replica.isNone then
      some (s.setNode i { node with config := some membership })
    else none
  | .start i leaseStart now later restores =>
    let node := s.nodes i
    match node.config, node.replica with
    | some (legD0, replicas0), none =>
      let started := startReplica machine i leaseStart now restores legD0 replicas0 node
      some (post (s.setNode i { node with handle := { node.handle with persistentLogCache := .empty }
                                          replica := some (started.1.enter config i later)
                                          history := .started :: node.history }) started.2)
    | _, _ => none
  | .die i => some (s.setNode i { s.nodes i with replica := none })
  | .deliver index m => do
    let (i, message) ← s.network[index]?
    handleEvent config machine { s with network := s.network.eraseIdx index } i m (.message message)
  | .lose index => some { s with network := s.network.eraseIdx index }
  | .request i event m =>
    if s.fromOutside i event then
      handleEvent config machine { s with requested := s.requested ++ [(i, event)] } i m event
    else none
  | .persist i index => do
    let node := s.nodes i
    let r ← node.replica
    let task ← r.tasks[index]?
    let s' := post (s.setNode i { node with handle := node.handle.insertInLog task.entry.1 task.entry.2
                                            replica := some { r with tasks := r.tasks.eraseIdx index }
                                            history := .wrote (.insertInLog task.entry.1 task.entry.2) :: node.history })
      (task.sends.map fun message => (i, message))
    some { s' with inserted := s.inserted ++ [(i, task.entry)], replied := s.replied ++ task.acks.map fun κ => (i, κ, true) }
  | .dump i index => do
    let node := s.nodes i
    let sn ← node.dumping[index]?
    some (post (s.setNode i { node with dumping := node.dumping.eraseIdx index, snapshots := sn :: node.snapshots })
      [(i, .Dumped sn.watermark sn)])
  | .propose i => do
    let r ← (s.nodes i).replica
    let outcome ← r.proposer.receive
    some (s.proposerMoved i r outcome)
  | .workerDecided i => do
    let r ← (s.nodes i).replica
    let proposer ← r.proposer.decided s.decided.lookup
    some (s.setNode i { s.nodes i with replica := some { r with proposer := proposer } })
  | .workerFinished i => do
    let r ← (s.nodes i).replica
    let outcome ← r.proposer.finish
    some (s.proposerMoved i r outcome)
  | .decide di v =>
    if (di, v) ∈ s.proposals ∧ s.decided.lookup di = none then some { s with decided := s.decided.insert di v } else none

end System
end Halon.Log
