import Halon.Decrees
import Halon.Library.OrderedMap

/-! The replicated log: values, requests, the messages between replicas, and the
state of a replica. Values of the log have type `A`, states of the replicated
state machine type `S`. Nodes and client processes are numbered; a replica is
known by its node. -/

namespace Halon.Log
open Library

/-- The highest legislature. Decrees whose legislature is not known are teleported there. -/
def maxBound : Int := 9223372036854775807

inductive Value (A : Type) where
  | Values (xs : List A)
  | Reconf (leg : Int) (rs : List Nat)
deriving DecidableEq, Repr

def isReconf {A : Type} : Value A → Bool
  | .Reconf .. => true
  | .Values _ => false

inductive Hint where
  | None
  | Idempotent
  | Nullipotent
deriving DecidableEq, Repr

structure Request (A : Type) where
  requestSender : List Nat
  requestValue : Value A
  requestHint : Hint
deriving DecidableEq

structure ProposerRequest (A : Type) where
  prDecree : DecreeId
  prFromBatcher : Bool
  prStart : Int
  prRequest : Request A

structure BatcherMsg (A : Type) where
  batcherMsgAmbassador : Nat
  batcherMsgEpoch : Int
  batcherMsgRequest : Request A

/-- Whether a decree is to be acknowledged to the clients that asked for it. -/
inductive Locale where
  | Local (clients : List Nat)
  | Remote
  | Stored
deriving DecidableEq, Repr

/-- A saved state, with the next decree to execute in it. References to snapshots are the snapshots themselves. -/
structure Snapshot (S : Type) where
  watermark : DecreeId
  state : S

/-- Messages to a replica from other replicas, from its proposer and dumper, and from itself. -/
inductive Message (A S : Type) where
  | Decree (requestStart : Int) (locale : Locale) (di : DecreeId) (v : Value A)
  | Query (ρ : Nat) (n : Int)
  | Max (ρ : Nat) (d legD : DecreeId) (epoch : Int) (ρs : List Nat)
  | SnapshotInfo (ρs : List Nat) (legD : DecreeId) (epoch : Int) (sref : Snapshot S) (w0 : DecreeId) (n : Int)
  | Status
  | Dumped (w0 : DecreeId) (sref : Snapshot S)
  | Passed (vi : Value A) (r : ProposerRequest A)
  | Rejected (r : ProposerRequest A)

/-- What a replica waits for: messages, its lease timer, and requests of clients. A
recovery comes with what the acceptors answered to the query it makes, if they did. -/
inductive Event (A S : Type) where
  | message (m : Message A S)
  | leaseRenewalTime
  | batch (rs : List (BatcherMsg A))
  | membershipQuery
  | recover (e : Int) (π : Nat) (ρs : List Nat) (edvs : Option (List (DecreeId × Value A)))

inductive ProposerMsg (A : Type) where
  | request (r : ProposerRequest A)
  | acceptors (αs : List Nat)
  | watermark (w : DecreeId)

inductive Task (A : Type) where
  | commit (requestStart : Int) (locale : Locale) (di : DecreeId) (v : Value A)
  | store (requestStart : Int) (locale : Locale) (di : DecreeId) (v : Value A)
  | reconf (n : Int) (v : Value A)

inductive Write (A : Type) where
  | insertInLog (n : Int) (v : Value A)
  | trimTheLog (w0 : Int)
deriving DecidableEq

structure Config where
  leaseTimeout : Int
  driftSafetyNumerator : Int
  driftSafetyDenominator : Int
  snapshotPolicy : Int → Bool

structure StateMachine (A S : Type) where
  logInitialize : S
  logNextState : S → A → S

structure ReplicaState (A S : Type) where
  stateLeaseStart : Int
  stateReplicas : List Nat
  stateLastProposed : Option DecreeId
  stateUnconfirmedDecree : DecreeId
  stateCurrentDecree : DecreeId
  /-- A running dumper is known by the watermark of the snapshot that it saves. -/
  stateSnapshotDumper : Option DecreeId
  stateSnapshotRef : Option (Snapshot S)
  stateSnapshotWatermark : DecreeId
  stateWatermark : DecreeId
  stateLogState : S
  stateEpoch : Int
  stateReconfDecree : DecreeId
  /-- The log in memory, as it was when the replica began to wait for an event. -/
  log : OrderedMap Int (Value A)

structure Effects (A S : Type) where
  sends : List (Nat × Message A S) := []
  proposer : List (ProposerMsg A) := []
  tasks : List (Task A) := []
  writes : List (Write A) := []
  dumps : List (Snapshot S) := []
  /-- Snapshots that were fetched from another node and are now available on this one. -/
  fetched : List (Snapshot S) := []
  replies : List (Nat × Bool) := []
  memberships : List (DecreeId × List Nat) := []
  executed : List (Int × Value A) := []

end Halon.Log
