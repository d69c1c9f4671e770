import Halon.Library.Batching
import Halon.Library.Effects
import Halon.Log.Types

/-! The batcher of a replica. It rejects the requests that clients made in an old epoch,
and submits the other ones to the replica, a limited amount at a time. -/

namespace Halon.Log
open Library

/-- A request as ambassadors send it: the ambassador, the epoch that it knows, and the request of the client. -/
abbrev ClientRequest (A : Type) := Nat × Int × Request A

inductive BatcherSend (A : Type) where
  | membership (μ : Nat) (epoch : Int) (ρs : List Nat)
  | reply (client : Nat) (ok : Bool)
  | batch (rs : List (BatcherMsg A))

structure BatcherWorld (A : Type) where
  /-- The epochs and memberships in the mailbox of the batcher, in the order of their arrival. -/
  updates : List (Int × List Nat)
  /-- How many acknowledgements of the replica are in the mailbox. -/
  acks : Nat
  sent : List (BatcherSend A)

/-- Why the batcher does not return: it waits for a message that does not come. -/
inductive BatcherError where
  | blocked
deriving DecidableEq

namespace Batcher
variable {A : Type}

abbrev BatcherM (A : Type) := Process (BatcherWorld A) BatcherError

def usend (m : BatcherSend A) : BatcherM A Unit := modify fun w => { w with sent := w.sent ++ [m] }

def expect : BatcherM A Unit := do
  match (← get).acks with
  | 0 => throw .blocked
  | acks + 1 => modify fun w => { w with acks }

/-- Unless there are none, send requests to the replica, which acknowledges those that it answers, and wait for it. -/
def submit (answered : List (BatcherMsg A) → Bool) (rs : List (BatcherMsg A)) : BatcherM A Unit :=
  if rs.isEmpty then pure () else do
    usend (.batch rs)
    modify fun w => { w with acks := w.acks + (answered rs).toNat }
    expect

/-- The last of the epochs that are received. -/
def latest (s : Int × List Nat) : List (Int × List Nat) → Int × List Nat
  | [] => s
  | s :: updates => latest s updates

def receiveUpdates (s0 : Int × List Nat) : BatcherM A (Int × List Nat) :=
  modifyGet fun w => (latest s0 w.updates, { w with updates := [] })

def toBatcherMsg : ClientRequest A → BatcherMsg A
  | (a, e, r) => ⟨a, e, r⟩

def isNullipotent (m : BatcherMsg A) : Bool := m.batcherMsgRequest.requestHint = .Nullipotent

def isReconfiguration (m : BatcherMsg A) : Bool := isReconf m.batcherMsgRequest.requestValue

def maxBatchSize : Nat := 128 * 1024

def sendRound (answered : List (BatcherMsg A) → Bool) (rs : List (ClientRequest A)) : BatcherM A Unit := do
  let (nps, other0) := (rs.map toBatcherMsg).partition isNullipotent
  let (rcfgs, other) := other0.partition isReconfiguration
  -- Only the last configuration request of the round is submitted.
  submit answered rcfgs.getLast?.toList
  submit answered other
  -- Nullipotent requests come after all others.
  submit answered nps

/-- Pick requests until the size of their encoding exceeds a threshold, and at least one, and go on with the rest. -/
def sendRounds (encoded : ClientRequest A → Nat) (answered : List (BatcherMsg A) → Bool) (rs2 : List (ClientRequest A)) :
    BatcherM A Unit :=
  if _ : rs2 = [] then pure () else do
    sendRound answered (takeBatch encoded maxBatchSize rs2).1
    sendRounds encoded answered (takeBatch encoded maxBatchSize rs2).2
termination_by rs2.length
decreasing_by exact takeBatch_shorter (by assumption)

def sendBatch (encoded : ClientRequest A → Nat) (answered : List (BatcherMsg A) → Bool) (s0 : Int × List Nat)
    (rs0 : List (ClientRequest A)) : BatcherM A (Int × List Nat) := do
  let (epoch, ρs) ← receiveUpdates s0
  let (rs1, withOldEpoch) := rs0.partition fun request => epoch ≤ request.2.1
  (withOldEpoch.map Prod.fst).eraseDups.forM fun μ => usend (.membership μ epoch ρs)
  withOldEpoch.forM fun request => request.2.2.requestSender.forM fun client => usend (.reply client false)
  sendRounds encoded answered rs1
  pure (epoch, ρs)

end Batcher
end Halon.Log
