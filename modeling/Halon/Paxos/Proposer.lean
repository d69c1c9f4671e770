import Halon.Paxos.Acceptor

/-! The calls of the basic protocol: `propose` with its `scout` and `command`
rounds, `sync` and `query`. A call is the state of the calling process between
two messages; each reply moves it on and yields the requests it sends. -/

namespace Halon.Paxos
open Halon.Library

/-- One more than half, the number of positive replies that `expectQuorum` waits for. -/
def quorum (nProc : Nat) : Nat := nProc / 2 + 1

inductive Wait (ε α : Type) where
  | waiting (resps : List α)
  | finished (result : Except ε (List α))

/-- One iteration of `expectQuorum`: a clause's `Left` aborts, its `Right` is
kept in front, and the call ends at the quorum. -/
def expectQuorum {ε α : Type} (nProc : Nat) (resps : List α) : Except ε α → Wait ε α
  | .error e => .finished (.error e)
  | .ok x => if (x :: resps).length = quorum nProc then .finished (.ok (x :: resps)) else .waiting (x :: resps)

/-- A process between two messages of the call it made. Each collected reply is
kept with the acceptor that sent it; the protocol never looks at the sender. -/
inductive Call (N π V : Type) where
  | idle
  | scouting (d : DecreeId) (x : V) (b : BallotId π) (child : Nat) (resps : List (N × List (Ack π V)))
  | commanding (d : DecreeId) (x : V) (b : BallotId π) (child : Nat) (x' : V) (resps : List (N × Unit))
  | returned (d : DecreeId) (x' : V)
  | querying (d : DecreeId) (dvs : List (N × List (Ack π V)))
  | answered (dvs : List (N × List (Ack π V))) (result : List (DecreeId × V))
  | syncing (completed : List (N × List N))
  | synced (completed : List (N × List N))
deriving DecidableEq

variable {N π V : Type} [LinearOrder π]

/-- `scout` matches `Nack` and `Promise`, and leaves other messages in the mailbox. -/
def scoutClauses : Reply N π V → Option (Except (BallotId π) (List (Ack π V)))
  | .nack b' => some (.error b')
  | .promise _ _ acks => some (.ok acks)
  | _ => none

/-- `command` matches `Nack` and `Ack`. -/
def commandClauses : Reply N π V → Option (Except (BallotId π) Unit)
  | .nack b' => some (.error b')
  | .ack _ => some (.ok ())
  | _ => none

namespace Propose
variable (acceptors : List N) (self : π) (d : DecreeId) (x : V)

def scout (b : BallotId π) (child : Nat) : Call N π V × List (N × Request N π V) :=
  (.scouting d x b child [], acceptors.map fun α => (α, .prepare d b ⟨self, child⟩))

def command (b : BallotId π) (x' : V) (child : Nat) : Call N π V × List (N × Request N π V) :=
  (.commanding d x b child x' [], acceptors.map fun α => (α, .syn d b ⟨self, child⟩ x'))

/-- `loop` after `scout`: a preempted proposer moves past the ballot it was told,
otherwise it commands the value the promises force, or its own. -/
def afterScout (b : BallotId π) (child : Nat) : Except (BallotId π) (List (Ack π V)) →
    Call N π V × List (N × Request N π V)
  | .error b' =>
    if b < b' then scout acceptors self d x (nextBallotId { b with ballotProposalId := b'.ballotProposalId }) (child + 1)
    else scout acceptors self d x b (child + 1)
  | .ok xs => command acceptors self d x b ((chooseValue d xs).getD x) (child + 1)

/-- `loop` after `command`: the retry takes over the proposal number it was told. -/
def afterCommand (b : BallotId π) (x' : V) (child : Nat) : Except (BallotId π) Unit →
    Call N π V × List (N × Request N π V)
  | .error b' => scout acceptors self d x { b with ballotProposalId := b'.ballotProposalId } (child + 1)
  | .ok () => (.returned d x', [])

end Propose

def propose (acceptors : List N) (self : π) (d : DecreeId) (x : V) : Call N π V × List (N × Request N π V) :=
  Propose.scout acceptors self d x ⟨0, self⟩ 0

/-- `retry`: when the timeout expires the round starts again in a new child. -/
def timeout (acceptors : List N) (self : π) : Call N π V → Option (Call N π V × List (N × Request N π V))
  | .scouting d x b child _ => some (Propose.scout acceptors self d x b (child + 1))
  | .commanding d x b child x' _ => some (Propose.command acceptors self d x b x' (child + 1))
  | _ => none

/-- `query` in process `self`; its only child sends all the requests. -/
def query (acceptors : List N) (self : π) (d : DecreeId) : Call N π V × List (N × Request N π V) :=
  (.querying d [], acceptors.map fun α => (α, .queryDecrees ⟨self, 0⟩ d))

namespace Query

/-- The votes reported for each decree, all replies together. -/
def reported (dvs : List (List (Ack π V))) : OrderedMap DecreeId (List (Ack π V)) :=
  (dvs.map fun acks => OrderedMap.fromList (acks.map fun a => (a.decree, [a]))).foldl
    (OrderedMap.unionWith (· ++ ·)) .empty

/-- A decree for which a quorum reports votes is answered with the value of the highest. -/
def decideDecree (n : Nat) (entry : DecreeId × List (Ack π V)) : Option (DecreeId × V) :=
  if quorum n ≤ entry.2.length then (chooseValue entry.1 entry.2).map fun v => (entry.1, v) else none

def result (n : Nat) (dvs : List (List (Ack π V))) : List (DecreeId × V) :=
  (reported dvs).entries.filterMap (decideDecree n)

/-- Collect one more reply; the call returns when all acceptors have replied. -/
def collect (n : Nat) (d : DecreeId) (dvs : List (N × List (Ack π V))) : Call N π V :=
  if dvs.length = n then .answered dvs (result n (dvs.map Prod.snd)) else .querying d dvs

end Query

/-- `sync` in process `self`: the child for each acceptor has it advertise to the others. -/
def sync [DecidableEq N] (acceptors : List N) (self : π) : Call N π V × List (N × Request N π V) :=
  if 1 < acceptors.length then
    (.syncing (acceptors.map fun α => (α, [])),
      acceptors.zipIdx.map fun entry => (entry.1, .syncStart ⟨self, entry.2⟩ (acceptors.erase entry.1)))
  else (.synced [], [])

namespace Sync

/-- The child of an acceptor counts half of the acceptors and then takes no more. -/
def count (n : Nat) (child : Nat) (α : N) (completed : List (N × List N)) : List (N × List N) :=
  completed.modify child fun entry => if entry.2.length < n / 2 then (entry.1, entry.2 ++ [α]) else entry

/-- The call returns when every child has reported. -/
def collect (n : Nat) (completed : List (N × List N)) : Call N π V :=
  if completed.all fun entry => n / 2 ≤ entry.2.length then .synced completed else .syncing completed

end Sync

namespace Call

/-- A message from acceptor `source` reaches child `child` of the process. It is
dropped when that child is no longer the one the call waits in. -/
def receive (acceptors : List N) (self : π) (call : Call N π V) (child : Nat) (source : N) (message : Reply N π V) :
    Call N π V × List (N × Request N π V) :=
  let n := acceptors.length
  match call with
  | .scouting d x b current resps =>
    if child = current then
      match scoutClauses message with
      | none => (call, [])
      | some clause =>
        match expectQuorum n resps (clause.map fun acks => (source, acks)) with
        | .waiting resps' => (.scouting d x b current resps', [])
        | .finished result =>
          Propose.afterScout acceptors self d x b current (result.map fun resps' => (resps'.map Prod.snd).flatten)
    else (call, [])
  | .commanding d x b current x' resps =>
    if child = current then
      match commandClauses message with
      | none => (call, [])
      | some clause =>
        match expectQuorum n resps (clause.map fun _ => (source, ())) with
        | .waiting resps' => (.commanding d x b current x' resps', [])
        | .finished result => Propose.afterCommand acceptors self d x b x' current (result.map fun _ => ())
    else (call, [])
  | .querying d dvs =>
    match message with
    | .decrees acks => if child = 0 then (Query.collect n d (dvs ++ [(source, acks)]), []) else (call, [])
    | _ => (call, [])
  | .syncing completed =>
    match message with
    | .syncCompleted α => (Sync.collect n (Sync.count n child α completed), [])
    | _ => (call, [])
  | _ => (call, [])

end Call
end Halon.Paxos
