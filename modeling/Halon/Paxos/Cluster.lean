import Halon.Paxos.AsyncStore
import Halon.Paxos.System

/-! Acceptors over persistent stores, and processes that propose again and again, each time to
acceptors of their choice. Stores have any contents at the start, and acceptors start again from
them. Anyone may ask the acceptors to synchronise, to trim or to tell their decrees. -/

namespace Halon.Paxos
open Halon.Library

/-- A process that proposes, with the acceptors of its last call and the number of children it has had. -/
structure Caller (N π V : Type) where
  acceptors : List N
  call : Call N π V
  children : Nat

structure Cluster (N π V : Type) where
  acceptors : N → Async N π V
  callers : π → Caller N π V
  requests : List (N × Request N π V)
  replies : List (Letter N π V)
  /-- The arguments of the calls of `propose`, and what the calls have returned. No step reads these. -/
  proposed : List (DecreeId × V)
  returned : List (DecreeId × V)

namespace Cluster
variable {N π V : Type} [DecidableEq N] [LinearOrder π]

/-- The scheduler's choices. Messages and tasks are named by their position among those that are waiting. -/
inductive Action (N π V : Type) where
  | propose (p : π) (acceptors : List N) (d : DecreeId) (x : V)
  | abandon (p : π)
  | timeout (p : π)
  | ask (α : N) (request : Request N π V)
  | receiveRequest (index : Nat)
  | work (α : N) (index : Nat)
  | receiveReply (index : Nat)
  | restart (α : N) (startDecree : DecreeId)

def start (startDecree : N → DecreeId) (stores : N → Store π V) : Cluster N π V where
  acceptors α := .start (startDecree α) (stores α)
  callers _ := ⟨[], .idle, 0⟩
  requests := []
  replies := []
  proposed := []
  returned := []

/-- What begins a synchronisation or a query, and trims. -/
def fromOutside : Request N π V → Bool
  | .syncStart _ _ | .trim _ | .queryDecrees _ _ => true
  | _ => false

/-- An acceptor moves to a new state, and the messages that it has sent with this enter the network. -/
def settle (s : Cluster N π V) (α : N) (next : Async N π V) : Cluster N π V :=
  let messages := (next.sent.drop (s.acceptors α).sent.length).map Prod.snd
  { s with
    acceptors := Function.update s.acceptors α next
    requests := s.requests ++ System.sentRequests messages
    replies := s.replies ++ System.sentReplies α messages }

/-- A process enters a new state of its call and sends the requests that go with it. -/
def advance (s : Cluster N π V) (p : π) (next : Call N π V × List (N × Request N π V)) : Cluster N π V :=
  let caller := s.callers p
  let children := match next.1 with
    | .scouting _ _ _ child _ | .commanding _ _ _ child _ _ => child + 1
    | _ => caller.children
  { s with
    callers := Function.update s.callers p { caller with call := next.1, children := children }
    requests := s.requests ++ next.2
    returned := s.returned ++ match caller.call, next.1 with
      | .commanding .., .returned d x' => [(d, x')]
      | _, _ => [] }

def step (s : Cluster N π V) : Action N π V → Option (Cluster N π V)
  | .propose p acceptors d x =>
    let caller := s.callers p
    let s' := { s with callers := Function.update s.callers p { caller with acceptors := acceptors }
                       proposed := s.proposed ++ [(d, x)] }
    match caller.call with
    | .idle | .returned .. => some (s'.advance p (Propose.scout acceptors p d x ⟨0, p⟩ caller.children))
    | _ => none
  | .abandon p => some { s with callers := Function.update s.callers p { s.callers p with call := .idle } }
  | .timeout p => (Halon.Paxos.timeout (s.callers p).acceptors p (s.callers p).call).map (s.advance p)
  | .ask α request => if fromOutside request then some { s with requests := s.requests ++ [(α, request)] } else none
  | .receiveRequest index => do
    let (α, request) ← s.requests[index]?
    let next ← (s.acceptors α).step α (.receive request)
    some (settle { s with requests := s.requests.eraseIdx index } α next)
  | .work α index => do
    let next ← (s.acceptors α).step α (.work index)
    some (s.settle α next)
  | .receiveReply index => do
    let letter ← s.replies[index]?
    let p := letter.receiver.parent
    some (advance { s with replies := s.replies.eraseIdx index } p
      ((s.callers p).call.receive (s.callers p).acceptors p letter.receiver.child letter.source letter.message))
  | .restart α startDecree =>
    some { s with acceptors := Function.update s.acceptors α (.start startDecree (s.acceptors α).store) }

end Cluster
end Halon.Paxos
