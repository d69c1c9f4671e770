import Halon.Library.Runs
import Halon.Paxos.Proposer

/-! A group of acceptors and the processes that call the protocol. Messages in
flight are delivered in any order or never; a delivered message is gone. Store
operations take effect at once. What was ever sent is kept, and read by no step. -/

namespace Halon.Paxos
open Halon.Library

/-- The acceptors of a protocol instance, each with its own name. -/
structure AcceptorGroup (N : Type) where
  acceptors : List N
  distinct : acceptors.Nodup

structure Letter (N π V : Type) where
  source : N
  receiver : ReplyTo π
  message : Reply N π V
deriving DecidableEq

structure System (N π V : Type) where
  acceptors : N → Acceptor π V
  calls : π → Call N π V
  requests : List (N × Request N π V)
  replies : List (Letter N π V)
  requested : List (N × Request N π V)
  replied : List (Letter N π V)

/-- The scheduler's choices. Requests and replies are named by their position among those in flight. -/
inductive Action (N π V : Type) where
  | propose (p : π) (d : DecreeId) (x : V)
  | query (p : π) (d : DecreeId)
  | sync (p : π)
  | release (α : N) (d : DecreeId)
  | restart (α : N) (startDecree : DecreeId)
  | timeout (p : π)
  | receiveRequest (index : Nat)
  | receiveReply (index : Nat)

namespace System
variable {N π V : Type} [DecidableEq N] [LinearOrder π]

def initial (startDecree : N → DecreeId) : System N π V where
  acceptors α := .start (startDecree α) .empty
  calls _ := .idle
  requests := []
  replies := []
  requested := []
  replied := []

def post (system : System N π V) (requests : List (N × Request N π V)) : System N π V :=
  { system with requests := system.requests ++ requests, requested := system.requested ++ requests }

def answer (system : System N π V) (replies : List (Letter N π V)) : System N π V :=
  { system with replies := system.replies ++ replies, replied := system.replied ++ replies }

def advance (system : System N π V) (p : π) (next : Call N π V × List (N × Request N π V)) : System N π V :=
  post { system with calls := Function.update system.calls p next.1 } next.2

def sentRequests (messages : List (Send N π V)) : List (N × Request N π V) :=
  messages.filterMap fun
    | .request receiver message => some (receiver, message)
    | .reply _ _ => none

def sentReplies (source : N) (messages : List (Send N π V)) : List (Letter N π V) :=
  messages.filterMap fun
    | .reply receiver message => some ⟨source, receiver, message⟩
    | .request _ _ => none

/-- An acceptor moves to a new state and its messages enter the network. -/
def settle (system : System N π V) (α : N) (next : Acceptor π V × List (Send N π V)) : System N π V :=
  answer (post { system with acceptors := Function.update system.acceptors α next.1 } (sentRequests next.2))
    (sentReplies α next.2)

def dropRequest (system : System N π V) (index : Nat) : System N π V :=
  { system with requests := system.requests.eraseIdx index }

def dropReply (system : System N π V) (index : Nat) : System N π V :=
  { system with replies := system.replies.eraseIdx index }

def begin (system : System N π V) (p : π) (next : Call N π V × List (N × Request N π V)) : Option (System N π V) :=
  match system.calls p with
  | .idle => some (system.advance p next)
  | _ => none

def step (group : AcceptorGroup N) (system : System N π V) : Action N π V → Option (System N π V)
  | .propose p d x => system.begin p (propose group.acceptors p d x)
  | .query p d => system.begin p (query group.acceptors p d)
  | .sync p => system.begin p (sync group.acceptors p)
  | .release α d => some (system.post [(α, .trim d)])
  | .restart α startDecree =>
    let restarted := Acceptor.start startDecree (system.acceptors α).store
    some { system with acceptors := Function.update system.acceptors α restarted }
  | .timeout p => (timeout group.acceptors p (system.calls p)).map (system.advance p)
  | .receiveRequest index =>
    system.requests[index]?.map fun (α, request) =>
      (system.dropRequest index).settle α ((system.acceptors α).receive α request)
  | .receiveReply index =>
    system.replies[index]?.map fun letter =>
      (system.dropReply index).advance letter.receiver.parent
        ((system.calls letter.receiver.parent).receive group.acceptors letter.receiver.parent letter.receiver.child
          letter.source letter.message)

end System
end Halon.Paxos
