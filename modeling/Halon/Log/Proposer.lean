import Halon.Log.Types

/-! The proposer of a replica. It makes one proposal at a time, in a worker, and
gives it up when the acceptors change or the watermark passes the proposed decree. -/

namespace Halon.Log

structure Proposer (A : Type) where
  watermark : DecreeId
  acceptors : List Nat
  mailbox : List (ProposerMsg A)
  /-- The request of the running worker, and the worker's result once it has one. -/
  working : Option (ProposerRequest A × Option (Value A))

namespace Proposer
variable {A S : Type}

/-- What the proposer does with a message: its next state, what it sends to the replica, and the proposal it starts. -/
structure Outcome (A S : Type) where
  next : Proposer A
  sends : List (Message A S) := []
  starts : List (DecreeId × Value A) := []

/-- The first message in the mailbox that is not a request, and the others. -/
def takeUpdate : List (ProposerMsg A) → Option (ProposerMsg A × List (ProposerMsg A))
  | [] => none
  | .request r :: rest => (takeUpdate rest).map fun found => (found.1, .request r :: found.2)
  | update :: rest => some (update, rest)

/-- Give the proposal up, unless the worker was faster. An abandoned request is
tried again, or returned to the replica if the watermark is beyond it. -/
def abort (p : Proposer A) (r : ProposerRequest A) (result : Option (Value A)) : Outcome A S :=
  match result with
  | some v' => { next := { p with working := none }, sends := [.Passed v' r] }
  | none =>
    if p.watermark ≤ r.prDecree then { next := { p with mailbox := p.mailbox ++ [.request r], working := none } }
    else { next := { p with working := none }, sends := [.Rejected r] }

/-- Handle the next message. While a worker runs, requests have to wait. -/
def receive (p : Proposer A) : Option (Outcome A S) :=
  match p.working with
  | none =>
    match p.mailbox with
    | [] => none
    | .request r :: rest =>
      if r.prDecree < p.watermark then some { next := { p with mailbox := rest }, sends := [.Rejected r] }
      else some { next := { p with mailbox := rest, working := some (r, none) },
                  starts := [(r.prDecree, r.prRequest.requestValue)] }
    | .acceptors αs' :: rest => some { next := { p with acceptors := αs', mailbox := rest } }
    | .watermark w' :: rest => some { next := { p with watermark := max p.watermark w', mailbox := rest } }
  | some (r, result) =>
    match takeUpdate p.mailbox with
    | some (.acceptors αs', rest) => some (abort { p with acceptors := αs', mailbox := rest } r result)
    | some (.watermark w', rest) =>
      if w' ≤ r.prDecree then some { next := { p with mailbox := rest } }
      else some (abort { p with watermark := w', mailbox := rest } r result)
    | _ => none

def decided (p : Proposer A) (value : DecreeId → Option (Value A)) : Option (Proposer A) :=
  match p.working with
  | some (r, none) => (value r.prDecree).map fun v => { p with working := some (r, some v) }
  | _ => none

def finish (p : Proposer A) : Option (Outcome A S) :=
  match p.working with
  | some (r, some v') => some { next := { p with working := none }, sends := [.Passed v' r] }
  | _ => none

end Proposer
end Halon.Log
