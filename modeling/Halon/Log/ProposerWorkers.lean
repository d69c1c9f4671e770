import Halon.Library.Mailbox
import Halon.Library.Runs
import Halon.Log.Proposer

/-! The process of a proposer and the workers that it spawns, at the level of their messages
and of the variable that each worker shares with the proposer. The state that the consensus
protocol keeps between proposals has type `P`. -/

namespace Halon.Log
open Library

/-- What is in the mailbox of the proposer. Requests carry the number with which they were sent and
notifications that of their worker, which tells apart messages that are alike to the proposer. -/
inductive Mail (A : Type) where
  | request (id : Nat) (r : ProposerRequest A)
  | acceptors (αs : List Nat)
  | watermark (w : DecreeId)
  | notification (k : Nat)

namespace Mail
variable {A : Type}

def isRequest : Mail A → Bool
  | .request .. => true
  | _ => false

def isNotification : Mail A → Bool
  | .notification _ => true
  | _ => false

end Mail

/-- The variable that holds the result of a proposal. The proposer puts an undefined value to block the result. -/
inductive Content (A P : Type) where
  | empty
  | undefined
  | result (v : Value A) (s : P)

inductive WorkerStage (A P : Type) where
  | proposing
  | putting (v : Value A) (s : P)
  | notifying
  | ended

structure Worker (A P : Type) where
  /-- What the worker proposes: the acceptors, the decree, the value and the state of the protocol. -/
  proposal : List Nat × DecreeId × Value A × P
  mv : Content A P
  stage : WorkerStage A P
  /-- The proposer has told the worker to exit. -/
  exited : Bool
  /-- What the proposal gave. No step reads this. -/
  outcome : Option (Value A × P)

/-- What a worker does. Its proposal gives a result or ends with an exception. -/
inductive WorkerAction (A P : Type) where
  | proposed (v : Value A) (s : P)
  | fails
  | put
  | notify
  | exits

/-- A worker notifies the proposer only if it could put its result. -/
def Worker.step {A P : Type} (worker : Worker A P) : WorkerAction A P → Option (Worker A P)
  | .proposed v s =>
    match worker.stage with
    | .proposing => some { worker with stage := .putting v s, outcome := some (v, s) }
    | _ => none
  | .fails =>
    match worker.stage with
    | .proposing => some { worker with stage := .ended }
    | _ => none
  | .put =>
    match worker.stage, worker.mv with
    | .putting v s, .empty => some { worker with mv := .result v s, stage := .notifying }
    | .putting .., _ => some { worker with stage := .ended }
    | _, _ => none
  | .notify =>
    match worker.stage with
    | .notifying => some { worker with stage := .ended }
    | _ => none
  | .exits => if worker.exited then some { worker with stage := .ended } else none

def WorkerAction.sends {A P : Type} (k : Nat) : WorkerAction A P → List (Mail A)
  | .notify => [.notification k]
  | _ => []

/-- A request that is being handled, and its worker. -/
structure Handling (A : Type) where
  id : Nat
  r : ProposerRequest A
  worker : Nat

/-- Where the proposer stands. It waits for messages; it waits with a running worker; it tries to block the
result of the worker; it consumes the notification of a worker that was faster; or it knows how the proposal
ended. In the last three, `αs` and `w` are those it will go on with. -/
inductive ProposerStage (A : Type) where
  | waiting
  | handling (h : Handling A)
  | clearing (h : Handling A) (αs : List Nat) (w : DecreeId)
  | expecting (h : Handling A) (αs : List Nat) (w : DecreeId)
  | concluding (h : Handling A) (αs : List Nat) (w : DecreeId) (blocked : Bool)

inductive Ending (A : Type) where
  | passed (v : Value A)
  | rejected
  | again

/-- A message about a request: the first two endings are sent to the replica, and `again` to the proposer
itself. With it stand the worker of the request, if there was one, and the watermark that the proposer had then. -/
structure Answer (A : Type) where
  id : Nat
  r : ProposerRequest A
  worker : Option Nat
  w : DecreeId
  ending : Ending A

structure ProposerProcess (A P : Type) where
  w : DecreeId
  s : P
  αs : List Nat
  mailbox : List (Mail A)
  stage : ProposerStage A
  workers : List (Worker A P)
  answers : List (Answer A)
  /-- How many requests were sent to the proposer, and those it has taken up. No step reads the second. -/
  submitted : Nat
  taken : List (Nat × ProposerRequest A)

namespace ProposerProcess
variable {A P : Type}

def initial (w : DecreeId) (s : P) (αs : List Nat) : ProposerProcess A P := ⟨w, s, αs, [], .waiting, [], [], 0, []⟩

/-- Take up a request. If the watermark is beyond its decree, it goes back to the replica at once. -/
def take (p : ProposerProcess A P) (id : Nat) (r : ProposerRequest A) : ProposerProcess A P :=
  if r.prDecree < p.w then
    { p with answers := p.answers ++ [⟨id, r, none, p.w, .rejected⟩], taken := p.taken ++ [(id, r)] }
  else
    { p with
      stage := .handling ⟨id, r, p.workers.length⟩
      workers := p.workers ++ [⟨(p.αs, r.prDecree, r.prRequest.requestValue, p.s), .empty, .proposing, false, none⟩]
      taken := p.taken ++ [(id, r)] }

def finish (p : ProposerProcess A P) (h : Handling A) (αs : List Nat) (w : DecreeId) (ending : Ending A) (s : P)
    (worker : Worker A P) : ProposerProcess A P :=
  { p with
    w := w, s := s, αs := αs, stage := .waiting
    mailbox := match ending with
      | .again => p.mailbox ++ [.request h.id h.r]
      | _ => p.mailbox
    workers := p.workers.set h.worker worker
    answers := p.answers ++ [⟨h.id, h.r, some h.worker, w, ending⟩] }

def proceed (p : ProposerProcess A P) : Option (ProposerProcess A P) :=
  match p.stage with
  | .waiting =>
    match takeFirst (fun m => !m.isNotification) p.mailbox with
    | some (.request id r, rest) => some (take { p with mailbox := rest } id r)
    | some (.acceptors αs', rest) => some { p with mailbox := rest, αs := αs' }
    | some (.watermark w', rest) => some { p with mailbox := rest, w := max p.w w' }
    | _ => none
  | .handling h =>
    match takeFirst (fun m => !m.isRequest) p.mailbox with
    | some (.notification _, rest) => some { p with mailbox := rest, stage := .concluding h p.αs p.w false }
    | some (.acceptors αs', rest) => some { p with mailbox := rest, stage := .clearing h αs' p.w }
    | some (.watermark w', rest) =>
      if w' ≤ h.r.prDecree then some { p with mailbox := rest }
      else some { p with mailbox := rest, stage := .clearing h p.αs w' }
    | _ => none
  | .clearing h αs' w' => do
    let worker ← p.workers[h.worker]?
    match worker.mv with
    | .empty => some { p with workers := p.workers.set h.worker { worker with mv := .undefined }
                              stage := .concluding h αs' w' true }
    | _ => some { p with stage := .expecting h αs' w' }
  | .expecting h αs' w' =>
    match takeFirst Mail.isNotification p.mailbox with
    | some (_, rest) => some { p with mailbox := rest, stage := .concluding h αs' w' false }
    | none => none
  | .concluding h αs' w' true => do
    let worker ← p.workers[h.worker]?
    some (finish p h αs' w' (if w' ≤ h.r.prDecree then .again else .rejected) p.s { worker with exited := true })
  | .concluding h αs' w' false => do
    let worker ← p.workers[h.worker]?
    match worker.mv with
    | .result v' s' => some (finish p h αs' w' (.passed v') s' { worker with mv := .empty })
    | _ => none

/-- The scheduler's choices. Workers are named by the order in which they were spawned. -/
inductive Action (A P : Type) where
  | request (r : ProposerRequest A)
  | acceptors (αs : List Nat)
  | watermark (w : DecreeId)
  | proceed
  | work (k : Nat) (action : WorkerAction A P)

def post (p : ProposerProcess A P) (messages : List (Mail A)) : ProposerProcess A P :=
  { p with mailbox := p.mailbox ++ messages }

def step (p : ProposerProcess A P) : Action A P → Option (ProposerProcess A P)
  | .request r => some { p.post [.request p.submitted r] with submitted := p.submitted + 1 }
  | .acceptors αs => some (p.post [.acceptors αs])
  | .watermark w => some (p.post [.watermark w])
  | .proceed => p.proceed
  | .work k action => do
    let worker ← p.workers[k]?
    let next ← worker.step action
    some { p.post (action.sends k) with workers := p.workers.set k next }

end ProposerProcess
end Halon.Log
