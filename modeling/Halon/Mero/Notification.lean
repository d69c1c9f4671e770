import Halon.Library.OrderedMap

/-! Notifications that are sent to the processes of Mero over their links, and the callbacks
kept until Mero says what became of them. An event of the interface is handled as a whole:
the handlers hold the lock on the links while they change them. -/

namespace Halon.Mero
open Library

structure Notification (Link : Type) where
  call : Nat
  link : Link
deriving DecidableEq, Repr

/-- A callback is known by the notifications that it was made for. Joined callbacks run one after another. -/
abbrev Callback (Link : Type) := List (Notification Link)

inductive Outcome where
  | ok
  | fail
deriving DecidableEq, Repr

/-- An action of a call was run for a process. Without a link, the process had none at the call. -/
structure Ran (Link Fid : Type) where
  call : Nat
  link : Option Link
  outcome : Outcome
  fid : Fid
deriving DecidableEq, Repr

structure NIRef (Link ReqId Fid : Type) [LT Link] [LT ReqId] where
  niLinks : OrderedMap Link (OrderedMap Nat (Callback Link))
  niRequests : OrderedMap ReqId Fid
  niInfo : OrderedMap Link Fid
  calls : Nat
  ran : List (Ran Link Fid)

inductive HAEvent (Link ReqId Fid : Type) where
  | entrypoint (req : ReqId) (procFid : Fid)
  | connected (req : ReqId) (link : Link)
  | reused (req : ReqId) (link : Link)
  | disconnecting (link : Link)
  | disconnected (link : Link)
  | delivered (link : Link) (tag : Nat)
  | cancelled (link : Link) (tag : Nat)
  | processEventSet (link : Link) (stopped : Bool)
  | notifyMero (fids : List Fid) (tags : Link → Nat)

variable {Link ReqId Fid : Type} [LinearOrder Link]

/-- Run a callback. The process is the one that the link belongs to at this time. -/
def Callback.run (info : OrderedMap Link Fid) (outcome : Outcome) (callback : Callback Link) : List (Ran Link Fid) :=
  callback.filterMap fun notification =>
    (info.lookup notification.link).map fun fid => ⟨notification.call, some notification.link, outcome, fid⟩

namespace NIRef
variable [LinearOrder ReqId] [DecidableEq Fid]

def start : NIRef Link ReqId Fid := ⟨.empty, .empty, .empty, 0, []⟩

section Events
variable (s : NIRef Link ReqId Fid)

def haEntrypoint (req : ReqId) (procFid : Fid) : NIRef Link ReqId Fid :=
  { s with niRequests := s.niRequests.insert req procFid }

/-- The callbacks of a link that is connected again are kept. -/
def haConnected (req : ReqId) (link : Link) : NIRef Link ReqId Fid :=
  let s' := { s with niRequests := s.niRequests.delete req }
  match s.niRequests.lookup req with
  | none => s'
  | some fid =>
    { s' with
      niInfo := s.niInfo.insert link fid
      niLinks := s.niLinks.insertWith (OrderedMap.unionWith fun new _ => new) link .empty }

def haReused (req : ReqId) : NIRef Link ReqId Fid := { s with niRequests := s.niRequests.delete req }

def haDisconnecting (link : Link) : NIRef Link ReqId Fid :=
  { s with niInfo := s.niInfo.delete link, niLinks := s.niLinks.delete link }

def haDisconnected (link : Link) : NIRef Link ReqId Fid :=
  { s with niInfo := s.niInfo.delete link, niLinks := s.niLinks.delete link }

/-- The callback under a tag is taken out and run. -/
def settle (outcome : Outcome) (link : Link) (tag : Nat) : NIRef Link ReqId Fid :=
  let callback := (s.niLinks.lookup link).bind (·.lookup tag)
  { s with
    niLinks := s.niLinks.adjust (·.delete tag) link
    ran := s.ran ++ (callback.map (Callback.run s.niInfo outcome)).getD [] }

def haDelivered : Link → Nat → NIRef Link ReqId Fid := s.settle .ok

def haCancelled : Link → Nat → NIRef Link ReqId Fid := s.settle .fail

/-- The callbacks of a stopped process are run when its link is no longer known. -/
def haProcessEventSet (link : Link) (stopped : Bool) : NIRef Link ReqId Fid :=
  if stopped then
    let info := s.niInfo.delete link
    let callbacks := ((s.niLinks.lookup link).map (·.entries.map Prod.snd)).getD []
    { s with
      niInfo := info
      niLinks := s.niLinks.delete link
      ran := s.ran ++ callbacks.flatMap (Callback.run info .ok) }
  else s

/-- Send on every link; the tags are what Mero answers. A process that has no link has failed at once. -/
def notifyMero (fids : List Fid) (tags : Link → Nat) : NIRef Link ReqId Fid :=
  let sent := s.niLinks.mapWithKey fun link _ => OrderedMap.empty.insert (tags link) [⟨s.calls, link⟩]
  let known := s.niInfo.entries.map Prod.snd
  { s with
    niLinks := s.niLinks.unionWith (OrderedMap.unionWith (· ++ ·)) sent
    calls := s.calls + 1
    ran := s.ran ++ (fids.filter fun fid => decide (fid ∉ known)).map fun fid => ⟨s.calls, none, .fail, fid⟩ }

def handle : HAEvent Link ReqId Fid → NIRef Link ReqId Fid
  | .entrypoint req procFid => s.haEntrypoint req procFid
  | .connected req link => s.haConnected req link
  | .reused req _ => s.haReused req
  | .disconnecting link => s.haDisconnecting link
  | .disconnected link => s.haDisconnected link
  | .delivered link tag => s.haDelivered link tag
  | .cancelled link tag => s.haCancelled link tag
  | .processEventSet link stopped => s.haProcessEventSet link stopped
  | .notifyMero fids tags => s.notifyMero fids tags

end Events

def step (s : NIRef Link ReqId Fid) (event : HAEvent Link ReqId Fid) : Option (NIRef Link ReqId Fid) := some (s.handle event)

end NIRef
end Halon.Mero
