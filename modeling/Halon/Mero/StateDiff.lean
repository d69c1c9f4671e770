import Mathlib.Algebra.Order.Ring.Int
import Halon.Mero.State

/-! Notifications to Mero. A state diff is kept in the graph, joined to the processes
that must hear of it, until each has answered or the time is up; then it is announced.
Epochs are counted without bound. -/

namespace Halon.Mero
open Library

structure NotificationMessage where
  notificationEpoch : Nat
  notificationMessage : List Note
  notificationRecipients : List Fid
deriving DecidableEq, Repr

structure Notified where
  epoch : Nat
  message : InternalObjectStateChangeMsg
  okProcesses : List ConfObj
  failProcesses : List ConfObj
  timeoutProcesses : List ConfObj
deriving DecidableEq, Repr

inductive Effect where
  | performNotification (nid : NodeId) (message : NotificationMessage)
  | promulgate (message : Notified)
  | awaitTimeout (epoch : Nat)
deriving DecidableEq, Repr

inductive Service where
  | m0d
  | other (name : String)
deriving DecidableEq, Repr

/-- The messages that the rules of this part of the coordinator wait for. State sets come from all other rules. -/
inductive Event where
  | NotificationAck (epoch : Nat) (fid : Fid)
  | NotificationFailure (epoch : Nat) (fid : Fid)
  | EpochTimeout (epoch : Nat)
  | ServiceFailed (node : NodeId) (svc : Service)
  | ServiceExit (node : NodeId) (svc : Service)
  | ServiceUncaughtException (node : NodeId) (svc : Service)
  | stateSets (ss : List AnyStateSet)

structure LoopState (K V : Type) [LinearOrder K] [LinearOrder V] where
  lsGraph : RG K V
  performed : List Effect

section Order

def fidToFidType (f : Fid) : Nat := f.f_container / 2 ^ 56 * 2 ^ 56

def confToFidType (letter : Char) : Nat := letter.toNat * 2 ^ 56

/-- Controllers are told first, then disks and storage devices. -/
def notifyOrdering : List Nat := [confToFidType 'c', confToFidType 'k', confToFidType 'd']

def Fid.compare (f1 f2 : Fid) : Ordering :=
  (Ord.compare f1.f_container f2.f_container).then (Ord.compare f1.f_key f2.f_key)

def orderSet.sorter (ordering : List Nat) (f1 f2 : Fid) : Ordering :=
  if fidToFidType f1 = fidToFidType f2 then f1.compare f2
  else if fidToFidType f1 ∈ ordering then
    if fidToFidType f2 ∈ ordering.takeWhile (· ≠ fidToFidType f1) then .gt else .lt
  else if fidToFidType f2 ∈ ordering then .gt
  else f1.compare f2

def orderSet (ordering : List Nat) (nvec : List Note) : List Note :=
  nvec.mergeSort fun first second => orderSet.sorter ordering first.fid second.fid ≠ .gt

end Order

namespace Resource

def stateDiff? : Resource → Option StateDiff
  | .stateDiff diff => some diff
  | _ => none

def rc? : Resource → Option Nat
  | .rc version => some version
  | _ => none

def epochId? : Resource → Option Nat
  | .epochId epoch => some epoch
  | _ => none

def halonNode? : Resource → Option NodeId
  | .halonNode nid => some nid
  | _ => none

end Resource

variable {K V : Type} [LinearOrder K] [LinearOrder V] (enc : Encoding Relation Resource K V)

namespace RG

def lookupConfObjByFid (a : ResourceType) (f : Fid) (rg : RG K V) : Option ConfObj :=
  ((Graph.getResourcesOfType schema a rg).filterMap Resource.conf?).find? fun object => object.fid = f

def nodeToM0Node (node : NodeId) (rg : RG K V) : Option ConfObj := do
  let host ← Graph.connectedFromOne schema .Runs .Host (.halonNode node) rg
  ((Graph.connectedTo schema host .Runs .Node rg).filterMap Resource.conf?).head?

def getNotificationNodes (rg : RG K V) : List (NodeId × List ConfObj) :=
  let hosts := Graph.connectedTo schema .cluster .Has .Host rg
  let nodes := hosts.flatMap fun host => (Graph.connectedTo schema host .Runs .HalonNode rg).filterMap Resource.halonNode?
  nodes.filterMap fun node => do
    let m0node ← rg.nodeToM0Node node
    match (rg.connectedTo m0node .IsParentOf .Process).filter fun p => rg.getState p = .process .PSOnline with
    | [] => none
    | procs => some (node, procs)

def processes (diff : StateDiff) (r : Relation) (rg : RG K V) : List ConfObj :=
  (Graph.connectedTo schema (.stateDiff diff) r .Process rg).filterMap Resource.conf?

end RG

namespace LoopState

def modifyGraph (f : RG K V → RG K V) (ls : LoopState K V) : LoopState K V := { ls with lsGraph := f ls.lsGraph }

/-- The effect follows once the graph is replicated. -/
def registerSyncGraph (callback : Effect) (ls : LoopState K V) : LoopState K V :=
  ⟨(ls.lsGraph.sync enc).2, ls.performed ++ [callback]⟩

def tryGetCurrentRC (ls : LoopState K V) : Option Nat :=
  ((Graph.connectedToOne schema .cluster .Has .RC ls.lsGraph).bind Resource.rc?).filter fun rc =>
    ls.lsGraph.isConnected (.rc rc) .Is .active

def getCurrentRC (ls : LoopState K V) : Except Failure Nat :=
  match ls.tryGetCurrentRC with
  | some rc => .ok rc
  | none => .error .noActiveRC

def getCurrentEpoch (ls : LoopState K V) : Nat :=
  ((Graph.connectedToOne schema .cluster .Has .EpochId ls.lsGraph).bind Resource.epochId?).getD 0

def updateEpoch (ls : LoopState K V) : Nat × LoopState K V :=
  let old := ls.getCurrentEpoch
  (old, ls.modifyGraph (Graph.connect enc schema .cluster .Has (.epochId (old + 1))))

def mkStateDiff (f : GraphUpdate K V) (msg : InternalObjectStateChangeMsg) (onCommit : List OnCommit) (ls : LoopState K V) :
    Except Failure (StateDiff × LoopState K V) := do
  let (epoch, ls) := ls.updateEpoch enc
  let diff : StateDiff := ⟨epoch, msg, onCommit⟩
  let rc ← ls.getCurrentRC
  let indexed := ls.lsGraph.connect enc schema (.stateDiffIndex epoch) .Is (.stateDiff diff)
  let rg ← f (indexed.connect enc schema (.rc rc) .Has (.stateDiff diff))
  pure (diff, { ls with lsGraph := rg })

def getStateDiffByEpoch (e : Nat) (ls : LoopState K V) : Option StateDiff :=
  (Graph.connectedToOne schema (.stateDiffIndex e) .Is .StateDiff ls.lsGraph).bind Resource.stateDiff?

/-- The state diffs of an epoch and those before it, down to the first epoch that has none. -/
def getStateDiffsByEpoch (ls : LoopState K V) : Nat → List StateDiff
  | 0 => (ls.getStateDiffByEpoch 0).toList
  | e + 1 =>
    match ls.getStateDiffByEpoch (e + 1) with
    | none => []
    | some diff => diff :: ls.getStateDiffsByEpoch e

/-- Announce the outcome. Processes that have not answered have timed out. -/
def forceCompleteStateDiff (diff : StateDiff) (ls : LoopState K V) : LoopState K V :=
  let okProcesses := ls.lsGraph.processes diff .DeliveredTo
  let failProcesses := ls.lsGraph.processes diff .DeliveryFailedTo
  let timeoutProcesses := ls.lsGraph.processes diff .ShouldDeliverTo
  (ls.modifyGraph (Graph.removeResource enc (.stateDiff diff))).registerSyncGraph enc
    (.promulgate ⟨diff.stateEpoch, diff.stateDiffMsg, okProcesses, failProcesses, timeoutProcesses⟩)

def tryCompleteStateDiff (diff : StateDiff) (ls : LoopState K V) : Except Failure (LoopState K V) := do
  let rc ← ls.getCurrentRC
  let notSent := ls.lsGraph.isConnected (.rc rc) .Has (.stateDiff diff)
  let pendingPs := ls.lsGraph.processes diff .ShouldDeliverTo
  pure (if notSent ∧ pendingPs = [] then ls.forceCompleteStateDiff enc diff else ls)

/-- A delivery after a failure counts. -/
def moveToDelivered (diff : StateDiff) (process : ConfObj) (ls : LoopState K V) : LoopState K V :=
  ls.modifyGraph fun rg =>
    ((rg.disconnect enc (.stateDiff diff) .ShouldDeliverTo (.conf process)).disconnect enc (.stateDiff diff) .DeliveryFailedTo
      (.conf process)).connect enc schema (.stateDiff diff) .DeliveredTo (.conf process)

def moveToFailed (diff : StateDiff) (process : ConfObj) (ls : LoopState K V) : LoopState K V :=
  ls.modifyGraph fun rg =>
    (rg.disconnect enc (.stateDiff diff) .ShouldDeliverTo (.conf process)).connect enc schema (.stateDiff diff) .DeliveryFailedTo
      (.conf process)

def markDelivered (process : ConfObj) (ls : LoopState K V) (diff : StateDiff) : Except Failure (LoopState K V) :=
  let isDelivered := ls.lsGraph.isConnected (.stateDiff diff) .DeliveredTo (.conf process)
  let isNotSent := ls.lsGraph.isConnected (.stateDiff diff) .ShouldDeliverTo (.conf process)
  if isDelivered then .ok ls
  else
    let ls := ls.moveToDelivered enc diff process
    if isNotSent then ls.tryCompleteStateDiff enc diff else .ok ls

def markNotificationDelivered (sdiff : StateDiff) (process : ConfObj) (ls : LoopState K V) : Except Failure (LoopState K V) :=
  (ls.getStateDiffsByEpoch sdiff.stateEpoch).foldlM (markDelivered enc process) ls

/-- Only a process that has both answered and failed is left alone. -/
def markNotificationFailed (diff : StateDiff) (process : ConfObj) (ls : LoopState K V) : Except Failure (LoopState K V) :=
  let isFailed := ls.lsGraph.isConnected (.stateDiff diff) .DeliveryFailedTo (.conf process)
  let isDelivered := ls.lsGraph.isConnected (.stateDiff diff) .DeliveredTo (.conf process)
  let isNotSent := ls.lsGraph.isConnected (.stateDiff diff) .ShouldDeliverTo (.conf process)
  if isDelivered && isFailed then .ok ls
  else
    let ls := ls.moveToFailed enc diff process
    if isNotSent then ls.tryCompleteStateDiff enc diff else .ok ls

/-- One process of a node that failed: all that it has not answered has failed. -/
def failNotificationsTo (ls : LoopState K V) (p : ConfObj) : Except Failure (LoopState K V) :=
  let diffs := (Graph.connectedFrom schema .ShouldDeliverTo .StateDiff (.conf p) ls.lsGraph).filterMap Resource.stateDiff?
  diffs.foldlM (fun ls diff => (ls.moveToFailed enc diff p).tryCompleteStateDiff enc diff) ls

def failNotificationsOnNode (node : NodeId) (ls : LoopState K V) : Except Failure (LoopState K V) :=
  let ps := (ls.lsGraph.nodeToM0Node node).toList.flatMap fun m0node => ls.lsGraph.connectedTo m0node .IsParentOf .Process
  ps.foldlM (failNotificationsTo enc) ls

def notifyNode (diff : StateDiff) (s : List Note) (ls : LoopState K V) (entry : NodeId × List ConfObj) : LoopState K V :=
  let message : NotificationMessage := ⟨diff.stateEpoch, orderSet notifyOrdering s, entry.2.map ConfObj.fid⟩
  (ls.modifyGraph fun rg =>
    entry.2.foldl (fun rg p => rg.connect enc schema (.stateDiff diff) .ShouldDeliverTo (.conf p)) rg).registerSyncGraph enc
      (.performNotification entry.1 message)

def notifyMeroAsync (diff : StateDiff) (s : List Note) (ls : LoopState K V) : Except Failure (LoopState K V) :=
  let nodes := ls.lsGraph.getNotificationNodes
  let ls := nodes.foldl (notifyNode enc diff s) ls
  if nodes = [] then ls.tryCompleteStateDiff enc diff
  else .ok { ls with performed := ls.performed ++ [.awaitTimeout diff.stateEpoch] }

variable (encodeP : List AnyStateChange → InternalObjectStateChangeMsg)

def applyDeferredStateChanges (changes : DeferredStateChanges K V) (ls : LoopState K V) : Except Failure (LoopState K V) := do
  let (diff, ls) ← ls.mkStateDiff enc changes.update (encodeP changes.changes) []
  ls.notifyMeroAsync enc diff changes.notes

/-- Apply state sets with all that follows from them, and tell Mero. -/
def announceStateChanges (rounds : Nat) (ss : List AnyStateSet) (ls : LoopState K V) : Except Failure (LoopState K V) := do
  let (_, changes) ← createDeferredStateChanges enc rounds ss ls.lsGraph
  ls.applyDeferredStateChanges enc encodeP changes

/-- A rule for a report on the process that has a fid, for the state diff of an epoch. -/
def reported (mark : StateDiff → ConfObj → LoopState K V → Except Failure (LoopState K V)) (epoch : Nat) (fid : Fid)
    (ls : LoopState K V) : Except Failure (LoopState K V) :=
  match ls.getStateDiffByEpoch epoch with
  | none => .ok ls
  | some diff =>
    match ls.lsGraph.lookupConfObjByFid .Process fid with
    | none => .ok ls
    | some p => mark diff p ls

def ruleNotificationsDeliveredToM0d : Nat → Fid → LoopState K V → Except Failure (LoopState K V) :=
  reported (markNotificationDelivered enc)

def ruleNotificationsFailedToBeDeliveredToM0d : Nat → Fid → LoopState K V → Except Failure (LoopState K V) :=
  reported (markNotificationFailed enc)

def ruleNotificationTimeoutReached (epoch : Nat) (ls : LoopState K V) : LoopState K V :=
  match ls.getStateDiffByEpoch epoch with
  | none => ls
  | some diff => ls.forceCompleteStateDiff enc diff

/-- A rule for the end of a service on a node. Services other than that of Mero do not matter. -/
def serviceEnded (node : NodeId) (svc : Service) (ls : LoopState K V) : Except Failure (LoopState K V) :=
  match svc with
  | .m0d => ls.failNotificationsOnNode enc node
  | .other _ => .ok ls

def ruleHalonM0dFailed : NodeId → Service → LoopState K V → Except Failure (LoopState K V) := serviceEnded enc

def ruleHalonM0dExit : NodeId → Service → LoopState K V → Except Failure (LoopState K V) := serviceEnded enc

def ruleHalonM0dException : NodeId → Service → LoopState K V → Except Failure (LoopState K V) := serviceEnded enc

def handle (rounds : Nat) (ls : LoopState K V) : Event → Except Failure (LoopState K V)
  | .NotificationAck epoch fid => ls.ruleNotificationsDeliveredToM0d enc epoch fid
  | .NotificationFailure epoch fid => ls.ruleNotificationsFailedToBeDeliveredToM0d enc epoch fid
  | .EpochTimeout epoch => .ok (ls.ruleNotificationTimeoutReached enc epoch)
  | .ServiceFailed node svc => ls.ruleHalonM0dFailed enc node svc
  | .ServiceExit node svc => ls.ruleHalonM0dExit enc node svc
  | .ServiceUncaughtException node svc => ls.ruleHalonM0dException enc node svc
  | .stateSets ss => ls.announceStateChanges enc encodeP rounds ss

/-- The coordinator handles one message. It does not go on after a failure. -/
def step (rounds : Nat) (ls : LoopState K V) (event : Event) : Option (LoopState K V) :=
  (ls.handle enc encodeP rounds event).toOption

def published (ls : LoopState K V) : List Notified :=
  ls.performed.filterMap fun
    | .promulgate message => some message
    | _ => none

end LoopState
end Halon.Mero
