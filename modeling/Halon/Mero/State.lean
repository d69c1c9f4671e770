import Halon.Mero.Drive
import Halon.Mero.Transitions

/-! Changes of state and their cascade. Rules pass a change on to other objects or
trigger an edit of the graph; all of them look at the graph before the changes. -/

namespace Halon.Mero
open Library
variable {K V : Type} [LinearOrder K] [LinearOrder V] (enc : Encoding Relation Resource K V)

structure AnyStateSet where
  object : ConfObj
  transition : Transition

structure AnyStateChange where
  object : ConfObj
  old : ObjectState
  new : ObjectState
deriving DecidableEq, Repr

structure Note where
  fid : Fid
  state : ConfObjectState
deriving DecidableEq, Repr

/-- A state set that changes nothing, and why. -/
inductive Warning where
  | noTransition (object : ConfObj) (state : ObjectState)
  | invalidTransition (object : ConfObj) (state : ObjectState)
deriving DecidableEq, Repr

abbrev GraphUpdate (K V : Type) [LinearOrder K] [LinearOrder V] := RG K V → Except Failure (RG K V)

structure DeferredStateChanges (K V : Type) [LinearOrder K] [LinearOrder V] where
  update : GraphUpdate K V
  notes : List Note
  changes : List AnyStateChange

/-- A rule for changes of the objects of a type: pass them on to the objects found, or edit the graph. -/
inductive StateCascadeRule (K V : Type) [LinearOrder K] [LinearOrder V] where
  | rule (a : ResourceType) (old new : ObjectState → Bool) (find : ConfObj → RG K V → Except Failure (List ConfObj))
      (u : CascadeTransition)
  | trigger (a : ResourceType) (old new : ObjectState → Bool) (fg : ConfObj → GraphUpdate K V)

namespace RG

/-- Go through the levels of virtual objects and stop where the number of real ones in a state is refused. -/
def check (counted : ConfObjectState) (refused : Nat → Nat → Bool) (rg : RG K V) : List (Level × Nat) → List ConfObj → Bool
  | [], _ => false
  | (level, limit) :: rest, objects =>
    let next := objects.flatMap fun o => rg.connectedTo o .IsParentOf (.DeviceV level)
    let broken := (next.filterMap fun n => rg.connectedFromOne .IsRealOf (.Device level) n).countP fun realm =>
      rg.getConfObjState realm = counted
    refused broken limit || check counted refused rg rest next

def checkBroken (counted : ConfObjectState) (refused : Nat → Nat → Bool) (rg : RG K V) (pver : ConfObj) :
    Except Failure (ConfObj ⊕ Unit) :=
  match pver with
  | .pver _ (.actual [fsite, frack, fencl, fctrl, fdisk]) =>
    let broken := rg.check counted refused
      [(.Site, fsite), (.Rack, frack), (.Enclosure, fencl), (.Controller, fctrl), (.Disk, fdisk)] [pver]
    .ok (if broken then .inl pver else .inr ())
  | .pver _ (.actual _) => .error .irrefutablePattern
  | _ => .ok (.inr ())

/-- The pool versions with the disk that are not in the given state. -/
def pversOf (x : ConfObj) (except : ConfObjectState) (rg : RG K V) : List ConfObj :=
  ((rg.connectedTo x .IsRealOf (.DeviceV .Disk)).filterMap fun diskv =>
    (rg.pverOf diskv).filter fun pver => except ≠ rg.getConfObjState pver).eraseDups

/-- The pool versions with the disk that are to be put in the given state. -/
def brokenPVers (counted : ConfObjectState) (refused : Nat → Nat → Bool) (x : ConfObj) (rg : RG K V) :
    Except Failure (List ConfObj) := do
  let checked ← (rg.pversOf x counted).mapM (rg.checkBroken counted refused)
  pure (checked.filterMap Sum.getLeft?)

/-- The services of an IO service's node are told through its controller. -/
def iosToController (x : ConfObj) (rg : RG K V) : List ConfObj :=
  (do
    let proc ← rg.connectedFromOne .IsParentOf .Process x
    let node ← rg.connectedFromOne .IsParentOf .Node proc
    rg.connectedToOne node .IsOnHardware (.Device .Controller)).toList

end RG

namespace StateCascadeRule

def always : ObjectState → Bool := fun _ => true

def isConf (states : List ConfObjectState) : ObjectState → Bool
  | .conf s => s ∈ states
  | _ => false

def toChildren (a b : ResourceType) (old new : ObjectState → Bool) (u : CascadeTransition) : StateCascadeRule K V :=
  .rule a old new (fun x rg => .ok (rg.connectedTo x .IsParentOf b)) u

def siteCascadeRackRule : StateCascadeRule K V :=
  toChildren (.Device .Site) (.Device .Rack) (isConf [.M0_NC_ONLINE]) (isConf [.M0_NC_FAILED, .M0_NC_TRANSIENT])
    Transition.siteCascadeRack

def rackCascadeEnclosureRule : StateCascadeRule K V :=
  toChildren (.Device .Rack) (.Device .Enclosure) (isConf [.M0_NC_ONLINE]) (isConf [.M0_NC_FAILED, .M0_NC_TRANSIENT])
    Transition.rackCascadeEnclosure

def enclosureCascadeControllerRules : List (StateCascadeRule K V) :=
  [toChildren (.Device .Enclosure) (.Device .Controller) (isConf [.M0_NC_ONLINE]) (isConf [.M0_NC_FAILED, .M0_NC_TRANSIENT])
    Transition.enclosureCascadeControllerTransient,
   toChildren (.Device .Enclosure) (.Device .Controller) (fun s => !isConf [.M0_NC_ONLINE] s) (isConf [.M0_NC_ONLINE])
    Transition.enclosureCascadeControllerOnline]

def processCascadeServiceRule : StateCascadeRule K V :=
  toChildren .Process .Service always always Transition.processCascadeService

def serviceCascadeDiskRule : StateCascadeRule K V := toChildren .Service .SDev always always Transition.serviceCascadeDisk

def nodeFailed (s : ObjectState) : Bool := s = .node .NSFailed || s = .node .NSFailedUnrecoverable

def nodeFailsProcessRule : StateCascadeRule K V := toChildren .Node .Process always nodeFailed Transition.nodeFailsProcess

def nodeUnfailsProcessRule : StateCascadeRule K V :=
  toChildren .Node .Process nodeFailed (fun s => s = .node .NSOnline) Transition.nodeUnfailsProcess

def sdevCascadeDisk : StateCascadeRule K V :=
  .rule .SDev always always (fun x rg => .ok (rg.connectedToOne x .IsOnHardware (.Device .Disk)).toList)
    Transition.sdevCascadeDisk'

def diskCascadeSdev : StateCascadeRule K V :=
  .rule (.Device .Disk) always always (fun x rg => .ok (rg.connectedFromOne .IsOnHardware .SDev x).toList)
    Transition.diskCascadeSDev'

def nodeCascadeController : StateCascadeRule K V :=
  .rule .Node always always (fun x rg => .ok (rg.connectedToOne x .IsOnHardware (.Device .Controller)).toList)
    Transition.nodeCascadeController'

def serviceFailed : ObjectState → Bool
  | .service .SSFailed => true
  | .service (.SSInhibited _) => true
  | .service .SSOffline => true
  | _ => false

def isIOS : ConfObj → Bool
  | .service _ .CST_IOS _ => true
  | _ => false

def iosFailsController : List (StateCascadeRule K V) :=
  [.rule .Service always serviceFailed (fun x rg => .ok (if isIOS x then rg.iosToController x else []))
    Transition.iosFailsControllerTransient,
   .rule .Service always (fun s => !serviceFailed s) (fun x rg => .ok (if isIOS x then rg.iosToController x else []))
    Transition.iosFailsControllerOnline]

/-- Pool versions where more devices have failed than is tolerated. -/
def diskFailsPVer : StateCascadeRule K V :=
  .rule (.Device .Disk) always (fun s => s = .sdev .SDSFailed)
    (RG.brokenPVers .M0_NC_FAILED fun broken limit => decide (broken > limit))
    Transition.diskFailsPVer

/-- Pool versions where no more devices are online than the limit. -/
def diskFixesPVer : StateCascadeRule K V :=
  .rule (.Device .Disk) always (fun s => s = .sdev .SDSOnline)
    (RG.brokenPVers .M0_NC_ONLINE fun broken limit => decide (broken ≤ limit))
    Transition.diskFixesPVer

def diskAddToFailureVector : StateCascadeRule K V :=
  .trigger (.Device .Disk) always (fun s => s = .sdev .SDSFailed) fun x => RG.rgRecordDiskFailure enc x.fid

def diskRemoveFromFailureVector : StateCascadeRule K V :=
  .trigger (.Device .Disk) always (fun s => s = .sdev .SDSOnline) fun x => RG.rgRecordDiskOnline enc x.fid

end StateCascadeRule

open StateCascadeRule in
def stateCascadeRules : List (StateCascadeRule K V) :=
  [siteCascadeRackRule, rackCascadeEnclosureRule, sdevCascadeDisk, diskCascadeSdev, nodeCascadeController, diskFailsPVer,
    diskFixesPVer, diskAddToFailureVector enc, diskRemoveFromFailureVector enc, processCascadeServiceRule,
    nodeFailsProcessRule, nodeUnfailsProcessRule, serviceCascadeDiskRule] ++
    enclosureCascadeControllerRules ++ iosFailsController

def GraphUpdate.andThen (first second : GraphUpdate K V) : GraphUpdate K V := fun rg => first rg >>= second

/-- The change of an object that a change is passed on to. An object whose state is set at top level is left out. -/
def passOn (rg : RG K V) (topFids : List Fid) (t : Transition) (b : ConfObj) : Option AnyStateChange :=
  if b.fid ∈ topFids then none
  else
    match runTransition t (rg.getState b) with
    | .TransitionTo b_new => some ⟨b, rg.getState b, b_new⟩
    | _ => none

def applyCascadeRule (rg : RG K V) (topFids : List Fid) (change : AnyStateChange) :
    StateCascadeRule K V → Except Failure (Option (GraphUpdate K V) × List AnyStateChange)
  | .rule a old new find u =>
    if change.object.typeOf = a ∧ old change.old ∧ new change.new then do
      let found ← find change.object rg
      pure (none, found.filterMap (passOn rg topFids (u change.new)))
    else pure (none, [])
  | .trigger a old new fg =>
    if change.object.typeOf = a ∧ old change.old ∧ new change.new then pure (some (fg change.object), []) else pure (none, [])

def notMatch (first second : AnyStateChange) : Bool := first.object.fid ≠ second.object.fid

/-- All rules on all new changes, and again on what comes of it, until there is nothing new. -/
def cascadeStateChange.go (rg : RG K V) (topFids : List Fid) (rounds : Nat) (new_cgs acc : List AnyStateChange)
    (old_f : GraphUpdate K V) : Except Failure (GraphUpdate K V × List AnyStateChange) :=
  if new_cgs = [] then .ok (old_f, acc)
  else
    match rounds with
    | 0 => .error .outOfRounds
    | rounds + 1 => do
      let results ← (new_cgs.flatMap fun change => (stateCascadeRules enc).map (change, ·)).mapM fun pair =>
        applyCascadeRule rg topFids pair.1 pair.2
      let new_f := (results.filterMap Prod.fst).foldl GraphUpdate.andThen old_f
      let b := (results.flatMap Prod.snd).filter fun change => acc.all (notMatch change)
      go rg topFids rounds b (b ++ acc) new_f

/-- The changes that follow from one, with the edits of the graph that they trigger. -/
def cascadeStateChange (rounds : Nat) (asc : AnyStateChange) (rg : RG K V) (topFids : List Fid) :
    Except Failure (GraphUpdate K V × List AnyStateChange) :=
  cascadeStateChange.go enc rg topFids rounds [asc] [asc] .ok

def lookupOldState (rg : RG K V) (set : AnyStateSet) : Warning ⊕ AnyStateChange :=
  match runTransition set.transition (rg.getState set.object) with
  | .NoTransition => .inl (.noTransition set.object (rg.getState set.object))
  | .InvalidTransition st => .inl (.invalidTransition set.object st)
  | .TransitionTo st => .inr ⟨set.object, rg.getState set.object, st⟩

def rootStateChanges (stateSets : List AnyStateSet) (rg : RG K V) : List AnyStateChange :=
  stateSets.filterMap fun set => (lookupOldState rg set).getRight?

def setStates (changes : List AnyStateChange) (rg : RG K V) : RG K V :=
  changes.foldl (fun rg change => rg.setState enc change.object change.new) rg

def createDeferredStateChanges (rounds : Nat) (stateSets : List AnyStateSet) (rg : RG K V) :
    Except Failure (List Warning × DeferredStateChanges K V) := do
  let wrns := stateSets.filterMap fun set => (lookupOldState rg set).getLeft?
  let roots := rootStateChanges stateSets rg
  let rootFids := roots.map fun change => change.object.fid
  let cascades ← roots.mapM fun change => cascadeStateChange enc rounds change rg rootFids
  let trigger_fn := (cascades.map Prod.fst).foldl GraphUpdate.andThen .ok
  let stateChanges := cascades.flatMap Prod.snd
  let nvec := (stateChanges.map fun change => (⟨change.object.fid, change.new.toConfObjState⟩ : Note)).reverse
  pure (wrns, ⟨fun rg' => trigger_fn (setStates enc stateChanges rg'), nvec, stateChanges.reverse⟩)

/-- What a change of a disk does to the failure vectors. -/
def RG.triggered (change : AnyStateChange) (rg : RG K V) : Except Failure (GraphUpdate K V) := do
  let results ← [StateCascadeRule.diskAddToFailureVector enc, .diskRemoveFromFailureVector enc].mapM
    (applyCascadeRule rg [] change)
  pure ((results.filterMap Prod.fst).foldl GraphUpdate.andThen .ok)

def RG.changeDisk (disk : Fid) (new : SDevState) (rg : RG K V) : Except Failure (RG K V) := do
  let update ← rg.triggered enc ⟨.disk disk, rg.getState (.disk disk), .sdev new⟩
  update (rg.setState enc (.disk disk) (.sdev new))

/-- The graph once the changes and all that follows from them are made. -/
def applyStateChanges (rounds : Nat) (ss : List AnyStateSet) (rg : RG K V) : Except Failure (RG K V) := do
  let (_, changes) ← createDeferredStateChanges enc rounds ss rg
  changes.update rg

end Halon.Mero
