import Halon.Mero.Resources

/-! The states of configuration objects as they are kept in the resource graph.
A disk has no state of its own: it is in the state of its storage device. -/

namespace Halon.Mero
open Library

/-- What ends a computation other than by its result. -/
inductive Failure where
  | rootNotLinked
  | irrefutablePattern
  | outOfRounds
  | noActiveRC
deriving DecidableEq, Repr

def Resource.conf? : Resource → Option ConfObj
  | .conf object => some object
  | _ => none

def Resource.state? : Resource → Option ObjectState
  | .state s => some s
  | _ => none

abbrev RG (K V : Type) [LinearOrder K] [LinearOrder V] := Graph Relation Resource K V

variable {K V : Type} [LinearOrder K] [LinearOrder V] (enc : Encoding Relation Resource K V)

namespace RG

def connectedTo (x : ConfObj) (r : Relation) (b : ResourceType) (rg : RG K V) : List ConfObj :=
  (Graph.connectedTo schema (.conf x) r b rg).filterMap Resource.conf?

def connectedToOne (x : ConfObj) (r : Relation) (b : ResourceType) (rg : RG K V) : Option ConfObj :=
  (rg.connectedTo x r b).head?

def connectedFromOne (r : Relation) (a : ResourceType) (y : ConfObj) (rg : RG K V) : Option ConfObj :=
  ((Graph.connectedFrom schema r a (.conf y) rg).filterMap Resource.conf?).head?

def stateOf (x : ConfObj) (b : ResourceType) (rg : RG K V) : Option ObjectState :=
  ((Graph.connectedTo schema (.conf x) .Is b rg).filterMap Resource.state?).head?

def getState (x : ConfObj) (rg : RG K V) : ObjectState :=
  match x with
  | .root _ _ _ => .noExplicitConfigState
  | .node _ => (rg.stateOf x .NodeState).getD (.node .NSUnknown)
  | .process _ => (rg.stateOf x .ProcessState).getD (.process .PSUnknown)
  | .service _ _ _ => (rg.stateOf x .ServiceState).getD (.service .SSUnknown)
  | .sdev _ => (rg.stateOf x .SDevState).getD (.sdev .SDSUnknown)
  | .device .Disk _ =>
    ((rg.connectedFromOne .IsOnHardware .SDev x).bind fun sdev => rg.stateOf sdev .SDevState).getD (.sdev .SDSUnknown)
  | .device .Controller _ => (rg.stateOf x .ControllerState).getD (.controller .CSUnknown)
  | .device _ _ => (rg.stateOf x .ConfObjectState).getD (.conf .M0_NC_ONLINE)
  | .pool _ => (rg.stateOf x .ConfObjectState).getD (.conf .M0_NC_ONLINE)
  | .pver _ _ => (rg.stateOf x .ConfObjectState).getD (.conf .M0_NC_ONLINE)
  | .deviceV _ _ => .noExplicitConfigState

def setState (x : ConfObj) (st : ObjectState) (rg : RG K V) : RG K V :=
  match x with
  | .root _ _ _ => rg
  | .deviceV _ _ => rg
  | .device .Disk _ =>
    match rg.connectedFromOne .IsOnHardware .SDev x with
    | none => rg
    | some sdev => rg.connect enc schema (.conf sdev) .Is (.state st)
  | _ => rg.connect enc schema (.conf x) .Is (.state st)

end RG

def SDevState.toConfObjState : SDevState → ConfObjectState
  | .SDSUnknown => .M0_NC_ONLINE
  | .SDSOnline => .M0_NC_ONLINE
  | .SDSFailed => .M0_NC_FAILED
  | .SDSRepairing => .M0_NC_REPAIR
  | .SDSRepaired => .M0_NC_REPAIRED
  | .SDSRebalancing => .M0_NC_REBALANCE
  | .SDSTransient .SDSFailed => .M0_NC_FAILED
  | .SDSTransient .SDSRepairing => .M0_NC_REPAIR
  | .SDSTransient .SDSRepaired => .M0_NC_REPAIRED
  | .SDSTransient .SDSRebalancing => .M0_NC_REBALANCE
  | .SDSTransient _ => .M0_NC_TRANSIENT
  | .SDSInhibited _ => .M0_NC_TRANSIENT

def ControllerState.toConfObjState : ControllerState → ConfObjectState
  | .CSUnknown => .M0_NC_ONLINE
  | .CSOnline => .M0_NC_ONLINE
  | .CSTransient => .M0_NC_TRANSIENT

def NodeState.toConfObjState : NodeState → ConfObjectState
  | .NSUnknown => .M0_NC_ONLINE
  | .NSFailed => .M0_NC_TRANSIENT
  | .NSFailedUnrecoverable => .M0_NC_FAILED
  | .NSOffline => .M0_NC_FAILED
  | .NSOnline => .M0_NC_ONLINE
  | .NSRebalance => .M0_NC_REBALANCE

def ProcessState.toConfObjState : ProcessState → ConfObjectState
  | .PSUnknown => .M0_NC_ONLINE
  | .PSFailed _ => .M0_NC_FAILED
  | .PSOffline => .M0_NC_FAILED
  | .PSStarting => .M0_NC_TRANSIENT
  | .PSQuiescing => .M0_NC_TRANSIENT
  | .PSStopping => .M0_NC_TRANSIENT
  | .PSOnline => .M0_NC_ONLINE
  | .PSInhibited .PSOnline => .M0_NC_TRANSIENT
  | .PSInhibited s => s.toConfObjState

def ServiceState.toConfObjState : ServiceState → ConfObjectState
  | .SSUnknown => .M0_NC_ONLINE
  | .SSOffline => .M0_NC_FAILED
  | .SSFailed => .M0_NC_FAILED
  | .SSOnline => .M0_NC_ONLINE
  | .SSStopping => .M0_NC_ONLINE
  | .SSStarting => .M0_NC_ONLINE
  | .SSInhibited .SSFailed => .M0_NC_FAILED
  | .SSInhibited _ => .M0_NC_TRANSIENT

def ObjectState.toConfObjState : ObjectState → ConfObjectState
  | .conf s => s
  | .sdev s => s.toConfObjState
  | .controller s => s.toConfObjState
  | .node s => s.toConfObjState
  | .process s => s.toConfObjState
  | .service s => s.toConfObjState
  | .noExplicitConfigState => .M0_NC_ONLINE

namespace RG

def getConfObjState (x : ConfObj) (rg : RG K V) : ConfObjectState := (rg.getState x).toConfObjState

def getM0Root (rg : RG K V) : Except Failure ConfObj :=
  match ((Graph.connectedTo schema .cluster .Has .Root rg).filterMap Resource.conf?).head? with
  | some root => .ok root
  | none => .error .rootNotLinked

def getNonMD (rg : RG K V) : Except Failure (List ConfObj) := do
  let root ← rg.getM0Root
  pure ((rg.connectedTo root .IsParentOf .Pool).filter fun pool => some pool.fid ≠ root.rt_mdpool)

end RG
end Halon.Mero
