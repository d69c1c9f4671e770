import Halon.Mero.Note

/-! Transitions of states. Those of the cascade take the state that the changed
object went to and the state of the object that the change is passed on to. -/

namespace Halon.Mero

/-- A refused transition keeps the state for the message. -/
inductive TransitionResult where
  | TransitionTo (state : ObjectState)
  | NoTransition
  | InvalidTransition (state : ObjectState)
deriving DecidableEq, Repr

abbrev Transition := ObjectState → TransitionResult

/-- A transition to the same state is none. -/
def runTransition (runTr : Transition) (st : ObjectState) : TransitionResult :=
  match runTr st with
  | .TransitionTo st' => if st = st' then .NoTransition else .TransitionTo st'
  | r => r

def constTransition (st : ObjectState) : Transition := fun _ => .TransitionTo st

abbrev CascadeTransition := ObjectState → Transition

namespace Transition

def diskOnline : Transition := constTransition (.sdev .SDSOnline)

def diskFailed : Transition := constTransition (.sdev .SDSFailed)

def siteCascadeRack : CascadeTransition := fun _ => constTransition (.conf .M0_NC_TRANSIENT)

def rackCascadeEnclosure : CascadeTransition := fun _ => constTransition (.conf .M0_NC_TRANSIENT)

def enclosureCascadeControllerTransient : CascadeTransition := fun _ => constTransition (.controller .CSTransient)

def enclosureCascadeControllerOnline : CascadeTransition := fun _ => constTransition (.controller .CSOnline)

def sdevCascadeDisk' : CascadeTransition := fun st => constTransition st

def diskCascadeSDev' : CascadeTransition := fun st => constTransition st

def nodeCascadeController' : CascadeTransition
  | .node .NSUnknown => fun _ => .NoTransition
  | .node .NSOnline => constTransition (.controller .CSOnline)
  | _ => constTransition (.controller .CSTransient)

def diskFailsPVer : CascadeTransition := fun a st =>
  match st with
  | .conf .M0_NC_FAILED => .InvalidTransition st
  | _ => .TransitionTo (.conf a.toConfObjState)

def diskFixesPVer : CascadeTransition := fun a st =>
  match st with
  | .conf .M0_NC_ONLINE => .InvalidTransition st
  | _ => .TransitionTo (.conf a.toConfObjState)

def nodeFailsProcess : CascadeTransition := fun _ st =>
  match st with
  | .process (.PSFailed _) => .NoTransition
  | .process (.PSInhibited _) => .NoTransition
  | .process x => .TransitionTo (.process (.PSInhibited x))
  | _ => .NoTransition

/-- Take off all inhibitions, and mark as failed what was running. -/
def uninhibit : ProcessState → TransitionResult
  | .PSInhibited .PSOffline => .TransitionTo (.process .PSOffline)
  | .PSInhibited .PSUnknown => .TransitionTo (.process .PSUnknown)
  | .PSInhibited (.PSInhibited x) => uninhibit (.PSInhibited x)
  | .PSInhibited _ => .TransitionTo (.process (.PSFailed "node failure"))
  | _ => .NoTransition

def nodeUnfailsProcess : CascadeTransition := fun _ st =>
  match st with
  | .process x => uninhibit x
  | _ => .NoTransition

def inhibitService : Transition
  | .service .SSFailed => .NoTransition
  | .service (.SSInhibited _) => .NoTransition
  | .service o => .TransitionTo (.service (.SSInhibited o))
  | _ => .NoTransition

def processCascadeService : CascadeTransition := fun a st =>
  match a with
  | .process .PSStarting => .TransitionTo (.service .SSStarting)
  | .process .PSOnline => .TransitionTo (.service .SSOnline)
  | .process .PSOffline => if st = .service .SSFailed then .NoTransition else .TransitionTo (.service .SSOffline)
  | .process (.PSFailed _) => .TransitionTo (.service .SSFailed)
  | .process .PSQuiescing => if st = .service .SSOffline then .NoTransition else inhibitService st
  | .process .PSStopping => if st = .service .SSFailed then .NoTransition else .TransitionTo (.service .SSStopping)
  | .process (.PSInhibited _) => inhibitService st
  | .process .PSUnknown => .TransitionTo (.service .SSUnknown)
  | _ => .NoTransition

/-- Mark a drive as failed for a while, unless it already is or has failed for good. -/
def sdsFailTransient : SDevState → SDevState
  | .SDSFailed => .SDSFailed
  | .SDSRepairing => .SDSRepairing
  | .SDSRepaired => .SDSRepaired
  | .SDSRebalancing => .SDSRebalancing
  | .SDSTransient x => .SDSTransient x
  | .SDSInhibited x => .SDSInhibited (sdsFailTransient x)
  | x => .SDSTransient x

def sdevFailTransient : Transition
  | .sdev x => .TransitionTo (.sdev (sdsFailTransient x))
  | _ => .NoTransition

def sdevRecoverTransient.recover : SDevState → SDevState
  | .SDSTransient st => recover st
  | .SDSInhibited st => .SDSInhibited (recover st)
  | st => st

def sdevRecoverTransient : Transition
  | .sdev (.SDSTransient st) => .TransitionTo (.sdev (sdevRecoverTransient.recover st))
  | st => .InvalidTransition st

def inhibitSDev : Transition
  | .sdev .SDSFailed => .NoTransition
  | .sdev (.SDSInhibited _) => .NoTransition
  | .sdev x => .TransitionTo (.sdev (.SDSInhibited x))
  | _ => .NoTransition

def uninhibitSDev : Transition
  | .sdev (.SDSInhibited x) => .TransitionTo (.sdev x)
  | _ => .NoTransition

def serviceCascadeDisk : CascadeTransition
  | .service .SSUnknown => fun _ => .NoTransition
  | .service .SSOffline => inhibitSDev
  | .service .SSFailed => inhibitSDev
  | .service .SSStarting => uninhibitSDev
  | .service .SSOnline => uninhibitSDev
  | .service .SSStopping => inhibitSDev
  | .service (.SSInhibited _) => inhibitSDev
  | _ => fun _ => .NoTransition

def iosFailsControllerTransient : CascadeTransition := fun _ => constTransition (.controller .CSTransient)

def iosFailsControllerOnline : CascadeTransition := fun _ => constTransition (.controller .CSOnline)

end Transition
end Halon.Mero
