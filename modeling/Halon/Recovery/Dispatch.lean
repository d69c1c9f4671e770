import Halon.Cep.Commands
import Halon.Recovery.RefCounts

/-! The dispatcher of a rule and the notifier that it drives. A rule registers the phases that
it waits for, and comes back to the dispatcher when one of them is done. The notifier is such a
phase, which waits for a set of state changes. -/

namespace Halon.Recovery
open Library Cep

/-- What remains to be dispatched, and what to do when all of it is done or takes too long. -/
structure Dispatch where
  waitPhases : List (Jump PhaseHandle)
  successPhase : Jump PhaseHandle
  timeoutPhase : Option (Int × Jump PhaseHandle)
deriving DecidableEq, Repr

inductive DispatchMessage (StateChangeMsg Payload : Type) where
  | HAEvent (eid : Nat) (msg : StateChangeMsg)
  | Other (number : Nat) (payload : Payload)

namespace DispatchMessage
variable {StateChangeMsg Payload : Type}

def stateChange : Nat := 0

def fingerprint : DispatchMessage StateChangeMsg Payload → Nat
  | .HAEvent .. => stateChange
  | .Other number _ => number + 1

def message (m : DispatchMessage StateChangeMsg Payload) : Message (DispatchMessage StateChangeMsg Payload) := ⟨m.fingerprint, m⟩

end DispatchMessage

/-- What a rule with a notifier is defined over: the expected notifications, the state changes and the messages with them,
and the rest of the state, the world, the messages and the values of programs. -/
structure DispatchSetting where
  Notification : Type
  StateChange : Type
  StateChangeMsg : Type
  Payload : Type
  Local : Type
  Global : Type
  World : Type
  Value : Type
  Exception : Type
  decodeP : StateChangeMsg → Except Exception (List StateChange)
  getTime : World → Int × World
  usend : Nat → Message (DispatchMessage StateChangeMsg Payload) → World → World

structure DispatchLocal (set : DispatchSetting) where
  dispatch : Dispatch
  notifications : List set.Notification
  rest : set.Local

structure DispatchGlobal (set : DispatchSetting) where
  lsRefCount : OrderedMap Nat Int
  rest : set.Global

inductive DispatchValue (set : DispatchSetting) where
  | unit
  | changes (iosc : List set.StateChange)
  | other (value : set.Value)

@[reducible] def DispatchSetting.app (set : DispatchSetting) : Application where
  GlobalState := DispatchGlobal set
  LocalState := DispatchLocal set
  Value := DispatchValue set
  Payload := DispatchMessage set.StateChangeMsg set.Payload
  World := set.World
  Exception := set.Exception
  getTime := set.getTime
  usend := set.usend

section
variable {set : DispatchSetting}

def modifyDispatch (f : Dispatch → Dispatch) (k : PhaseM set.app) : PhaseM set.app :=
  .modifyLocal (fun (l : DispatchLocal set) => { l with dispatch := f l.dispatch }) k

def waitFor (p : Jump PhaseHandle) (k : PhaseM set.app) : PhaseM set.app :=
  modifyDispatch (fun d => { d with waitPhases := p :: d.waitPhases }) k

def waitDone (p : Jump PhaseHandle) (k : PhaseM set.app) : PhaseM set.app :=
  modifyDispatch (fun d => { d with waitPhases := d.waitPhases.erase p }) k

def todoEvent (eid : Nat) (k : PhaseM set.app) : PhaseM set.app :=
  .modifyGlobal (fun (g : DispatchGlobal set) => { g with lsRefCount := todo eid g.lsRefCount }) k

def doneEvent (eid : Nat) (k : PhaseM set.app) : PhaseM set.app :=
  .modifyGlobal (fun (g : DispatchGlobal set) => { g with lsRefCount := done eid g.lsRefCount }) k

def setExpectedNotifications (ns : List set.Notification) (k : PhaseM set.app) : PhaseM set.app :=
  .modifyLocal (fun (l : DispatchLocal set) => { l with notifications := ns }) k

def decodeChanges (msg : set.StateChangeMsg) (k : List set.StateChange → PhaseM set.app) :
    PhaseM set.app :=
  .Lift (fun w =>
    match set.decodeP msg with
    | .ok iosc => (.ok (.changes iosc), w)
    | .error e => (.error e, w)) fun
    | .changes iosc => k iosc
    | _ => k []

end

namespace mkDispatcher
variable {set : DispatchSetting}

def dispatcher : Jump PhaseHandle := .NormalJump "dispatcher::dispatcher"
def time_out_wrapper : Jump PhaseHandle := .NormalJump "dispatcher::time_out_wrapper"

/-- What the dispatcher waits for: the registered phases, and the time set for them. -/
def awaited (d : Dispatch) : List (Jump PhaseHandle) :=
  d.waitPhases ++ match d.timeoutPhase with
    | none => []
    | some (t, _) => [timeout t time_out_wrapper]

def dispatcherPhase : Phase set.app := directly dispatcher.value (.GetLocal fun (l : DispatchLocal set) =>
  match l.dispatch.waitPhases with
  | [] => .Continue l.dispatch.successPhase
  | _ => .Switch (awaited l.dispatch))

/-- The time ran out while the dispatcher waited. -/
def timeOutPhase : Phase set.app := directly time_out_wrapper.value (.GetLocal fun (l : DispatchLocal set) =>
  match l.dispatch.timeoutPhase with
  | some (_, ph) => .Continue ph
  | none => .ret .unit)

end mkDispatcher

namespace mkNotifier'
open mkDispatcher
variable {set : DispatchSetting}

def check_notifications : Jump PhaseHandle := .NormalJump "check_notifications"
def notifier : Jump PhaseHandle := .NormalJump "notifier"

def remaining (toPred : set.Notification → set.StateChange → Bool) (iosc : List set.StateChange)
    (notificationSet : List set.Notification) : List set.Notification :=
  iosc.foldl (fun sts asc => sts.filter fun s => !toPred s asc) notificationSet

/-- There may be nothing to wait for, and then there is no need for a message. -/
def checkPhase (act : PhaseM set.app) : Phase set.app :=
  directly check_notifications.value (.GetLocal fun (l : DispatchLocal set) =>
    match l.notifications with
    | [] => waitDone check_notifications (act.bind fun _ => .Continue dispatcher)
    | _ => waitDone check_notifications (waitFor notifier (.Continue dispatcher)))

def notifierDone (act : PhaseM set.app) (eid : Nat) : PhaseM set.app :=
  waitDone notifier (doneEvent eid (act.bind fun _ => .Continue dispatcher))

/-- The notifications may come in several messages. -/
def notified (toPred : set.Notification → set.StateChange → Bool) (act : PhaseM set.app) (eid : Nat)
    (msg : set.StateChangeMsg) : PhaseM set.app :=
  todoEvent eid (.GetLocal fun (l : DispatchLocal set) =>
    match l.notifications with
    | [] => notifierDone act eid
    | notificationSet => decodeChanges msg fun iosc =>
      let next := remaining toPred iosc notificationSet
      setExpectedNotifications next (
        match next with
        | [] => notifierDone act eid
        | _ => doneEvent eid (.Continue notifier)))

def notifierPhase (toPred : set.Notification → set.StateChange → Bool) (act : PhaseM set.app) :
    Phase set.app :=
  setPhase notifier.value DispatchMessage.stateChange fun m =>
    match m.payload with
    | .HAEvent eid msg => notified toPred act eid msg
    | _ => .ret .unit

def phases (toPred : set.Notification → set.StateChange → Bool) (act : PhaseM set.app) :
    List (Phase set.app) :=
  [dispatcherPhase, timeOutPhase, checkPhase act, notifierPhase toPred act]

end mkNotifier'

/-- A rule with a dispatcher and a notifier: when a notification matches a state change, what to do when all have come,
and the rule's own phases. Each phase has a name of its own. -/
structure NotifierRule (set : DispatchSetting) where
  key : RuleKey
  toPred : set.Notification → set.StateChange → Bool
  act : PhaseM set.app
  own : List (Phase set.app)
  startPhase : Jump (Phase set.app)
  initialL : DispatchLocal set
  names : ((mkNotifier'.phases toPred act ++ own).map Phase.phName).Nodup

def NotifierRule.rule {set : DispatchSetting} (r : NotifierRule set) : Rule set.app where
  key := r.key
  startPhase := r.startPhase
  ps := phaseMap (mkNotifier'.phases r.toPred r.act ++ r.own)
  initialL := r.initialL

/-- A machine of a rule, how its last step ended, and the engine and the world around it. -/
structure DispatchSystem (set : DispatchSetting) where
  machine : SM set.app
  state : SMState
  engine : EngineState set.app
  world : set.World

/-- What can happen: a message arrives, the machine executes a step, other rules run. -/
inductive DispatchAction (set : DispatchSetting) where
  | arrives (m : DispatchMessage set.StateChangeMsg set.Payload)
  | executes (fuel : Nat) (subs : Subscribers)
  | others (engine : EngineState set.app) (world : set.World)

namespace DispatchSystem
variable {set : DispatchSetting}

def step (s : DispatchSystem set) : DispatchAction set → Option (DispatchSystem set)
  | .arrives m => some { s with machine := s.machine.message m.message }
  | .executes fuel subs =>
    match Stateful.outcome (s.machine.execute fuel subs) s.engine s.world with
    | (.ok ([(result, machine)], engine), world) => some ⟨machine, result.smResultState, engine, world⟩
    | _ => none
  | .others engine world => some { s with engine, world }

/-- A phase of the rule has registered phases and jumped to the dispatcher. -/
def start (r : NotifierRule set) (smid : Nat) (l : DispatchLocal set) (b : Buffer set.app.Payload)
    (engine : EngineState set.app) (world : set.World) : DispatchSystem set where
  machine := .interpretInput r.rule smid l b [.NormalJump mkDispatcher.dispatcherPhase]
  state := .SMRunning
  engine := engine
  world := world

end DispatchSystem
end Halon.Recovery
