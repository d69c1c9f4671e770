import Halon.Cep.Commands

/-! Jobs. A job is a rule that runs one instance for each input, in a fork, while it keeps
listening for further requests. A request for an input with an instance joins it. -/

namespace Halon.Recovery
open Library Cep

abbrev EventId := Nat
abbrev ListenerId := Nat

/-- The requests and the listeners of an instance. -/
structure JobDescription where
  requestUUIDS : List EventId
  listenersUUIDS : List ListenerId
deriving DecidableEq, Repr

def JobDescription.mappend (x y : JobDescription) : JobDescription :=
  ⟨x.requestUUIDS ++ y.requestUUIDS, x.listenersUUIDS ++ y.listenersUUIDS⟩

inductive JobMessage (Input Output : Type) where
  | HAEvent (eid : EventId) (input : Input)
  | HAEvent_JobStartRequest (eid : EventId) (uuid : ListenerId) (input : Input)
  | Reply (output : Output)
  | JobFinished (listeners : List ListenerId) (output : Output)
  | Other (number : Nat)

/-- A request to start a job, with a listener if it is an indexed one. -/
structure JobRequest (Input : Type) where
  eid : EventId
  input : Input
  listeners : List ListenerId
deriving DecidableEq, Repr

inductive JobMessage.Type where
  | HAEvent
  | HAEvent_JobStartRequest
  | Reply
  | JobFinished
deriving DecidableEq, Repr

def JobMessage.Type.fingerprint (type : JobMessage.Type) : Nat := type.ctorIdx

namespace JobMessage
variable {Input Output : Type}

def fingerprint : JobMessage Input Output → Nat
  | .HAEvent .. => Type.HAEvent.fingerprint
  | .HAEvent_JobStartRequest .. => Type.HAEvent_JobStartRequest.fingerprint
  | .Reply _ => Type.Reply.fingerprint
  | .JobFinished .. => Type.JobFinished.fingerprint
  | .Other number => number + 4

def message (m : JobMessage Input Output) : Message (JobMessage Input Output) := ⟨m.fingerprint, m⟩

def request? : JobMessage Input Output → Option (JobRequest Input)
  | .HAEvent eid input => some ⟨eid, input, []⟩
  | .HAEvent_JobStartRequest eid uuid input => some ⟨eid, input, [uuid]⟩
  | _ => none

end JobMessage

/-- What a job is defined over: its inputs and outputs, and the rest of the state, the world and the values of programs. -/
structure Setting where
  Input : Type
  [order : LinearOrder Input]
  Output : Type
  Local : Type
  Global : Type
  World : Type
  Value : Type
  Exception : Type
  getTime : World → Int × World
  usend : Nat → Message (JobMessage Input Output) → World → World

attribute [instance] Setting.order

structure JobLocal (set : Setting) where
  request : Option set.Input
  reply : Option set.Output
  rest : set.Local

/-- The storage holds a description for every input with an instance. -/
structure JobGlobal (set : Setting) where
  storage : OrderedMap set.Input JobDescription
  rest : set.Global

/-- The requests that were acknowledged, and what a finished instance told all others. -/
structure JobWorld (set : Setting) where
  processed : List EventId
  replies : List set.Output
  finished : List (List ListenerId × set.Output)
  rest : set.World

inductive JobValue (set : Setting) where
  | unit
  | checked (result : Except String (set.Output × List (Jump PhaseHandle)))
  | other (value : set.Value)

@[reducible] def Setting.app (set : Setting) : Application where
  GlobalState := JobGlobal set
  LocalState := JobLocal set
  Value := JobValue set
  Payload := JobMessage set.Input set.Output
  World := JobWorld set
  Exception := set.Exception
  getTime w := ((set.getTime w.rest).1, { w with rest := (set.getTime w.rest).2 })
  usend pid a w := { w with rest := set.usend pid a w.rest }

/-- A job: its name, the initial state, the check of its input and the phases of its body. -/
structure Job (set : Setting) where
  name : String
  args : JobLocal set
  check_input : set.Input → PhaseM set.app
  phases : List (Phase set.app)

section
variable {set : Setting}

def messageProcessed (eid : EventId) (k : PhaseM set.app) : PhaseM set.app :=
  .Lift (fun w => (.ok .unit, { w with processed := w.processed ++ [eid] })) fun _ => k

def messagesProcessed : List EventId → PhaseM set.app → PhaseM set.app
  | [], k => k
  | eid :: eids, k => messageProcessed eid (messagesProcessed eids k)

def insertWithStorageMapRC (input : set.Input) (description : JobDescription) (k : PhaseM set.app) :
    PhaseM set.app :=
  .modifyGlobal (fun (g : JobGlobal set) => { g with storage := g.storage.insertWith JobDescription.mappend input description }) k

def notifyReply (output : set.Output) (k : PhaseM set.app) : PhaseM set.app :=
  .Lift (fun w => (.ok .unit, { w with replies := w.replies ++ [output] })) fun _ => .Publish (JobMessage.Reply output).message k

def notifyJobFinished (listeners : List ListenerId) (output : set.Output) (k : PhaseM set.app) :
    PhaseM set.app :=
  .Lift (fun w => (.ok .unit, { w with finished := w.finished ++ [(listeners, output)] })) fun _ =>
    .Publish (JobMessage.JobFinished listeners output).message k

end

namespace mkJobRule
variable {set : Setting} (job : Job set)

def request : Jump PhaseHandle := .NormalJump (job.name ++ " -> request")
def indexed_request : Jump PhaseHandle := .NormalJump (job.name ++ " -> indexed request")
def finish : Jump PhaseHandle := .NormalJump (job.name ++ " -> finish")
def end' : Jump PhaseHandle := .NormalJump (job.name ++ " -> end")

def startInstance (eid : EventId) (input : set.Input) (listeners : List ListenerId) (def' : set.Output)
    (next : List (Jump PhaseHandle)) :
    PhaseM set.app :=
  .modifyLocal (fun (l : JobLocal set) => { l with reply := some def' })
    (insertWithStorageMapRC input ⟨[eid], listeners⟩ (.Switch next))

def processRequest (eid : EventId) (input : set.Input) (listeners : List ListenerId) : PhaseM set.app :=
  .GetGlobal fun (g : JobGlobal set) =>
    if (g.storage.lookup input).isSome then
      if listeners.isEmpty then messageProcessed eid (.ret .unit)
      else insertWithStorageMapRC input ⟨[eid], listeners⟩ (.ret .unit)
    else
      .modifyLocal (fun (l : JobLocal set) => { l with request := some input }) ((job.check_input input).bind fun
        | .checked (.error _) => messageProcessed eid (.ret .unit)
        | .checked (.ok (def', next)) => .Fork .CopyNewerBuffer (startInstance eid input listeners def' next) (.ret .unit)
        | _ => .ret .unit)

def requestPhase : Phase set.app := setPhase (request job).value JobMessage.Type.HAEvent.fingerprint fun m =>
  match m.payload with
  | .HAEvent eid input => processRequest job eid input []
  | _ => .ret .unit

def indexedRequestPhase : Phase set.app :=
  setPhase (indexed_request job).value JobMessage.Type.HAEvent_JobStartRequest.fingerprint fun m =>
    match m.payload with
    | .HAEvent_JobStartRequest eid uuid input => processRequest job eid input [uuid]
    | _ => .ret .unit

def takeDescription (req : Option set.Input) (k : Option JobDescription → PhaseM set.app) : PhaseM set.app :=
  match req with
  | none => k none
  | some input => .GetGlobal fun (g : JobGlobal set) =>
    .PutGlobal { g with storage := g.storage.delete input } (k (g.storage.lookup input))

/-- Acknowledge the requests that were recorded, and tell the listeners the reply if there is one. -/
def settle (reply : Option set.Output) : Option JobDescription → PhaseM set.app
  | none => .Continue (end' job)
  | some description => messagesProcessed description.requestUUIDS (
    if description.listenersUUIDS.isEmpty then .Continue (end' job)
    else
      match reply with
      | some rep => notifyJobFinished description.listenersUUIDS rep (.Continue (end' job))
      | none => .Continue (end' job))

def finishPhase : Phase set.app := directly (finish job).value (.GetLocal fun (l : JobLocal set) =>
  takeDescription l.request fun mdescription =>
    match l.reply with
    | some rep => notifyReply rep (settle job l.reply mdescription)
    | none => settle job l.reply mdescription)

def endPhase : Phase set.app := directly (end' job).value .Stop

def listened : List (Jump PhaseHandle) := [request job, indexed_request job]

def phases : List (Phase set.app) :=
  [startForks.initPhase (listened job), startForks.clearPhase (listened job), startForks.endPhase,
    requestPhase job, indexedRequestPhase job, endPhase job, finishPhase job] ++ job.phases

end mkJobRule

def mkJobRule {set : Setting} (key : RuleKey) (job : Job set) : Rule set.app where
  key := key
  startPhase := .NormalJump (startForks.initPhase (mkJobRule.listened job))
  ps := phaseMap (mkJobRule.phases job)
  initialL := job.args

/-- The machines of a job, with the engine and the world, and the requests that have arrived. -/
structure JobSystem (set : Setting) where
  machines : List (SM set.app)
  engine : EngineState set.app
  world : JobWorld set
  requests : List (JobRequest set.Input)

/-- What can happen: a message arrives at all machines; one machine executes a step; other rules run. -/
inductive JobAction (set : Setting) where
  | arrives (m : JobMessage set.Input set.Output)
  | executes (index : Nat) (fuel : Nat) (subs : Subscribers)
  | others (engine : EngineState set.app) (rest : set.World)

namespace JobSystem
variable {set : Setting}

def remaining (machines : Machines set.app) : List (SM set.app) :=
  (machines.filter fun made => made.1.smResultState ≠ .SMStopped).map Prod.snd

def step (s : JobSystem set) : JobAction set → Option (JobSystem set)
  | .arrives m => some { s with
      machines := s.machines.map (SM.message m.message)
      requests := m.request?.toList ++ s.requests }
  | .executes index fuel subs =>
    match s.machines[index]? with
    | none => none
    | some sm =>
      match Stateful.outcome (sm.execute fuel subs) s.engine s.world with
      | (.ok (machines, engine), world) =>
        some { s with machines := s.machines.take index ++ remaining machines ++ s.machines.drop (index + 1), engine, world }
      | _ => none
  | .others engine rest => some { s with engine, world := { s.world with rest } }

def start (key : RuleKey) (job : Job set) (g : set.Global) (w : set.World) : JobSystem set where
  machines := [newSM (mkJobRule key job) emptyFifoBuffer]
  engine := ⟨0, 0, .empty, ⟨.empty, g⟩⟩
  world := ⟨[], [], [], w⟩
  requests := []

end JobSystem
end Halon.Recovery
