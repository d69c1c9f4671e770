import Halon.Cep.Machine

/-! The engine. It keeps the machines of all rules, running or suspended, and
handles messages, ticks and timeouts. An init rule, if there is one, is run first. -/

namespace Halon.Cep
open Library Stateful

/-- A type of messages, by its fingerprint in this program and by the one that persists. -/
structure TypeInfo where
  fingerprint : Nat
  stableprint : Nat
deriving DecidableEq, Repr

structure RuleData (app : Application) where
  ruleDataName : String
  ruleStack : SM app
  ruleTypes : List TypeInfo

structure SMData (app : Application) where
  smId : Nat
  key : RuleKey
  data : RuleData app

inductive RuleName where
  | InitRuleName
  | UserRuleName (name : String)
deriving DecidableEq, Repr

structure RuleInfo (P : Type) where
  ruleName : RuleName
  ruleResults : List (SMState × List (ExecutionInfo P))

inductive RunResult (P : Type) where
  | RulesBeenTriggered (infos : List (RuleInfo P))
  | MsgIgnored

structure RunInfo (P : Type) where
  runTotalProcessedMsgs : Nat
  runResult : RunResult P

structure InitRule (app : Application) where
  initRuleData : RuleData app
  initRuleTypes : List Nat

structure Machine (app : Application) where
  /-- The rules, in the order of their numbers. -/
  machRuleData : List (RuleKey × RuleData app)
  machSubs : Subscribers
  machRuleFin : Option (app.GlobalState → Process app.World app.Exception app.GlobalState)
  machRuleCount : Nat
  machPhaseBuf : Buffer app.Payload
  /-- The rules that are interested in a type of messages. -/
  machTypeMap : OrderedMap Nat (List RuleKey)
  machState : app.GlobalState
  machInitRule : Option (InitRule app)
  machTotalProcMsgs : Nat
  machInitRulePassed : Bool
  machRunningSM : List (SMData app)
  machSuspendedSM : List (SMData app)
  machDefaultHandler : Option (Nat → app.Payload → app.GlobalState → Process app.World app.Exception Unit)
  machMaxThreadId : Nat
  machSFingerprint : OrderedMap Nat Nat
  machTimestamp : Int
  machEvents : OrderedMap Int (Int × RuleKey)

structure Started (app : Application) where
  startPhase : Jump (Phase app)
  ps : List (String × Jump (Phase app))
  initialL : app.LocalState
  types : List TypeInfo

inductive Declare (app : Application) where
  | DefineRule (n : String) (m : Started app)
  | Init (m : Started app)
  | RuleFinalizer (action : app.GlobalState → Process app.World app.Exception app.GlobalState)
  | PhaseBuffer (buf : Buffer app.Payload)
  | DefaultHandler (f : Nat → app.Payload → app.GlobalState → Process app.World app.Exception Unit)

inductive Request (P : Type) where
  | Tick
  | Incoming (m : Message P)
  | Unpersist (sfp : Nat) (payload : P)
  | NewSub (tpe pid : Nat)
  | Unsub (tpe pid : Nat)
  | TimeoutArrived (t : Int)

inductive Engine (app : Application) where
  | cepInitRule (ir : InitRule app) (st : Machine app)
  | cepCruise (st : Machine app)

variable {app : Application}

namespace Machine

abbrev MachineM (app : Application) := Stateful (Machine app) app.World (Failure app)

def engineState (m : Machine app) : EngineState app := ⟨m.machMaxThreadId, m.machTimestamp, m.machEvents, m.machState⟩

def setEngineState (e : EngineState app) (m : Machine app) : Machine app :=
  { m with machMaxThreadId := e.engineStateMaxId, machTimestamp := e.engineTimestamp,
           machEvents := e.engineEvents, machState := e.engineStateGlobal }

def cepSubRequest (st : Machine app) (tpe pid : Nat) : Machine app :=
  { st with machSubs := st.machSubs.alter (fun pids => some ((pids.getD .empty).insert pid)) tpe }

def cepUnsubRequest (st : Machine app) (tpe pid : Nat) : Machine app :=
  { st with machSubs := st.machSubs.alter (fun
      | none => none
      | some xs => if xs.delete pid = .empty then none else some (xs.delete pid)) tpe }

def addMachines (d : SMData app) (machines : Machines app) (st : Machine app) : Machine app :=
  let mkSM (x : SMResult app.Payload × SM app) : SMData app := ⟨x.1.smId, d.key, { d.data with ruleStack := x.2 }⟩
  let addRunning := (machines.filter fun x => x.1.smResultState = .SMRunning ∨ x.1.smResultState = .SMFinished).map mkSM
  let addSuspended := (machines.filter fun x => x.1.smResultState = .SMSuspended).map mkSM
  { st with machRunningSM := addRunning ++ st.machRunningSM, machSuspendedSM := addSuspended ++ st.machSuspendedSM }

def execute (fuel : Nat) (d : SMData app) : MachineM app (RuleInfo app.Payload) := do
  let sti ← get
  let machines ← zoom engineState setEngineState (d.data.ruleStack.execute fuel sti.machSubs)
  modify (addMachines d machines)
  pure ⟨.UserRuleName d.data.ruleDataName, machines.map fun x => (x.1.smResultState, x.1.smResultInfo)⟩

def executeTick (fuel : Nat) : MachineM app (List (RuleInfo app.Payload)) := do
  let running := (← get).machRunningSM
  modify fun st => { st with machRunningSM := [] }
  let info ← running.mapM (execute fuel)
  let sti ← get
  match sti.machRuleFin with
  | none => pure info
  | some k => do
    let g ← liftM (liftProcess (k sti.machState))
    modify fun n => { n with machState := g }
    pure info

/-- The earliest event, of the rule with the lowest number if there are several. -/
def findMin (events : OrderedMap Int (Int × RuleKey)) : Option (Int × Int × RuleKey) :=
  events.entries.foldl (fun least entry =>
    match least with
    | none => some entry
    | some least => if entry.2.1 < least.2.1 then some entry else some least) none

/-- Wake the suspended machines of all rules with an event that is due. The source
continues from the state in which the request came, of which only the fields
that are not set here are left. -/
def wake (st : Machine app) (ts : Int) : Nat → Nat → Machine app → Nat × Machine app
  | 0, c, nst => (c, nst)
  | left + 1, c, nst =>
    match findMin nst.machEvents with
    | none => (c, nst)
    | some (psqKey, t', key) =>
      if ts < t' then (c, nst)
      else
        wake st ts left (c + 1)
          { st with machRunningSM := nst.machRunningSM ++ nst.machSuspendedSM.filter (fun d => key = d.key),
                    machSuspendedSM := nst.machSuspendedSM.filter (fun d => key ≠ d.key),
                    machEvents := nst.machEvents.delete psqKey }

def timeoutArrived (ts : Int) (st : Machine app) : Nat × Machine app :=
  wake st ts (st.machEvents.entries.length + 1) 0 { st with machTimestamp := ts }

/-- Put a message into the buffer of every machine of an interested rule, and make those that were suspended run. -/
def incoming (m : Message app.Payload) (st : Machine app) : RunInfo app.Payload × Machine app :=
  let keys := (st.machTypeMap.lookup m.fingerprint).getD []
  let feed (d : SMData app) : SMData app := { d with data := { d.data with ruleStack := d.data.ruleStack.message m } }
  let interested (d : SMData app) : Bool := d.key ∈ keys
  let running' := st.machRunningSM.map fun d => if interested d then feed d else d
  let running := (st.machSuspendedSM.filter interested).map feed
  let susp := st.machSuspendedSM.filter fun d => !interested d
  let fed := (st.machRunningSM.filter interested).length + running.length
  (⟨fed, if fed = 0 then .MsgIgnored else .RulesBeenTriggered []⟩,
    { st with machRunningSM := running' ++ running, machSuspendedSM := susp })

def emptyMachine (s : app.GlobalState) : Machine app where
  machRuleData := []
  machSubs := .empty
  machRuleFin := none
  machRuleCount := 0
  machPhaseBuf := fifoBuffer .Unbounded
  machTypeMap := .empty
  machState := s
  machInitRule := none
  machTotalProcMsgs := 0
  machInitRulePassed := false
  machRunningSM := []
  machSuspendedSM := []
  machDefaultHandler := none
  machMaxThreadId := 0
  machSFingerprint := .empty
  machTimestamp := 0
  machEvents := .empty

def buildRuleData (name : String) (key : RuleKey) (m : Started app) (buf : Buffer app.Payload) : RuleData app :=
  ⟨name, newSM ⟨key, m.startPhase, m.ps, m.initialL⟩ buf, m.types⟩

def declare (st : Machine app) : Declare app → Machine app
  | .DefineRule n m =>
    let key : RuleKey := ⟨st.machRuleCount, n⟩
    { st with machRuleData := st.machRuleData ++ [(key, buildRuleData n key m st.machPhaseBuf)],
              machRuleCount := st.machRuleCount + 1 }
  | .Init m =>
    let dat := buildRuleData "init" initRuleKey m st.machPhaseBuf
    { st with machInitRule := some ⟨dat, dat.ruleTypes.map TypeInfo.fingerprint⟩ }
  | .RuleFinalizer action => { st with machRuleFin := some action }
  | .PhaseBuffer buf => { st with machPhaseBuf := buf }
  | .DefaultHandler f => { st with machDefaultHandler := some f }

def fillMachineTypeMap (st : Machine app) : Machine app :=
  { st with
    machTypeMap := st.machRuleData.foldr (fun entry m => entry.2.ruleTypes.foldr (fun info m =>
      m.alter (fun keys => some (entry.1 :: keys.getD [])) info.fingerprint) m) .empty
    machSFingerprint := st.machRuleData.foldr (fun entry m => entry.2.ruleTypes.foldr (fun info m =>
      m.insert info.stableprint info.fingerprint) m) .empty }

def buildMachine (s : app.GlobalState) (defs : List (Declare app)) : Machine app :=
  fillMachineTypeMap (defs.foldl declare (emptyMachine s))

def start (st : Machine app) : Machine app :=
  let sms := st.machRuleData.zipIdx.map fun (entry, i) => ⟨st.machMaxThreadId + i, entry.1, entry.2⟩
  { st with machRunningSM := sms, machMaxThreadId := st.machMaxThreadId + sms.length }

/-- A persisted message is turned into a message of the type registered for it, if any. -/
def decode (st : Machine app) : Request app.Payload → Option (Request app.Payload)
  | .Unpersist sfp payload => (st.machSFingerprint.lookup sfp).map fun fp => .Incoming ⟨fp, payload⟩
  | req => some req

/-- Hand a persisted message of an unknown type to its handler. -/
def unknown (st : Machine app) : Request app.Payload → Process app.World (Failure app) Unit
  | .Unpersist sfp payload =>
    match st.machDefaultHandler with
    | none => pure ()
    | some handler => liftProcess (handler sfp payload st.machState)
  | _ => pure ()

end Machine

inductive Response (P : Type) where
  | info (run : RunInfo P)
  | awaken (count : Nat)
  | done

namespace Engine

def cepInit (st : Machine app) : Engine app :=
  match st.machInitRule with
  | none => .cepCruise { st.start with machInitRulePassed := true }
  | some ir => .cepInitRule ir st.start

def cepEngine (s : app.GlobalState) (defs : List (Declare app)) : Engine app := cepInit (Machine.buildMachine s defs)

abbrev EngineStep (app : Application) := Process app.World (Failure app) (Response app.Payload × Engine app)

def ignored (st : Machine app) : Response app.Payload := .info ⟨st.machTotalProcMsgs, .MsgIgnored⟩

def defaultHandler (st : Machine app) (next : Machine app → Engine app) : Request app.Payload → Response app.Payload × Engine app
  | .NewSub tpe pid => (.done, next (st.cepSubRequest tpe pid))
  | .Unsub tpe pid => (.done, next (st.cepUnsubRequest tpe pid))
  | .TimeoutArrived t => (.awaken 0, next { st with machTimestamp := t })
  | .Tick | .Incoming _ | .Unpersist .. => (ignored st, next st)

/-- Step the init rule until it does not run any more. It must not fork. -/
def initTick (fuel : Nat) : Nat → InitRule app → Machine app → EngineStep app
  | 0, _, _ => throw .exhausted
  | left + 1, ir, st => do
    let (machines, e) ← (ir.initRuleData.ruleStack.execute fuel st.machSubs).run st.engineState
    match machines with
    | [(⟨_, out, infos⟩, nxt_stk)] =>
      let ir' : InitRule app := { ir with initRuleData := { ir.initRuleData with ruleStack := nxt_stk } }
      let nxt_st := { st with machState := e.engineStateGlobal, machEvents := e.engineEvents }
      let info := .info ⟨st.machTotalProcMsgs, .RulesBeenTriggered [⟨.InitRuleName, [(out, infos)]⟩]⟩
      match out with
      | .SMFinished =>
        pure (info, .cepCruise { nxt_st with machInitRulePassed := true, machMaxThreadId := e.engineStateMaxId })
      | .SMRunning => initTick fuel left ir' nxt_st
      | _ => pure (info, .cepInitRule ir' nxt_st)
    | _ => throw .initRuleForked

def initRuleStep (fuel : Nat) (ir : InitRule app) (st : Machine app) (req : Request app.Payload) : EngineStep app :=
  match req with
  | .Tick => initTick fuel fuel ir st
  | .Incoming m =>
    if m.fingerprint ∈ ir.initRuleTypes then
      let ir' : InitRule app :=
        { ir with initRuleData := { ir.initRuleData with ruleStack := ir.initRuleData.ruleStack.message m } }
      pure (.info ⟨0, .RulesBeenTriggered []⟩, .cepInitRule ir' { st with machTotalProcMsgs := st.machTotalProcMsgs + 1 })
    else pure (defaultHandler st (.cepInitRule ir) req)
  | _ => pure (defaultHandler st (.cepInitRule ir) req)

def cruiseStep (fuel : Nat) (st : Machine app) (req : Request app.Payload) : EngineStep app :=
  match req with
  | .Tick => do
    let (infos, nxt_st) ← (Machine.executeTick fuel).run st
    pure (.info ⟨nxt_st.machTotalProcMsgs, .RulesBeenTriggered infos⟩, .cepCruise nxt_st)
  | .TimeoutArrived ts =>
    let (c, nxt_st) := st.timeoutArrived ts
    pure (.awaken c, .cepCruise nxt_st)
  | .Incoming m =>
    if (st.machTypeMap.lookup m.fingerprint).isSome then
      let (rinfo, nxt_st) := st.incoming m
      pure (.info rinfo, .cepCruise nxt_st)
    else pure (defaultHandler st .cepCruise req)
  | _ => pure (defaultHandler st .cepCruise req)

def stepForward (fuel : Nat) (req : Request app.Payload) : Engine app → EngineStep app
  | .cepInitRule ir st =>
    match st.decode req with
    | some req => initRuleStep fuel ir st req
    | none => do
      st.unknown req
      pure (.info ⟨0, .MsgIgnored⟩, .cepInitRule ir st)
  | .cepCruise st =>
    match st.decode req with
    | some req => cruiseStep fuel st req
    | none => do
      st.unknown req
      pure (.info ⟨0, .MsgIgnored⟩, .cepCruise st)

def machine : Engine app → Machine app
  | .cepInitRule _ st => st
  | .cepCruise st => st

/-- A request, the world in which it comes, and the number of steps that the model may take for it. -/
structure Input (app : Application) where
  request : Request app.Payload
  world : app.World
  fuel : Nat

def step (e : Engine app) (i : Input app) : Option (Engine app) :=
  match (stepForward i.fuel i.request e).outcome i.world with
  | (.ok (_, next), _) => some next
  | (.error _, _) => none

end Engine
end Halon.Cep
