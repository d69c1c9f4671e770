import Halon.Cep.Engine

/-! The driver of the engine. While the init rule runs it keeps every message, to
feed them all to the engine once the rule is done; then it runs the engine. -/

namespace Halon.Cep
open Library

/-- What the driver accepts. A request for runtime information is one only when the
init rule is done; before, it is a message like others. -/
inductive AcceptedMsg (P : Type) where
  | SubMsg (tpe pid : Nat)
  | Debug (pid : Nat) (mem : Bool)
  | UnsubMsg (tpe pid : Nat)
  | SomeMsg (m : Message P)
  | SomeSMsg (sfp : Nat) (payload : P)

/-- When and in which world a request is handled, and how many steps the model may take for it. -/
structure Moment (app : Application) where
  time : Int
  world : app.World
  fuel : Nat

/-- What an iteration of the driver finds: a message, if one is there, and the moments of its requests. -/
structure Occasion (app : Application) where
  received : Option (AcceptedMsg app.Payload)
  first : Moment app
  second : Moment app

inductive Driver (app : Application) where
  | bootstrap (ms : List (Request app.Payload)) (loop : Nat) (eng : Engine app)
  | forwardLeftOvers (eng : Engine app) (xs : List (Request app.Payload))
  | cruise (eng : Engine app)

/-- What the driver did: it took a message out of its mailbox, or had the engine handle a request. -/
inductive Event (app : Application) where
  | took (msg : AcceptedMsg app.Payload)
  | asked (before : Engine app) (req : Request app.Payload) (after : Engine app)

abbrev DriverM (app : Application) := StateT (List (Event app)) Option

variable {app : Application}

def stepForward (req : Request app.Payload) (m : Moment app) (eng : Engine app) :
    DriverM app (Response app.Payload × Engine app) := fun log =>
  match (eng.stepForward m.fuel req).outcome m.world with
  | (.ok (response, nxt_eng), _) => some ((response, nxt_eng), log ++ [.asked eng req nxt_eng])
  | (.error _, _) => none

def receiveTimeout (o : Occasion app) : DriverM app (Option (AcceptedMsg app.Payload)) := fun log =>
  match o.received with
  | none => some (none, log)
  | some msg => some (some msg, log ++ [.took msg])

def receiveWait (o : Occasion app) : DriverM app (AcceptedMsg app.Payload) := do
  match ← receiveTimeout o with
  | none => failure
  | some msg => pure msg

def timeoutMsg (m : Moment app) : Request app.Payload := .TimeoutArrived m.time

namespace Engine

def initRulePassed (eng : Engine app) : Bool := eng.machine.machInitRulePassed

def isRunning (eng : Engine app) : Bool := !eng.machine.machRunningSM.isEmpty

def nextEvent (eng : Engine app) : Option Int := (Machine.findMin eng.machine.machEvents).map fun event => event.2.1

end Engine

def Response.ignored {P : Type} : Response P → Bool
  | .info ⟨_, .MsgIgnored⟩ => true
  | _ => false

def Response.count {P : Type} : Response P → Nat
  | .awaken count => count
  | _ => 0

namespace Driver

def bootstrap.feed (ms : List (Request app.Payload)) (loop : Nat) (eng : Engine app) (o : Occasion app)
    (m : Request app.Payload) :
    DriverM app (Driver app) := do
  let (ri', nxt_eng') ← stepForward m o.first eng
  let (_, nxt_eng) ← stepForward .Tick o.second nxt_eng'
  if ri'.ignored then pure (.bootstrap (m :: ms) (loop + 1) nxt_eng)
  else if nxt_eng.initRulePassed then pure (.forwardLeftOvers nxt_eng (m :: ms).reverse)
  else pure (.bootstrap (m :: ms) (loop + 1) nxt_eng)

/-- Handle what was received, or run the engine if nothing was. -/
def cruise.go (eng inner : Engine app) (m : Moment app) : Option (AcceptedMsg app.Payload) → DriverM app (Driver app)
  | some (.Debug ..) => pure (.cruise eng)
  | some (.SubMsg tpe pid) => do
    let (_, nxt_eng) ← stepForward (.NewSub tpe pid) m inner
    pure (.cruise nxt_eng)
  | some (.UnsubMsg tpe pid) => do
    let (_, nxt_eng) ← stepForward (.Unsub tpe pid) m inner
    pure (.cruise nxt_eng)
  | some (.SomeMsg x) => do
    let (_, nxt_eng) ← stepForward (.Incoming x) m inner
    pure (.cruise nxt_eng)
  | some (.SomeSMsg sfp payload) => do
    let (_, nxt_eng) ← stepForward (.Unpersist sfp payload) m inner
    pure (.cruise nxt_eng)
  | none => do
    let (_, nxt_eng) ← stepForward .Tick m inner
    pure (.cruise nxt_eng)

def iterate (o : Occasion app) : Driver app → DriverM app (Driver app)
  | .bootstrap ms 1 eng => do
    let (_, nxt_eng) ← stepForward .Tick o.first eng
    if nxt_eng.initRulePassed then do
      let (_, eng') ← stepForward (timeoutMsg o.second) o.second nxt_eng
      pure (.cruise eng')
    else pure (.bootstrap ms 2 nxt_eng)
  | .bootstrap ms loop eng => do
    match ← receiveWait o with
    | .SubMsg tpe pid => do
      let (_, nxt_eng) ← stepForward (.NewSub tpe pid) o.first eng
      pure (.bootstrap ms (loop + 1) nxt_eng)
    | .UnsubMsg tpe pid => do
      let (_, nxt_eng) ← stepForward (.Unsub tpe pid) o.first eng
      pure (.bootstrap ms (loop + 1) nxt_eng)
    | .SomeMsg x => bootstrap.feed ms loop eng o (.Incoming x)
    | .SomeSMsg sfp payload => bootstrap.feed ms loop eng o (.Unpersist sfp payload)
    | .Debug .. => failure
  | .forwardLeftOvers eng [] => do
    let (_, eng') ← stepForward (timeoutMsg o.first) o.first eng
    pure (.cruise eng')
  | .forwardLeftOvers eng (x :: xs) => do
    let (_, nxt_eng) ← stepForward x o.first eng
    pure (.forwardLeftOvers nxt_eng xs)
  | .cruise eng => do
    let (c, eng') ← stepForward (timeoutMsg o.first) o.first eng
    if eng.isRunning then do
      cruise.go eng eng' o.second (← receiveTimeout o)
    else if c.count > 0 then pure (.cruise eng')
    else
      match eng.nextEvent with
      | none => do
        cruise.go eng eng o.second (some (← receiveWait o))
      | some _ => do
        match ← receiveTimeout o with
        | none => do
          let (_, eng'') ← stepForward (timeoutMsg o.second) o.second eng
          pure (.cruise eng'')
        | some msg => cruise.go eng eng o.second (some msg)

abbrev Recorded (app : Application) := Driver app × List (Event app)

def step (s : Recorded app) (o : Occasion app) : Option (Recorded app) := (iterate o s.1).run s.2

def runItForever (start_eng : Engine app) (m : Moment app) : Option (Recorded app) :=
  (do
    let (_, eng) ← stepForward (timeoutMsg m) m start_eng
    pure (.bootstrap [] 1 eng) : DriverM app (Driver app)).run []

end Driver
end Halon.Cep
