import Halon.Cep.Buffer
import Halon.Library.Effects
import Halon.Library.OrderedSet

/-! The types of the event engine: phases as programs, jumps to phases, and the
part of the engine's state that phases can change. What an instruction or a
program returns is an element of one type of values. -/

namespace Halon.Cep
open Library Stateful

/-- An application over which the engine is parametrised, with the world it runs in. -/
structure Application where
  GlobalState : Type
  LocalState : Type
  Value : Type
  Payload : Type
  World : Type
  Exception : Type
  getTime : World → Int × World
  usend : Nat → Message Payload → World → World

/-- Why an engine step ends without a next state. The last is not an error of the
engine: the model was not given enough steps. -/
inductive Failure (app : Application) where
  | thrown (e : app.Exception)
  | phaseNotFound
  | initRuleForked
  | stoppedMachine
  | exhausted

inductive Time where
  | Absolute (time : Int)
  | Relative (seconds : Int)
deriving DecidableEq, Repr

def toSecs (i : Int) : Int := i * 1000000000

def Time.append : Time → Time → Time
  | .Relative a, .Relative b => .Relative (a + b)
  | .Relative a, .Absolute b => .Absolute (b + toSecs a)
  | .Absolute a, .Relative b => .Absolute (a + toSecs b)
  | .Absolute a, .Absolute b => .Absolute (max a b)

/-- Rules are ordered by their number. -/
structure RuleKey where
  ruleKeyId : Int
  ruleKeyName : String
deriving DecidableEq, Repr

def initRuleKey : RuleKey := ⟨0, "init"⟩

abbrev PhaseHandle := String

inductive Jump (α : Type) where
  | NormalJump (a : α)
  | OnTimeJump (t : Time) (a : α)
deriving DecidableEq, Repr

inductive ForkType where
  | NoBuffer
  | CopyBuffer
  | CopyNewerBuffer
deriving DecidableEq, Repr

/-- A phase program. What stands after an instruction that ends the phase is never
run and left out; the handler of `catch` runs for the exceptions of its type. -/
inductive PhaseM (app : Application) where
  | ret (a : app.Value)
  | Continue (ph : Jump PhaseHandle)
  | GetGlobal (k : app.GlobalState → PhaseM app)
  | GetLocal (k : app.LocalState → PhaseM app)
  | PutGlobal (s : app.GlobalState) (k : PhaseM app)
  | PutLocal (s : app.LocalState) (k : PhaseM app)
  | Stop
  | Fork (typ : ForkType) (naction : PhaseM app) (k : PhaseM app)
  | Lift (m : Process app.World app.Exception app.Value) (k : app.Value → PhaseM app)
  | Suspend
  | Publish (e : Message app.Payload) (k : PhaseM app)
  | Switch (xs : List (Jump PhaseHandle))
  | Peek (type : Nat) (idx : Index) (k : Index × Message app.Payload → PhaseM app)
  | Shift (type : Nat) (idx : Index) (k : Index × Message app.Payload → PhaseM app)
  | Catch (f : PhaseM app) (caught : app.Exception → Bool) (h : app.Exception → PhaseM app) (next : app.Value → PhaseM app)

/-- A little state machine over messages that come one after another. -/
inductive PhaseStep (P : Type) where
  | Await (type : Nat) (k : Message P → PhaseStep P)
  | Emit (b : Message P)
  | Error

inductive PhaseType (app : Application) where
  | PhaseMatch (type : Nat) (p : Message app.Payload → app.GlobalState → app.LocalState →
      Process app.World app.Exception (Option (Message app.Payload)))
  | PhaseNone (type : Nat)
  | PhaseSeq (s : PhaseStep app.Payload)

inductive PhaseCall (app : Application) where
  | DirectCall (action : PhaseM app)
  | ContCall (typ : PhaseType app) (k : Message app.Payload → PhaseM app)

structure Phase (app : Application) where
  phName : String
  phCall : PhaseCall app

/-- The alternatives of a machine. -/
abbrev Stack (app : Application) := List (Jump (Phase app))

abbrev Subscribers := SetMap Nat Nat

structure EngineState (app : Application) where
  engineStateMaxId : Nat
  engineTimestamp : Int
  engineEvents : OrderedMap Int (Int × RuleKey)
  engineStateGlobal : app.GlobalState

variable {app : Application}

abbrev EngineM (app : Application) := Stateful (EngineState app) app.World (Failure app)

def liftProcess {α : Type} (m : Process app.World app.Exception α) : Process app.World (Failure app) α := fun w =>
  match m.outcome w with
  | (.ok value, w') => (.ok value, w')
  | (.error e, w') => (.error (.thrown e), w')

def nextSmId : EngineM app Nat := do
  let smId := (← get).engineStateMaxId
  modify fun e => { e with engineStateMaxId := smId + 1 }
  pure smId

def dueTime (app : Application) : Time → Process app.World (Failure app) Int
  | .Absolute k => pure k
  | .Relative r => fun w => (.ok ((app.getTime w).1 + toSecs r), (app.getTime w).2)

/-- A rule has one event, at the earliest of its times. -/
def addEvent (key : RuleKey) (t : Time) : EngineM app Time := do
  let t' ← liftM (dueTime app t)
  modify fun e => { e with engineEvents := e.engineEvents.alter (fun
    | none => some (t', key)
    | some (o, _) => some (min t' o, key)) key.ruleKeyId }
  pure (.Absolute t')

namespace Jump
variable {α β : Type}

def value : Jump α → α
  | .NormalJump a => a
  | .OnTimeJump _ a => a

end Jump

def timeout (dt : Int) : Jump PhaseHandle → Jump PhaseHandle
  | .NormalJump a => .OnTimeJump (Time.append (.Relative 0) (.Relative dt)) a
  | .OnTimeJump d a => .OnTimeJump (d.append (.Relative dt)) a

def jumpPhaseName (jmp : Jump (Phase app)) : String := jmp.value.phName

def jumpPhaseHandle (jmp : Jump PhaseHandle) : String := jmp.value

/-- A jump that is due gives its value. -/
def jumpApplyTime {α : Type} (key : RuleKey) : Jump α → EngineM app (Jump α ⊕ α)
  | .NormalJump h => pure (.inr h)
  | .OnTimeJump p h => do
    let ct := (← get).engineTimestamp
    match p with
    | .Absolute wt =>
      if ct < wt then do
        let p' ← addEvent key p
        pure (.inl (.OnTimeJump p' h))
      else pure (.inr h)
    | .Relative _ => do
      let p' ← addEvent key p
      pure (.inl (.OnTimeJump (Time.append (.Absolute ct) p') h))

def jumpBaseOn {α β : Type} : Jump α → Jump β → Jump β
  | .OnTimeJump p _, .OnTimeJump r b => .OnTimeJump (p.append r) b
  | .OnTimeJump p _, .NormalJump b => .OnTimeJump p b
  | .NormalJump _, jmp => jmp

def jumpEmitTimeout {α : Type} (key : RuleKey) (jmp : Jump α) : EngineM app (Jump α) := do
  match ← jumpApplyTime key jmp with
  | .inl (.OnTimeJump r b) => do
    let r' ← addEvent key r
    pure (.OnTimeJump r' b)
  | .inl nxt_jmp => pure nxt_jmp
  | .inr a => pure (.NormalJump a)

end Halon.Cep
