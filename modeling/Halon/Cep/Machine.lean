import Halon.Cep.Phase

/-! The stack machine that runs one instance of a rule. It tries the phases of its
stack in order until one completes. -/

namespace Halon.Cep
open Library Stateful

inductive SMState where
  | SMRunning
  | SMFinished
  | SMSuspended
  | SMStopped
deriving DecidableEq, Repr

inductive ExecutionFail where
  | SuspendExe
  | StopExe
deriving DecidableEq, Repr

inductive ExecutionInfo (P : Type) where
  | SuccessExe (phase : String) (prevBuf buf : Buffer P)
  | FailExe (target : String) (fail : ExecutionFail) (buf : Buffer P)

structure SMResult (P : Type) where
  smId : Nat
  smResultState : SMState
  smResultInfo : List (ExecutionInfo P)

/-- A rule: its initial phase, its phases by name, and its initial local state. -/
structure Rule (app : Application) where
  key : RuleKey
  startPhase : Jump (Phase app)
  ps : List (String × Jump (Phase app))
  initialL : app.LocalState

/-- A machine that was not run yet has no id. -/
inductive SM (app : Application) where
  | bootstrap (rule : Rule app) (b : Buffer app.Payload)
  | interpretInput (rule : Rule app) (smid : Nat) (l : app.LocalState) (b : Buffer app.Payload) (phs : Stack app)
  | stopped

/-- The machines that a step leaves, with their results. -/
abbrev Machines (app : Application) := List (SMResult app.Payload × SM app)

variable {app : Application}

def newSM (rule : Rule app) (initialBuffer : Buffer app.Payload) : SM app := .bootstrap rule initialBuffer

def mkPhase (rule : Rule app) (jmp : Jump PhaseHandle) : EngineM app (Jump (Phase app)) :=
  match rule.ps.lookup (jumpPhaseHandle jmp) with
  | some ph => pure (jumpBaseOn jmp ph)
  | none => throw .phaseNotFound

def stoppedSM (mkInfo : List (ExecutionInfo app.Payload) → List (ExecutionInfo app.Payload)) (smid : Nat) :
    SMResult app.Payload × SM app :=
  (⟨smid, .SMStopped, mkInfo []⟩, .stopped)

/-- What follows from a result of the phase `ph`. A rule without next phases starts
anew. A result that is not complete makes the rest of the stack run, with the id
and the state of the machine whose stack it is, whichever program the result is of. -/
def next (rule : Rule app) (info : List (ExecutionInfo app.Payload) → List (ExecutionInfo app.Payload)) (b : Buffer app.Payload)
    (ph : Phase app) (suspended stopped : EngineM app (Machines app)) :
    Finished app → EngineM app (Machines app)
  | (idm, buffer, .SM_Complete _ []) => do
    let fin_phs ← jumpEmitTimeout rule.key rule.startPhase
    pure [(⟨idm, .SMFinished, info [.SuccessExe ph.phName b buffer]⟩,
      .interpretInput rule idm rule.initialL buffer [fin_phs])]
  | (idm, buffer, .SM_Complete l' (jmp :: phs')) => do
    let fin_phs ← (jmp :: phs').mapM fun jmp => do jumpEmitTimeout rule.key (← mkPhase rule jmp)
    pure [(⟨idm, .SMRunning, info [.SuccessExe ph.phName b buffer]⟩, .interpretInput rule idm l' buffer fin_phs)]
  | (_, _, .SM_Suspend) => suspended
  | (_, _, .SM_Stop) => stopped

/-- Run phases in order. Those that were suspended are put back, by `f`, when none completes. -/
def executeStack (fuel : Nat) (rule : Rule app) (subs : Subscribers) (smid : Nat) (l : app.LocalState) (b : Buffer app.Payload) :
    Stack app → (Stack app → Stack app) →
      (List (ExecutionInfo app.Payload) → List (ExecutionInfo app.Payload)) → EngineM app (Machines app)
  | [], f, info =>
    match f [] with
    | [] => pure [stoppedSM info smid]
    | phs => pure [(⟨smid, .SMSuspended, info []⟩, .interpretInput rule smid l b phs)]
  | jmp :: phs, f, info => do
    match ← jumpApplyTime rule.key jmp with
    | .inl nxt_jmp =>
      let i := .FailExe (jumpPhaseName jmp) .SuspendExe b
      executeStack fuel rule subs smid l b phs (f ∘ (nxt_jmp :: ·)) (info ∘ (i :: ·))
    | .inr ph => do
      let m ← runPhase fuel subs smid l b ph
      let suspended := executeStack fuel rule subs smid l b phs (f ∘ (.NormalJump ph :: ·))
        (info ∘ (.FailExe ph.phName .SuspendExe b :: ·))
      let stopped := executeStack fuel rule subs smid l b phs f (info ∘ (.FailExe ph.phName .StopExe b :: ·))
      let results ← m.mapM (next rule info b ph suspended stopped)
      pure results.flatten

namespace SM

def message (msg : Message app.Payload) : SM app → SM app
  | .bootstrap rule b => .bootstrap rule (bufferInsert msg b)
  | .interpretInput rule smid l b phs => .interpretInput rule smid l (bufferInsert msg b) phs
  | .stopped => .stopped

/-- Execute one step. The first one gives the machine its id. -/
def execute (fuel : Nat) (subs : Subscribers) : SM app → EngineM app (Machines app)
  | .bootstrap rule b => do
    let ph ← jumpEmitTimeout rule.key rule.startPhase
    let sm ← nextSmId
    executeStack fuel rule subs sm rule.initialL b [ph] id id
  | .interpretInput rule smid l b phs => executeStack fuel rule subs smid l b phs id id
  | .stopped => throw .stoppedMachine

end SM
end Halon.Cep
