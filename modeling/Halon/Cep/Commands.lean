import Halon.Cep.Machine

/-! Programs made of programs, phases by what they wait for, and the phases around a rule
that does its work in forks. -/

namespace Halon.Cep
open Library Stateful
variable {app : Application}

namespace PhaseM

/-- Run a program and go on with its value. A program that ends the phase does not go on. -/
def bind : PhaseM app → (app.Value → PhaseM app) → PhaseM app
  | .ret a, f => f a
  | .Continue ph, _ => .Continue ph
  | .GetGlobal k, f => .GetGlobal fun g => (k g).bind f
  | .GetLocal k, f => .GetLocal fun l => (k l).bind f
  | .PutGlobal s k, f => .PutGlobal s (k.bind f)
  | .PutLocal s k, f => .PutLocal s (k.bind f)
  | .Stop, _ => .Stop
  | .Fork typ naction k, f => .Fork typ naction (k.bind f)
  | .Lift m k, f => .Lift m fun a => (k a).bind f
  | .Suspend, _ => .Suspend
  | .Publish e k, f => .Publish e (k.bind f)
  | .Switch xs, _ => .Switch xs
  | .Peek type idx k, f => .Peek type idx fun r => (k r).bind f
  | .Shift type idx k, f => .Shift type idx fun r => (k r).bind f
  | .Catch g caught h next, f => .Catch g caught h fun a => (next a).bind f

def modifyLocal (f : app.LocalState → app.LocalState) (k : PhaseM app) : PhaseM app := .GetLocal fun l => .PutLocal (f l) k

def modifyGlobal (f : app.GlobalState → app.GlobalState) (k : PhaseM app) : PhaseM app := .GetGlobal fun g => .PutGlobal (f g) k

end PhaseM

def directly (name : String) (action : PhaseM app) : Phase app := ⟨name, .DirectCall action⟩

def setPhase (name : String) (type : Nat) (action : Message app.Payload → PhaseM app) : Phase app :=
  ⟨name, .ContCall (.PhaseNone type) action⟩

def setPhaseIf (name : String) (type : Nat)
    (p : Message app.Payload → app.GlobalState → app.LocalState → Process app.World app.Exception (Option (Message app.Payload)))
    (action : Message app.Payload → PhaseM app) : Phase app :=
  ⟨name, .ContCall (.PhaseMatch type p) action⟩

namespace startForks

def wrapper_init : Jump PhaseHandle := .NormalJump "wrapper_init"
def wrapper_clear : Jump PhaseHandle := .NormalJump "wrapper_clear"
def wrapper_end : Jump PhaseHandle := .NormalJump "wrapper_end"

def initPhase (rules : List (Jump PhaseHandle)) : Phase app := directly wrapper_init.value (.Switch (rules ++ [wrapper_clear]))

def clearPhase (rules : List (Jump PhaseHandle)) : Phase app :=
  directly wrapper_clear.value (.Fork .NoBuffer (.Switch (rules ++ [timeout 60 wrapper_clear])) (.Continue wrapper_end))

def endPhase : Phase app := directly wrapper_end.value .Stop

end startForks

def phaseMap (phases : List (Phase app)) : List (String × Jump (Phase app)) := phases.map fun ph => (ph.phName, .NormalJump ph)

end Halon.Cep
