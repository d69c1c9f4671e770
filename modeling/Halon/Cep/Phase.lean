import Halon.Cep.Types

/-! Running a phase. The program is run to a safe point, and then the actions that
it forked are run, each to a safe point, in the order in which they were queued. -/

namespace Halon.Cep
open Library Stateful

/-- How a program ends: completed, with the jumps to try next, or suspended, or stopped. -/
inductive PhaseOut (app : Application) where
  | SM_Complete (l : app.LocalState) (phs : List (Jump PhaseHandle))
  | SM_Suspend
  | SM_Stop

def PhaseOut.isComplete {app : Application} : PhaseOut app → Bool
  | .SM_Complete .. => true
  | _ => false

structure Forked (app : Application) where
  smId : Nat
  buffer : Buffer app.Payload
  l : app.LocalState
  action : PhaseM app

structure Extraction (P : Type) where
  extractBuf : Buffer P
  extractMsg : Message P
  extractIndex : Index

variable {app : Application}

/-- What a program leaves: its buffer and end, the forked actions, and its value if it reached its end. -/
abbrev Evaluation (app : Application) :=
  ((Buffer app.Payload × PhaseOut app) × List (Forked app)) × Option app.Value

def notifySubscribers (subs : Subscribers) (a : Message app.Payload) : Process app.World (Failure app) Unit := fun w =>
  (.ok (), ((subs.lookup a.fingerprint).getD .empty).elements.foldl (fun w pid => app.usend pid a w) w)

/-- Look for a message that the predicate accepts, at each message once. A predicate that throws finds none. -/
def extractMatchMsg (type : Nat) (p : Message app.Payload → app.GlobalState → app.LocalState →
    Process app.World app.Exception (Option (Message app.Payload))) (l : app.LocalState) (buf : Buffer app.Payload) :
    EngineM app (Option (Extraction app.Payload)) :=
  go (bufferLength buf) (-1)
where
  go : Nat → Index → EngineM app (Option (Extraction app.Payload))
    | 0, _ => pure none
    | left + 1, lastIdx =>
      match bufferGetWithIndex type lastIdx buf with
      | some (newIdx, a, newBuf) => do
        let g := (← get).engineStateGlobal
        match ← attempt (liftM (liftProcess (p a g l))) with
        | .error _ => pure none
        | .ok none => go left newIdx
        | .ok (some b) => pure (some ⟨newBuf, b, newIdx⟩)
      | none => pure none

def extractNormalMsg {P : Type} (type : Nat) (buf : Buffer P) : Option (Extraction P) :=
  (bufferGet type buf).map fun found => ⟨found.2.2, found.2.1, found.1⟩

def extractSeqMsg {P : Type} (s : PhaseStep P) (sbuf : Buffer P) : Option (Extraction P) :=
  go (-1) sbuf s
where
  go (lastIdx : Index) (buf : Buffer P) : PhaseStep P → Option (Extraction P)
    | .Await type k =>
      match bufferGetWithIndex type lastIdx buf with
      | some (idx, i, buf') => go idx buf' (k i)
      | none => none
    | .Emit b => some ⟨buf, b, lastIdx⟩
    | .Error => none

def extractMsg (typ : PhaseType app) (l : app.LocalState) (buf : Buffer app.Payload) :
    EngineM app (Option (Extraction app.Payload)) :=
  match typ with
  | .PhaseMatch type p => extractMatchMsg type p l buf
  | .PhaseNone type => pure (extractNormalMsg type buf)
  | .PhaseSeq s => pure (extractSeqMsg s buf)

def reverseOn {α : Type} (p : α → Bool) (f : EngineM app α) : EngineM app α := do
  let old := (← get).engineStateGlobal
  let x ← f
  if p x then pure x
  else do
    modify fun e => { e with engineStateGlobal := old }
    pure x

def forkBuffer (typ : ForkType) (mindex : Option Index) (buf : Buffer app.Payload) : Buffer app.Payload :=
  match typ with
  | .NoBuffer => emptyFifoBuffer
  | .CopyBuffer => buf
  | .CopyNewerBuffer => (mindex.map fun idx => bufferDrop idx buf).getD buf

namespace PhaseM

/-- Run a program to a safe point. A forked action gets its id when the rest of the program has been run. -/
def go (subs : Subscribers) (mindex : Option Index) :
    PhaseM app → app.LocalState → Buffer app.Payload → EngineM app (Evaluation app)
  | .ret t, l, buf => pure (((buf, .SM_Complete l []), []), some t)
  | .Continue ph, l, buf => pure (((buf, .SM_Complete l [ph]), []), none)
  | .GetGlobal k, l, buf => do go subs mindex (k (← get).engineStateGlobal) l buf
  | .GetLocal k, l, buf => go subs mindex (k l) l buf
  | .PutGlobal s k, l, buf => do
    modify fun e => { e with engineStateGlobal := s }
    go subs mindex k l buf
  | .PutLocal s k, _, buf => go subs mindex k s buf
  | .Stop, _, buf => pure (((buf, .SM_Stop), []), none)
  | .Fork typ naction k, l, buf => do
    let (((b', out), phs), s) ← go subs mindex k l buf
    let smId ← nextSmId
    pure (((b', out), ⟨smId, forkBuffer typ mindex buf, l, naction⟩ :: phs), s)
  | .Lift m k, l, buf => do
    let a' ← liftM (liftProcess m)
    go subs mindex (k a') l buf
  | .Suspend, _, buf => pure (((buf, .SM_Suspend), []), none)
  | .Publish e k, l, buf => do
    liftM (notifySubscribers subs e)
    go subs mindex k l buf
  | .Switch xs, l, buf => pure (((buf, .SM_Complete l xs), []), none)
  | .Peek type idx k, l, buf =>
    match bufferPeek type idx buf with
    | none => pure (((buf, .SM_Suspend), []), none)
    | some r => go subs mindex (k r) l buf
  | .Shift type idx k, l, buf =>
    match bufferGetWithIndex type idx buf with
    | none => pure (((buf, .SM_Suspend), []), none)
    | some (r, z, buf') => go subs mindex (k (r, z)) l buf'
  | .Catch f caught h next, l, buf => do
    match ← attempt (go subs mindex f l buf) with
    | .ok (((buf', out), phs), mr) =>
      match out, mr with
      | .SM_Complete l' [], some r => do
        let ((z, phs'), t) ← go subs mindex (next r) l' buf'
        pure ((z, phs ++ phs'), t)
      | _, _ => pure (((buf, out), phs), none)
    | .error (.thrown e) =>
      if caught e then do
        let (((buf', out), phs), mr) ← go subs mindex (h e) l buf
        match out, mr with
        | .SM_Complete l' _, some r => do
          let ((z, phs'), s) ← go subs mindex (next r) l' buf'
          pure ((z, phs ++ phs'), s)
        | _, _ => pure (((buf', out), phs), none)
      else throw (.thrown e)
    | .error se => throw se

end PhaseM

abbrev Finished (app : Application) := Nat × Buffer app.Payload × PhaseOut app

/-- Run the queued programs. The forked actions of each come to the end of the queue. -/
def consume (subs : Subscribers) (mindex : Option Index) : Nat → List (Forked app) → EngineM app (List (Finished app))
  | _, [] => pure []
  | 0, _ :: _ => throw .exhausted
  | fuel + 1, forked :: phs => do
    let ((out, phs'), _) ← reverseOn (fun x => x.1.1.2.isComplete) (forked.action.go subs mindex forked.l forked.buffer)
    let rest ← consume subs mindex fuel (phs ++ phs')
    pure ((forked.smId, out) :: rest)

def runPhaseM (fuel : Nat) (subs : Subscribers) (idx : Nat) (pl : app.LocalState) (mindex : Option Index)
    (pb : Buffer app.Payload) (ph0 : PhaseM app) : EngineM app (List (Finished app)) :=
  consume subs mindex fuel [⟨idx, pb, pl, ph0⟩]

/-- Run one phase. A phase that needs a message is suspended when there is none for it. -/
def runPhase (fuel : Nat) (subs : Subscribers) (idm : Nat) (l : app.LocalState) (buf : Buffer app.Payload) (ph : Phase app) :
    EngineM app (List (Finished app)) :=
  match ph.phCall with
  | .DirectCall action => runPhaseM fuel subs idm l none buf action
  | .ContCall tpe k => do
    match ← extractMsg tpe l buf with
    | some ⟨newBuf, b, idx⟩ => do
      let result ← runPhaseM fuel subs idm l (some idx) newBuf (k b)
      result.forM fun finished =>
        if finished.2.2.isComplete then liftM (notifySubscribers subs b) else pure ()
      pure result
    | none => pure [(idm, buf, .SM_Suspend)]

end Halon.Cep
