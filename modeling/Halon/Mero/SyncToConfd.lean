import Halon.Mero.Liveness
import Halon.Recovery.Job

/-! Synchronising the graph to the servers of the configuration. Repairs that go on are
quiesced first, or aborted where that fails. The transaction is committed by a worker
of its own, which reports with a message. -/

namespace Halon.Mero
open Library Cep
open Recovery (ListenerId)

abbrev Transaction := Nat
abbrev ByteString := List UInt8

structure ConfSyncState where
  cssHash : Option Int
  cssForce : Bool
  /-- The pending jobs that quiesce a repair, and those that abort one. -/
  cssQuiescing : List ListenerId
  cssAborting : List ListenerId
deriving DecidableEq, Repr

def defaultConfSyncState : ConfSyncState := ⟨none, false, [], []⟩

inductive QuiesceSNSOperationResult where
  | QuiesceSNSOperationOk (pool : ConfObj)
  | QuiesceSNSOperationFailure (pool : ConfObj) (reason : String)
  | QuiesceSNSOperationSkip (pool : ConfObj)

inductive AbortSNSOperationResult where
  | AbortSNSOperationOk (pool : ConfObj)
  | AbortSNSOperationFailure (pool : ConfObj) (reason : String)
  | AbortSNSOperationSkip (pool : ConfObj)

inductive SnsJob where
  | QuiesceSNSOperation (pool : ConfObj)
  | AbortSNSOperation (pool : ConfObj) (uuid : Nat)

inductive SyncToConfd where
  | SyncToConfdServersInRG (force : Bool)
  | SyncDumpToBS (pid : Nat)

/-- The messages for rules with a synchronisation. A job that finished is reported with the listeners that waited for it. -/
inductive SyncMessage where
  | sync (eid : Nat) (afterSync : SyncToConfd)
  | localSync (uuid : Nat) (afterSync : SyncToConfd)
  | quiesceFinished (listeners : List ListenerId) (result : QuiesceSNSOperationResult)
  | abortFinished (listeners : List ListenerId) (result : AbortSNSOperationResult)
  | synchronized (h : Option Int) (r : Except String Unit)
  | other (number : Nat)

inductive SyncMessage.Type where
  | HAEvent_SyncToConfd
  | UUID_SyncToConfd
  | JobFinished_QuiesceSNSOperationResult
  | JobFinished_AbortSNSOperationResult
  | Synchronized
deriving DecidableEq, Repr

def SyncMessage.Type.fingerprint (type : SyncMessage.Type) : Nat := type.ctorIdx

namespace SyncMessage

def fingerprint : SyncMessage → Nat
  | .sync .. => Type.HAEvent_SyncToConfd.fingerprint
  | .localSync .. => Type.UUID_SyncToConfd.fingerprint
  | .quiesceFinished .. => Type.JobFinished_QuiesceSNSOperationResult.fingerprint
  | .abortFinished .. => Type.JobFinished_AbortSNSOperationResult.fingerprint
  | .synchronized .. => Type.Synchronized.fingerprint
  | .other number => number + 5

def message (m : SyncMessage) : Message SyncMessage := ⟨m.fingerprint, m⟩

end SyncMessage

inductive Sent where
  | jobStartRequest (l : ListenerId) (job : SnsJob)
  | messageProcessed (eid : Nat)
  | syncComplete (uuid : Nat)
  | syncDumpToBSReply (pid : Nat) (reply : Except String ByteString)

structure Commit where
  hash : Option Int
  version : Nat
  tx : Transaction
deriving DecidableEq, Repr

/-- The world of the rules: what was sent, what waits for the worker, and the rest. -/
structure Outside (W : Type) where
  sent : List Sent
  queue : List Commit
  rest : W

/-- What the synchronisation is done with. Exceptions are given by their text. -/
structure Surroundings (K V W : Type) [LinearOrder K] [LinearOrder V] where
  getTime : W → Int × W
  usend : Nat → Message SyncMessage → W → W
  nextRandom : W → ListenerId × W
  getM0Worker : W → Bool
  mero_workers_allowed : RG K V → Bool
  /-- Whether the globals and the profile are in the graph. -/
  loadConfData : RG K V → Bool
  setCmdProfile : RG K V → Process W String Unit
  openTransaction : Process W String Transaction
  openLocalTransaction : Process W String Transaction
  populate : RG K V → Transaction → Process W String Unit
  txToBS : Transaction → Nat → Process W String ByteString
  hash : ByteString → Int

inductive SyncValue where
  | unit
  | listener (lid : ListenerId)
  | transaction (tx : Transaction)
  | bytes (bs : ByteString)

structure Lens (L : Type) where
  view : L → ConfSyncState
  set : ConfSyncState → L → L

def Lens.over {L : Type} (lens : Lens L) (f : ConfSyncState → ConfSyncState) (l : L) : L := lens.set (f (lens.view l)) l

def Outside.lift {W α : Type} (m : Process W String α) : Process (Outside W) String α := fun o =>
  let (result, rest) := m.outcome o.rest
  (result, { o with rest })

variable {K V W : Type} [LinearOrder K] [LinearOrder V]

namespace RG

def confUpdateVersion (rg : RG K V) : Option (Nat × Option Int) :=
  match Graph.connectedToOne schema .cluster .Has .ConfUpdateVersion rg with
  | some (.confUpdateVersion version hash) => some (version, hash)
  | _ => none

def setConfUpdateVersion (enc : Encoding Relation Resource K V) (version : Nat) (hash : Option Int) (rg : RG K V) : RG K V :=
  rg.connect enc schema .cluster .Has (.confUpdateVersion version hash)

def repairedPools (rg : RG K V) : List ConfObj :=
  (Graph.getResourcesOfType schema .PoolRepairStatus rg).filterMap fun prs =>
    (Graph.connectedFromOne schema .Has .Pool prs rg).bind Resource.conf?

end RG

@[reducible] def Surroundings.app (sur : Surroundings K V W) (L : Type) : Application where
  GlobalState := RG K V
  LocalState := L
  Value := SyncValue
  Payload := SyncMessage
  World := Outside W
  Exception := String
  getTime o := ((sur.getTime o.rest).1, { o with rest := (sur.getTime o.rest).2 })
  usend pid a o := { o with rest := sur.usend pid a o.rest }

namespace SyncToConfd
variable {sur : Surroundings K V W} {L : Type}

section Actions

def send (m : Sent) (k : PhaseM (sur.app L)) : PhaseM (sur.app L) :=
  .Lift (fun o => (.ok .unit, { o with sent := o.sent ++ [m] })) fun _ => k

def startJob (request : SnsJob) (k : ListenerId → PhaseM (sur.app L)) : PhaseM (sur.app L) :=
  .Lift (Outside.lift fun rest => (.ok (.listener (sur.nextRandom rest).1), (sur.nextRandom rest).2)) fun
    | .listener l => send (.jobStartRequest l request) (k l)
    | _ => .ret .unit

def startJobs : List SnsJob → (List ListenerId → PhaseM (sur.app L)) → PhaseM (sur.app L)
  | [], k => k []
  | request :: requests, k => startJob request fun lid => startJobs requests fun lids => k (lid :: lids)

def throwM (e : String) : PhaseM (sur.app L) := .Lift (throw e) fun _ => .ret .unit

def catchAll (action : PhaseM (sur.app L)) (handler : String → PhaseM (sur.app L)) :
    PhaseM (sur.app L) := .Catch action (fun _ => true) handler .ret

def m0synchronously {α : Type} (m : Process W String α) (value : α → SyncValue) (k : SyncValue → PhaseM (sur.app L)) :
    PhaseM (sur.app L) := .Lift (Outside.lift (value <$> m)) k

def withM0RC (action : PhaseM (sur.app L)) : PhaseM (sur.app L) :=
  .Lift (fun o => if sur.getM0Worker o.rest then (.ok .unit, o) else (.error "WorkerIsNotAvailable", o)) fun _ => action

def getConfUpdateVersion (enc : Encoding Relation Resource K V) (k : Nat → Option Int → PhaseM (sur.app L)) :
    PhaseM (sur.app L) :=
  .GetGlobal fun (rg : RG K V) =>
    match rg.confUpdateVersion with
    | some (version, hash) => k version hash
    | none => .PutGlobal (rg.setConfUpdateVersion enc 1 none) (k 1 none)

def modifyConfUpdateVersion (enc : Encoding Relation Resource K V) (f : Nat → Option Int → Nat × Option Int)
    (k : PhaseM (sur.app L)) : PhaseM (sur.app L) :=
  getConfUpdateVersion enc fun version hash =>
    .modifyGlobal (fun (rg : RG K V) => rg.setConfUpdateVersion enc (f version hash).1 (f version hash).2) k

def setProfileRC (k : PhaseM (sur.app L)) : PhaseM (sur.app L) :=
  .GetGlobal fun (rg : RG K V) => m0synchronously (sur.setCmdProfile rg) (fun _ => .unit) fun _ => k

def txOpenContext (k : Transaction → PhaseM (sur.app L)) : PhaseM (sur.app L) :=
  m0synchronously sur.openTransaction .transaction fun
    | .transaction tx => k tx
    | _ => .ret .unit

def txOpenLocalContext (k : Transaction → PhaseM (sur.app L)) : PhaseM (sur.app L) :=
  m0synchronously sur.openLocalTransaction .transaction fun
    | .transaction tx => k tx
    | _ => .ret .unit

def txPopulate (tx : Transaction) (k : PhaseM (sur.app L)) : PhaseM (sur.app L) :=
  .GetGlobal fun (rg : RG K V) => m0synchronously (sur.populate rg tx) (fun _ => .unit) fun _ => k

def txToBS (tx : Transaction) (verno : Nat) (k : ByteString → PhaseM (sur.app L)) : PhaseM (sur.app L) :=
  m0synchronously (sur.txToBS tx verno) .bytes fun
    | .bytes bs => k bs
    | _ => .ret .unit

def m0asynchronously (commit : Commit) : PhaseM (sur.app L) :=
  .Lift (fun o => (.ok .unit, { o with queue := o.queue ++ [commit] })) .ret

end Actions

variable (sur) (enc : Encoding Relation Resource K V) (lstate : Lens L)

/-- Have the worker commit a transaction whose contents have changed since the last commit, or any if that is forced. -/
def txSyncToConfd (force : Bool) (tx : Transaction) : PhaseM (sur.app L) :=
  getConfUpdateVersion enc fun v h => txToBS tx v fun bs =>
    let h' := some (sur.hash bs)
    if h ≠ h' || force then
      .modifyLocal (lstate.over fun state => { state with cssHash := h' }) (m0asynchronously ⟨h', v, tx⟩)
    else .ret .unit

def syncToBS (k : ByteString → PhaseM (sur.app L)) : PhaseM (sur.app L) :=
  .GetGlobal fun (rg : RG K V) =>
    if sur.loadConfData rg then
      if sur.mero_workers_allowed rg then
        getConfUpdateVersion enc fun verno _ => txOpenLocalContext fun tx => txPopulate tx (txToBS tx verno k)
      else k []
    else throwM "Cannot load configuration data from graph."

namespace mkSyncToConfd

def quiesce : Jump PhaseHandle := .NormalJump "quiese-sns"
def on_quiesced : Jump PhaseHandle := .NormalJump "on-quiesced"
def on_aborted : Jump PhaseHandle := .NormalJump "on-abort"
def on_synchronized : Jump PhaseHandle := .NormalJump "on-synchronized"

/-- An exception is logged and nothing else follows from it. -/
def synchronize : PhaseM (sur.app L) :=
  .GetLocal fun (l : L) =>
    catchAll (withM0RC (setProfileRC (.GetGlobal fun (rg : RG K V) =>
        if sur.loadConfData rg then
          txOpenContext fun t0 => txPopulate t0 (txSyncToConfd sur enc lstate (lstate.view l).cssForce t0)
        else .ret .unit)))
      fun _ => .ret .unit

/-- Cross listeners off the list that `ls` changes, and synchronise when none is left on either list. -/
def clean_and_run (ls : (List ListenerId → List ListenerId) → ConfSyncState → ConfSyncState) (listeners : List ListenerId) :
    PhaseM (sur.app L) :=
  .modifyLocal (lstate.over (ls fun x => x.diff listeners)) (.GetLocal fun (l : L) =>
    if (lstate.view l).cssQuiescing.isEmpty && (lstate.view l).cssAborting.isEmpty then synchronize sur enc lstate
    else .Switch [on_quiesced, on_aborted])

def cssQuiescing (f : List ListenerId → List ListenerId) (state : ConfSyncState) : ConfSyncState :=
  { state with cssQuiescing := f state.cssQuiescing }

def cssAborting (f : List ListenerId → List ListenerId) (state : ConfSyncState) : ConfSyncState :=
  { state with cssAborting := f state.cssAborting }

def quiescePhase : Phase (sur.app L) :=
  directly quiesce.value (.GetGlobal fun (rg : RG K V) =>
    match rg.repairedPools with
    | [] => synchronize sur enc lstate
    | pools => startJobs (pools.map .QuiesceSNSOperation) fun lids =>
      .modifyLocal (lstate.over (cssQuiescing fun _ => lids)) (.Switch [on_quiesced, on_aborted]))

def onQuiescedPhase : Phase (sur.app L) :=
  setPhase on_quiesced.value SyncMessage.Type.JobFinished_QuiesceSNSOperationResult.fingerprint fun m =>
    match m.payload with
    | .quiesceFinished listeners (.QuiesceSNSOperationFailure pool _) => .GetGlobal fun (rg : RG K V) =>
      match rg.getPoolRepairStatus pool with
      | some prs => startJob (.AbortSNSOperation pool prs.prsRepairUUID) fun lid =>
        .modifyLocal (lstate.over (cssAborting (lid :: ·))) (clean_and_run sur enc lstate cssQuiescing listeners)
      | none => clean_and_run sur enc lstate cssQuiescing listeners
    | .quiesceFinished listeners _ => clean_and_run sur enc lstate cssQuiescing listeners
    | _ => .ret .unit

/-- The results that the phase waits for are those of quiesce jobs. -/
def onAbortedPhase : Phase (sur.app L) :=
  setPhase on_aborted.value SyncMessage.Type.JobFinished_QuiesceSNSOperationResult.fingerprint fun m =>
    match m.payload with
    | .quiesceFinished listeners _ => clean_and_run sur enc lstate cssAborting listeners
    | _ => .ret .unit

def onSynchronizedPhase (next : Jump PhaseHandle) : Phase (sur.app L) :=
  setPhaseIf on_synchronized.value SyncMessage.Type.Synchronized.fingerprint
    (fun m _ (l : L) => pure (match m.payload with
      | .synchronized h _ => if (lstate.view l).cssHash = h then some m else none
      | _ => none))
    fun m => match m.payload with
      | .synchronized h' (.ok ()) => modifyConfUpdateVersion enc (fun i _ => (i + 1, h')) (.Continue next)
      | _ => .Continue next

end mkSyncToConfd
open mkSyncToConfd

def mkSyncToConfd (next : Jump PhaseHandle) : List (Phase (sur.app L)) :=
  [quiescePhase sur enc lstate, onQuiescedPhase sur enc lstate, onAbortedPhase sur enc lstate,
    onSynchronizedPhase sur enc lstate next]

def synchronizeToConfd (force : Bool) : PhaseM (sur.app L) :=
  .modifyLocal (lstate.over fun state => { state with cssForce := force }) (.Continue quiesce)

def mkSyncAction (next : Jump PhaseHandle) (sync : SyncToConfd) : PhaseM (sur.app L) :=
  catchAll (match sync with
    | .SyncToConfdServersInRG f => catchAll ((synchronizeToConfd sur lstate f).bind fun _ =>
        .Continue on_synchronized) fun _ => .ret .unit
    | .SyncDumpToBS pid => catchAll (syncToBS sur enc fun bs => send (.syncDumpToBSReply pid (.ok bs)) (.Continue next))
        fun e => send (.syncDumpToBSReply pid (.error e)) (.ret .unit))
    fun _ => .ret .unit

def second : Lens (Nat × ConfSyncState) := ⟨Prod.snd, fun state l => (l.1, state)⟩

namespace meroRules

def initial : Jump PhaseHandle := .NormalJump "initial"
def reply : Jump PhaseHandle := .NormalJump "reply"

def initialPhase (type : SyncMessage.Type) (request : SyncMessage → Option (Nat × SyncToConfd)) :
    Phase (sur.app (Nat × ConfSyncState)) :=
  setPhase initial.value type.fingerprint fun m =>
    match request m.payload with
    | some (uuid, afterSync) => .PutLocal (uuid, defaultConfSyncState) (mkSyncAction sur enc second reply afterSync)
    | none => .ret .unit

def replyPhase (replies : Nat → PhaseM (sur.app (Nat × ConfSyncState))) : Phase (sur.app (Nat × ConfSyncState)) :=
  directly reply.value (.GetLocal fun (l : Nat × ConfSyncState) => replies l.1)

/-- A rule that synchronises for every request, and then replies to it. -/
def syncRule (key : RuleKey) (type : SyncMessage.Type) (request : SyncMessage → Option (Nat × SyncToConfd))
    (replies : Nat → PhaseM (sur.app (Nat × ConfSyncState))) : Rule (sur.app (Nat × ConfSyncState)) where
  key := key
  startPhase := .NormalJump (initialPhase sur enc type request)
  ps := phaseMap (initialPhase sur enc type request :: replyPhase sur replies :: mkSyncToConfd sur enc second reply)
  initialL := (0, defaultConfSyncState)

def syncToConfd (id : Int) : Rule (sur.app (Nat × ConfSyncState)) :=
  syncRule sur enc ⟨id, "Sync-to-confd"⟩ .HAEvent_SyncToConfd
    (fun
      | .sync eid afterSync => some (eid, afterSync)
      | _ => none)
    fun uuid => send (.messageProcessed uuid) (send (.syncComplete uuid) (.ret .unit))

end meroRules
end SyncToConfd

/-- How a commit went: `commitTransactionForced` returned or threw, and then the transaction was closed. -/
structure CommitOutcome where
  commit : Except String (Except String Unit)
  close : Except String Unit

namespace CommitOutcome

def Committed (outcome : CommitOutcome) : Prop := outcome.commit = .ok (.ok ())

instance : DecidablePred Committed := fun outcome =>
  match found : outcome.commit with
  | .ok (.ok ()) => .isTrue found
  | .ok (.error _) => .isFalse fun committed => by cases found.symm.trans committed
  | .error _ => .isFalse fun committed => by cases found.symm.trans committed

/-- What the worker's action returns: the result of the commit is void. -/
def action (outcome : CommitOutcome) : Except String Unit := do
  let _ ← match outcome.close with
    | .ok () => outcome.commit
    | .error e => throw e
  pure ()

def report (outcome : CommitOutcome) (commit : Commit) : SyncMessage := .synchronized commit.hash outcome.action

end CommitOutcome

/-- A rule that synchronises, with what it is surrounded by: the engine and the world, the reports
of the worker that have not arrived yet, and the commits that were made. -/
structure SyncSystem (sur : Surroundings K V W) (L : Type) where
  sm : SM (sur.app L)
  engine : EngineState (sur.app L)
  outside : Outside W
  reports : List SyncMessage
  commits : List (Commit × CommitOutcome)

/-- What can happen: a message arrives, from the worker or another sender; the machine executes a step; the worker commits;
other rules run. -/
inductive SyncAction (sur : Surroundings K V W) (L : Type) where
  | arrives (m : SyncMessage)
  | reported
  | executes (fuel : Nat) (subs : Subscribers)
  | commits (outcome : CommitOutcome)
  | others (engine : EngineState (sur.app L)) (rest : W)

namespace SyncSystem
variable {sur : Surroundings K V W} {L : Type}

def step (s : SyncSystem sur L) : SyncAction sur L → Option (SyncSystem sur L)
  | .arrives m => some { s with sm := s.sm.message m.message }
  | .reported =>
    match s.reports with
    | [] => none
    | m :: reports => some { s with sm := s.sm.message m.message, reports }
  | .executes fuel subs =>
    match Stateful.outcome (s.sm.execute fuel subs) s.engine s.outside with
    | (.ok ([(_, sm)], engine), outside) => some { s with sm, engine, outside }
    | _ => none
  | .commits outcome =>
    match s.outside.queue with
    | [] => none
    | commit :: queue => some { s with
        outside := { s.outside with queue }
        reports := s.reports ++ [outcome.report commit]
        commits := s.commits ++ [(commit, outcome)] }
  | .others engine rest => some { s with engine, outside := { s.outside with rest } }

def start (rule : Rule (sur.app L)) (rg : RG K V) (rest : W) : SyncSystem sur L where
  sm := newSM rule emptyFifoBuffer
  engine := ⟨0, 0, .empty, rg⟩
  outside := ⟨[], [], rest⟩
  reports := []
  commits := []

end SyncSystem
end Halon.Mero
