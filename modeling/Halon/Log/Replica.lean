import Halon.Log.Types

/-! The event loop of a replica. Every handler gives the next state and the effects
of one event. The lease, which decides who leads, is read off the clock. -/

namespace Halon.Log
open Library

variable {A S : Type}

def gaps : List Int → List (List Int)
  | [] | [_] => []
  | x :: x' :: xs =>
    let gap := (List.range (x' - x - 1).toNat).map fun k => x + 1 + k
    if gap = [] then gaps (x' :: xs) else gap :: gaps (x' :: xs)

def queryMissingFrom (here : Nat) (w : Int) (replicas : List Nat) (log : OrderedMap Int (Value A)) : List (Nat × Message A S) :=
  let pw := w - 1
  let ns := (gaps (pw :: (log.above pw).keys)).flatten
  ns.flatMap fun n => replicas.map fun ρ => (ρ, .Query here n)

inductive Handled (A S : Type) where
  | continues (st : ReplicaState A S) (effects : Effects A S)
  | dies

/-- When an event is handled: the time, the time when the replica goes on, and whether a snapshot can be restored. -/
structure Moment where
  now : Int
  later : Int
  restores : Bool

def adjustForDrift (config : Config) (t : Int) : Int := t * config.driftSafetyNumerator / config.driftSafetyDenominator

/-- The leader, if the lease has not expired. Those that do not lead take the lease to be longer. -/
def getLeader (config : Config) (here : Nat) (now leaseStart : Int) : List Nat → Option Nat
  | [] => none
  | ρ :: _ =>
    let adjustedPeriod := if here = ρ then config.leaseTimeout else adjustForDrift config config.leaseTimeout
    if now - leaseStart < adjustedPeriod * 1000 then some ρ else none

/-- Ask for the lease, by a reconfiguration with this replica first. -/
def proposeLeaseRequest (here : Nat) (di : DecreeId) (senders replicas : List Nat) (now : Int) : ProposerMsg A :=
  .request ⟨di, false, now, ⟨senders, .Reconf (di.decreeLegislatureId + 1) (here :: replicas.filter (here ≠ ·)), .None⟩⟩

def others (here : Nat) (ρs : List Nat) : List Nat := ρs.filter (· ≠ here)

def updateAcceptors (ρs ρs' : List Nat) : List (ProposerMsg A) := if ρs = ρs' then [] else [.acceptors ρs']

variable (config : Config) (machine : StateMachine A S) (here : Nat)

/-- Before waiting for an event: propose a decree at the watermark if the replica is behind and nobody leads. -/
def go (later : Int) (st : ReplicaState A S) : ReplicaState A S × List (ProposerMsg A) :=
  if st.stateWatermark < st.stateCurrentDecree ∧ st.stateLastProposed ≠ some st.stateWatermark then
    match getLeader config here later st.stateLeaseStart st.stateReplicas with
    | none =>
      ({ st with stateLastProposed := some st.stateWatermark },
        [proposeLeaseRequest here st.stateWatermark [] st.stateReplicas later])
    | some _ => (st, [])
  else (st, [])

/-- An old decree. The configuration is advertised, with its two decrees the other way round. -/
def skip (st : ReplicaState A S) : Effects A S where
  sends := (others here st.stateReplicas).map fun ρ =>
    (ρ, .Max here st.stateReconfDecree st.stateUnconfirmedDecree st.stateEpoch st.stateReplicas)

def maybeTakeSnapshot (st : ReplicaState A S) (w' : DecreeId) (s' : S) : Option DecreeId × List (Snapshot S) :=
  let w0' := st.stateSnapshotDumper.getD st.stateSnapshotWatermark
  if config.snapshotPolicy (w'.decreeNumber - w0'.decreeNumber) ∧ st.stateSnapshotDumper = none then (some w', [⟨w', s'⟩])
  else (st.stateSnapshotDumper, [])

/-- Execute the entry at the watermark. Only a reconfiguration to a later
legislature than that of the unconfirmed decree takes effect. -/
def executeEntry (di : DecreeId) (v : Value A) (st : ReplicaState A S) : ReplicaState A S × Effects A S :=
  let w := st.stateWatermark
  let executed := [(w.decreeNumber, v)]
  match v with
  | .Values xs =>
    let s' := xs.foldl machine.logNextState st.stateLogState
    let w' := w.succ
    let dump := maybeTakeSnapshot config st w' s'
    ({ st with stateUnconfirmedDecree := max st.stateUnconfirmedDecree w'
               stateCurrentDecree := max st.stateCurrentDecree w'
               stateSnapshotDumper := dump.1
               stateWatermark := w'
               stateLogState := s' },
      { dumps := dump.2, proposer := [.watermark w'], executed := executed })
  | .Reconf leg' ρs' =>
    if st.stateUnconfirmedDecree.decreeLegislatureId < leg' then
      let w' := { w with decreeLegislatureId := leg' }.succ
      let dump := maybeTakeSnapshot config st w' st.stateLogState
      ({ st with stateReplicas := ρs'
                 stateUnconfirmedDecree := { w' with decreeNumber := max st.stateUnconfirmedDecree.decreeNumber w'.decreeNumber }
                 stateCurrentDecree := { w' with decreeNumber := max st.stateCurrentDecree.decreeNumber w'.decreeNumber }
                 stateEpoch := if ρs'.take 1 ≠ st.stateReplicas.take 1 then st.stateUnconfirmedDecree.decreeLegislatureId
                               else st.stateEpoch
                 stateReconfDecree := ⟨leg', di.decreeNumber⟩
                 stateSnapshotDumper := dump.1
                 stateWatermark := w' },
        { sends := [(here, .Status)], dumps := dump.2,
          proposer := updateAcceptors st.stateReplicas ρs' ++ [.watermark w'], executed := executed })
    else
      let w' := { w with decreeLegislatureId := w.decreeLegislatureId + 1 }.succ
      let dump := maybeTakeSnapshot config st w' st.stateLogState
      ({ st with stateSnapshotDumper := dump.1, stateWatermark := w' },
        { dumps := dump.2, proposer := [.watermark w'], executed := executed })

/-- The lease starts anew with every executed entry. -/
def renewLease (now requestStart : Int) (st st' : ReplicaState A S) : ReplicaState A S :=
  let requestStart' := max requestStart st.stateLeaseStart
  { st' with stateLeaseStart :=
      if getLeader config here now requestStart' st'.stateReplicas = some here then requestStart' else now }

def decree (now requestStart : Int) (locale : Locale) (di : DecreeId) (v : Value A) (st : ReplicaState A S) :
    Option (Handled A S) :=
  let w := st.stateWatermark
  if di < max w { w with decreeLegislatureId := di.decreeLegislatureId } then
    some (.continues st (skip here st))
  else if locale ≠ .Stored ∧ w ≤ di ∧ di.decreeNumber = w.decreeNumber then
    some (.continues st { tasks := [.commit requestStart locale di v] })
  else if locale = .Stored ∧ w ≤ di ∧ di.decreeNumber = w.decreeNumber then
    let next := executeEntry config machine here di v st
    some (.continues (renewLease config here now requestStart st next.1) next.2)
  else if locale = .Remote ∧ w < di ∧ st.log.lookup di.decreeNumber = none then
    some (.continues st { tasks := [.store requestStart locale di v] })
  else none

/-- A snapshot was saved. The log is trimmed below the snapshot before it. -/
def dumped (w0' : DecreeId) (sref' : Snapshot S) (st : ReplicaState A S) : ReplicaState A S × Effects A S :=
  if st.stateSnapshotWatermark < w0' then
    ({ st with stateSnapshotDumper := if st.stateSnapshotDumper = some w0' then none else st.stateSnapshotDumper
               stateSnapshotRef := some sref'
               stateSnapshotWatermark := w0' },
      { writes := [.trimTheLog st.stateSnapshotWatermark.decreeNumber] })
  else (st, {})

def values : Value A → List A
  | .Values xs => xs
  | .Reconf .. => []

/-- A batched reconfiguration is renumbered to follow the last known one. -/
def updateLeg (legD : DecreeId) : Value A → Value A
  | .Reconf _ ρs' => .Reconf (legD.decreeLegislatureId + 1) ρs'
  | v => v

/-- The request that is proposed for a batch: its first one if that is a
reconfiguration, and otherwise all its values together. -/
def batchRequest (legD : DecreeId) (r : BatcherMsg A) (rs' : List (BatcherMsg A)) : Request A :=
  let first := r.batcherMsgRequest
  if isReconf first.requestValue then { first with requestValue := updateLeg legD first.requestValue }
  else ⟨rs'.flatMap fun m => m.batcherMsgRequest.requestSender,
    .Values (rs'.flatMap fun m => values m.batcherMsgRequest.requestValue), .None⟩

def batch (now : Int) (rs : List (BatcherMsg A)) (st : ReplicaState A S) : Option (ReplicaState A S × Effects A S) :=
  let cd := st.stateCurrentDecree
  if cd ≠ st.stateWatermark then none
  else
    match getLeader config here now st.stateLeaseStart st.stateReplicas with
    | none =>
      if here ∈ st.stateReplicas then
        some ({ st with stateCurrentDecree := cd.succ, stateLastProposed := some cd },
          { proposer := [proposeLeaseRequest here cd [] st.stateReplicas now] })
      else some (st, {})
    | some leader =>
      if here ≠ leader then some (st, {})
      else if rs.all fun m => m.batcherMsgRequest.requestHint = .Nullipotent then
        let xs := rs.flatMap fun m => values m.batcherMsgRequest.requestValue
        some ({ st with stateLogState := xs.foldl machine.logNextState st.stateLogState },
          { replies := (rs.flatMap fun m => m.batcherMsgRequest.requestSender).map fun κ => (κ, true) })
      else
        match rs.filter fun m => st.stateEpoch ≤ m.batcherMsgEpoch with
        | [] => some (st, {})
        | r :: rest =>
          some ({ st with stateCurrentDecree := cd.succ, stateLastProposed := some cd },
            { proposer := [.request ⟨cd, true, now, batchRequest st.stateReconfDecree r (r :: rest)⟩] })

def passed [DecidableEq A] (vi : Value A) (r : ProposerRequest A) (st : ReplicaState A S) : ReplicaState A S × Effects A S :=
  let d := st.stateUnconfirmedDecree
  let cd := st.stateCurrentDecree
  let own := r.prRequest.requestValue = vi
  let locale := if own then .Local r.prRequest.requestSender else .Remote
  ({ st with stateUnconfirmedDecree := if d = cd then d else min cd (max d r.prDecree.succ) },
    { sends := (here, .Decree r.prStart locale r.prDecree vi) ::
        (others here st.stateReplicas).map fun ρ => (ρ, .Decree r.prStart .Remote r.prDecree vi)
      replies := if ¬ own ∧ r.prFromBatcher then r.prRequest.requestSender.map fun κ => (κ, false) else [] })

def rejected (r : ProposerRequest A) (st : ReplicaState A S) : ReplicaState A S × Effects A S :=
  ({ st with stateLastProposed := none },
    { replies := if r.prFromBatcher then r.prRequest.requestSender.map fun κ => (κ, false) else [] })

/-- Answer a query, from the log or with the last snapshot. The least index of an empty log is an error. -/
def query (ρ : Nat) (n : Int) (st : ReplicaState A S) : Handled A S :=
  match st.log.keys with
  | [] => .dies
  | least :: _ =>
    if least ≤ n then
      match st.log.lookup n with
      | some v => .continues st { sends := [(ρ, .Decree 0 .Remote ⟨maxBound, n⟩ v)] }
      | none => .continues st {}
    else
      match st.stateSnapshotRef with
      | some sref => .continues st { sends :=
          [(ρ, .SnapshotInfo st.stateReplicas st.stateReconfDecree st.stateEpoch sref st.stateSnapshotWatermark n)] }
      | none => .continues st {}

/-- Take over a later configuration of another replica. -/
def adopt (legD' : DecreeId) (epoch' : Int) (ρs' : List Nat) (st : ReplicaState A S) : ReplicaState A S :=
  if st.stateReconfDecree < legD' then { st with stateReconfDecree := legD', stateEpoch := epoch', stateReplicas := ρs' } else st

def snapshotInfo (m : Moment) (ρs' : List Nat) (legD' : DecreeId) (epoch' : Int) (sref' : Snapshot S) (w0' : DecreeId) (n : Int)
    (st : ReplicaState A S) : ReplicaState A S × Effects A S :=
  let w := st.stateWatermark
  if st.log.lookup n = none ∧ w.decreeNumber ≤ n ∧ w.decreeNumber < w0'.decreeNumber then
    let newer := st.stateReconfDecree < legD'
    let st' := if m.restores then
        { st with stateSnapshotRef := some sref', stateWatermark := w0', stateSnapshotWatermark := w0'
                  stateLogState := sref'.state }
      else st
    let leg'' := (max st.stateReconfDecree legD').decreeLegislatureId
    ({ adopt legD' epoch' ρs' st' with
        stateLeaseStart := m.now
        stateUnconfirmedDecree := ⟨leg'', max w0'.decreeNumber st.stateUnconfirmedDecree.decreeNumber⟩
        stateCurrentDecree := ⟨leg'', max w0'.decreeNumber st.stateCurrentDecree.decreeNumber⟩ },
      { writes := (if newer then [.insertInLog legD'.decreeNumber (.Reconf legD'.decreeLegislatureId ρs')] else []) ++
          [.trimTheLog st.stateSnapshotWatermark.decreeNumber]
        proposer := (if newer then updateAcceptors st.stateReplicas ρs' else []) ++
          if m.restores then [.watermark w0'] else []
        fetched := if m.restores then [sref'] else [] })
  else (st, {})

/-- Another replica tells its unconfirmed decree and its configuration. -/
def maxDecree (now : Int) (ρ : Nat) (d' legD' : DecreeId) (epoch' : Int) (ρs' : List Nat) (st : ReplicaState A S) :
    ReplicaState A S × Effects A S :=
  if st.stateUnconfirmedDecree.decreeNumber < d'.decreeNumber then
    let newer := st.stateReconfDecree < legD'
    let d'' : DecreeId := ⟨(max st.stateReconfDecree legD').decreeLegislatureId, d'.decreeNumber⟩
    ({ adopt legD' epoch' ρs' st with
        stateLeaseStart := now
        stateUnconfirmedDecree := d''
        stateCurrentDecree := max d'' st.stateCurrentDecree },
      { tasks := if newer then [.reconf legD'.decreeNumber (.Reconf legD'.decreeLegislatureId ρs')] else []
        sends := queryMissingFrom here st.stateWatermark.decreeNumber [ρ] (st.log.insert d'.decreeNumber (.Values []))
        proposer := if newer then updateAcceptors st.stateReplicas ρs' else [] })
  else (st, {})

def status (st : ReplicaState A S) : Effects A S where
  sends := (others here st.stateReplicas).map fun ρ =>
    (ρ, .Max here st.stateUnconfirmedDecree st.stateReconfDecree st.stateEpoch st.stateReplicas)

/-- The answers to a query that may be executed one after another from legislature `leg` on. -/
def trimUnreachable : List (DecreeId × Value A) → Int → List (DecreeId × Value A)
  | [], _ => []
  | p :: ds, leg =>
    if p.1.decreeLegislatureId < leg then trimUnreachable ds leg
    else p :: trimUnreachable ds (if isReconf p.2 then p.1.decreeLegislatureId + 1 else p.1.decreeLegislatureId)

/-- The answers have no gap after the watermark. -/
def caughtUp (w : DecreeId) (dvs : List (DecreeId × Value A)) : Bool :=
  (dvs.map fun p => p.1.decreeNumber).eraseDups.zipIdx.all fun x => x.1 = w.decreeNumber + x.2

/-- The decree after the answers of the acceptors, which a recovery makes its proposal for. -/
def recoveryDecree (d : DecreeId) (dvs' : List (DecreeId × Value A)) : DecreeId :=
  match dvs'.getLast? with
  | none => d
  | some (dm, v) =>
    max d (DecreeId.succ (if isReconf v then { dm with decreeLegislatureId := dm.decreeLegislatureId + 1 } else dm))

/-- The leader is accepted by a recovery only if a quorum of the old membership is one of the new membership. -/
def acceptedLeader (ρs ρs'' : List Nat) : Option Nat → Option Nat
  | none => none
  | some nid =>
    let li := (ρs.filter (· ∈ ρs'')).length
    if nid ∈ ρs'' ∧ 1 + ρs''.length / 2 ≤ li ∧ 1 + ρs.length / 2 ≤ li then some nid else none

def recover (now : Int) (e : Int) (π : Nat) (ρs' : List Nat) (edvs : Option (List (DecreeId × Value A))) (st : ReplicaState A S) :
    ReplicaState A S × Effects A S :=
  if st.stateEpoch ≤ e then
    let ρs'' := if here ∈ ρs' then here :: ρs'.filter (· ≠ here) else ρs'
    match acceptedLeader st.stateReplicas ρs'' (getLeader config here now st.stateLeaseStart st.stateReplicas) with
    | none =>
      if here ∈ ρs' then
        match edvs with
        | none => (st, {})
        | some dvs =>
          if caughtUp st.stateWatermark dvs then
            let dvs' := trimUnreachable dvs st.stateWatermark.decreeLegislatureId
            let d' := recoveryDecree st.stateUnconfirmedDecree dvs'
            ({ st with stateUnconfirmedDecree := d'
                       stateCurrentDecree := max d'.succ st.stateCurrentDecree
                       stateLastProposed := some d' },
              { sends := dvs'.map (fun p => (here, .Decree 0 .Remote p.1 p.2)) ++
                  queryMissingFrom here st.stateWatermark.decreeNumber ρs'
                    ((dvs'.foldr (fun p => OrderedMap.insert p.1.decreeNumber p.2) st.log).insert d'.decreeNumber (.Values []))
                proposer := proposeLeaseRequest here d' [π] ρs'' now :: updateAcceptors st.stateReplicas ρs' })
          else (st, {})
      else (st, { replies := [(π, false)] })
    | some leader => (st, { replies := if here = leader then [] else [(π, false)] })
  else (st, { replies := [(π, false)] })

def leaseRenewalTime (now : Int) (st : ReplicaState A S) : Option (ReplicaState A S × Effects A S) :=
  let cd := st.stateCurrentDecree
  if st.stateWatermark ≠ cd then none
  else
    let mLeader := getLeader config here now st.stateLeaseStart st.stateReplicas
    if mLeader = some here ∨ mLeader = none then
      some ({ st with stateCurrentDecree := cd.succ, stateLastProposed := some cd },
        { proposer := [proposeLeaseRequest here cd [] st.stateReplicas now] })
    else some (st, {})

def membershipQuery (now : Int) (st : ReplicaState A S) : Option (ReplicaState A S × Effects A S) :=
  if st.stateWatermark ≠ st.stateCurrentDecree then none
  else if getLeader config here now st.stateLeaseStart st.stateReplicas = some here then
    some (st, { memberships := [(st.stateReconfDecree, st.stateReplicas)] })
  else some (st, {})

def continued (next : ReplicaState A S × Effects A S) : Handled A S := .continues next.1 next.2

/-- Handle one event. An event that no clause of the loop accepts has to wait. -/
def handle [DecidableEq A] (m : Moment) (st : ReplicaState A S) : Event A S → Option (Handled A S)
  | .message (.Decree requestStart locale di v) => decree config machine here m.now requestStart locale di v st
  | .message (.Query ρ n) => some (query ρ n st)
  | .message (.Max ρ d legD epoch ρs) => some (continued (maxDecree here m.now ρ d legD epoch ρs st))
  | .message (.SnapshotInfo ρs legD epoch sref w0 n) => some (continued (snapshotInfo m ρs legD epoch sref w0 n st))
  | .message .Status => some (.continues st (status here st))
  | .message (.Dumped w0 sref) => some (continued (dumped w0 sref st))
  | .message (.Passed vi r) => some (continued (passed here vi r st))
  | .message (.Rejected r) => some (continued (rejected r st))
  | .leaseRenewalTime => (leaseRenewalTime config here m.now st).map continued
  | .batch rs => (batch config machine here m.now rs st).map continued
  | .membershipQuery => (membershipQuery config here m.now st).map continued
  | .recover e π ρs edvs => some (continued (recover config here m.now e π ρs edvs st))

end Halon.Log
