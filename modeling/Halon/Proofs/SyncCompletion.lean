import Halon.Mero.SyncToConfd
import Halon.Proofs.CepConfinement
import Halon.Proofs.MeroGraph

/-! What becomes of a synchronisation. The action that starts it ends the phase it is used
in, and none of the phases that follow leads to the one that waits for the worker. The
rule starts anew instead, and the version of the configuration stays as it is. -/

namespace Halon.Mero
open Library Stateful Cep List
open Recovery (ListenerId)
variable {K V W : Type} [LinearOrder K] [LinearOrder V] {enc : Encoding Relation Resource K V}

namespace RG
variable {rg : RG K V} {links : Links Relation Resource}

def version (rg : RG K V) : Nat × Option Int := rg.confUpdateVersion.getD (1, none)

variable (enc) in
theorem depicts_setConfUpdateVersion (depicts : Depicts rg.graph links) (version : Nat) (hash : Option Int) :
    ∃ links, Depicts (rg.setConfUpdateVersion enc version hash).graph links := ⟨_, depicts.connect _ _ _⟩

theorem confUpdateVersion_set (depicts : Depicts rg.graph links) (version : Nat) (hash : Option Int) :
    (rg.setConfUpdateVersion enc version hash).confUpdateVersion = some (version, hash) := by
  have replaced : Depicts (rg.setConfUpdateVersion enc version hash).graph _ :=
    depicts.connect .cluster .Has (.confUpdateVersion version hash)
  have single : Graph.connectedTo schema .cluster .Has .ConfUpdateVersion (rg.setConfUpdateVersion enc version hash) =
      [.confUpdateVersion version hash] := by
    apply Graph.connectedTo_single replaced (.inl ⟨rfl, rfl, rfl⟩)
    intro z linked type
    rcases linked with ⟨_, _, same⟩ | ⟨_, stays⟩
    · exact same
    · exact absurd ⟨rfl, .inl ⟨rfl, type, rfl⟩⟩ stays
  unfold confUpdateVersion Graph.connectedToOne
  rw [single]
  rfl

end RG

/-- A graph is still one, and has the same version of the configuration. -/
def KeepsVersion (before after : RG K V) : Prop :=
  (∃ links, Depicts before.graph links) → (∃ links, Depicts after.graph links) ∧ after.version = before.version

namespace KeepsVersion

theorem refl (rg : RG K V) : KeepsVersion rg rg := fun depicts => ⟨depicts, rfl⟩

theorem trans {first second third : RG K V} (one : KeepsVersion first second) (two : KeepsVersion second third) :
    KeepsVersion first third := by
  intro depicts
  obtain ⟨depicts, same⟩ := one depicts
  obtain ⟨depicts, also⟩ := two depicts
  exact ⟨depicts, also.trans same⟩

theorem record (missing : rg.confUpdateVersion = none) : KeepsVersion rg (rg.setConfUpdateVersion enc 1 none) := by
  intro ⟨links, depicts⟩
  refine ⟨RG.depicts_setConfUpdateVersion enc depicts 1 none, ?_⟩
  unfold RG.version
  rw [RG.confUpdateVersion_set depicts, missing]
  rfl

end KeepsVersion

namespace SyncToConfd
open mkSyncToConfd
variable {sur : Surroundings K V W} {L : Type} {lstate : Lens L} {jumps : List (Jump PhaseHandle) → Prop}

abbrev Keeps (jumps : List (Jump PhaseHandle) → Prop) (ph : PhaseM (sur.app L)) : Prop := ph.Completes KeepsVersion jumps

section
variable {k : PhaseM (sur.app L)}

theorem keeps_ret {value : SyncValue} (stays : jumps []) : Keeps jumps (.ret value : PhaseM (sur.app L)) :=
  PhaseM.Completes.ret KeepsVersion.refl stays

theorem keeps_send (rest : Keeps jumps k) : Keeps jumps (send m k) := PhaseM.Completes.lift fun _ => rest

theorem keeps_startJob {k : ListenerId → PhaseM (sur.app L)} (stays : jumps [])
    (rest : ∀ l, Keeps jumps (k l)) : Keeps jumps (startJob request k) := by
  apply PhaseM.Completes.lift
  intro value
  cases value with
  | listener l => exact keeps_send (rest l)
  | _ => exact keeps_ret stays

theorem keeps_startJobs {k : List ListenerId → PhaseM (sur.app L)} (stays : jumps [])
    (rest : ∀ lids, Keeps jumps (k lids)) : Keeps jumps (startJobs requests k) := by
  induction requests generalizing k with
  | nil => exact rest []
  | cons _ _ ih => exact keeps_startJob stays fun lid => ih fun lids => rest (lid :: lids)

theorem keeps_catchAll {action : PhaseM (sur.app L)}
    (stays : jumps []) (body : Keeps jumps action) (handled : ∀ e, Keeps jumps (handler e)) :
    Keeps jumps (catchAll action handler) := by
  refine PhaseM.Completes.catchWith ?_ body handled fun _ => keeps_ret stays
  exact fun _ _ _ => KeepsVersion.trans

theorem keeps_txOpenContext {k : Transaction → PhaseM (sur.app L)} (stays : jumps []) (rest : ∀ tx, Keeps jumps (k tx)) :
    Keeps jumps (txOpenContext k) := by
  apply PhaseM.Completes.lift
  intro value
  cases value with
  | transaction tx => exact rest tx
  | _ => exact keeps_ret stays

theorem keeps_txOpenLocalContext {k : Transaction → PhaseM (sur.app L)} (stays : jumps [])
    (rest : ∀ tx, Keeps jumps (k tx)) : Keeps jumps (txOpenLocalContext k) := by
  apply PhaseM.Completes.lift
  intro value
  cases value with
  | transaction tx => exact rest tx
  | _ => exact keeps_ret stays

theorem keeps_txPopulate (rest : Keeps jumps k) : Keeps jumps (txPopulate tx k) :=
  PhaseM.Completes.getGlobal fun _ => PhaseM.Completes.lift fun _ => rest

theorem keeps_txToBS {k : ByteString → PhaseM (sur.app L)} (stays : jumps [])
    (rest : ∀ bs, Keeps jumps (k bs)) : Keeps jumps (txToBS tx verno k) := by
  apply PhaseM.Completes.lift
  intro value
  cases value with
  | bytes bs => exact rest bs
  | _ => exact keeps_ret stays

theorem keeps_getConfUpdateVersion {k : Nat → Option Int → PhaseM (sur.app L)}
    (rest : ∀ version hash, Keeps jumps (k version hash)) : Keeps jumps (getConfUpdateVersion enc k) := by
  intro subs mindex l buf s w result s' w' returned
  have returned := PhaseM.returns_GetGlobal.mp returned
  split at returned
  next version hash _ => exact rest version hash returned
  next missing =>
    obtain ⟨kept, ended⟩ := rest 1 none (PhaseM.returns_PutGlobal.mp returned)
    exact ⟨(KeepsVersion.record missing).trans kept, ended⟩

end

theorem keeps_txSyncToConfd (stays : jumps []) :
    Keeps jumps (txSyncToConfd sur enc lstate force tx) := by
  apply keeps_getConfUpdateVersion
  intro version hash
  apply keeps_txToBS stays
  intro bs
  dsimp only
  split
  next => exact PhaseM.Completes.modifyLocal (PhaseM.Completes.lift fun _ => keeps_ret stays)
  next => exact keeps_ret stays

theorem keeps_synchronize (stays : jumps []) : Keeps jumps (synchronize sur enc lstate) := by
  apply PhaseM.Completes.getLocal
  intro l
  refine keeps_catchAll stays ?_ fun _ => keeps_ret stays
  refine PhaseM.Completes.lift fun _ => PhaseM.Completes.getGlobal fun rg => PhaseM.Completes.lift fun _ => ?_
  apply PhaseM.Completes.getGlobal
  intro rg
  split
  next => exact keeps_txOpenContext stays fun tx => keeps_txPopulate (keeps_txSyncToConfd stays)
  next => exact keeps_ret stays

theorem keeps_clean_and_run (stays : jumps []) (waits : jumps [on_quiesced, on_aborted]) :
    Keeps jumps (clean_and_run sur enc lstate ls listeners) := by
  apply PhaseM.Completes.modifyLocal
  apply PhaseM.Completes.getLocal
  intro l
  split
  next => exact keeps_synchronize stays
  next => exact PhaseM.Completes.switch KeepsVersion.refl waits

def waiting (sur : Surroundings K V W) (enc : Encoding Relation Resource K V) (lstate : Lens L) : List (Phase (sur.app L)) :=
  [quiescePhase sur enc lstate, onQuiescedPhase sur enc lstate, onAbortedPhase sur enc lstate]

theorem waiting_completes (stays : jumps []) (waits : jumps [on_quiesced, on_aborted]) :
    ∀ ph ∈ waiting sur enc lstate, ph.Completes KeepsVersion jumps := by
  intro ph member
  have onwards (ls : (List ListenerId → List ListenerId) → ConfSyncState → ConfSyncState) (listeners : List ListenerId) :
      Keeps jumps (clean_and_run sur enc lstate ls listeners) := keeps_clean_and_run stays waits
  simp only [waiting, mem_cons, not_mem_nil, or_false] at member
  rcases member with rfl | rfl | rfl
  · apply PhaseM.Completes.getGlobal
    intro rg
    split
    next => exact keeps_synchronize stays
    next =>
      apply keeps_startJobs stays
      intro lids
      exact PhaseM.Completes.modifyLocal (PhaseM.Completes.switch KeepsVersion.refl waits)
  · intro m
    dsimp only
    split
    next _ =>
      apply PhaseM.Completes.getGlobal
      intro rg
      split
      next => exact keeps_startJob stays fun lid => PhaseM.Completes.modifyLocal (onwards _ _)
      next => exact onwards _ _
    next => exact onwards _ _
    next => exact keeps_ret stays
  · intro m
    dsimp only
    split
    next => exact onwards _ _
    next => exact keeps_ret stays

/-- The action that starts a synchronisation ends the phase; what the caller does with its result is not reached. -/
theorem synchronizeToConfd_bind (force : Bool) (rest : SyncValue → PhaseM (sur.app L)) :
    (synchronizeToConfd sur lstate force).bind rest = synchronizeToConfd sur lstate force := rfl

def Uses (sur : Surroundings K V W) (enc : Encoding Relation Resource K V) (lstate : Lens L) (next : Jump PhaseHandle)
    (rule : Rule (sur.app L)) : Prop :=
  ∀ ph ∈ mkSyncToConfd sur enc lstate next, rule.ps.lookup ph.phName = some (.NormalJump ph)

theorem Uses.target {next jmp : Jump PhaseHandle} {rule ph target} (uses : Uses sur enc lstate next rule)
    (member : ph ∈ waiting sur enc lstate)
    (named : jmp.value = ph.phName) (found : rule.ps.lookup jmp.value = some target) : target.value ∈ waiting sur enc lstate := by
  have listed : ph ∈ mkSyncToConfd sur enc lstate next := mem_append_left [onSynchronizedPhase sur enc lstate next] member
  rw [named, uses ph listed] at found
  cases found
  exact member

theorem waiting_confined {next rule} (uses : Uses sur enc lstate next rule) :
    Confined rule (waiting sur enc lstate) fun xs => xs = [] ∨ xs = [on_quiesced, on_aborted] := by
  intro xs goes jmp member target found
  rcases goes with rfl | rfl
  · cases member
  · simp only [mem_cons, not_mem_nil, or_false] at member
    rcases member with rfl | rfl
    · exact uses.target (mem_cons_of_mem _ mem_cons_self) rfl found
    · exact uses.target (mem_cons_of_mem _ (mem_cons_of_mem _ mem_cons_self)) rfl found

theorem uses_syncRule (sur : Surroundings K V W) (enc : Encoding Relation Resource K V) (key : RuleKey) (type : SyncMessage.Type)
    (request : SyncMessage → Option (Nat × SyncToConfd)) (replies : Nat → PhaseM (sur.app (Nat × ConfSyncState))) :
    Uses sur enc second meroRules.reply (meroRules.syncRule sur enc key type request replies) := by
  intro ph member
  simp only [mkSyncToConfd, mem_cons, not_mem_nil, or_false] at member
  rcases member with rfl | rfl | rfl | rfl <;> rfl

variable (sur enc lstate) in
/-- In whatever order the jobs finish, with whatever results, and whatever the worker reports: a machine that has started
a synchronisation does not come to the phase that waits for the report, nor to the one that is to follow. -/
theorem sync_never_continues {next : Jump PhaseHandle} {rule : Rule (sur.app L)} (uses : Uses sur enc lstate next rule)
    (other : next.value ∉ [quiesce.value, on_quiesced.value, on_aborted.value]) {smid : Nat} {l : L} {buffer : Buffer SyncMessage}
    {state : SMState} {start sm : SM (sur.app L)}
    (starts : Cep.Follows rule smid buffer l [quiesce] state start) (becomes : start.Becomes sm) :
    on_synchronized.value ∉ sm.names ∧ next.value ∉ sm.names := by
  have inside : start.Inside rule (waiting sur enc lstate) := by
    cases starts with
    | run some resolved =>
      have confined : Confined rule (waiting sur enc lstate) fun xs => xs = [quiesce] := by
        intro xs goes jmp member target found
        cases goes
        cases mem_singleton.mp member
        exact uses.target mem_cons_self rfl found
      exact ⟨smid, l, buffer, _, rfl, resolved.ne_nil some, resolved.confined confined rfl⟩
  have stays := becomes.inside (waiting_completes (.inl rfl) (.inr rfl)) (waiting_confined uses) KeepsVersion.refl
    (fun _ _ _ => KeepsVersion.trans) inside
  refine ⟨fun member => absurd (stays.names _ member) ?_, fun member => other (stays.names _ member)⟩
  change on_synchronized.value ∉ [quiesce.value, on_quiesced.value, on_aborted.value]
  decide

namespace Scenario
open Example

/-- Surroundings in which everything succeeds. The world counts the ids that were given out. -/
def surroundings : Surroundings Resource (Rel Relation Resource) Nat where
  getTime w := (0, w)
  usend _ _ w := w
  nextRandom w := (w, w + 1)
  getM0Worker _ := true
  mero_workers_allowed _ := true
  loadConfData _ := true
  setCmdProfile _ := pure ()
  openTransaction := pure 0
  openLocalTransaction := pure 0
  populate _ _ := pure ()
  txToBS _ _ := pure [7]
  hash bs := bs.length

def rule : Rule (surroundings.app (Nat × ConfSyncState)) := meroRules.syncToConfd surroundings encoding 1

abbrev System := SyncSystem surroundings (Nat × ConfSyncState)

def runs (edges : List (Resource × Relation × Resource)) (actions : List (SyncAction surroundings (Nat × ConfSyncState))) :
    Option System :=
  actions.foldlM SyncSystem.step (SyncSystem.start rule (build edges) 0)

def quiescing : SM (surroundings.app (Nat × ConfSyncState)) :=
  .interpretInput rule 0 (1, defaultConfSyncState) emptyFifoBuffer [.NormalJump (quiescePhase surroundings encoding second)]

def started : SM (surroundings.app (Nat × ConfSyncState)) :=
  quiescing.message (SyncMessage.synchronized (some 1) (.ok ())).message

def execution : SyncAction surroundings (Nat × ConfSyncState) := .executes 5 .empty

def request : SyncAction surroundings (Nat × ConfSyncState) := .arrives (.sync 1 (.SyncToConfdServersInRG false))

def repaired : List (Resource × Relation × Resource) :=
  [(.conf (.pool ⟨6, 1⟩), .Has, .poolRepairStatus ⟨.Repair, 8, true⟩)]

/-- A system as far as its rule is concerned: the phases on the stack, the number of messages that were sent
and of commits that were made and are to be made. -/
def summary (s : System) : List String × Nat × Nat × Nat :=
  (s.sm.names, s.outside.sent.length, s.commits.length, s.outside.queue.length)

/-- A step of a machine on the graph with a repair: the phases that it waits in, and how it ended. -/
def moved (sm : SM (surroundings.app (Nat × ConfSyncState))) : List (List String × SMState) :=
  match Stateful.outcome (sm.execute 5 .empty) ⟨0, 0, .empty, build repaired⟩ ⟨[], [], 0⟩ with
  | (.ok (machines, _), _) => machines.map fun machine => (machine.2.names, machine.1.smResultState)
  | _ => []

end Scenario
open Scenario

/-- With a report in its mailbox, the machine asks for the repair to stop, and waits for that. -/
theorem sync_never_continues_reported :
    ∃ machines engine outside, Returns
    (started.execute 5 .empty) ⟨0, 0, .empty, Example.build repaired⟩ ⟨[], [], 0⟩ machines engine outside ∧
      machines.map (·.2.names) = [["on-quiesced", "on-abort"]] ∧
      ∀ machine ∈ machines, on_synchronized.value ∉ machine.2.names ∧ meroRules.reply.value ∉ machine.2.names := by
  have starts : Cep.Follows rule 0 emptyFifoBuffer (1, defaultConfSyncState) [quiesce] .SMRunning quiescing :=
    .run (cons_ne_nil _ _) (.cons ⟨_, rfl, rfl, fun _ _ => rfl⟩ .nil)
  have uses : Uses surroundings Example.encoding second meroRules.reply rule := uses_syncRule _ _ _ _ _ _
  have computed : moved started = [(["on-quiesced", "on-abort"], .SMRunning)] := by decide +kernel
  unfold moved at computed
  split at computed
  next machines engine outside returned =>
    obtain ⟨machine, rfl, same⟩ := map_eq_singleton_iff.mp computed
    obtain ⟨names, running⟩ := Prod.mk.inj same
    refine ⟨[machine], engine, outside, returned, congrArg (fun names => [names]) names, forall_mem_singleton.mpr ?_⟩
    refine sync_never_continues Example.encoding surroundings second uses (by decide) starts
      (.execute (.message .same _) returned mem_cons_self ?_)
    rw [running]
    nofun
  next => cases computed

/-- The graph was synchronised, and the worker's report of that has arrived, but the rule has started anew; the request is not
answered. And a rule that has had to abort a repair waits for another kind of result than that of the abort. -/
theorem sync_not_completed :
    (runs [] [request, execution, execution, .commits ⟨.ok (.ok ()), .ok ()⟩, .reported, execution]).map summary =
        some (["initial"], 0, 1, 0) ∧
      (runs repaired [request, execution, execution,
      .arrives (.quiesceFinished [0] (.QuiesceSNSOperationFailure (.pool ⟨6, 1⟩) "")),
        execution, .arrives (.abortFinished [1] (.AbortSNSOperationOk (.pool ⟨6, 1⟩))), execution]).map summary =
        some (["on-quiesced", "on-abort"], 2, 0, 0) := by
  decide +kernel

end SyncToConfd
end Halon.Mero
