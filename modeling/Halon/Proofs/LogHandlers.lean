import Halon.Proofs.LogCases
import Halon.Proofs.LogLedger

/-! Every handler of a replica keeps to the log, given that the event does: what it
executes, stores, sends and proposes agrees with the decided values. -/

namespace Halon.Log
open Library List

variable {A S : Type} {k : Ledger A} {st : ReplicaState A S} {config : Config} {machine : StateMachine A S} {here : Nat}

theorem Effects.Sound.none : Effects.Sound k ({} : Effects A S) := by
  constructor <;> intro entry member <;> cases member

theorem forall_mem_ite {α : Type} {kept : α → Prop} {condition : Prop} [Decidable condition] {items}
    (each : condition → ∀ item ∈ items, kept item) : ∀ item ∈ (if condition then items else []), kept item := by
  split
  next met => exact each met
  next => exact nofun

def Keeps (k : Ledger A) (next : ReplicaState A S × Effects A S) : Prop := next.1.Sound k ∧ next.2.Sound k

variable {ρs ρs' : List Nat} {now epoch' : Int} {next : ReplicaState A S × Effects A S} {effects : Effects A S}

private theorem sends_all {message : Message A S} (sound : message.Sound k) :
    ∀ sent ∈ ρs.map (fun ρ => (ρ, message)), sent.2.Sound k := by
  intro sent member
  obtain ⟨ρ, _, rfl⟩ := mem_map.mp member
  exact sound

private theorem lease_sound (reached : Reached k di) :
    (proposeLeaseRequest here di senders ρs now : ProposerMsg A).Sound k := by
  refine ⟨reached, ?_⟩
  intro leg ρs' same
  cases same
  rfl

private theorem updateAcceptors_sound (ρs ρs' : List Nat) :
    ∀ message ∈ (updateAcceptors ρs ρs' : List (ProposerMsg A)), message.Sound k := by
  unfold updateAcceptors
  split
  next => exact nofun
  next => exact forall_mem_singleton.mpr trivial

theorem queryMissingFrom_sound (w : Int) (ρs : List Nat) (log : OrderedMap Int (Value A)) :
    ∀ sent ∈ (queryMissingFrom here w ρs log : List (Nat × Message A S)), sent.2.Sound k := by
  intro sent member
  obtain ⟨n, _, inside⟩ := mem_flatMap.mp member
  obtain ⟨ρ, _, rfl⟩ := mem_map.mp inside
  trivial

theorem go_sound (sound : st.Sound k) : (go config here later st).1.Sound k ∧
    ∀ message ∈ (go config here later st).2, message.Sound k := by
  have quiet : ∀ message ∈ ([] : List (ProposerMsg A)), message.Sound k := nofun
  unfold go
  split
  next =>
    split
    next =>
      refine ⟨{ sound with }, ?_⟩
      exact forall_mem_singleton.mpr (lease_sound sound.watermark)
    next => exact ⟨sound, quiet⟩
  next => exact ⟨sound, quiet⟩

theorem skip_sound : (skip here st).Sound k := { Effects.Sound.none with sends := sends_all trivial }

theorem status_sound : (status here st).Sound k := { Effects.Sound.none with sends := sends_all trivial }

private theorem dump_sound (reached : Reached k w') :
    ∀ sn ∈ (maybeTakeSnapshot config st w' s').2, Reached k sn.watermark := by
  unfold maybeTakeSnapshot
  dsimp only
  split
  next => exact forall_mem_singleton.mpr reached
  next => exact nofun

theorem executeEntry_keeps (consistent : k.Consistent) (sound : st.Sound k)
    (number : di.decreeNumber = st.stateWatermark.decreeNumber) (entry : Entry k di.decreeNumber v) :
    Keeps k (executeEntry config machine here di v st) := by
  have current : Entry k st.stateWatermark.decreeNumber v := number ▸ entry
  have told (w' : DecreeId) : ∀ message ∈ [ProposerMsg.watermark w'], message.Sound k := forall_mem_singleton.mpr trivial
  have executed : EntriesIn k [(st.stateWatermark.decreeNumber, v)] := forall_mem_singleton.mpr current
  cases v with
  | Values =>
    have next : Reached k st.stateWatermark.succ := sound.watermark.follow (sound.watermark.decided current)
    refine ⟨{ sound with watermark := next }, ?_⟩
    exact { Effects.Sound.none with
      dumps := dump_sound next, proposer := told _, executed := executed }
  | Reconf =>
    obtain ⟨opened, next⟩ := consistent.next sound.watermark current
    unfold executeEntry
    dsimp only
    split
    next =>
      rw [opened] at entry ⊢
      refine ⟨⟨next, sound.snapshot, sound.reference, .inr entry, sound.log⟩, ?_⟩
      exact { Effects.Sound.none with
        sends := forall_mem_singleton.mpr trivial, dumps := dump_sound next
        proposer := forall_mem_append.mpr ⟨updateAcceptors_sound _ _, told _⟩, executed := opened ▸ executed }
    next =>
      refine ⟨{ sound with watermark := next }, ?_⟩
      exact { Effects.Sound.none with
        dumps := dump_sound next, proposer := told _, executed := executed }

theorem decree_keeps {requestStart locale v next} (consistent : k.Consistent)
    (sound : st.Sound k) (entry : Entry k di.decreeNumber v)
    (handled : decree config machine here now requestStart locale di v st = some (.continues next effects)) :
    Keeps k (next, effects) := by
  cases decree_cases handled with
  | skips => exact ⟨sound, skip_sound⟩
  | commits | stores => exact ⟨sound, { Effects.Sound.none with tasks := forall_mem_singleton.mpr entry }⟩
  | executes _ _ number =>
    have keeps : Keeps k (executeEntry config machine here di v st) := executeEntry_keeps consistent sound number entry
    obtain ⟨kept, also⟩ := keeps
    exact ⟨{ kept with }, also⟩

theorem dumped_keeps (sound : st.Sound k) (reached : Reached k w0')
    (restorable : Reached k sref'.watermark) : Keeps k (dumped w0' sref' st) := by
  unfold dumped
  split
  next =>
    refine ⟨⟨sound.watermark, reached, ?_, sound.configured, sound.log⟩, ?_⟩
    · rintro sref ⟨⟩
      exact restorable
    · exact { Effects.Sound.none with writes := forall_mem_singleton.mpr nofun }
  next => exact ⟨sound, .none⟩

theorem batchRequest_proposed (reached : Reached k cd)
    (follows : isReconf r.batcherMsgRequest.requestValue → legD.decreeLegislatureId = cd.decreeLegislatureId) :
    Proposed k cd (batchRequest legD r rs').requestValue := by
  refine ⟨reached, ?_⟩
  intro leg ρs same
  unfold batchRequest at same
  dsimp only at same
  split at same
  next reconf =>
    rw [← follows reconf]
    cases value : r.batcherMsgRequest.requestValue with
    | Values => simp [value, isReconf] at reconf
    | Reconf =>
      simp only [value, updateLeg, Value.Reconf.injEq] at same
      exact same.1.symm
  next => cases same

theorem batch_keeps (sound : st.Sound k) (follows : st.stateCurrentDecree = st.stateWatermark → st.Leads config here now →
      ∀ m ∈ rs, st.stateEpoch ≤ m.batcherMsgEpoch → isReconf m.batcherMsgRequest.requestValue →
        st.stateReconfDecree.decreeLegislatureId = st.stateCurrentDecree.decreeLegislatureId)
    (handled : batch config machine here now rs st = some next) : Keeps k next := by
  have moved (cd' : DecreeId) (last : Option DecreeId) (s' : S) :
      ReplicaState.Sound k { st with stateCurrentDecree := cd', stateLastProposed := last, stateLogState := s' } :=
    { sound with }
  obtain ⟨current, batched⟩ := batch_cases handled
  have reached : Reached k st.stateCurrentDecree := current ▸ sound.watermark
  cases batched with
  | asks => exact ⟨moved _ _ _, { Effects.Sound.none with proposer := forall_mem_singleton.mpr (lease_sound reached) }⟩
  | ignores => exact ⟨sound, .none⟩
  | answers => exact ⟨moved _ _ _, { Effects.Sound.none with }⟩
  | @proposes r rest leads included =>
    have proposed : Proposed k _ (batchRequest st.stateReconfDecree r (r :: rest)).requestValue :=
      batchRequest_proposed reached (follows current leads r (included r mem_cons_self).1 (included r mem_cons_self).2)
    exact ⟨moved _ _ _, { Effects.Sound.none with proposer := forall_mem_singleton.mpr proposed }⟩

theorem passed_keeps [DecidableEq A] (sound : st.Sound k) (reached : Reached k r.prDecree)
    (decided : k r.prDecree = some vi) : Keeps k (passed here vi r st) := by
  have entry : Entry k r.prDecree.decreeNumber vi := ⟨_, reached, rfl, decided⟩
  refine ⟨{ sound with }, ?_⟩
  refine { Effects.Sound.none with sends := ?_ }
  intro sent member
  rcases mem_cons.mp member with rfl | other
  · exact entry
  · have told : Message.Sound k (.Decree r.prStart .Remote r.prDecree vi : Message A S) := entry
    exact sends_all told sent other

theorem rejected_keeps (sound : st.Sound k) : Keeps k (rejected r st) :=
  ⟨{ sound with }, { Effects.Sound.none with }⟩

theorem query_keeps {ρ n next} (sound : st.Sound k) (handled : query ρ n st = .continues next effects) :
    Keeps k (next, effects) := by
  cases query_cases handled with
  | @logged v found =>
    have entry : Entry k n v := sound.log (n, v) (OrderedMap.lookup_eq_some.mp found)
    exact ⟨sound, { Effects.Sound.none with sends := forall_mem_singleton.mpr entry }⟩
  | @saved sref found =>
    have restorable := sound.reference sref (found ▸ rfl)
    refine ⟨sound, { Effects.Sound.none with sends := forall_mem_singleton.mpr ?_ }⟩
    exact ⟨sound.configured, sound.snapshot, restorable⟩
  | missing => exact ⟨sound, .none⟩

theorem adopt_configured (sound : st.Sound k) (told : st.stateReconfDecree < legD' → Configured k legD' ρs') :
    (adopt legD' epoch' ρs' st).Sound k := by
  unfold adopt
  split
  next newer => exact { sound with configured := told newer }
  next => exact sound

/-- A later configuration than the replica's own is not the initial one, so it is an entry of the log. -/
theorem newer_entry (consistent : k.Consistent) (configured : Configured k legD ρs) (told : Configured k legD' ρs')
    (newer : legD < legD') : Entry k legD'.decreeNumber (.Reconf legD'.decreeLegislatureId ρs') := by
  refine told.resolve_left ?_
  rintro rfl
  rw [DecreeId.lt_def] at newer
  rcases configured with rfl | ⟨di, reached, _, decided⟩
  · omega
  · have opened := (consistent di _ decided).2 _ _ rfl
    have legislature := reached.legislature
    dsimp only at newer
    omega

theorem snapshotInfo_keeps (consistent : k.Consistent) (sound : st.Sound k)
    (told : Configured k legD' ρs') (reached : Reached k w0') (restorable : Reached k sref'.watermark) :
    Keeps k (snapshotInfo m ρs' legD' epoch' sref' w0' n st) := by
  unfold snapshotInfo
  dsimp only
  split
  next =>
    constructor
    · have restored : ReplicaState.Sound k (if m.restores = true then { st with
          stateSnapshotRef := some sref', stateWatermark := w0', stateSnapshotWatermark := w0', stateLogState := sref'.state }
          else st) := by
        split
        next =>
          refine ⟨reached, reached, ?_, sound.configured, sound.log⟩
          rintro sref ⟨⟩
          exact restorable
        next => exact sound
      have adopted : (adopt legD' epoch' ρs' _).Sound k := adopt_configured restored fun _ => told
      exact { adopted with }
    · have trimmed : EntriesIn k (Write.trimTheLog st.stateSnapshotWatermark.decreeNumber).entries :=
        nofun
      have inserted (newer : st.stateReconfDecree < legD') :
          EntriesIn k (Write.insertInLog legD'.decreeNumber (.Reconf legD'.decreeLegislatureId ρs')).entries :=
        forall_mem_singleton.mpr (newer_entry consistent sound.configured told newer)
      exact { Effects.Sound.none with
        writes := forall_mem_append.mpr
          ⟨forall_mem_ite fun newer => forall_mem_singleton.mpr (inserted newer), forall_mem_singleton.mpr trimmed⟩
        proposer := forall_mem_append.mpr
          ⟨forall_mem_ite fun _ => updateAcceptors_sound _ _, forall_mem_ite fun _ => forall_mem_singleton.mpr trivial⟩
        fetched := forall_mem_ite fun _ => forall_mem_singleton.mpr restorable }
  next => exact ⟨sound, .none⟩

theorem maxDecree_keeps (consistent : k.Consistent) (sound : st.Sound k)
    (told : st.stateUnconfirmedDecree.decreeNumber < d'.decreeNumber → st.stateReconfDecree < legD' → Configured k legD' ρs') :
    Keeps k (maxDecree here now ρ d' legD' epoch' ρs' st) := by
  unfold maxDecree
  dsimp only
  split
  next further =>
    replace told := told further
    constructor
    · have adopted : (adopt legD' epoch' ρs' st).Sound k := adopt_configured sound told
      exact { adopted with }
    · have inserted (newer : st.stateReconfDecree < legD') :
          Entry k legD'.decreeNumber (.Reconf legD'.decreeLegislatureId ρs') :=
        newer_entry consistent sound.configured (told newer) newer
      exact { Effects.Sound.none with
        tasks := forall_mem_ite fun newer => forall_mem_singleton.mpr (inserted newer)
        sends := queryMissingFrom_sound _ _ _
        proposer := forall_mem_ite fun _ => updateAcceptors_sound _ _ }
  next => exact ⟨sound, .none⟩

theorem trimUnreachable_sublist (dvs : List (DecreeId × Value A)) (leg : Int) : (trimUnreachable dvs leg).Sublist dvs := by
  induction dvs generalizing leg with
  | nil => exact .slnil
  | cons p rest ih =>
    unfold trimUnreachable
    split
    next => exact (ih _).cons p
    next => exact (ih _).cons_cons p

theorem recover_keeps (consistent : k.Consistent) (sound : st.Sound k)
    (answered : ∀ dvs ∈ edvs, (∀ p ∈ dvs, k p.1 = some p.2) ∧ (st.Recovering config here now e ρs' dvs → Reached k
      (recoveryDecree st.stateUnconfirmedDecree (trimUnreachable dvs st.stateWatermark.decreeLegislatureId)))) :
    Keeps k (recover config here now e π ρs' edvs st) := by
  generalize handled : recover config here now e π ρs' edvs st = next
  cases recover_cases handled with
  | waits => exact ⟨sound, .none⟩
  | refuses => exact ⟨sound, { Effects.Sound.none with }⟩
  | proposes edvs_eq recovering trimmed decree =>
    obtain ⟨decided, reached⟩ := answered _ edvs_eq
    replace reached := reached recovering
    rw [← trimmed, ← decree] at reached
    refine ⟨{ sound with }, ?_⟩
    refine { Effects.Sound.none with
      sends := forall_mem_append.mpr ⟨?_, queryMissingFrom_sound _ _ _⟩
      proposer := forall_mem_cons.mpr ⟨lease_sound reached, updateAcceptors_sound _ _⟩ }
    intro sent member
    obtain ⟨p, inside, rfl⟩ := mem_map.mp member
    have chosen := decided p ((trimUnreachable_sublist _ _).subset (trimmed ▸ inside))
    exact ⟨p.1, (consistent p.1 p.2 chosen).1, rfl, chosen⟩

theorem leaseRenewalTime_keeps (sound : st.Sound k) (handled : leaseRenewalTime config here now st = some next) :
    Keeps k next := by
  obtain ⟨current, rfl | rfl⟩ := leaseRenewalTime_cases handled
  · have reached : Reached k st.stateCurrentDecree := current ▸ sound.watermark
    refine ⟨{ sound with }, ?_⟩
    exact { Effects.Sound.none with proposer := forall_mem_singleton.mpr (lease_sound reached) }
  · exact ⟨sound, .none⟩

theorem membershipQuery_keeps (sound : st.Sound k) (handled : membershipQuery config here now st = some next) : Keeps k next := by
  rcases membershipQuery_cases handled with rfl | rfl
  · exact ⟨sound, { Effects.Sound.none with memberships := forall_mem_singleton.mpr sound.configured }⟩
  · exact ⟨sound, .none⟩

/-- What an event must be like so that the replica keeps to the log. -/
def Event.Sound (config : Config) (here : Nat) (now : Int) (k : Ledger A) (st : ReplicaState A S) : Event A S → Prop
  | .message (.Max _ d legD _ ρs) => st.stateUnconfirmedDecree.decreeNumber < d.decreeNumber → st.stateReconfDecree < legD →
      Configured k legD ρs
  | .message m => m.Sound k
  | .batch rs => st.stateCurrentDecree = st.stateWatermark → st.Leads config here now →
      ∀ m ∈ rs, st.stateEpoch ≤ m.batcherMsgEpoch → isReconf m.batcherMsgRequest.requestValue →
        st.stateReconfDecree.decreeLegislatureId = st.stateCurrentDecree.decreeLegislatureId
  | .recover e _ ρs edvs => ∀ dvs ∈ edvs, (∀ p ∈ dvs, k p.1 = some p.2) ∧ (st.Recovering config here now e ρs dvs → Reached k
      (recoveryDecree st.stateUnconfirmedDecree (trimUnreachable dvs st.stateWatermark.decreeLegislatureId)))
  | .leaseRenewalTime | .membershipQuery => True

theorem handle_keeps [DecidableEq A] {m event next} (consistent : k.Consistent)
    (sound : st.Sound k) (told : event.Sound config here m.now k st)
    (handled : handle config machine here m st event = some (.continues next effects)) :
    Keeps k (next, effects) := by
  cases event with
  | message message =>
    cases message with
    | Decree => exact decree_keeps consistent sound told handled
    | Query => exact query_keeps sound (Option.some.inj handled)
    | Max =>
      cases handled
      exact maxDecree_keeps consistent sound told
    | SnapshotInfo =>
      cases handled
      exact snapshotInfo_keeps consistent sound told.1 told.2.1 told.2.2
    | Status =>
      cases handled
      exact ⟨sound, status_sound⟩
    | Dumped =>
      cases handled
      exact dumped_keeps sound told.1 told.2
    | Passed =>
      cases handled
      exact passed_keeps sound told.1 told.2
    | Rejected =>
      cases handled
      exact rejected_keeps sound
  | leaseRenewalTime =>
    obtain ⟨_, moved, rfl, rfl⟩ := continues_of_map handled
    exact leaseRenewalTime_keeps sound moved
  | batch =>
    obtain ⟨_, moved, rfl, rfl⟩ := continues_of_map handled
    exact batch_keeps sound told moved
  | membershipQuery =>
    obtain ⟨_, moved, rfl, rfl⟩ := continues_of_map handled
    exact membershipQuery_keeps sound moved
  | recover =>
    cases handled
    exact recover_keeps consistent sound told

end Halon.Log
