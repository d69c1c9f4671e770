import Halon.Proofs.LogHandlers

/-! The proposers, the stored logs and the snapshots of nodes keep to the log, also
when a replica starts again from what its node has stored. -/

namespace Halon.Log
open Library List Option

variable {A S : Type} {k more : Ledger A}

structure Proposer.Sound (k : Ledger A) (p : Proposer A) : Prop where
  mailbox : ∀ message ∈ p.mailbox, message.Sound k
  working : ∀ work ∈ p.working, Proposed k work.1.prDecree work.1.prRequest.requestValue ∧
    ∀ v ∈ work.2, k work.1.prDecree = some v

structure Replica.Sound (k : Ledger A) (r : Replica A S) : Prop where
  state : r.state.Sound k
  tasks : ∀ task ∈ r.tasks, Entry k task.entry.1 task.entry.2
  proposer : r.proposer.Sound k

structure PersistenceHandle.Sound (k : Ledger A) (ph : PersistenceHandle A) : Prop where
  membership : ∀ membership ∈ ph.persistentMembershipMap, Configured k membership.1 membership.2
  log : EntriesIn k ph.persistentLogMap.entries
  cache : EntriesIn k ph.persistentLogCache.entries

structure Node.Sound (k : Ledger A) (node : Node A S) : Prop where
  config : ∀ membership ∈ node.config, Configured k membership.1 membership.2
  handle : node.handle.Sound k
  snapshots : ∀ sn ∈ node.snapshots, Reached k sn.watermark
  dumping : ∀ sn ∈ node.dumping, Reached k sn.watermark
  replica : ∀ r ∈ node.replica, r.Sound k

section
variable (grows : Chain.Grows k more)
include grows

theorem EntriesIn.grow (sound : EntriesIn k entries) : EntriesIn more entries :=
  fun entry member => (sound entry member).grow grows

theorem ReplicaState.Sound.grow {st : ReplicaState A S} (sound : st.Sound k) : st.Sound more where
  watermark := sound.watermark.grow grows
  snapshot := sound.snapshot.grow grows
  reference sref found := (sound.reference sref found).grow grows
  configured := sound.configured.grow grows
  log := sound.log.grow grows

theorem Proposer.Sound.grow {p : Proposer A} (sound : p.Sound k) : p.Sound more where
  mailbox message member := (sound.mailbox message member).grow grows
  working work found :=
    ⟨(sound.working work found).1.grow grows, fun v result => grows _ v ((sound.working work found).2 v result)⟩

theorem Node.Sound.grow {node : Node A S} (sound : node.Sound k) : node.Sound more where
  config membership found := (sound.config membership found).grow grows
  handle :=
    { membership := fun membership found => (sound.handle.membership membership found).grow grows
      log := sound.handle.log.grow grows
      cache := sound.handle.cache.grow grows }
  snapshots sn member := (sound.snapshots sn member).grow grows
  dumping sn member := (sound.dumping sn member).grow grows
  replica r found :=
    { state := (sound.replica r found).state.grow grows
      tasks := fun task member => ((sound.replica r found).tasks task member).grow grows
      proposer := (sound.replica r found).proposer.grow grows }

end

namespace PersistenceHandle
variable {ph : PersistenceHandle A}

theorem insertInLog_sound (sound : ph.Sound k) (entry : Entry k n v) : (ph.insertInLog n v).Sound k := by
  have inserted {map : OrderedMap Int (Value A)} (kept : EntriesIn k map.entries) : EntriesIn k (map.insert n v).entries := by
    intro found member
    rcases OrderedMap.mem_insert.mp member with rfl | ⟨old, _⟩
    · exact entry
    · exact kept found old
  refine ⟨?_, inserted sound.log, inserted sound.cache⟩
  intro membership found
  cases v with
  | Values => exact sound.membership membership found
  | Reconf =>
    cases found
    exact .inr entry

theorem trimTheLog_sound (sound : ph.Sound k) : (ph.trimTheLog w0).Sound k where
  membership := sound.membership
  log entry member := sound.log entry (OrderedMap.mem_filter.mp member).1
  cache entry member := sound.cache entry (OrderedMap.mem_filter.mp member).1

theorem writes_sound {writes : List (Write A)} (sound : ph.Sound k) (kept : ∀ write ∈ writes, EntriesIn k write.entries) :
    (writes.foldl write ph).Sound k := by
  induction writes generalizing ph with
  | nil => exact sound
  | cons first rest ih =>
    obtain ⟨entries, later⟩ := forall_mem_cons.mp kept
    refine ih ?_ later
    cases first with
    | insertInLog => exact insertInLog_sound sound (entries _ mem_cons_self)
    | trimTheLog => exact trimTheLog_sound sound

end PersistenceHandle

namespace Proposer
variable {p : Proposer A}

/-- What the proposer leaves, sends and starts keeps to the log. -/
structure Outcome.Sound (k : Ledger A) (outcome : Outcome A S) : Prop where
  next : outcome.next.Sound k
  sends : ∀ message ∈ outcome.sends, message.Sound k
  starts : ∀ start ∈ outcome.starts, Proposed k start.1 start.2

private theorem idle_sound {w αs mailbox}
    (kept : ∀ message ∈ mailbox, message.Sound k) : Sound k (⟨w, αs, mailbox, none⟩ : Proposer A) :=
  ⟨kept, fun _ found => absurd found (not_mem_none _)⟩

theorem mem_takeUpdate {mailbox rest : List (ProposerMsg A)}
    (taken : takeUpdate mailbox = some (update, rest)) : ∀ message ∈ rest, message ∈ mailbox := by
  induction mailbox generalizing rest with
  | nil => cases taken
  | cons first _ ih =>
    cases first with
    | request =>
      obtain ⟨_, later, same⟩ := map_eq_some_iff.mp taken
      cases same
      intro message member
      rcases mem_cons.mp member with rfl | inside
      · exact mem_cons_self
      · exact mem_cons_of_mem _ (ih later message inside)
    | acceptors | watermark =>
      cases taken
      exact fun message member => mem_cons_of_mem _ member

private theorem none_told : ∀ message ∈ ([] : List (Message A S)), message.Sound k := by simp

private theorem none_started : ∀ start ∈ ([] : List (DecreeId × Value A)), Proposed k start.1 start.2 := by simp

private theorem abort_sound (mailbox : ∀ message ∈ p.mailbox, message.Sound k)
    (work : Proposed k r.prDecree r.prRequest.requestValue ∧ ∀ v ∈ result, k r.prDecree = some v) :
    (abort p r result : Outcome A S).Sound k := by
  unfold abort
  split
  next v' =>
    have passed : Message.Sound k (.Passed v' r : Message A S) := ⟨work.1.1, work.2 v' rfl⟩
    exact ⟨idle_sound mailbox, forall_mem_singleton.mpr passed, none_started⟩
  next =>
    split
    next =>
      have again : ∀ message ∈ p.mailbox ++ [.request r], message.Sound k :=
        forall_mem_append.mpr ⟨mailbox, forall_mem_singleton.mpr work.1⟩
      exact ⟨idle_sound again, none_told, none_started⟩
    next => exact ⟨idle_sound mailbox, forall_mem_singleton.mpr trivial, none_started⟩

variable {outcome : Outcome A S}

theorem receive_sound (sound : p.Sound k) (received : p.receive = some outcome) : outcome.Sound k := by
  unfold receive at received
  split at received
  next =>
    split at received
    next => cases received
    next waiting =>
      obtain ⟨request, later⟩ := forall_mem_cons.mp (waiting ▸ sound.mailbox)
      split at received
      next =>
        cases received
        exact ⟨⟨later, sound.working⟩, forall_mem_singleton.mpr trivial, none_started⟩
      next =>
        cases received
        refine ⟨⟨later, ?_⟩, none_told, forall_mem_singleton.mpr request⟩
        rintro work ⟨⟩
        exact ⟨request, fun _ found => absurd found (not_mem_none _)⟩
    next waiting =>
      cases received
      exact ⟨⟨(forall_mem_cons.mp (waiting ▸ sound.mailbox)).2, sound.working⟩, none_told, none_started⟩
    next waiting =>
      cases received
      exact ⟨⟨(forall_mem_cons.mp (waiting ▸ sound.mailbox)).2, sound.working⟩, none_told, none_started⟩
  next r result busy =>
    have work := sound.working (r, result) busy
    split at received
    next taken =>
      cases received
      exact abort_sound (fun message member => sound.mailbox message (mem_takeUpdate taken message member)) work
    next rest taken =>
      have kept : ∀ message ∈ rest, message.Sound k :=
        fun message member => sound.mailbox message (mem_takeUpdate taken message member)
      split at received
      next =>
        cases received
        exact ⟨⟨kept, sound.working⟩, none_told, none_started⟩
      next =>
        cases received
        exact abort_sound kept work
    next => cases received

theorem decided_sound {next} (sound : p.Sound k) (answered : p.decided k = some next) : next.Sound k := by
  unfold decided at answered
  split at answered
  next busy =>
    obtain ⟨v, value, rfl⟩ := map_eq_some_iff.mp answered
    refine ⟨sound.mailbox, ?_⟩
    rintro work ⟨⟩
    refine ⟨(sound.working _ busy).1, ?_⟩
    rintro found ⟨⟩
    exact value
  next => cases answered

theorem finish_sound (sound : p.Sound k) (finished : p.finish = some outcome) : outcome.Sound k := by
  unfold finish at finished
  split at finished
  next r v' busy =>
    cases finished
    obtain ⟨proposed, value⟩ := sound.working _ busy
    have passed : Message.Sound k (.Passed v' r : Message A S) := ⟨proposed.1, value v' rfl⟩
    exact ⟨idle_sound sound.mailbox, forall_mem_singleton.mpr passed, none_started⟩
  next => cases finished

end Proposer

variable {restores : Snapshot S → Bool} {node : Node A S}

theorem findSnapshot_reached (reached : ∀ sn ∈ sns, Reached k sn.watermark) :
    Reached k (findSnapshot machine restores sns).1 := by
  induction sns with
  | nil => exact Reached.initial
  | cons sn rest ih =>
    obtain ⟨first, others⟩ := forall_mem_cons.mp reached
    unfold findSnapshot
    split
    next => exact first
    next => exact ih others

theorem startReplica_sound (sound : node.Sound k) (configured : Configured k legD0 replicas0) :
    (startReplica machine here leaseStart0 now restores legD0 replicas0 node).1.Sound k ∧
      ∀ sent ∈ (startReplica machine here leaseStart0 now restores legD0 replicas0 node).2, sent.2.Sound k := by
  have watermark : Reached k (findSnapshot machine restores
      (node.snapshots.insertionSort fun a b => b.watermark ≤ a.watermark)).1 := by
    apply findSnapshot_reached
    intro sn member
    exact sound.snapshots sn ((mem_insertionSort _).mp member)
  have stored : Configured k (node.handle.persistentMembershipMap.getD (legD0, replicas0)).1
      (node.handle.persistentMembershipMap.getD (legD0, replicas0)).2 := by
    cases found : node.handle.persistentMembershipMap with
    | none => exact configured
    | some membership => exact sound.handle.membership membership found
  have latest : Configured k (max legD0 (node.handle.persistentMembershipMap.getD (legD0, replicas0)).1)
      (if legD0 < (node.handle.persistentMembershipMap.getD (legD0, replicas0)).1
        then (node.handle.persistentMembershipMap.getD (legD0, replicas0)).2 else replicas0) := by
    split
    next newer =>
      rw [max_eq_right newer.le]
      exact stored
    next older =>
      rw [max_eq_left (not_lt.mp older)]
      exact configured
  have none {α : Type} {kept : α → Prop} : ∀ item ∈ ([] : List α), kept item := nofun
  refine ⟨⟨⟨watermark, watermark, ?_, latest, none⟩, none, none, ?_⟩, forall_mem_append.mpr ⟨?_, queryMissingFrom_sound _ _ _⟩⟩
  · exact fun _ found => absurd found (not_mem_none _)
  · exact fun _ found => absurd found (not_mem_none _)
  · intro sent member
    obtain ⟨entry, inside, rfl⟩ := mem_map.mp member
    exact sound.handle.log entry inside

theorem Replica.Sound.enter {config here later} {r : Replica A S} (sound : r.Sound k) : (r.enter config here later).Sound k := by
  have went : (go config here later r.state).1.Sound k ∧ ∀ message ∈ (go config here later r.state).2, message.Sound k :=
    go_sound sound.state
  exact ⟨went.1, sound.tasks, forall_mem_append.mpr ⟨sound.proposer.mailbox, went.2⟩, sound.proposer.working⟩

theorem Node.resume_sound {config here later} {r : Replica A S} {st} {effects : Effects A S} (sound : node.Sound k)
    (old : r.Sound k)
    (keeps : Keeps k (st, effects)) : (node.resume config here later r st effects).Sound k := by
  obtain ⟨kept, also⟩ := keeps
  have went : (go config here later st).1.Sound k ∧ ∀ message ∈ (go config here later st).2, message.Sound k := go_sound kept
  obtain ⟨next, proposed⟩ := went
  have handle := PersistenceHandle.writes_sound sound.handle also.writes
  refine ⟨sound.config, handle, forall_mem_append.mpr ⟨also.fetched, sound.snapshots⟩,
    forall_mem_append.mpr ⟨sound.dumping, also.dumps⟩, ?_⟩
  rintro found ⟨⟩
  refine ⟨{ next with log := handle.cache }, ?_, ?_, old.proposer.working⟩
  · exact forall_mem_append.mpr ⟨old.tasks, also.tasks⟩
  · exact forall_mem_append.mpr ⟨forall_mem_append.mpr ⟨old.proposer.mailbox, also.proposer⟩, proposed⟩

end Halon.Log
