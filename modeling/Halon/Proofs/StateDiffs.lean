import Halon.Proofs.DiffEnrolment
import Halon.Proofs.DiffOutcome
import Halon.Proofs.PoolVersions

/-! The outcome of notifications over whole runs of the coordinator. A state diff is announced
once. A process is announced in one way, unless a failure is reported when it was already
recorded as reached: the check for that lets all such reports through. -/

namespace Halon.Mero
open Library Board List Option
variable {K V : Type} [LinearOrder K] [LinearOrder V] {enc : Encoding Relation Resource K V}
variable {encodeP : List AnyStateChange → InternalObjectStateChangeMsg} {rounds : Nat} {b : Board}
    {exempt : StateDiff → ConfObj → Prop}

namespace LoopState
variable {ls ls' initial start final : LoopState K V} {diff : StateDiff} {event : Event}

/-- The coordinator as it starts: no state diff is pending, and collections keep what the cluster is joined to. -/
structure Fresh (ls : LoopState K V) : Prop where
  sound : Graph.Sound schema ls.lsGraph
  root : .cluster ∈ ls.lsGraph.roots
  none : ∀ x ∈ ls.lsGraph.graph.keys, x.typeOf ≠ .StateDiff
  silent : ls.performed = []

def InOrder (ls : LoopState K V) : Prop := ∃ b, ls.Shows b ∧ b.Orderly

/-- The processes stand, and were announced, as they should. -/
def Follows (diff : StateDiff) (recipients : List ConfObj) (ls : LoopState K V) : Prop :=
  ∃ b, ls.Shows b ∧ b.Orderly ∧ b.Tracks diff recipients

def Tears (diff : StateDiff) (p : ConfObj) (ls : LoopState K V) : Prop := ∃ b, ls.Shows b ∧ b.Orderly ∧ b.Torn diff p

theorem Fresh.inOrder (fresh : ls.Fresh) : ls.InOrder := by
  obtain ⟨links, depicts⟩ := fresh.sound.depicts
  have source {d : StateDiff} {s : Relation} {c : Resource} : ¬ links (.stateDiff d) s c :=
    fun linked => fresh.none _ (depicts.holds_out.mpr linked).has rfl
  have target {d : StateDiff} {s : Relation} {a : Resource} : ¬ links a s (.stateDiff d) :=
    fun linked => fresh.none _ (depicts.holds_in.mpr linked).has rfl
  have quiet : ls.published = [] := by
    unfold published
    rw [fresh.silent]
    rfl
  refine ⟨⟨links, []⟩, ⟨depicts, quiet, fresh.root⟩, ⟨?_, fun indexed => (target indexed).elim, fun indexed =>
    (target indexed).elim,
    fun indexed => (target indexed).elim, fun held => (target held).elim, nofun, nodup_nil⟩, fun linked => (source linked).elim,
    fun waits => (source waits).elim⟩
  intro m n first second
  have single := fresh.sound.cardinal.targets .cluster .Has (.epochId m) (.epochId n)
  rw [depicts.outgoing_eq] at single
  exact Resource.epochId.inj (single first second rfl rfl)

theorem Shows.handle (shown : ls.Shows b) (orderly : b.Orderly) (done : ls.handle enc encodeP rounds event = .ok ls')
    (consistent : ∀ epoch fid d p, event = .NotificationFailure epoch fid → ls.getStateDiffByEpoch epoch = some d →
      ls.lsGraph.lookupConfObjByFid .Process fid = some p → ¬ b.Delivered d p ∨ exempt d p) : Leads exempt b ls' := by
  cases event with
  | NotificationAck =>
    rcases reported_ok shown orderly done with rfl | ⟨d, p, _, _, _, marked⟩
    · exact ⟨b, shown, .refl⟩
    · obtain ⟨b', shown', changes, _⟩ := shown.markNotificationDelivered exempt orderly marked
      exact ⟨b', shown', changes⟩
  | NotificationFailure epoch fid =>
    rcases reported_ok shown orderly done with rfl | ⟨d, p, found, known, registered, marked⟩
    · exact ⟨b, shown, .refl⟩
    · exact shown.markNotificationFailed orderly registered (consistent epoch fid d p rfl found known) marked
  | EpochTimeout epoch =>
    cases done
    exact shown.ruleNotificationTimeoutReached orderly epoch
  | ServiceFailed | ServiceExit | ServiceUncaughtException => exact shown.serviceEnded orderly done
  | stateSets => exact shown.announceStateChanges orderly done

theorem handle_of_step (moves : ls.step enc encodeP rounds event = some ls') : ls.handle enc encodeP rounds event = .ok ls' := by
  unfold step at moves
  cases handled : ls.handle enc encodeP rounds event with
  | error =>
    rw [handled] at moves
    cases moves
  | ok =>
    rw [handled] at moves
    cases moves
    rfl

theorem Fresh.run (fresh : initial.Fresh)
    (run : Run (step enc encodeP rounds) allowed initial final) : final.InOrder := by
  refine run.invariant fresh.inOrder ?_
  rintro before event after ⟨b, shown, orderly⟩ _ moves
  obtain ⟨b', shown', changes⟩ : Leads (fun _ _ => True) b after :=
    shown.handle orderly (handle_of_step moves) fun _ _ _ _ _ _ _ => .inr trivial
  exact ⟨b', shown', changes.orderly orderly⟩

/-- A failure to deliver the state diff is reported for one of the processes while it is recorded as reached. -/
def contradicts (diff : StateDiff) (recipients : List ConfObj) (ls : LoopState K V) : Event → Bool
  | .NotificationFailure epoch fid =>
    ls.getStateDiffByEpoch epoch = some diff && (ls.lsGraph.lookupConfObjByFid .Process fid).any fun p =>
      p ∈ recipients && ls.lsGraph.isConnected (.stateDiff diff) .DeliveredTo (.conf p)
  | _ => false

theorem contradicts_iff : ls.contradicts diff recipients event = true ↔
    ∃ epoch fid p, event = .NotificationFailure epoch fid ∧ ls.getStateDiffByEpoch epoch = some diff ∧
      ls.lsGraph.lookupConfObjByFid .Process fid = some p ∧ p ∈ recipients ∧
        ls.lsGraph.isConnected (.stateDiff diff) .DeliveredTo (.conf p) = true := by
  cases event with
  | NotificationFailure => simp [contradicts, Option.any_eq_true]
  | _ => simp [contradicts]

theorem not_delivered_of_consistent (shown : ls.Shows b)
    (consistent : ls.contradicts diff recipients (.NotificationFailure epoch fid) = false)
    (found : ls.getStateDiffByEpoch epoch = some diff)
    (known : ls.lsGraph.lookupConfObjByFid .Process fid = some p) (inside : p ∈ recipients) : ¬ b.Delivered diff p := by
  intro delivered
  have against : ls.contradicts diff recipients (.NotificationFailure epoch fid) = true :=
    contradicts_iff.mpr ⟨epoch, fid, p, rfl, found, known, inside, (Graph.isConnected_iff shown.depicts).mpr delivered⟩
  rw [consistent] at against
  cases against

theorem tracks_awaited (shown : ls.Shows b) (orderly : b.Orderly) (registered : b.Registered diff) :
    b.Tracks diff (ls.lsGraph.processes diff .ShouldDeliverTo) := by
  refine ⟨orderly.own registered, ?_, ?_⟩
  · intro _ p listed
    have waits : b.Awaited diff p := ((RG.mem_processes shown.depicts).mp listed).1
    obtain ⟨_, undelivered, unfailed⟩ := orderly.awaited waits
    exact .awaited waits undelivered unfailed
  · intro n announced epoch
    exact absurd epoch (orderly.unannounced registered announced)

/-- At any time a state diff is to be delivered to some processes. If from then on no failure is reported for one of them
that is recorded as reached, then whatever else happens, its epoch is announced once at most and each of them is in one of
the lists. -/
theorem state_diff_announced (fresh : initial.Fresh) (earlier : Run (step enc encodeP rounds) (fun _ _ => True) initial start)
    (run : Run (step enc encodeP rounds)
      (fun ls event => ls.contradicts diff (start.lsGraph.processes diff .ShouldDeliverTo) event = false) start final) :
    (final.published.map Notified.epoch).count diff.stateEpoch ≤ 1 ∧
      ∀ n ∈ final.published, n.epoch = diff.stateEpoch → ∀ p ∈ start.lsGraph.processes diff .ShouldDeliverTo,
      n.mentions p = 1 := by
  obtain ⟨b, shown, orderly⟩ := fresh.run earlier
  constructor
  · obtain ⟨_, shown', orderly'⟩ := fresh.run (earlier.trans (run.weaken fun _ _ _ => trivial))
    rw [shown'.published]
    exact nodup_iff_count_le_one.mp orderly'.once _
  intro n announced epoch p inside
  obtain ⟨waits, _⟩ := (RG.mem_processes shown.depicts).mp inside
  have tracks := tracks_awaited shown orderly (orderly.awaited waits).1
  have typed : ∀ q ∈ start.lsGraph.processes diff .ShouldDeliverTo, q.typeOf = .Process :=
    fun q listed => ((RG.mem_processes shown.depicts).mp listed).2
  -- All that is excused concerns other state diffs or other processes.
  let exempt (d : StateDiff) (q : ConfObj) : Prop := ¬ (d = diff ∧ q ∈ start.lsGraph.processes diff .ShouldDeliverTo)
  have followed : final.Follows diff (start.lsGraph.processes diff .ShouldDeliverTo) := by
    refine run.invariant ⟨b, shown, orderly, tracks⟩ ?_
    rintro before event after ⟨b, shown, orderly, tracks⟩ consistent moves
    obtain ⟨b', shown', changes⟩ : Leads exempt b after := by
      refine shown.handle orderly (handle_of_step moves) ?_
      rintro epoch fid d q rfl found known
      by_cases concerned : d = diff ∧ q ∈ start.lsGraph.processes diff .ShouldDeliverTo
      · obtain ⟨rfl, listed⟩ := concerned
        exact .inl (not_delivered_of_consistent shown consistent found known listed)
      · exact .inr concerned
    exact ⟨b', shown', changes.orderly orderly, changes.tracks tracks (fun q listed excused => excused ⟨rfl, listed⟩) typed⟩
  obtain ⟨_, shown', _, tracks'⟩ := followed
  rw [shown'.published] at announced
  exact tracks'.announced n announced epoch p inside

theorem typeOf_lookupConfObjByFid {rg : RG K V} {a : ResourceType} {fid : Fid} {p : ConfObj}
    (found : rg.lookupConfObjByFid a fid = some p) :
    p.typeOf = a := by
  obtain ⟨x, listed, object⟩ := mem_filterMap.mp (mem_of_find?_eq_some found)
  obtain rfl := RG.conf?_eq_some.mp object
  exact of_decide_eq_true (mem_filter.mp listed).2

theorem Shows.torn (shown : ls.Shows b) (orderly : b.Orderly) (registered : b.Registered diff) (delivered : b.Delivered diff p)
    (done : ls.markNotificationFailed enc diff p = .ok ls') : ls'.Tears diff p := by
  have tears {ls : LoopState K V} {b : Board} (shown : ls.Shows b) (orderly : b.Orderly) (registered : b.Registered diff)
      (both : b.Delivered diff p ∧ b.Failed diff p) : ls.Tears diff p :=
    ⟨b, shown, orderly, orderly.own registered, fun _ => both, fun n member epoch =>
      absurd epoch (orderly.unannounced registered member)⟩
  simp only [LoopState.markNotificationFailed] at done
  split at done
  next known =>
    cases done
    obtain ⟨_, failed⟩ := Bool.and_eq_true_iff.mp known
    exact tears shown orderly registered ⟨delivered, (Graph.isConnected_iff shown.depicts).mp failed⟩
  next =>
    obtain ⟨b', moved, change, _, failed, still, stays⟩ :=
      shown.moveToFailed enc (fun _ _ => True) p (orderly.passed registered) (.inr trivial)
    split at done
    next waits => exact absurd delivered (orderly.awaited ((Graph.isConnected_iff shown.depicts).mp waits)).2.1
    next =>
      obtain rfl := Except.ok.inj done
      exact tears moved (change.orderly orderly) (stays registered) ⟨still delivered, failed⟩

/-- The condition is exact: after such a report the process is announced in two of the lists. -/
theorem contradiction_announced {before : LoopState K V} {p : ConfObj} (fresh : initial.Fresh)
    (earlier : Run (step enc encodeP rounds) (fun _ _ => True) initial before)
    (against : before.contradicts diff [p] event = true)
    (moves : before.step enc encodeP rounds event = some start)
    (run : Run (step enc encodeP rounds) (fun _ _ => True) start final) :
    ∀ n ∈ final.published, n.epoch = diff.stateEpoch → p ∈ n.okProcesses ∧ p ∈ n.failProcesses := by
  obtain ⟨b, shown, orderly⟩ := fresh.run earlier
  obtain ⟨_, fid, q, rfl, found, known, listed, connected⟩ := contradicts_iff.mp against
  obtain rfl := mem_singleton.mp listed
  have delivered : b.Delivered diff q := (Graph.isConnected_iff shown.depicts).mp connected
  have marked : before.markNotificationFailed enc diff q = .ok start := by
    have handled := handle_of_step moves
    simpa only [handle, ruleNotificationsFailedToBeDeliveredToM0d, reported, found, known] using handled
  have torn : start.Tears diff q := shown.torn orderly (orderly.registered (shown.indexed found)) delivered marked
  obtain ⟨last, shown', _, torn'⟩ : final.Tears diff q := by
    refine run.invariant torn ?_
    rintro before event after ⟨b, shown, orderly, torn⟩ _ moves
    obtain ⟨b', shown', changes⟩ : Leads (fun _ _ => True) b after :=
      shown.handle orderly (handle_of_step moves) fun _ _ _ _ _ _ _ => .inr trivial
    exact ⟨b', shown', changes.orderly orderly, changes.torn torn (typeOf_lookupConfObjByFid known)⟩
  rw [shown'.published]
  exact torn'.announced

end LoopState

namespace Example
open LoopState

def hosts : List (Resource × Relation × Resource) :=
  [(.cluster, .Has, .rc 0), (.rc 0, .Is, .active), (.cluster, .Has, .host "host"), (.host "host", .Runs, .halonNode "node"),
    (.host "host", .Runs, .conf (.node ⟨1, 1⟩)), (.conf (.node ⟨1, 1⟩), .IsParentOf, .conf (.process ⟨2, 1⟩)),
    (.conf (.node ⟨1, 1⟩), .IsParentOf, .conf (.process ⟨2, 2⟩)), (.conf (.process ⟨2, 1⟩), .Is, .state (.process .PSOnline)),
    (.conf (.process ⟨2, 2⟩), .Is, .state (.process .PSOnline))]

def coordinator : LoopState Resource (Rel Relation Resource) := ⟨(build hosts).addRootNode encoding .cluster, []⟩

theorem fresh_coordinator : coordinator.Fresh where
  sound := (sound_build hosts).perform (.addRootNode .cluster) trivial trivial
  root := mem_cons_self
  none := by decide +kernel
  silent := rfl

def opening : StateDiff := ⟨0, [], []⟩

def react : LoopState Resource (Rel Relation Resource) → Event → Option (LoopState Resource (Rel Relation Resource)) :=
  LoopState.step encoding (fun _ => []) 0

/-- One process answers and the other is lost with its node; or it answers and is then reported as failed. -/
theorem answers_computed :
    ((execute react (fun _ _ => True) coordinator [.stateSets []]).bind fun start =>
      (execute react (fun ls event =>
      ls.contradicts opening (start.lsGraph.processes opening .ShouldDeliverTo) event = false) start
        [.NotificationAck 0 ⟨2, 1⟩, .ServiceFailed "node" .m0d]).map fun final =>
          (start.lsGraph.processes opening .ShouldDeliverTo, final.published.map Notified.epoch)) =
        some ([.process ⟨2, 1⟩, .process ⟨2, 2⟩], [0]) ∧
    ((execute react (fun _ _ => True) coordinator [.stateSets [], .NotificationAck 0 ⟨2, 1⟩]).bind fun before =>
      (react before (.NotificationFailure 0 ⟨2, 1⟩)).bind fun start =>
        (execute react (fun _ _ => True) start [.NotificationAck 0 ⟨2, 2⟩]).map fun final =>
          (before.contradicts opening [.process ⟨2, 1⟩] (.NotificationFailure 0 ⟨2, 1⟩), final.published)) =
        some (true, [⟨0, [], [.process ⟨2, 1⟩, .process ⟨2, 2⟩], [.process ⟨2, 1⟩], []⟩]) ∧
    ((execute react (fun _ _ => True) coordinator [.stateSets []]).bind fun start =>
      (execute react (fun _ _ => True) start
        [.NotificationAck 0 ⟨2, 1⟩, .NotificationFailure 0 ⟨2, 1⟩, .NotificationAck 0 ⟨2, 2⟩]).map fun final =>
          (start.lsGraph.processes opening .ShouldDeliverTo, final.published)) =
        some ([.process ⟨2, 1⟩, .process ⟨2, 2⟩],
          [⟨0, [], [.process ⟨2, 1⟩, .process ⟨2, 2⟩], [.process ⟨2, 1⟩], []⟩]) := by
  decide +kernel

end Example

open Example in
/-- One process answers and the other is lost with its node. -/
theorem answers_announced :
    ∃ start final, Run react (fun _ _ => True) coordinator start ∧
      Run react (fun ls event => ls.contradicts opening (start.lsGraph.processes opening .ShouldDeliverTo) event =
      false) start final ∧
      final.published.map Notified.epoch = [opening.stateEpoch] ∧
      ∀ n ∈ final.published, n.mentions (.process ⟨2, 1⟩) = 1 ∧ n.mentions (.process ⟨2, 2⟩) = 1 := by
  obtain ⟨start, begun, rest⟩ := bind_eq_some_iff.mp answers_computed.1
  obtain ⟨final, ended, shown⟩ := map_eq_some_iff.mp rest
  obtain ⟨recipients, announced⟩ := Prod.mk.inj shown
  have run := run_of_execute ended
  have each := (LoopState.state_diff_announced fresh_coordinator (run_of_execute begun) run).2
  refine ⟨start, final, run_of_execute begun, run, announced, ?_⟩
  intro n member
  have epoch : n.epoch = opening.stateEpoch := mem_singleton.mp (announced ▸ mem_map_of_mem member)
  exact ⟨each n member epoch _ (by simp [recipients]), each n member epoch _ (by simp [recipients])⟩

open Example in
theorem contradiction_announced_late : ∃ before start final, react before (.NotificationFailure 0 ⟨2, 1⟩) = some start ∧
    Run react (fun _ _ => True) start final ∧ final.published.map Notified.epoch = [opening.stateEpoch] ∧
    ∀ n ∈ final.published, n.epoch = opening.stateEpoch → .process ⟨2, 1⟩ ∈ n.okProcesses ∧
    .process ⟨2, 1⟩ ∈ n.failProcesses := by
  obtain ⟨before, begun, rest⟩ := bind_eq_some_iff.mp answers_computed.2.1
  obtain ⟨start, moves, rest⟩ := bind_eq_some_iff.mp rest
  obtain ⟨final, ended, shown⟩ := map_eq_some_iff.mp rest
  obtain ⟨against, announced⟩ := Prod.mk.inj shown
  refine ⟨before, start, final, moves, run_of_execute ended, by rw [announced]; rfl, ?_⟩
  exact LoopState.contradiction_announced fresh_coordinator (run_of_execute begun) against moves (run_of_execute ended)

open Example in
/-- A process answers and is reported as failed before the other answers. -/
theorem process_announced_twice :
    coordinator.Fresh ∧ ∃ start final, Run react (fun _ _ => True) coordinator start ∧ Run react (fun _ _ => True) start final ∧
      .process ⟨2, 1⟩ ∈ start.lsGraph.processes opening .ShouldDeliverTo ∧
      ∃ n ∈ final.published, n.epoch = opening.stateEpoch ∧ .process ⟨2, 1⟩ ∈ n.okProcesses ∧
      .process ⟨2, 1⟩ ∈ n.failProcesses := by
  obtain ⟨start, begun, rest⟩ := bind_eq_some_iff.mp answers_computed.2.2
  obtain ⟨final, ended, shown⟩ := map_eq_some_iff.mp rest
  obtain ⟨recipients, announced⟩ := Prod.mk.inj shown
  refine ⟨fresh_coordinator, start, final, run_of_execute begun, run_of_execute ended, ?_⟩
  rw [recipients, announced]
  decide

end Halon.Mero
