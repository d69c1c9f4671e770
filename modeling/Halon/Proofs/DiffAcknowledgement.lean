import Halon.Proofs.StateDiffs

/-! Acknowledgements are cumulative: one for an epoch counts for the state diffs before it.
The coordinator goes down from the epoch and stops at the first that has no state diff any
more, so an earlier state diff on the far side of a gap is still awaited. -/

namespace Halon.Mero
open Library Board Option
variable {K V : Type} [LinearOrder K] [LinearOrder V] {enc : Encoding Relation Resource K V}
variable {encodeP : List AnyStateChange → InternalObjectStateChangeMsg} {rounds : Nat} {b : Board}

namespace LoopState
variable {ls ls' initial before after : LoopState K V} {d : StateDiff} {p : ConfObj} {e : Nat} {fid : Fid}

/-- All epochs from that of the state diff to the given one have a state diff. -/
def Unbroken (ls : LoopState K V) (d : StateDiff) (e : Nat) : Prop :=
  ∀ k, d.stateEpoch ≤ k → k ≤ e → (ls.getStateDiffByEpoch k).isSome

theorem eq_stateDiff {x : Resource} (type : x.typeOf = .StateDiff) : ∃ d, x = .stateDiff d := by
  cases x with
  | stateDiff d => exact ⟨d, rfl⟩
  | conf object => cases object <;> cases type
  | state state => cases state <;> cases type
  | _ => cases type

theorem Shows.getStateDiffByEpoch_iff (shown : ls.Shows b) (orderly : b.Orderly) : ls.getStateDiffByEpoch e = some d ↔
    b.Indexed e d := by
  refine ⟨shown.indexed, ?_⟩
  intro indexed
  have single : Graph.connectedTo schema (.stateDiffIndex e) .Is .StateDiff ls.lsGraph = [.stateDiff d] := by
    apply Graph.connectedTo_single shown.depicts indexed
    intro z linked type
    obtain ⟨x, rfl⟩ := eq_stateDiff type
    rw [orderly.single linked indexed]
  unfold getStateDiffByEpoch Graph.connectedToOne
  rw [single]
  rfl

/-- What an acknowledgement is about: the registered state diffs from which on no epoch is missing. -/
theorem Shows.mem_getStateDiffsByEpoch (shown : ls.Shows b) (orderly : b.Orderly) :
    d ∈ ls.getStateDiffsByEpoch e ↔ d.stateEpoch ≤ e ∧ b.Registered d ∧ ls.Unbroken d e := by
  have found {k : Nat} {x : StateDiff} : ls.getStateDiffByEpoch k = some x ↔ b.Indexed k x :=
    shown.getStateDiffByEpoch_iff orderly
  induction e with
  | zero =>
    unfold getStateDiffsByEpoch
    rw [mem_toList]
    constructor
    · intro first
      have named := orderly.named (found.mp first)
      refine ⟨named.le, orderly.registered (found.mp first), ?_⟩
      intro k _ least
      rw [Nat.le_zero.mp least, first]
      rfl
    · rintro ⟨least, registered, _⟩
      exact found.mpr (Nat.le_zero.mp least ▸ registered)
  | succ e ih =>
    unfold getStateDiffsByEpoch
    split
    next missing =>
      refine iff_of_false List.not_mem_nil ?_
      rintro ⟨within, _, unbroken⟩
      have present := unbroken (e + 1) within le_rfl
      rw [missing] at present
      cases present
    next last =>
      have named := orderly.named (found.mp last)
      rw [List.mem_cons]
      refine (or_congr_right ih).trans ?_
      constructor
      · rintro (rfl | ⟨within, registered, unbroken⟩)
        · refine ⟨named.le, orderly.registered (found.mp last), ?_⟩
          intro k above below
          rw [le_antisymm below (named ▸ above), last]
          rfl
        · refine ⟨Nat.le_succ_of_le within, registered, ?_⟩
          intro k above below
          rcases Nat.lt_or_eq_of_le below with earlier | rfl
          · exact unbroken k above (Nat.le_of_lt_succ earlier)
          · rw [last]
            rfl
      · rintro ⟨within, registered, unbroken⟩
        rcases Nat.lt_or_eq_of_le within with earlier | same
        · exact .inr ⟨Nat.le_of_lt_succ earlier, registered, fun k above below => unbroken k above (Nat.le_succ_of_le below)⟩
        · refine .inl (orderly.single ?_ (found.mp last))
          exact same ▸ registered

/-- Of the state diffs up to the epoch that stay registered, those on the far side of a gap are awaited as before. -/
theorem Shows.awaited_acknowledged (shown : before.Shows b) (orderly : b.Orderly)
    (known : before.lsGraph.lookupConfObjByFid .Process fid = some p)
    (handled : before.handle enc encodeP rounds (.NotificationAck e fid) = .ok after) :
    ∃ b', after.Shows b' ∧ b'.Orderly ∧ ∀ d, d.stateEpoch ≤ e → b'.Registered d →
      (b'.Awaited d p ↔ b.Awaited d p ∧ ¬ before.Unbroken d e) := by
  simp only [LoopState.handle, ruleNotificationsDeliveredToM0d, reported, known] at handled
  split at handled
  next missing =>
    cases handled
    refine ⟨b, shown, orderly, fun d within _ => (and_iff_left ?_).symm⟩
    intro unbroken
    have present := unbroken e within le_rfl
    rw [missing] at present
    cases present
  next found =>
    obtain ⟨b', shown', changes, heard, earlier, others⟩ := shown.markNotificationDelivered (fun _ _ => True) orderly handled
    have inOrder := changes.orderly orderly
    have epoch := orderly.named (shown.indexed found)
    rw [epoch] at heard others
    refine ⟨b', shown', inOrder, fun d within registered => ?_⟩
    have walked := shown.mem_getStateDiffsByEpoch orderly (d := d) (e := e)
    by_cases unbroken : before.Unbroken d e
    · have listed := walked.mpr ⟨within, earlier registered, unbroken⟩
      exact iff_of_false (heard d listed) fun both => both.2 unbroken
    · have outside : d ∉ before.getStateDiffsByEpoch e := fun listed => unbroken (walked.mp listed).2.2
      exact (others outside registered).trans (and_iff_left unbroken).symm

/-- In every state that is reached: when no epoch is missing from a state diff that awaits a process to the one that the process
acknowledges, the process is awaited for none of the state diffs up to there that are still registered. -/
theorem acknowledged_up_to (fresh : initial.Fresh) (run : Run (step enc encodeP rounds) (fun _ _ => True) initial before)
    (moves : before.step enc encodeP rounds (.NotificationAck e fid) = some after)
    (known : before.lsGraph.lookupConfObjByFid .Process fid = some p)
    (unbroken : ∀ d, d.stateEpoch ≤ e → p ∈ before.lsGraph.processes d .ShouldDeliverTo → before.Unbroken d e) :
    ∀ d, d.stateEpoch ≤ e → after.getStateDiffByEpoch d.stateEpoch = some d → p ∉ after.lsGraph.processes d .ShouldDeliverTo := by
  intro d within registered listed
  obtain ⟨b, shown, orderly⟩ := fresh.run run
  obtain ⟨b', shown', _, awaited⟩ := shown.awaited_acknowledged orderly known (handle_of_step moves)
  obtain ⟨waits, type⟩ := (RG.mem_processes shown'.depicts).mp listed
  obtain ⟨before, broken⟩ := (awaited d within (shown'.indexed registered)).mp waits
  exact broken (unbroken d within ((RG.mem_processes shown.depicts).mpr ⟨before, type⟩))

end LoopState

namespace Example
open LoopState

/-- The state diffs of three epochs are registered, and await both processes. -/
def announcements : List Event := [.stateSets [], .stateSets [], .stateSets []]

/-- A process acknowledges the third epoch, before or after the time for the second is up. -/
theorem acknowledgements_computed :
    ((execute react (fun _ _ => True) coordinator announcements).bind fun before =>
      (react before (.NotificationAck 2 ⟨2, 1⟩)).map fun after =>
        (before.lsGraph.lookupConfObjByFid .Process ⟨2, 1⟩, before.lsGraph.processes ⟨0, [], []⟩ .ShouldDeliverTo,
          (List.range 3).all fun k => (before.getStateDiffByEpoch k).isSome, after.getStateDiffByEpoch 0)) =
        some (some (.process ⟨2, 1⟩), [.process ⟨2, 1⟩, .process ⟨2, 2⟩], true, some ⟨0, [], []⟩) ∧
    ((execute react (fun _ _ => True) coordinator (announcements ++ [.EpochTimeout 1])).bind fun before =>
      (react before (.NotificationAck 2 ⟨2, 1⟩)).map fun after =>
        (before.lsGraph.lookupConfObjByFid .Process ⟨2, 1⟩, after.getStateDiffByEpoch 0,
          after.lsGraph.processes ⟨0, [], []⟩ .ShouldDeliverTo)) =
        some (some (.process ⟨2, 1⟩), some ⟨0, [], []⟩, [.process ⟨2, 1⟩, .process ⟨2, 2⟩]) := by
  decide +kernel

end Example

open Example in
/-- A process acknowledges the last of three epochs. -/
theorem acknowledged_up_to_last :
    ∃ before after, Run react (fun _ _ => True) coordinator before ∧ react before (.NotificationAck 2 ⟨2, 1⟩) = some after ∧
      .process ⟨2, 1⟩ ∈ before.lsGraph.processes ⟨0, [], []⟩ .ShouldDeliverTo ∧
      after.getStateDiffByEpoch 0 = some ⟨0, [], []⟩ ∧
      .process ⟨2, 1⟩ ∉ after.lsGraph.processes ⟨0, [], []⟩ .ShouldDeliverTo := by
  obtain ⟨before, begun, rest⟩ := bind_eq_some_iff.mp acknowledgements_computed.1
  obtain ⟨after, moves, shown⟩ := map_eq_some_iff.mp rest
  simp only [Prod.mk.injEq] at shown
  obtain ⟨known, recipients, present, registered⟩ := shown
  have run := run_of_execute begun
  refine ⟨before, after, run, moves, by simp [recipients], registered, ?_⟩
  refine LoopState.acknowledged_up_to fresh_coordinator run moves known ?_ ⟨0, [], []⟩ (Nat.zero_le 2) registered
  intro d _ _ k _ below
  exact List.all_eq_true.mp present k (List.mem_range.mpr (Nat.lt_succ_of_le below))

open Example in
/-- The time for the second of three epochs is up when a process acknowledges the third: it is still awaited for the first. -/
theorem earlier_epoch_still_awaited :
    coordinator.Fresh ∧ ∃ before after, Run react (fun _ _ => True) coordinator before ∧
      react before (.NotificationAck 2 ⟨2, 1⟩) = some after ∧ before.lsGraph.lookupConfObjByFid .Process ⟨2, 1⟩ = some
      (.process ⟨2, 1⟩) ∧
      after.getStateDiffByEpoch 0 = some ⟨0, [], []⟩ ∧
      .process ⟨2, 1⟩ ∈ after.lsGraph.processes ⟨0, [], []⟩ .ShouldDeliverTo := by
  obtain ⟨before, begun, rest⟩ := bind_eq_some_iff.mp acknowledgements_computed.2
  obtain ⟨after, moves, shown⟩ := map_eq_some_iff.mp rest
  simp only [Prod.mk.injEq] at shown
  obtain ⟨known, registered, recipients⟩ := shown
  refine ⟨fresh_coordinator, before, after, run_of_execute begun, moves, known, registered, ?_⟩
  rw [recipients]
  exact List.mem_cons_self

end Halon.Mero
