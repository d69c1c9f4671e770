import Halon.Proofs.LogAgreement

/-! The last proposed decree of a replica is not beyond its watermark, as long as no recovery takes
the place of a leader with a proposal beyond the watermark, and the watermark is not taken back. -/

namespace Halon.Log
open Library Option

variable {A S : Type}

/-- What was proposed last is not beyond the next decree to execute. -/
def ReplicaState.Bounded (st : ReplicaState A S) : Prop := ∀ d ∈ st.stateLastProposed, d ≤ st.stateWatermark

section handlers
variable {st : ReplicaState A S} {config : Config} {machine : StateMachine A S} {here : Nat}

theorem ReplicaState.Bounded.forward {st' : ReplicaState A S} (bounded : st.Bounded)
    (same : st'.stateLastProposed = st.stateLastProposed)
    (later : st.stateWatermark ≤ st'.stateWatermark) : st'.Bounded := by
  intro d proposed
  rw [same] at proposed
  exact (bounded d proposed).trans later

theorem ReplicaState.bounded_at (proposed : st.stateLastProposed = some d)
    (reached : d ≤ st.stateWatermark) : st.Bounded := by
  intro e last
  cases proposed.symm.trans last
  exact reached

theorem later_succ (later : w.decreeLegislatureId ≤ leg) :
    w ≤ ({ w with decreeLegislatureId := leg } : DecreeId).succ := by
  rw [DecreeId.le_def]
  change w.decreeLegislatureId < leg ∨ w.decreeLegislatureId = leg ∧ w.decreeNumber ≤ w.decreeNumber + 1
  omega

theorem executeEntry_bounded (bounded : st.Bounded)
    (later : ∀ leg' ρs', v = .Reconf leg' ρs' → st.stateUnconfirmedDecree.decreeLegislatureId < leg' →
      st.stateWatermark.decreeLegislatureId ≤ leg') : (executeEntry config machine here di v st).1.Bounded := by
  cases v with
  | Values => exact bounded.forward rfl (later_succ (le_refl _))
  | Reconf leg' ρs' =>
    unfold executeEntry
    dsimp only
    split
    next effective => exact bounded.forward rfl (later_succ (later leg' ρs' rfl effective))
    next => exact bounded.forward rfl (later_succ (Int.le_add_one (le_refl _)))

/-- The replica is behind and nobody leads, so that it is about to propose a decree at the watermark. -/
structure ReplicaState.Behind (config : Config) (here : Nat) (later : Int) (st : ReplicaState A S) : Prop where
  current : st.stateWatermark < st.stateCurrentDecree
  last : st.stateLastProposed ≠ some st.stateWatermark
  leaderless : getLeader config here later st.stateLeaseStart st.stateReplicas = none

theorem go_bounded (settled : st.Bounded ∨ st.Behind config here later) : (go config here later st).1.Bounded := by
  unfold go
  split
  next =>
    split
    next => exact ReplicaState.bounded_at rfl (le_refl _)
    next found =>
      rcases settled with bounded | behind
      · exact bounded
      · rw [behind.leaderless] at found
        cases found
  next current =>
    rcases settled with bounded | behind
    · exact bounded
    · exact absurd ⟨behind.current, behind.last⟩ current

/-- The event keeps to the order of the watermark. A recovery that is acted on while somebody leads finds no decree
beyond the watermark, neither of its own nor of the acceptors; a snapshot that is restored, and a reconfiguration
that takes effect, do not take the watermark back. -/
def Event.InOrder (config : Config) (here : Nat) (m : Moment) (st : ReplicaState A S) : Event A S → Prop
  | .recover e _ ρs (some dvs) => st.Recovering config here m.now e ρs dvs →
      getLeader config here m.later st.stateLeaseStart st.stateReplicas ≠ none →
      st.stateUnconfirmedDecree ≤ st.stateWatermark ∧ dvs = []
  | .message (.SnapshotInfo _ _ _ _ w0 n) => st.log.lookup n = none ∧ st.stateWatermark.decreeNumber ≤ n ∧
      st.stateWatermark.decreeNumber < w0.decreeNumber ∧ m.restores → st.stateWatermark ≤ w0
  | .message (.Decree _ .Stored di (.Reconf leg' _)) => st.stateWatermark ≤ di ∧
      di.decreeNumber = st.stateWatermark.decreeNumber ∧
      st.stateUnconfirmedDecree.decreeLegislatureId < leg' → st.stateWatermark.decreeLegislatureId ≤ leg'
  | _ => True

instance (config : Config) (here : Nat) (m : Moment) (st : ReplicaState A S) :
    (event : Event A S) → Decidable (event.InOrder config here m st)
  | .recover _ _ _ (some _) => inferInstanceAs (Decidable (_ → _ ≠ none → _ ≤ _ ∧ _ = []))
  | .message (.SnapshotInfo _ _ _ _ _ n) =>
    have : Decidable (st.log.lookup n = none) := decidable_of_iff _ isNone_iff_eq_none
    inferInstanceAs (Decidable (st.log.lookup n = none ∧ _ → _ ≤ _))
  | .message (.Decree _ .Stored _ (.Reconf _ _)) => inferInstanceAs (Decidable (_ ≤ _ ∧ _ → _ ≤ _))
  | .message (.Decree _ .Stored _ (.Values _)) | .message (.Decree _ (.Local _) _ _) | .message (.Decree _ .Remote _ _)
  | .message (.Query ..) | .message (.Max ..) | .message .Status | .message (.Dumped ..)
  | .message (.Passed ..) | .message (.Rejected _) | .leaseRenewalTime | .batch _ | .membershipQuery |
      .recover _ _ _ none => isTrue trivial

variable {m : Moment} {ρs' : List Nat}

theorem decree_bounded (bounded : st.Bounded)
    (ordered : Event.InOrder config here m st (.message (.Decree requestStart locale di v)))
    (handled : decree config machine here m.now requestStart locale di v st = some (.continues next effects)) : next.Bounded := by
  cases decree_cases handled with
  | skips | commits | stores => exact bounded
  | executes stored reached number =>
    have executed : (executeEntry config machine here di v st).1.Bounded := by
      refine executeEntry_bounded bounded ?_
      intro leg' ρs' reconf effective
      subst stored reconf
      exact ordered ⟨reached, number, effective⟩
    exact executed

theorem batch_bounded (bounded : st.Bounded)
    (handled : batch config machine here now rs st = some next) : next.1.Bounded := by
  obtain ⟨current, batched⟩ := batch_cases handled
  cases batched with
  | asks => exact ReplicaState.bounded_at rfl current.le
  | ignores | answers => exact bounded
  | proposes => exact ReplicaState.bounded_at rfl current.le

theorem snapshotInfo_bounded (bounded : st.Bounded)
    (ordered : Event.InOrder config here m st (.message (.SnapshotInfo ρs' legD' epoch' sref' w0' n))) :
    (snapshotInfo m ρs' legD' epoch' sref' w0' n st).1.Bounded := by
  unfold snapshotInfo adopt
  dsimp only
  split
  next behind =>
    by_cases restores : m.restores = true
    · have later := ordered ⟨behind.1, behind.2.1, behind.2.2, restores⟩
      rw [if_pos restores]
      split
      next => exact bounded.forward rfl later
      next => exact bounded.forward rfl later
    · rw [if_neg restores]
      split
      next => exact bounded
      next => exact bounded
  next => exact bounded

theorem maxDecree_bounded (bounded : st.Bounded) :
    (maxDecree here now ρ d' legD' epoch' ρs' st).1.Bounded := by
  unfold maxDecree adopt
  dsimp only
  split
  next =>
    split
    next => exact bounded
    next => exact bounded
  next => exact bounded

theorem recover_bounded (bounded : st.Bounded)
    (ordered : Event.InOrder config here m st (.recover e π ρs' edvs)) :
    (recover config here m.now e π ρs' edvs st).1.Bounded ∨
      (recover config here m.now e π ρs' edvs st).1.Behind config here m.later := by
  generalize handled : recover config here m.now e π ρs' edvs st = next
  cases recover_cases handled with
  | waits | refuses => exact .inl bounded
  | @proposes dvs _ _ _ _ answered recovering _ _ =>
    subst answered
    by_cases reached : recoveryDecree st.stateUnconfirmedDecree
      (trimUnreachable dvs st.stateWatermark.decreeLegislatureId) ≤ st.stateWatermark
    · exact .inl (ReplicaState.bounded_at rfl reached)
    · have beyond := not_le.mp reached
      refine .inr ⟨?_, ?_, ?_⟩
      · exact (beyond.trans_le (later_succ (le_refl _))).trans_le (le_max_left _ _)
      · intro last
        exact beyond.ne' (Option.some.inj last)
      · by_contra led
        obtain ⟨low, rfl⟩ := ordered recovering led
        exact reached low

theorem handle_bounded [DecidableEq A] (bounded : st.Bounded)
    (ordered : event.InOrder config here m st)
    (handled : handle config machine here m st event = some (.continues next effects)) :
    next.Bounded ∨ next.Behind config here m.later := by
  cases event with
  | message message =>
    left
    cases message with
    | Decree => exact decree_bounded bounded ordered handled
    | Query =>
      cases query_cases (Option.some.inj handled) <;> exact bounded
    | Max =>
      cases handled
      exact maxDecree_bounded bounded
    | SnapshotInfo =>
      cases handled
      exact snapshotInfo_bounded bounded ordered
    | Status | Passed =>
      cases handled
      exact bounded
    | Dumped =>
      cases handled
      unfold dumped
      split
      next => exact bounded
      next => exact bounded
    | Rejected =>
      cases handled
      exact fun _ none => absurd none (not_mem_none _)
  | leaseRenewalTime =>
    obtain ⟨_, moved, rfl, rfl⟩ := continues_of_map handled
    obtain ⟨current, rfl | rfl⟩ := leaseRenewalTime_cases moved
    · exact .inl (ReplicaState.bounded_at rfl current.ge)
    · exact .inl bounded
  | batch =>
    obtain ⟨_, moved, rfl, rfl⟩ := continues_of_map handled
    exact .inl (batch_bounded bounded moved)
  | membershipQuery =>
    obtain ⟨_, moved, rfl, rfl⟩ := continues_of_map handled
    rcases membershipQuery_cases moved with rfl | rfl
    · exact .inl bounded
    · exact .inl bounded
  | recover =>
    cases handled
    exact recover_bounded bounded ordered

end handlers

namespace System
variable [DecidableEq A] {s s' : System A S} {config : Config} {machine : StateMachine A S}

/-- The event that a replica handles in the step keeps to the order of its watermark. -/
def InOrder (config : Config) (s : System A S) : Action A S → Prop
  | .deliver index m => ∀ sent ∈ s.network[index]?, ∀ r ∈ (s.nodes sent.1).replica,
      Event.InOrder config sent.1 m r.state (.message sent.2)
  | .request i event m => ∀ r ∈ (s.nodes i).replica, event.InOrder config i m r.state
  | _ => True

instance (config : Config) (s : System A S) : (action : Action A S) → Decidable (s.InOrder config action)
  | .deliver _ _ => inferInstanceAs (Decidable (∀ _ ∈ _, ∀ _ ∈ _, Event.InOrder _ _ _ _ _))
  | .request _ _ _ => inferInstanceAs (Decidable (∀ _ ∈ _, Event.InOrder _ _ _ _ _))
  | .storeConf .. | .start .. | .die _ | .lose _ | .persist .. | .dump .. | .propose _ | .workerDecided _
  | .workerFinished _ | .decide .. => isTrue trivial

def Bounded (s : System A S) : Prop := ∀ i, ∀ r ∈ (s.nodes i).replica, r.state.Bounded

theorem step_bounded (bounded : s.Bounded) (ordered : s.InOrder config action)
    (moves : step config machine s action = some s') : s'.Bounded := by
  refine step_every bounded (fun _ _ _ _ _ _ _ _ => go_bounded (.inl fun _ none => absurd none (not_mem_none _))) ?_ moves
  intro i event m handles r running next effects log handled
  have order : event.InOrder config i m r.state := by
    cases handles with
    | deliver found => exact ordered _ found r running
    | request => exact ordered r running
  have went : (go config i m.later next).1.Bounded := go_bounded (handle_bounded (bounded i r running) order handled)
  exact went

/-- Over any group of replicas and any run in which events keep to the order of the watermarks, the decree
that a replica proposed last is at most its watermark. -/
theorem last_proposed_bounded {members : List Nat} (run : Run (step config machine) (InOrder config) (initial members) s) :
    ∀ i, ∀ r ∈ (s.nodes i).replica, ∀ d ∈ r.state.stateLastProposed, d ≤ r.state.stateWatermark := by
  have bounded : s.Bounded := by
    refine run.invariant (fun _ _ found => absurd found (not_mem_none _)) ?_
    intro before action after bounded ordered moves
    exact step_bounded bounded ordered moves
  exact fun i r running => bounded i r running

namespace Example

def proposed (i : Nat) (s : System Nat (List Nat)) : Option (Option DecreeId × DecreeId) :=
  (s.nodes i).replica.map fun r => (r.state.stateLastProposed, r.state.stateWatermark)

def told : List (Action Nat (List Nat)) :=
  begin 0 [0, 1] ++ [.request 0 (append 7 5) (moment 1), .propose 0, .decide ⟨0, 0⟩ (.Values [7]), .workerDecided 0,
    .workerFinished 0,
    .deliver 0 (moment 1)]

/-- Before it executes the decree, the leader recovers the group with a membership of which it has no quorum. -/
def recovered : List (Action Nat (List Nat)) := told ++ [.request 0 (.recover 0 8 [0, 5, 6, 7] (some [])) (moment 2)]

end Example

open Example in
theorem last_proposed_bounded_told : ∃ s : System Nat (List Nat), Run (step leases recorder) (InOrder leases) (initial [0, 1]) s ∧
    proposed 0 s = some (some ⟨0, 0⟩, ⟨0, 0⟩) ∧
    ∀ i, ∀ r ∈ (s.nodes i).replica, ∀ d ∈ r.state.stateLastProposed, d ≤ r.state.stateWatermark :=
  exists_run_and told (by decide) fun _ run _ => last_proposed_bounded run

open Example in
theorem proposed_beyond_watermark : ¬ ∀ (config : Config) (machine : StateMachine Nat (List Nat)) (members : List Nat)
    (s : System Nat (List Nat)), Run (step config machine) (fun _ _ => True) (initial members) s →
      ∀ i, ∀ r ∈ (s.nodes i).replica, ∀ d ∈ r.state.stateLastProposed, d ≤ r.state.stateWatermark := by
  intro bounded
  obtain ⟨s, run, same⟩ : ∃ s : System Nat (List Nat), Run (step leases recorder) (fun _ _ => True) (initial [0, 1]) s ∧
      proposed 0 s = some (some ⟨0, 1⟩, ⟨0, 0⟩) := exists_run recovered (by decide)
  obtain ⟨r, running, are⟩ := map_eq_some_iff.mp same
  obtain ⟨last, watermark⟩ := Prod.mk.inj are
  have le := bounded _ _ _ s run 0 r running ⟨0, 1⟩ last
  rw [watermark] at le
  exact absurd le (by decide)

end System
end Halon.Log
