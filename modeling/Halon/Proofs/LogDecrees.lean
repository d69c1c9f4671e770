import Halon.Proofs.LogAgreement
import Mathlib.Order.MinMax

/-! The unconfirmed decree of a replica does not overtake its current decree. Both
are in one legislature, and stay there as long as no `Max` that a replica acts on
takes the unconfirmed decree back to an earlier one. -/

namespace Halon.Log
open Library Option

variable {A S : Type}

/-- A decree is not beyond another one of the same legislature. -/
structure Within (d cd : DecreeId) : Prop where
  legislature : d.decreeLegislatureId = cd.decreeLegislatureId
  number : d.decreeNumber ≤ cd.decreeNumber

namespace Within

theorem refl : Within d d := ⟨rfl, le_refl _⟩

theorem le (within : Within d cd) : d ≤ cd := DecreeId.le_def.mpr (.inr ⟨within.legislature, within.number⟩)

theorem succ (within : Within d cd) : Within d cd.succ := by
  refine ⟨within.legislature, ?_⟩
  have number := within.number
  change d.decreeNumber ≤ cd.decreeNumber + 1
  omega

/-- What is between two decrees of one legislature is in that legislature. -/
theorem between (within : Within d cd) (above : d ≤ e) (below : e ≤ cd) : Within e cd := by
  have same := within.legislature
  rw [DecreeId.le_def] at above below
  constructor <;> omega

theorem raise (within : Within d cd) : Within ⟨leg, max n d.decreeNumber⟩ ⟨leg, max n cd.decreeNumber⟩ :=
  ⟨rfl, max_le_max_left n within.number⟩

theorem max_self (later : cd.decreeLegislatureId ≤ e.decreeLegislatureId) : Within e (max e cd) := by
  rcases le_or_gt cd e with below | above
  · rw [max_eq_left below]
    exact refl
  · rw [max_eq_right above.le]
    rw [DecreeId.lt_def] at above
    constructor <;> omega

theorem max_succ (within : Within d cd) (above : d ≤ e) : Within e (max e.succ cd) := by
  have later : cd.decreeLegislatureId ≤ e.succ.decreeLegislatureId := by
    have same := within.legislature
    rw [DecreeId.le_def] at above
    change cd.decreeLegislatureId ≤ e.decreeLegislatureId
    omega
  have next := max_self later
  exact ⟨next.legislature, (succ refl).number.trans next.number⟩

theorem max (within : Within d cd) : Within (max d e) (max cd e) := by
  rcases le_total e d with old | new
  · rw [max_eq_left old, max_eq_left (old.trans within.le)]
    exact within
  · rw [max_eq_right new, max_comm]
    refine max_self ?_
    have same := within.legislature
    rw [DecreeId.le_def] at new
    omega

theorem min (within : Within d cd) (above : d ≤ e) : Within (min cd e) cd :=
  within.between (le_min within.le above) (min_le_left _ _)

end Within

def ReplicaState.Confirmed (st : ReplicaState A S) : Prop := Within st.stateUnconfirmedDecree st.stateCurrentDecree

section handlers
variable {st : ReplicaState A S} {config : Config} {machine : StateMachine A S} {here : Nat}

theorem executeEntry_confirmed (confirmed : st.Confirmed) :
    (executeEntry config machine here di v st).1.Confirmed := by
  cases v with
  | Values => exact Within.max confirmed
  | Reconf =>
    unfold executeEntry
    dsimp only
    split
    next => exact ⟨rfl, max_le_max confirmed.number (le_refl _)⟩
    next => exact confirmed

variable {next : ReplicaState A S} {effects : Effects A S}

theorem decree_confirmed (confirmed : st.Confirmed)
    (handled : decree config machine here now requestStart locale di v st = some (.continues next effects)) : next.Confirmed := by
  cases decree_cases handled with
  | skips | commits | stores => exact confirmed
  | executes =>
    have executed : (executeEntry config machine here di v st).1.Confirmed := executeEntry_confirmed confirmed
    exact executed

theorem batch_confirmed {rs next} (confirmed : st.Confirmed)
    (handled : batch config machine here now rs st = some next) : next.1.Confirmed := by
  cases (batch_cases handled).2 with
  | asks => exact Within.succ confirmed
  | ignores | answers => exact confirmed
  | proposes => exact Within.succ confirmed

theorem passed_confirmed [DecidableEq A] (confirmed : st.Confirmed) :
    (passed here vi r st).1.Confirmed := by
  change Within (if _ then _ else _) _
  split
  next => exact confirmed
  next => exact Within.min confirmed (le_max_left _ _)

theorem query_confirmed (confirmed : st.Confirmed) (handled : query ρ n st = .continues next effects) :
    next.Confirmed := by
  cases query_cases handled <;> exact confirmed

theorem snapshotInfo_confirmed (confirmed : st.Confirmed) : (snapshotInfo m ρs' legD' epoch' sref' w0' n st).1.Confirmed := by
  unfold snapshotInfo
  dsimp only
  split
  next => exact Within.raise confirmed
  next => exact confirmed

theorem maxDecree_confirmed (confirmed : st.Confirmed)
    (later : st.stateUnconfirmedDecree.decreeNumber < d'.decreeNumber →
      st.stateCurrentDecree.decreeLegislatureId ≤ (max st.stateReconfDecree legD').decreeLegislatureId) :
    (maxDecree here now ρ d' legD' epoch' ρs' st).1.Confirmed := by
  unfold maxDecree
  dsimp only
  split
  next beyond => exact Within.max_self (later beyond)
  next => exact confirmed

theorem recoveryDecree_le (d : DecreeId) (dvs : List (DecreeId × Value A)) : d ≤ recoveryDecree d dvs := by
  unfold recoveryDecree
  split
  next => exact le_refl d
  next => exact le_max_left _ _

theorem recover_confirmed (confirmed : st.Confirmed) :
    (recover config here now e π ρs' edvs st).1.Confirmed := by
  generalize handled : recover config here now e π ρs' edvs st = next
  cases recover_cases handled with
  | waits | refuses => exact confirmed
  | proposes => exact Within.max_succ confirmed (recoveryDecree_le _ _)

/-- A `Max` that the replica acts on is not about an earlier legislature than its current decree. -/
def Event.Timely (st : ReplicaState A S) : Event A S → Prop
  | .message (.Max _ d' legD' _ _) => st.stateUnconfirmedDecree.decreeNumber < d'.decreeNumber →
      st.stateCurrentDecree.decreeLegislatureId ≤ (max st.stateReconfDecree legD').decreeLegislatureId
  | _ => True

instance (st : ReplicaState A S) : (event : Event A S) → Decidable (event.Timely st)
  | .message (.Max _ _ _ _ _) => inferInstanceAs (Decidable (_ < _ → _ ≤ _))
  | .message (.Decree ..) | .message (.Query ..) | .message (.SnapshotInfo ..) | .message .Status | .message (.Dumped ..)
  | .message (.Passed ..) | .message (.Rejected _) | .leaseRenewalTime | .batch _ | .membershipQuery |
      .recover .. => isTrue trivial

theorem handle_confirmed [DecidableEq A] (confirmed : st.Confirmed) (timely : event.Timely st)
    (handled : handle config machine here m st event = some (.continues next effects)) : next.Confirmed := by
  cases event with
  | message message =>
    cases message with
    | Decree => exact decree_confirmed confirmed handled
    | Query => exact query_confirmed confirmed (Option.some.inj handled)
    | Max =>
      cases handled
      exact maxDecree_confirmed confirmed timely
    | SnapshotInfo =>
      cases handled
      exact snapshotInfo_confirmed confirmed
    | Status | Rejected =>
      cases handled
      exact confirmed
    | Dumped =>
      cases handled
      unfold dumped
      split
      next => exact confirmed
      next => exact confirmed
    | Passed =>
      cases handled
      exact passed_confirmed confirmed
  | leaseRenewalTime =>
    obtain ⟨_, moved, rfl, rfl⟩ := continues_of_map handled
    obtain ⟨_, rfl | rfl⟩ := leaseRenewalTime_cases moved
    · exact Within.succ confirmed
    · exact confirmed
  | batch =>
    obtain ⟨_, moved, rfl, rfl⟩ := continues_of_map handled
    exact batch_confirmed confirmed moved
  | membershipQuery =>
    obtain ⟨_, moved, rfl, rfl⟩ := continues_of_map handled
    rcases membershipQuery_cases moved with rfl | rfl
    · exact confirmed
    · exact confirmed
  | recover =>
    cases handled
    exact recover_confirmed confirmed

theorem go_confirmed (confirmed : st.Confirmed) : (go config here later st).1.Confirmed := by
  unfold go
  split
  next =>
    split
    next => exact confirmed
    next => exact confirmed
  next => exact confirmed

end handlers

namespace System
variable {s s' : System A S}

/-- In every replica the unconfirmed decree is not beyond the current one. -/
def Confirmed (s : System A S) : Prop := ∀ i, ∀ r ∈ (s.nodes i).replica, r.state.Confirmed

/-- A `Max` that a replica acts on is not about an earlier legislature than the replica's current decree. -/
def Timely (s : System A S) : Action A S → Prop
  | .deliver index _ => ∀ sent ∈ s.network[index]?, ∀ r ∈ (s.nodes sent.1).replica, Event.Timely r.state (.message sent.2)
  | _ => True

instance (s : System A S) : (action : Action A S) → Decidable (s.Timely action)
  | .deliver _ _ => inferInstanceAs (Decidable (∀ _ ∈ _, ∀ _ ∈ _, Event.Timely _ _))
  | .storeConf .. | .start .. | .die _ | .lose _ | .request .. | .persist .. | .dump .. | .propose _ | .workerDecided _
  | .workerFinished _ | .decide .. => isTrue trivial

section
variable [DecidableEq A] {config : Config} {machine : StateMachine A S}

theorem timely_handles (timely : s.Timely action)
    (handles : s.Handles action i event m) (running : r ∈ (s.nodes i).replica) : event.Timely r.state := by
  cases handles with
  | deliver found => exact timely _ found r running
  | request outside =>
    cases event with
    | message message =>
      cases message with
      | Max => cases outside
      | Status | Decree | Query | SnapshotInfo | Dumped | Passed | Rejected => trivial
    | leaseRenewalTime | membershipQuery | batch | recover => trivial

theorem step_confirmed (confirmed : s.Confirmed) (timely : s.Timely action)
    (moves : step config machine s action = some s') : s'.Confirmed := by
  refine step_every confirmed (fun _ _ _ _ _ _ _ _ => go_confirmed Within.refl) ?_ moves
  intro i event m handles r running next effects log handled
  have kept := handle_confirmed (confirmed i r running) (timely_handles timely handles running) handled
  have went : (go config i m.later next).1.Confirmed := go_confirmed kept
  exact went

/-- Over any group of replicas and any run in which every `Max` is timely, the unconfirmed
decree of every replica is at most its current decree. -/
theorem unconfirmed_le_current {members : List Nat} (run : Run (step config machine) Timely (initial members) s) :
    ∀ i, ∀ r ∈ (s.nodes i).replica, r.state.stateUnconfirmedDecree ≤ r.state.stateCurrentDecree := by
  have confirmed : s.Confirmed := by
    refine run.invariant (fun _ _ found => absurd found (not_mem_none _)) ?_
    intro before action after kept timely moves
    exact step_confirmed kept timely moves
  intro i r running
  exact (confirmed i r running).le

end

namespace Example

def decrees (i : Nat) (s : System Nat (List Nat)) : Option (DecreeId × DecreeId) :=
  (s.nodes i).replica.map fun r => (r.state.stateUnconfirmedDecree, r.state.stateCurrentDecree)

/-- Node 0 passes its lease, and node 1 hears of it first by a `Max` of node 0. -/
def toldOf : List (Action Nat (List Nat)) :=
  begin 0 [0, 1, 2] ++ .request 0 .leaseRenewalTime (moment 1) :: pass 0 1 ⟨0, 0⟩ (.Reconf 1 [0, 1, 2]) 0 1 ++
  [.deliver 2 (moment 1), .deliver 2 (moment 1)]

/-- Node 1 recovers when only the lease of node 0 is decided. Node 2 stores entry 2 before the others and starts
again, with an unconfirmed decree after that entry in legislature 0. Node 1 hears of it before it executes entry 0. -/
def overtaken : List (Action Nat (List Nat)) :=
  begin 0 [0, 1, 2] ++ .request 0 .leaseRenewalTime (moment 1) :: pass 0 1 ⟨0, 0⟩ (.Reconf 1 [0, 1, 2]) 0 1 ++
  .request 1 (.recover 0 8 [0, 1, 2] (some [(⟨0, 0⟩, .Reconf 1 [0, 1, 2])])) (moment 20000) ::
  .request 0 .leaseRenewalTime (moment 2) :: pass 0 2 ⟨1, 1⟩ (.Reconf 2 [0, 1, 2]) 4 2 ++
  .request 0 (append 7 5) (moment 3) :: pass 0 2 ⟨2, 2⟩ (.Values [7]) 7 3 ++
  [.deliver 8 (moment 3), .persist 2 0, .die 2] ++ begin 4 [2] ++
  [.request 2 (.message .Status) (moment 5), .deliver 15 (moment 20001), .deliver 0 (moment 20002), .persist 1 0,
    .deliver 17 (moment 20003)]

end Example

open Example in
theorem unconfirmed_le_current_told : ∃ s : System Nat (List Nat), Run (step leases recorder) Timely (initial [0, 1, 2]) s ∧
    decrees 1 s = some (⟨1, 1⟩, ⟨1, 1⟩) ∧
    ∀ i, ∀ r ∈ (s.nodes i).replica, r.state.stateUnconfirmedDecree ≤ r.state.stateCurrentDecree := by
  exact exists_run_and toldOf (by decide) fun _ run _ => unconfirmed_le_current run

open Example in
theorem unconfirmed_overtakes_current : ¬ ∀ (config : Config) (machine : StateMachine Nat (List Nat)) (members : List Nat)
    (s : System Nat (List Nat)), Run (step config machine) (fun _ _ => True) (initial members) s →
      ∀ i, ∀ r ∈ (s.nodes i).replica, r.state.stateUnconfirmedDecree ≤ r.state.stateCurrentDecree := by
  intro ordered
  obtain ⟨s, run, same⟩ : ∃ s : System Nat (List Nat), Run (step leases recorder) (fun _ _ => True) (initial [0, 1, 2]) s ∧
      decrees 1 s = some (⟨1, 3⟩, ⟨1, 2⟩) := exists_run overtaken (by decide)
  obtain ⟨r, running, are⟩ := map_eq_some_iff.mp same
  have le := ordered _ _ _ s run 1 r running
  obtain ⟨unconfirmed, current⟩ := Prod.mk.inj are
  rw [unconfirmed, current] at le
  exact absurd le (by decide)

end System
end Halon.Log
