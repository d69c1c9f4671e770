import Halon.Mero.SnsOperation

/-! The limits on an operation. Executing the operation again resets the counter of
executions and not that of status requests, so the limit on executions is met only when it
is zero; with any other limit the operation goes on forever. -/

namespace Halon.Mero.SnsOperation
open List
variable {limits : SnsLimits} {interesting : List SnsCmStatus} {replies : Nat → List SnsStatus} {pool : Fid} {s : SnsOperation}

def respond (replies : Nat → List SnsStatus) (s : SnsOperation) : SnsEvent :=
  match s.phase with
  | .operation_done => .operationResult s.pool (.ok ())
  | .status_received => .statusResult s.pool (.ok (replies s.statusRequests))
  | _ => .timeout

/-- One phase more. The rule stays with the caller once it was handed over. -/
def advance (limits : SnsLimits) (interesting : List SnsCmStatus) (replies : Nat → List SnsStatus)
    (s : SnsOperation) : SnsOperation :=
  (mkStatusCheckingSNSOperation limits interesting s (respond replies s)).getD s

def after (limits : SnsLimits) (interesting : List SnsCmStatus) (replies : Nat → List SnsStatus) (pool : Fid) : Nat → SnsOperation
  | 0 => start pool
  | n + 1 => advance limits interesting replies (after limits interesting replies pool n)

/-- The operation is given up in the end, within the limits. -/
def GivesUp (limits : SnsLimits) (interesting : List SnsCmStatus) (replies : Nat → List SnsStatus) (pool : Fid) : Prop :=
  ∃ n pool' reason, (after limits interesting replies pool n).phase = .onFailure pool' reason ∧
    ((after limits interesting replies pool n).executions : Int) ≤ limits.hv_sns_operation_retry_attempts + 1 ∧
    ((after limits interesting replies pool n).statusRequests : Int) ≤
      (limits.hv_sns_operation_retry_attempts + 1) * (limits.hv_sns_operation_status_attempts + 1)

def Uninteresting (interesting : List SnsCmStatus) (xs : List SnsStatus) : Prop := ∃ x ∈ xs, x.sss_state ∉ interesting

theorem statusReceived_uninteresting (uninteresting : Uninteresting interesting xs) :
    s.statusReceived limits interesting pool xs =
      if s.retryState.sorStatusAttempts = limits.hv_sns_operation_status_attempts then
        if s.retryState.sorRetryAttempts = limits.hv_sns_operation_retry_attempts then
          { s with phase := .onFailure pool "Exceeded maximum number of retry attempts." }
        else
          { s with phase := .operation_done, retryState := ⟨s.retryState.sorRetryAttempts + 1, 0⟩,
                   requests := s.requests ++ [.operation pool] }
      else
        { s with phase := .next_request,
                 retryState := { s.retryState with sorStatusAttempts := s.retryState.sorStatusAttempts + 1 } } := by
  obtain ⟨x, member, outside⟩ := uninteresting
  have some : ¬ (xs.map SnsStatus.sss_state).all (· ∈ interesting) := by
    intro all
    rw [all_eq_true] at all
    exact outside (of_decide_eq_true (all _ (mem_map_of_mem member)))
  unfold statusReceived
  rw [if_neg some]
  rfl

section Endless

/-- No execution is counted, and the rule is not done. -/
structure Endless (s : SnsOperation) : Prop where
  waiting : s.phase = .operation_done ∨ s.phase = .status_received ∨ s.phase = .next_request
  status : 0 ≤ s.retryState.sorStatusAttempts
  uncounted : s.retryState.sorRetryAttempts = 0

theorem endless_start : (start pool).Endless := ⟨.inl rfl, le_rfl, rfl⟩

variable (uninteresting : ∀ n, Uninteresting interesting (replies n))
  (unmet : ¬ (limits.hv_sns_operation_retry_attempts = 0 ∧ 0 ≤ limits.hv_sns_operation_status_attempts))
include uninteresting unmet

theorem Endless.step (endless : s.Endless) : (advance limits interesting replies s).Endless := by
  unfold advance
  obtain ⟨waiting, status, uncounted⟩ := endless
  rcases waiting with phase | phase | phase
  · simp only [mkStatusCheckingSNSOperation, respond, phase]
    exact ⟨.inr (.inl rfl), status, uncounted⟩
  · simp only [mkStatusCheckingSNSOperation, respond, phase, Option.getD_some, statusReceived_uninteresting (uninteresting _)]
    split
    next reached =>
      split
      next last => exact absurd ⟨last.symm.trans uncounted, reached ▸ status⟩ unmet
      next =>
        have one : (0 : Int) ≤ 0 + 1 := by decide
        rw [uncounted]
        exact ⟨.inl rfl, one, rfl⟩
    next => exact ⟨.inr (.inr rfl), Int.add_nonneg status (by decide), uncounted⟩
  · simp only [mkStatusCheckingSNSOperation, respond, phase]
    exact ⟨.inr (.inl rfl), status, uncounted⟩

theorem endless_after (n : Nat) : (after limits interesting replies pool n).Endless := by
  induction n with
  | zero => exact endless_start
  | succ n ih => exact ih.step uninteresting unmet

theorem not_givesUp : ¬ GivesUp limits interesting replies pool := by
  rintro ⟨n, pool', reason, failed, _⟩
  rcases (endless_after uninteresting unmet n).waiting with phase | phase | phase
  all_goals
    rw [phase] at failed
    cases failed

end Endless

section Limited

/-- The rule waits for the answer to a status request, `k` of which were answered before. -/
def asked (pool : Fid) (k : Nat) : SnsOperation :=
  ⟨pool, .status_received, ⟨k, 0⟩, .operation pool :: List.replicate (k + 1) (.statusRequest pool)⟩

variable (uninteresting : ∀ n, Uninteresting interesting (replies n))
include uninteresting

theorem advance_asked_again {k : Nat} (less : (k : Int) ≠ limits.hv_sns_operation_status_attempts) :
    advance limits interesting replies (advance limits interesting replies (asked pool k)) = asked pool (k + 1) := by
  have waits : advance limits interesting replies (asked pool k) =
      { asked pool k with phase := .next_request, retryState := ⟨k + 1, 0⟩ } := by
    simp only [advance, mkStatusCheckingSNSOperation, respond, asked, Option.getD_some,
      statusReceived_uninteresting (uninteresting _),
      if_neg less]
  have more : List.replicate (k + 1) (SnsRequest.statusRequest pool) ++ [.statusRequest pool] =
      List.replicate (k + 1 + 1) (.statusRequest pool) := replicate_succ'.symm
  rw [waits]
  simp only [advance, mkStatusCheckingSNSOperation, respond, request, continueTo, asked, Option.getD_some, cons_append, more]
  rfl

theorem after_asked {k : Nat} (below : (k : Int) ≤ limits.hv_sns_operation_status_attempts) :
    after limits interesting replies pool (2 * k + 1) = asked pool k := by
  induction k with
  | zero => rfl
  | succ k ih =>
    have less : (k : Int) ≠ limits.hv_sns_operation_status_attempts := by omega
    have earlier := ih (by omega)
    change advance limits interesting replies
      (advance limits interesting replies (after limits interesting replies pool (2 * k + 1))) = _
    rw [earlier]
    exact advance_asked_again uninteresting less

theorem givesUp_of_unretried (unretried : limits.hv_sns_operation_retry_attempts = 0)
    (some : 0 ≤ limits.hv_sns_operation_status_attempts) :
    GivesUp limits interesting replies pool := by
  obtain ⟨k, last⟩ := Int.eq_ofNat_of_zero_le some
  have answered : after limits interesting replies pool (2 * k + 2) =
      { asked pool k with phase := .onFailure pool "Exceeded maximum number of retry attempts." } := by
    have before : after limits interesting replies pool (2 * k + 1) = asked pool k := after_asked uninteresting last.ge
    change advance limits interesting replies (after limits interesting replies pool (2 * k + 1)) = _
    rw [before]
    simp only [advance, mkStatusCheckingSNSOperation, respond, asked, Option.getD_some,
      statusReceived_uninteresting (uninteresting _), last, unretried, if_true]
  refine ⟨2 * k + 2, pool, _, by rw [answered], ?_, ?_⟩
  · rw [answered, unretried]
    simp [executions, asked, countP_replicate]
  · rw [answered, unretried, last]
    simp [statusRequests, asked, countP_replicate]

end Limited

/-- However the services answer: as long as they are not all in a state of interest, the operation is given up within the limits
exactly when it may not be executed again. -/
theorem givesUp_iff (pool : Fid) (uninteresting : ∀ n, Uninteresting interesting (replies n)) :
    GivesUp limits interesting replies pool ↔
      limits.hv_sns_operation_retry_attempts = 0 ∧ 0 ≤ limits.hv_sns_operation_status_attempts := by
  constructor
  · intro givesUp
    by_contra unmet
    exact not_givesUp uninteresting unmet givesUp
  · rintro ⟨unretried, some⟩
    exact givesUp_of_unretried uninteresting unretried some

namespace Example

def quiet : List SnsCmStatus := [.M0_SNS_CM_STATUS_FAILED, .M0_SNS_CM_STATUS_PAUSED, .M0_SNS_CM_STATUS_IDLE]

def busy : Nat → List SnsStatus := fun _ => [⟨⟨1, 1⟩, .M0_SNS_CM_STATUS_STARTED, 0⟩]

theorem uninteresting_busy (n : Nat) : Uninteresting quiet (busy n) := ⟨_, mem_cons_self, by decide⟩

end Example
open SnsOperation.Example

/-- Five status requests more are made, and the operation is not executed again. -/
theorem givesUp_at_once : GivesUp ⟨5, 0⟩ quiet busy ⟨2, 1⟩ := (givesUp_iff ⟨2, 1⟩ uninteresting_busy).mpr ⟨rfl, by decide⟩

/-- With one execution more allowed, the operation is executed a third time and is never given up. -/
theorem executed_three_times :
    (∀ n, Uninteresting quiet (busy n)) ∧
    (after ⟨1, 1⟩ quiet busy ⟨2, 1⟩ 6).executions = 3 ∧ ¬ GivesUp ⟨1, 1⟩ quiet busy ⟨2, 1⟩ :=
  ⟨uninteresting_busy, by decide, not_givesUp uninteresting_busy (by decide)⟩

end Halon.Mero.SnsOperation
