import Halon.Mero.Resources

/-! Operations on the repair or rebalance of a pool. The operation is executed, and its
status is asked for until all services are in a state of interest. Two counters limit how
often that is done. -/

namespace Halon.Mero

inductive SnsCmStatus where
  | M0_SNS_CM_STATUS_INVALID
  | M0_SNS_CM_STATUS_IDLE
  | M0_SNS_CM_STATUS_STARTED
  | M0_SNS_CM_STATUS_FAILED
  | M0_SNS_CM_STATUS_PAUSED
  | M0_SNS_CM_STATUS_UNKNOWN (code : Int)
deriving DecidableEq, Repr

structure SnsStatus where
  sss_fid : Fid
  sss_state : SnsCmStatus
  sss_progress : Nat
deriving DecidableEq, Repr

structure SNSOperationRetryState where
  sorStatusAttempts : Int
  sorRetryAttempts : Int
deriving DecidableEq, Repr

def defaultSNSOperationRetryState : SNSOperationRetryState := ⟨0, 0⟩

structure SnsLimits where
  hv_sns_operation_status_attempts : Int
  hv_sns_operation_retry_attempts : Int
deriving DecidableEq, Repr

/-- Where the rule is: at one of the phases, or handed over to one of the caller's handlers. -/
inductive SnsPhase where
  | operation_done
  | status_received
  | next_request
  | onFailure (pool : Fid) (reason : String)
  | onSuccess (pool : Fid) (services : List (Fid × SnsCmStatus))
deriving DecidableEq, Repr

inductive SnsRequest where
  | operation (pool : Fid)
  | statusRequest (pool : Fid)
deriving DecidableEq, Repr

inductive SnsEvent where
  | operationResult (pool : Fid) (er : Except String Unit)
  | statusResult (pool : Fid) (er : Except String (List SnsStatus))
  | timeout

/-- A rule that uses the operation, with the requests it has made. -/
structure SnsOperation where
  pool : Fid
  phase : SnsPhase
  retryState : SNSOperationRetryState
  requests : List SnsRequest
deriving DecidableEq, Repr

namespace SnsOperation

def request (r : SnsRequest) (s : SnsOperation) : SnsOperation := { s with requests := s.requests ++ [r] }

def continueTo (ph : SnsPhase) (s : SnsOperation) : SnsOperation := { s with phase := ph }

variable (limits : SnsLimits) (interesting : List SnsCmStatus)

/-- The services are in a state of interest, or they are asked again, or the operation is executed again, or it is given up. -/
def statusReceived (pool : Fid) (xs : List SnsStatus) (s : SnsOperation) : SnsOperation :=
  if (xs.map SnsStatus.sss_state).all (· ∈ interesting) then
    s.continueTo (.onSuccess pool (xs.map fun x => (x.sss_fid, x.sss_state)))
  else
    let nqa := s.retryState.sorStatusAttempts
    if nqa = limits.hv_sns_operation_status_attempts then
      let nra := s.retryState.sorRetryAttempts
      if nra = limits.hv_sns_operation_retry_attempts then
        s.continueTo (.onFailure pool "Exceeded maximum number of retry attempts.")
      else
        -- The fields are in the order of their declaration.
        let s := { s with retryState := ⟨nra + 1, 0⟩ }
        (s.request (.operation pool)).continueTo .operation_done
    else
      let s := { s with retryState := { s.retryState with sorStatusAttempts := nqa + 1 } }
      s.continueTo .next_request

/-- One phase. A phase that waits for another event is not run. -/
def mkStatusCheckingSNSOperation (s : SnsOperation) (event : SnsEvent) : Option SnsOperation :=
  match s.phase, event with
  | .operation_done, .operationResult pool (.error reason) => some (s.continueTo (.onFailure pool reason))
  | .operation_done, .operationResult pool (.ok ()) => some ((s.request (.statusRequest pool)).continueTo .status_received)
  | .status_received, .statusResult pool (.error reason) => some (s.continueTo (.onFailure pool reason))
  | .status_received, .statusResult pool (.ok xs) => some (s.statusReceived limits interesting pool xs)
  | .next_request, .timeout => some ((s.request (.statusRequest s.pool)).continueTo .status_received)
  | _, _ => none

def start (pool : Fid) : SnsOperation := ⟨pool, .operation_done, defaultSNSOperationRetryState, [.operation pool]⟩

def executions (s : SnsOperation) : Nat :=
  s.requests.countP fun
    | .operation _ => true
    | .statusRequest _ => false

def statusRequests (s : SnsOperation) : Nat :=
  s.requests.countP fun
    | .operation _ => false
    | .statusRequest _ => true

end SnsOperation
end Halon.Mero
