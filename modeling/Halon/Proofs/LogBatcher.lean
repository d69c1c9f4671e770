import Mathlib.Algebra.Order.Ring.Int
import Mathlib.Data.List.Perm.Basic
import Halon.Log.Batcher

/-! What becomes of the requests that the batcher is given. Requests of an old epoch
are rejected. Of the others, every round submits the nullipotent ones and those that
carry values, and of the configuration requests only the last one. -/

namespace Halon.Log.Batcher
open Library List

variable {A : Type}

/-- The process returns in every world, and all it does is to send the messages. -/
def Sends (m : BatcherM A Unit) (ms : List (BatcherSend A)) : Prop :=
  ∀ w, m.outcome w = (.ok (), { w with sent := w.sent ++ ms })

namespace Sends

theorem pure : Sends (Pure.pure () : BatcherM A Unit) [] := by
  intro w
  rw [append_nil]
  rfl

variable {α : Type}

theorem outcome_bind {f : Unit → BatcherM A α} (first : Sends m ms) (w : BatcherWorld A) :
    (m >>= f).outcome w = (f ()).outcome { w with sent := w.sent ++ ms } := by
  rw [Process.outcome_bind, first w]

theorem bind (first : Sends m ms) (second : Sends n ns) : Sends (do m; n) (ms ++ ns) := by
  intro w
  rw [first.outcome_bind, second, append_assoc]

theorem forM {f : α → BatcherM A Unit} {g} (each : ∀ x, Sends (f x) (g x)) (xs : List α) : Sends (xs.forM f) (xs.flatMap g) := by
  induction xs with
  | nil => exact pure
  | cons x xs ih => exact (each x).bind ih

theorem usends (message : α → BatcherSend A) (xs : List α) : Sends (xs.forM fun x => usend (message x)) (xs.map message) := by
  rw [map_eq_flatMap]
  exact forM (fun x _ => rfl) xs

theorem submit (answers : ∀ rs, answered rs = true) (rs : List (BatcherMsg A)) :
    Sends (Batcher.submit answered rs) (([rs].filter fun batch => !batch.isEmpty).map .batch) := by
  intro w
  cases rs with
  | nil => exact pure w
  | cons =>
    simp only [Batcher.submit, answers]
    rfl

end Sends

/-- The requests that must keep their order: those that carry values and are not nullipotent. -/
def isOrdered (r : BatcherMsg A) : Bool := !isReconfiguration r && !isNullipotent r

def isReconfiguring (r : BatcherMsg A) : Bool := isReconfiguration r && !isNullipotent r

def reconfigurations (rs : List (ClientRequest A)) : List (BatcherMsg A) := (rs.map toBatcherMsg).filter isReconfiguring

def submissions (rs : List (ClientRequest A)) : List (List (BatcherMsg A)) :=
  [(reconfigurations rs).getLast?.toList, (rs.map toBatcherMsg).filter isOrdered,
    (rs.map toBatcherMsg).filter isNullipotent].filter fun batch => !batch.isEmpty

theorem sendRound_sends (answers : ∀ rs, answered rs = true) (rs : List (ClientRequest A)) :
    Sends (sendRound answered rs) ((submissions rs).map .batch) := by
  have together := (Sends.submit answers (reconfigurations rs).getLast?.toList).bind
    ((Sends.submit answers ((rs.map toBatcherMsg).filter isOrdered)).bind
      (Sends.submit answers ((rs.map toBatcherMsg).filter isNullipotent)))
  rw [← map_append, ← filter_append, ← map_append, ← filter_append] at together
  simp only [sendRound, partition_eq_filter_filter, filter_filter]
  exact together

theorem sendRounds_sends (answers : ∀ rs, answered rs = true) (rs : List (ClientRequest A)) :
    Sends (sendRounds encoded answered rs) (((batchesOf encoded maxBatchSize rs).flatMap submissions).map .batch) := by
  rw [sendRounds]
  split
  next empty =>
    rw [empty, batchesOf_nil]
    exact .pure
  next filled =>
    rw [batchesOf_of_ne_nil filled, flatMap_cons, map_append]
    exact (sendRound_sends answers _).bind (sendRounds_sends answers _)
termination_by rs.length
decreasing_by exact takeBatch_shorter (by assumption)

def superseded (rs : List (ClientRequest A)) : List (BatcherMsg A) := (reconfigurations rs).dropLast

theorem submissions_perm (rs : List (ClientRequest A)) :
    (superseded rs ++ (submissions rs).flatten).Perm (rs.map toBatcherMsg) := by
  have last : superseded rs ++ (reconfigurations rs).getLast?.toList = reconfigurations rs := by
    unfold superseded
    rcases eq_nil_or_concat (reconfigurations rs) with none | ⟨_, _, split⟩
    · rw [none]
      rfl
    · rw [split, concat_eq_append, dropLast_concat, List.getLast?_concat, Option.toList_some]
  have others := filter_append_perm isReconfiguration ((rs.map toBatcherMsg).filter fun r => !isNullipotent r)
  rw [filter_filter, filter_filter] at others
  rw [submissions, flatten_filter_not_isEmpty, flatten_cons, flatten_cons, flatten_singleton,
    ← append_assoc, last, ← append_assoc]
  exact (others.append_right _).trans (perm_append_comm.trans (filter_append_perm isNullipotent _))

theorem submissions_ordered (rs : List (ClientRequest A)) :
    (submissions rs).flatten.filter isOrdered = (rs.map toBatcherMsg).filter isOrdered := by
  have chosen : (reconfigurations rs).getLast?.toList.filter isOrdered = [] := by
    rw [filter_eq_nil_iff]
    intro r member
    have listed := (mem_filter.mp (mem_of_getLast? (Option.mem_toList.mp member))).2
    simp only [isReconfiguring, Bool.and_eq_true] at listed
    simp [isOrdered, listed]
  have later : ((rs.map toBatcherMsg).filter isNullipotent).filter isOrdered = [] := by
    rw [filter_eq_nil_iff]
    intro r member
    simp [isOrdered, (mem_filter.mp member).2]
  rw [submissions, flatten_filter_not_isEmpty, flatten_cons, flatten_cons, flatten_singleton,
    filter_append, filter_append, chosen, later, filter_filter, nil_append, append_nil]
  simp only [Bool.and_self]

def batchesFor (encoded : ClientRequest A → Nat) (current : List (ClientRequest A)) : List (List (BatcherMsg A)) :=
  (batchesOf encoded maxBatchSize current).flatMap submissions

theorem flatten_batchesFor (current : List (ClientRequest A)) : (batchesFor encoded current).flatten =
    (batchesOf encoded maxBatchSize current).flatMap fun rs => (submissions rs).flatten := by
  rw [batchesFor, flatten_eq_flatMap, flatMap_assoc]
  simp only [flatten_eq_flatMap]

theorem flatMap_rounds (encoded : ClientRequest A → Nat) (current : List (ClientRequest A)) :
    (batchesOf encoded maxBatchSize current).flatMap (List.map toBatcherMsg) = current.map toBatcherMsg := by
  rw [flatMap_def, ← map_flatten, flatten_batchesOf]

theorem batchesFor_perm (encoded : ClientRequest A → Nat) (current : List (ClientRequest A)) :
    ((batchesOf encoded maxBatchSize current).flatMap superseded ++ (batchesFor encoded current).flatten).Perm
      (current.map toBatcherMsg) := by
  rw [flatten_batchesFor, ← flatMap_rounds encoded current]
  exact (flatMap_append_perm _ _ _).trans (List.Perm.flatMap_left _ fun rs _ => submissions_perm rs)

theorem batchesFor_ordered (current : List (ClientRequest A)) :
    (batchesFor encoded current).flatten.filter isOrdered = (current.map toBatcherMsg).filter isOrdered := by
  rw [flatten_batchesFor, ← flatMap_rounds encoded current, filter_flatMap, filter_flatMap]
  simp only [submissions_ordered]

theorem batchesFor_complete (current : List (ClientRequest A)) :
    (batchesFor encoded current).flatten.Perm (current.map toBatcherMsg) ↔
      ∀ round ∈ batchesOf encoded maxBatchSize current, (reconfigurations round).length ≤ 1 := by
  have none : (batchesOf encoded maxBatchSize current).flatMap superseded = [] ↔
      ∀ round ∈ batchesOf encoded maxBatchSize current, (reconfigurations round).length ≤ 1 := by
    rw [flatMap_eq_nil_iff]
    apply forall₂_congr
    intro round _
    rw [superseded, ← length_eq_zero_iff, length_dropLast]
    omega
  rw [← none]
  have parts := batchesFor_perm encoded current
  constructor
  · intro all
    have same := parts.length_eq
    rw [length_append, ← all.length_eq] at same
    exact length_eq_zero_iff.mp (by omega)
  · intro empty
    rw [empty] at parts
    exact parts

theorem nodup_eraseDups {α : Type} [BEq α] [LawfulBEq α] (xs : List α) : xs.eraseDups.Nodup := by
  match xs with
  | [] => exact nodup_nil
  | x :: xs =>
    rw [eraseDups_cons, nodup_cons, mem_eraseDups]
    exact ⟨by simp, nodup_eraseDups _⟩
termination_by xs.length
decreasing_by exact Nat.lt_succ_of_le (length_filter_le _ _)

def current (epoch : Int) (rs0 : List (ClientRequest A)) : List (ClientRequest A) := rs0.filter fun request => epoch ≤ request.2.1

def outdated (epoch : Int) (rs0 : List (ClientRequest A)) : List (ClientRequest A) :=
    rs0.filter fun request => request.2.1 < epoch

/-- What the batcher does with requests: which ambassadors it sends the epoch, which clients it rejects, and what it submits. -/
structure Handles (encoded : ClientRequest A → Nat) (epoch : Int) (rs0 : List (ClientRequest A)) (ambassadors clients : List Nat)
    (batches : List (List (BatcherMsg A))) : Prop where
  notified : ∀ μ, μ ∈ ambassadors ↔ ∃ request ∈ rs0, request.2.1 < epoch ∧ request.1 = μ
  once : ambassadors.Nodup
  rejected : clients = (outdated epoch rs0).flatMap fun request => request.2.2.requestSender
  rounds : (batchesOf encoded maxBatchSize (current epoch rs0)).flatten = current epoch rs0
  limited : ∀ round ∈ batchesOf encoded maxBatchSize (current epoch rs0),
    (round.map encoded).sum ≤ 128 * 1024 ∨ round.length = 1
  submitted : batches = (batchesOf encoded maxBatchSize (current epoch rs0)).flatMap submissions
  ordered : batches.flatten.filter isOrdered = ((current epoch rs0).map toBatcherMsg).filter isOrdered

theorem sendBatch_outcome (answers : ∀ rs, answered rs = true) (s0 : Int × List Nat) (rs0 : List (ClientRequest A))
    (known : latest s0 w.updates = (epoch, ρs)) :
    (sendBatch encoded answered s0 rs0).outcome w = (.ok (epoch, ρs),
      { w with
        updates := []
        sent := w.sent ++ ((((outdated epoch rs0).map Prod.fst).eraseDups.map fun μ => .membership μ epoch ρs) ++
          ((((outdated epoch rs0).flatMap fun request => request.2.2.requestSender).map fun client => .reply client false) ++
            (batchesFor encoded (current epoch rs0)).map .batch)) }) := by
  have received : (receiveUpdates s0).outcome w = (.ok (epoch, ρs), { w with updates := [] }) := by
    rw [← known]
    rfl
  have parts : rs0.partition (fun request => epoch ≤ request.2.1) = (current epoch rs0, outdated epoch rs0) := by
    rw [partition_eq_filter_filter]
    congr 2
    funext request
    rw [Function.comp_apply, ← decide_not]
    simp only [Int.not_le]
  have notified := Sends.usends (fun μ => BatcherSend.membership (A := A) μ epoch ρs)
    ((outdated epoch rs0).map Prod.fst).eraseDups
  have rejected := Sends.forM (fun request : ClientRequest A =>
    Sends.usends (fun client => BatcherSend.reply (A := A) client false) request.2.2.requestSender) (outdated epoch rs0)
  rw [sendBatch, Process.outcome_bind, received]
  dsimp only
  rw [parts]
  rw [notified.outcome_bind, rejected.outcome_bind, (sendRounds_sends answers _).outcome_bind, ← map_flatMap]
  dsimp only
  rw [append_assoc, append_assoc]
  rfl

/-- If every submission is answered, the batcher returns with the latest epoch. It handles every request in one way if and
only if no round has two configuration requests that are not nullipotent: of these it submits only the last. -/
theorem batcher_conserves_iff (encoded : ClientRequest A → Nat) (answered : List (BatcherMsg A) → Bool)
    (answers : ∀ rs, answered rs = true) (s0 : Int × List Nat) (rs0 : List (ClientRequest A)) (w : BatcherWorld A) :
    ∃ ambassadors clients batches,
      (sendBatch encoded answered s0 rs0).outcome w = (.ok (latest s0 w.updates),
        { w with
          updates := []
          sent := w.sent ++ ((ambassadors.map fun μ => .membership μ (latest s0 w.updates).1 (latest s0 w.updates).2) ++
            ((clients.map fun client => .reply client false) ++ batches.map .batch)) }) ∧
      Handles encoded (latest s0 w.updates).1 rs0 ambassadors clients batches ∧
      (batches.flatten.Perm ((current (latest s0 w.updates).1 rs0).map toBatcherMsg) ↔
        ∀ round ∈ batchesOf encoded maxBatchSize (current (latest s0 w.updates).1 rs0), (reconfigurations round).length ≤ 1) := by
  rcases known : latest s0 w.updates with ⟨epoch, ρs⟩
  refine ⟨((outdated epoch rs0).map Prod.fst).eraseDups, (outdated epoch rs0).flatMap fun request => request.2.2.requestSender,
    batchesFor encoded (current epoch rs0), sendBatch_outcome answers s0 rs0 known, ?_, batchesFor_complete _⟩
  refine ⟨?_, nodup_eraseDups _, rfl, flatten_batchesOf _, batchesOf_limit _, rfl, batchesFor_ordered _⟩
  intro μ
  simp [outdated, and_assoc]

def reconfRequest (client : Nat) : ClientRequest Nat := (10, 1, ⟨[client], .Reconf 2 [1, 2], .None⟩)

def valuesRequest (epoch : Int) (client : Nat) : ClientRequest Nat := (11, epoch, ⟨[client], .Values [client], .None⟩)

/-- The first client has an old epoch, and the other two have their requests submitted in one round. -/
theorem batcher_conserves_three : ∃ ambassadors clients batches,
    Handles (fun _ => 1) 1 [valuesRequest 0 30, reconfRequest 20, valuesRequest 1 31] ambassadors clients batches ∧
      11 ∈ ambassadors ∧ clients = [30] ∧
      batches.flatten.Perm [toBatcherMsg (reconfRequest 20), toBatcherMsg (valuesRequest 1 31)] := by
  obtain ⟨ambassadors, clients, batches, _, handles, complete⟩ :=
    batcher_conserves_iff (fun _ => 1) (fun _ => true) (fun _ => rfl)
    (1, [1]) [valuesRequest 0 30, reconfRequest 20, valuesRequest 1 31] ⟨[], 0, []⟩
  refine ⟨ambassadors, clients, batches, handles, ?_, handles.rejected, complete.mpr ?_⟩
  · exact (handles.notified 11).mpr ⟨valuesRequest 0 30, mem_cons_self, by decide, rfl⟩
  · have round : batchesOf (fun _ => 1) maxBatchSize [reconfRequest 20, valuesRequest 1 31] =
      [[reconfRequest 20, valuesRequest 1 31]] := by
      rw [batchesOf_of_ne_nil (cons_ne_nil _ _)]
      exact congrArg _ batchesOf_nil
    change ∀ round ∈ batchesOf (fun _ => 1) maxBatchSize [reconfRequest 20, valuesRequest 1 31], _
    rw [round]
    decide

/-- Of two clients that reconfigure the group in one round, the first neither has its request submitted nor is answered. -/
theorem reconfiguration_dropped :
    (sendBatch (fun _ => 1) (fun _ => true) (1, [1]) [reconfRequest 20, reconfRequest 21]).outcome ⟨[], 0, []⟩ =
      (.ok (1, [1]), ⟨[], 0, [.batch [toBatcherMsg (reconfRequest 21)]]⟩) := by
  have round : batchesOf (fun _ => 1) maxBatchSize [reconfRequest 20, reconfRequest 21] =
    [[reconfRequest 20, reconfRequest 21]] := by
    rw [batchesOf_of_ne_nil (cons_ne_nil _ _)]
    exact congrArg _ batchesOf_nil
  have batches : batchesFor (fun _ => 1) (current 1 [reconfRequest 20, reconfRequest 21]) = [[toBatcherMsg (reconfRequest 21)]] :=
    congrArg (List.flatMap submissions) round
  have known : latest (1, [1]) [] = (1, [1]) := rfl
  rw [sendBatch_outcome (fun _ => rfl) _ _ known, batches]
  rfl

end Halon.Log.Batcher
