import Halon.Decrees
import Mathlib.Order.MinMax

/-! Ballots and messages of the Paxos protocol. Votes travel and are stored as
values: the source encodes them to bytes and decodes what it encoded. -/

namespace Halon.Paxos

/-- Ballots of one proposer are told apart by the proposal, those of different
proposers by the process; the order compares the proposal first. -/
structure BallotId (π : Type) where
  ballotProposalId : Int
  ballotProcessId : π
deriving DecidableEq, Repr

namespace BallotId
variable {π : Type} [LinearOrder π]

instance : LinearOrder (BallotId π) :=
  LinearOrder.lift' (fun b => toLex (b.ballotProposalId, b.ballotProcessId)) (by
    rintro ⟨_, _⟩ ⟨_, _⟩ same
    simpa using toLex.injective same)

theorem lt_def {b c : BallotId π} : b < c ↔ b.ballotProposalId < c.ballotProposalId ∨
    b.ballotProposalId = c.ballotProposalId ∧ b.ballotProcessId < c.ballotProcessId :=
  Prod.Lex.toLex_lt_toLex

end BallotId

def nextBallotId {π : Type} (b : BallotId π) : BallotId π :=
  { b with ballotProposalId := b.ballotProposalId + 1 }

/-- The process that awaits the replies to a request. `scout`, `command`, `sync`
and `query` each spawn one, so it is named by its parent and its birth order. -/
structure ReplyTo (π : Type) where
  parent : π
  child : Nat
deriving DecidableEq, Repr

structure Vote (π V : Type) where
  ballot : BallotId π
  value : V
deriving DecidableEq, Repr

structure Ack (π V : Type) where
  decree : DecreeId
  ballot : BallotId π
  value : V
deriving DecidableEq, Repr

abbrev Interval := DecreeId × DecreeId

inductive Request (N π V : Type) where
  | prepare (d : DecreeId) (b : BallotId π) (sender : ReplyTo π)
  | syn (d : DecreeId) (b : BallotId π) (sender : ReplyTo π) (x : V)
  | trim (d : DecreeId)
  | syncStart (κ : ReplyTo π) (αs : List N)
  | syncAdvertise (κ : ReplyTo π) (α : N) (ds : List Interval)
  | syncRequest (κ : ReplyTo π) (α : N) (ds : List Interval)
  | syncResponse (κ : ReplyTo π) (dvs : List (DecreeId × Vote π V))
  | queryDecrees (κ : ReplyTo π) (d : DecreeId)
deriving DecidableEq

inductive Reply (N π V : Type) where
  | promise (b : BallotId π) (acceptor : N) (acks : List (Ack π V))
  | nack (b : BallotId π)
  | ack (vote : Ack π V)
  | syncCompleted (acceptor : N)
  | decrees (acks : List (Ack π V))
deriving DecidableEq

/-- A message on its way out of an acceptor: `usendAsync` or `sendA`. -/
inductive Send (N π V : Type) where
  | reply (receiver : ReplyTo π) (message : Reply N π V)
  | request (receiver : N) (message : Request N π V)
deriving DecidableEq

variable {π V : Type} [LinearOrder π]

/-- The later of two acks in the ballot order; of two equals the second, as `maximumBy` keeps it. -/
def laterAck (x y : Ack π V) : Ack π V := if y.ballot < x.ballot then x else y

/-- The value of any vote for the decree in the highest ballot. -/
def chooseValue (d : DecreeId) (acks : List (Ack π V)) : Option V :=
  match acks.filter (fun ack => decide (d = ack.decree)) with
  | [] => none
  | ack :: acks' => some (acks'.foldl laterAck ack).value

theorem laterAck_ballot (x y : Ack π V) : (laterAck x y).ballot = max x.ballot y.ballot := by
  rw [laterAck]
  split
  next lower => exact (max_eq_left lower.le).symm
  next upper => exact (max_eq_right (not_lt.mp upper)).symm

private theorem foldl_laterAck (acks : List (Ack π V)) (first : Ack π V) :
    acks.foldl laterAck first ∈ first :: acks ∧
      ∀ ack ∈ first :: acks, ack.ballot ≤ (acks.foldl laterAck first).ballot := by
  induction acks generalizing first with
  | nil => simp
  | cons second rest ih =>
    obtain ⟨member, highest⟩ := ih (laterAck first second)
    rw [List.foldl_cons]
    constructor
    · rcases List.mem_cons.mp member with same | later
      · rw [same, laterAck]
        split <;> simp
      · exact List.mem_cons_of_mem _ (List.mem_cons_of_mem _ later)
    · have bound := highest _ List.mem_cons_self
      rw [laterAck_ballot, max_le_iff] at bound
      intro ack inside
      rcases List.mem_cons.mp inside with rfl | inside
      · exact bound.1
      rcases List.mem_cons.mp inside with rfl | inside
      · exact bound.2
      · exact highest ack (List.mem_cons_of_mem _ inside)

theorem chooseValue_eq_some {d} {acks : List (Ack π V)} {x} (chosen : chooseValue d acks = some x) :
    ∃ ack ∈ acks, ack.decree = d ∧ ack.value = x ∧ ∀ other ∈ acks, other.decree = d → other.ballot ≤ ack.ballot := by
  have relevant {ack : Ack π V} : ack ∈ acks.filter (fun ack => decide (d = ack.decree)) ↔
      ack ∈ acks ∧ ack.decree = d := by
    rw [List.mem_filter, decide_eq_true_eq, eq_comm (a := d)]
  unfold chooseValue at chosen
  split at chosen
  next => cases chosen
  next first rest votes =>
    rw [votes] at relevant
    obtain ⟨member, highest⟩ := foldl_laterAck rest first
    obtain ⟨inside, same⟩ := relevant.mp member
    exact ⟨_, inside, same, Option.some.inj chosen, fun other known decree => highest other (relevant.mpr ⟨known, decree⟩)⟩

theorem chooseValue_eq_none {d} {acks : List (Ack π V)} :
    chooseValue d acks = none ↔ ∀ ack ∈ acks, ack.decree ≠ d := by
  unfold chooseValue
  split
  next none =>
    simp only [List.filter_eq_nil_iff, decide_eq_true_eq] at none
    exact iff_of_true rfl fun ack member same => none ack member same.symm
  next first rest votes =>
    have member : first ∈ acks.filter (fun ack => decide (d = ack.decree)) := votes ▸ List.mem_cons_self
    obtain ⟨inside, same⟩ := List.mem_filter.mp member
    exact iff_of_false nofun fun none => none first inside (of_decide_eq_true same).symm

end Halon.Paxos
