import Halon.Proofs.PaxosPropose

/-! A reply reaches the process that awaits it. -/

namespace Halon.Paxos
open List

section
variable {N π V : Type} [LinearOrder π]

/-- A command is refused by a ballot with the proposal number it was made with.
The retry then takes over its own number, and so commands a second time in one
ballot, possibly another value. -/
def refusedInOwnProposal (call : Call N π V) (child : Nat) (message : Reply N π V) : Bool :=
  match call, message with
  | .commanding _ _ b current _ _, .nack c => child = current ∧ c.ballotProposalId = b.ballotProposalId
  | _, _ => false

namespace Call
variable (acceptors : List N) (self : π) (d : DecreeId) (x : V) (b : BallotId π) (child : Nat) (source : N)

theorem receive_promise (resps : List (N × List (Ack π V))) (b' : BallotId π) (name : N) (acks : List (Ack π V)) :
    (Call.scouting d x b child resps).receive acceptors self child source (.promise b' name acks) =
      if ((source, acks) :: resps).length = quorum acceptors.length then
        Propose.command acceptors self d x b
          ((chooseValue d (((source, acks) :: resps).map Prod.snd).flatten).getD x) (child + 1)
      else (.scouting d x b child ((source, acks) :: resps), []) := by
  simp only [receive, scoutClauses, expectQuorum, Except.map, if_true]
  by_cases enough : ((source, acks) :: resps).length = quorum acceptors.length
  · rw [if_pos enough, if_pos enough]
    rfl
  · rw [if_neg enough, if_neg enough]

theorem receive_scout_nack (resps : List (N × List (Ack π V))) (c : BallotId π) :
    (Call.scouting d x b child resps).receive acceptors self child source (.nack c) =
      Propose.afterScout acceptors self d x b child (.error c) := by
  simp only [receive, scoutClauses, expectQuorum, Except.map, if_true]

theorem receive_ack (x' : V) (resps : List (N × Unit)) (ack : Ack π V) :
    (Call.commanding d x b child x' resps).receive acceptors self child source (.ack ack) =
      if ((source, ()) :: resps).length = quorum acceptors.length then (.returned d x', [])
      else (.commanding d x b child x' ((source, ()) :: resps), []) := by
  simp only [receive, commandClauses, expectQuorum, Except.map, if_true]
  by_cases enough : ((source, ()) :: resps).length = quorum acceptors.length
  · rw [if_pos enough, if_pos enough]
    rfl
  · rw [if_neg enough, if_neg enough]

theorem receive_command_nack (x' : V) (resps : List (N × Unit)) (c : BallotId π) :
    (Call.commanding d x b child x' resps).receive acceptors self child source (.nack c) =
      Propose.scout acceptors self d x { b with ballotProposalId := c.ballotProposalId } (child + 1) := by
  simp only [receive, commandClauses, expectQuorum, Except.map, if_true, Propose.afterCommand]

end Call
end

namespace System
open Halon.Library
variable {N π V : Type} [LinearOrder π] [DecidableEq N] {group : AcceptorGroup N}
  {before : System N π V} {p : π} {child : Nat} {source : N} {message : Reply N π V}

omit [LinearOrder π] in
private theorem collected_self (call : Call N π V) (entry : N) (names : List N) (other : Nat) (α : N)
    (same : call.collected other = if other = child then entry :: names else [])
    (kept : held = if other = child then names else []) :
    (call.collected other).count α ≤ held.count α + if other = child ∧ α = entry then 1 else 0 := by
  rw [same, kept]
  by_cases here : other = child
  · simp only [here, if_true, true_and]
    rw [count_cons]
    by_cases equal : α = entry
    · simp [equal]
    · simp [equal, Ne.symm equal]
  · simp [here]

theorem reply_scouting (valid : before.Valid group) (call : before.calls p = .scouting d x b child resps)
    (taken : before.outstanding ⟨p, child⟩ source = 0) (member : source ∈ group.acceptors)
    (answers : before.Answered source (.prepare d b ⟨p, child⟩) message) :
    (before.advance p ((before.calls p).receive group.acceptors p child source message)).Valid group := by
  have called := valid.calls p
  have distinct := collected_distinct valid taken
  rw [call] at called distinct ⊢
  obtain ⟨own, round, commanded, responses⟩ := called
  cases message with
  | promise b' name acks =>
    have responded : ∀ entry ∈ (source, acks) :: resps,
        entry.1 ∈ group.acceptors ∧ before.Promised d entry.1 b entry.2 := by
      intro entry inside
      cases inside with
      | head => exact ⟨member, answers.2⟩
      | tail _ old => exact responses entry old
    rw [Call.receive_promise]
    split
    next enough =>
      have safe := promises_safe valid.requested valid.replied responded (by simpa [Call.collected] using distinct) enough x
      refine command_preserves valid own round.fresh ?_ safe
      intro α d' b' mailbox y asked parent
      obtain ⟨decree, lower⟩ := commanded α d' b' mailbox y asked parent
      exact ⟨decree, .inl lower⟩
    next =>
      refine collect_preserves valid taken ⟨own, round, commanded, responded⟩ ?_
      intro other α
      exact collected_self _ source (resps.map Prod.fst) other α rfl (by rw [call]; rfl)
  | nack c =>
    rw [Call.receive_scout_nack]
    have lower : b < c := answers
    simp only [Propose.afterScout, if_pos lower]
    refine scout_preserves valid own round.fresh ?_
    intro α d' b' mailbox y asked parent
    obtain ⟨decree, earlier⟩ := commanded α d' b' mailbox y asked parent
    refine ⟨decree, earlier.trans ?_⟩
    rw [BallotId.lt_def] at lower ⊢
    simp only [nextBallotId]
    left
    omega
  | ack _ | syncCompleted _ | decrees _ => cases answers

/-- A refused command retries in a higher ballot unless it was refused in its own proposal number. -/
theorem reply_commanding (valid : before.Valid group) (call : before.calls p = .commanding d x b child x' resps)
    (taken : before.outstanding ⟨p, child⟩ source = 0) (member : source ∈ group.acceptors)
    (replied : ∀ ack, message = .ack ack → (before.history ack.decree).voted source ack.ballot ack.value)
    (answers : before.Answered source (.syn d b ⟨p, child⟩ x') message)
    (permitted : refusedInOwnProposal (before.calls p) child message = false) :
    (before.advance p ((before.calls p).receive group.acceptors p child source message)).Valid group := by
  have called := valid.calls p
  have distinct := collected_distinct valid taken
  rw [call] at called distinct permitted ⊢
  obtain ⟨own, round, commanded, safe, responses⟩ := called
  cases message with
  | ack ack =>
    have same : ack = ⟨d, b, x'⟩ := answers
    have voted := replied ack rfl
    subst same
    have responded : ∀ entry ∈ (source, ()) :: resps,
        entry.1 ∈ group.acceptors ∧ (before.history d).voted entry.1 b x' := by
      intro entry inside
      cases inside with
      | head => exact ⟨member, voted⟩
      | tail _ old => exact responses entry old
    rw [Call.receive_ack]
    split
    next enough =>
      refine collect_preserves valid taken ⟨b, votes_chosen responded (by simpa [Call.collected] using distinct) enough⟩ ?_
      intro other α
      simp [Call.collected]
    next =>
      refine collect_preserves valid taken ⟨own, round, commanded, safe, responded⟩ ?_
      intro other α
      exact collected_self _ source (resps.map Prod.fst) other α rfl (by rw [call]; rfl)
  | nack c =>
    rw [Call.receive_command_nack]
    have lower : b < c := answers
    simp only [refusedInOwnProposal, true_and, decide_eq_false_iff_not] at permitted
    refine scout_preserves valid own round.fresh ?_
    intro α d' b' mailbox y asked parent
    obtain ⟨decree, earlier⟩ := commanded α d' b' mailbox y asked parent
    have reached : b < { b with ballotProposalId := c.ballotProposalId } := by
      rw [BallotId.lt_def] at lower ⊢
      left
      simp only
      omega
    refine ⟨decree, ?_⟩
    rcases earlier with below | ⟨rfl, _⟩
    · exact below.trans reached
    · exact reached
  | promise _ _ _ | syncCompleted _ | decrees _ => cases answers

theorem reply_querying (valid : before.Valid group) (call : before.calls p = .querying d dvs)
    (taken : before.outstanding ⟨p, 0⟩ source = 0) (member : source ∈ group.acceptors)
    (answers : before.Answered source (.queryDecrees ⟨p, 0⟩ d) message) :
    (before.advance p ((before.calls p).receive group.acceptors p 0 source message)).Valid group := by
  have called := valid.calls p
  have distinct := collected_distinct valid taken
  rw [call] at called distinct ⊢
  obtain ⟨round, responses⟩ := called
  cases message with
  | decrees acks =>
    have responded : ∀ entry ∈ dvs ++ [(source, acks)],
        entry.1 ∈ group.acceptors ∧ before.Reported entry.1 entry.2 := by
      intro entry inside
      rcases mem_append.mp inside with old | new
      · exact responses entry old
      · cases mem_singleton.mp new
        exact ⟨member, answers⟩
    have apart : ((dvs ++ [(source, acks)]).map Prod.fst).Nodup := by
      rw [map_append]
      simpa [Call.collected] using (perm_append_singleton source (dvs.map Prod.fst)).nodup_iff.mpr distinct
    simp only [Call.receive, if_true, Query.collect]
    split
    next =>
      refine collect_preserves valid taken ⟨apart, rfl, responded⟩ ?_
      intro other α
      simp [Call.collected]
    next =>
      refine collect_preserves valid taken ⟨round, responded⟩ ?_
      intro other α
      rw [call]
      simp only [Call.collected]
      by_cases here : other = 0
      · simp only [here, if_true, true_and, map_append, count_append, map_cons, map_nil]
        by_cases equal : α = source
        · simp [equal]
        · simp [equal, Ne.symm equal]
      · simp [here]
  | promise _ _ _ | nack _ | ack _ | syncCompleted _ => cases answers

end System
end Halon.Paxos
