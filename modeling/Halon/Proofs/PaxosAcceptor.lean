import Halon.Paxos.System

/-! What one message does to an acceptor whose store operations take effect at
once. Everything later about acceptors goes through these statements. -/

namespace Halon.Paxos
open Halon.Library OrderedMap Option
variable {N π V : Type}

namespace Request

def replyTo : Request N π V → Option (ReplyTo π)
  | .prepare _ _ sender => some sender
  | .syn _ _ sender _ => some sender
  | .trim _ => none
  | .syncStart κ _ => some κ
  | .syncAdvertise κ _ _ => some κ
  | .syncRequest κ _ _ => some κ
  | .syncResponse κ _ => some κ
  | .queryDecrees κ _ => some κ

/-- Messages of proposers, queries and trims; the others belong to synchronisation. -/
def Voting : Request N π V → Prop
  | .prepare _ _ _ | .syn _ _ _ _ | .trim _ | .queryDecrees _ _ => True
  | _ => False

end Request

/-- The acks of a query reply: the entries from the decree on. -/
def acksFrom (d : DecreeId) (decrees : Decrees π V) : List (Ack π V) :=
  (((decrees.lookup d).map fun vote => (d, vote)).toList ++ (decrees.above d).entries).map fun entry =>
    ⟨entry.1, entry.2.ballot, entry.2.value⟩

theorem mem_acksFrom {ack} (member : ack ∈ acksFrom d decrees) :
    (ack.decree, ⟨ack.ballot, ack.value⟩) ∈ decrees := by
  simp only [acksFrom, List.mem_map, List.mem_append, mem_toList, map_eq_some_iff] at member
  obtain ⟨_, ⟨_, found, rfl⟩ | above, rfl⟩ := member
  · exact lookup_eq_some.mp found
  · exact (mem_filter.mp above).1

theorem acksFrom_ascending (d : DecreeId) (decrees : Decrees π V) :
    (acksFrom d decrees).Pairwise fun first second => first.decree < second.decree := by
  rw [acksFrom, List.pairwise_map, List.pairwise_append]
  refine ⟨?_, (decrees.above d).ordered, ?_⟩
  · cases decrees.lookup d <;> simp
  · intro first here second beyond
    have same : first.1 = d := by
      simp only [mem_toList, map_eq_some_iff] at here
      obtain ⟨_, _, rfl⟩ := here
      rfl
    rw [same]
    exact of_decide_eq_true (mem_filter.mp beyond).2

namespace Store

theorem mem_trim {store : Store π V} :
    entry ∈ (store.trim d).decrees ↔ entry ∈ store.decrees ∧ d ≤ entry.1 := by
  have above {entry : DecreeId × Vote π V} :
      entry ∈ store.decrees.above d ↔ entry ∈ store.decrees ∧ d < entry.1 := by
    rw [OrderedMap.above, mem_filter, decide_eq_true_eq]
  simp only [trim, OrderedMap.splitLookup]
  cases found : store.decrees.lookup d with
  | none =>
    rw [elim_none, above]
    refine and_congr_right fun member => ⟨le_of_lt, fun least => lt_of_le_of_ne least ?_⟩
    intro same
    exact lookup_eq_none.mp found entry.2 (same ▸ member)
  | some =>
    rw [elim_some, mem_insert, above]
    have stored := lookup_eq_some.mp found
    constructor
    · rintro (rfl | ⟨⟨member, beyond⟩, _⟩)
      · exact ⟨stored, le_rfl⟩
      · exact ⟨member, beyond.le⟩
    · rintro ⟨member, least⟩
      rcases least.eq_or_lt with same | beyond
      · subst same
        exact .inl (Prod.ext rfl (OrderedMap.functional member stored))
      · exact .inr ⟨⟨member, beyond⟩, beyond.ne'⟩

end Store

namespace Acceptor
variable [LinearOrder π] (name : N) (acceptor : Acceptor π V)

theorem receive_prepare (d : DecreeId) (b : BallotId π) (sender : ReplyTo π) :
    d < acceptor.loop.sd ∧ acceptor.receive name (.prepare d b sender) = (acceptor, []) ∨
    acceptor.loop.b ≤ b ∧ acceptor.loop.sd ≤ d ∧ acceptor.receive name (.prepare d b sender) =
      (⟨⟨acceptor.loop.sd, b⟩, acceptor.store⟩,
        [.reply sender (.promise b name (storedAcks d (acceptor.store.decrees.lookup d)))]) ∨
    ∃ c, acceptor.loop.b = (c : BallotId π) ∧ b < c ∧
      acceptor.receive name (.prepare d b sender) = (acceptor, [.reply sender (.nack c)]) := by
  simp only [receive, handle]
  by_cases trimmed : d < acceptor.loop.sd
  · exact .inl ⟨trimmed, by rw [if_pos trimmed]; rfl⟩
  rw [if_neg trimmed]
  refine .inr ?_
  split
  next accepted => exact .inl ⟨accepted, not_lt.mp trimmed, rfl⟩
  next refused =>
    refine .inr ⟨fromValue acceptor.loop.b _, (coe_fromValue _ _).symm, ?_, rfl⟩
    rw [← WithBot.coe_lt_coe, coe_fromValue]
    exact not_le.mp refused

theorem receive_syn (d : DecreeId) (b : BallotId π) (sender : ReplyTo π) (x : V) :
    d < acceptor.loop.sd ∧ acceptor.receive name (.syn d b sender x) = (acceptor, []) ∨
    acceptor.loop.b ≤ b ∧ acceptor.loop.sd ≤ d ∧ acceptor.receive name (.syn d b sender x) =
      (⟨⟨acceptor.loop.sd, b⟩, acceptor.store.decrees.insert d ⟨b, x⟩,
        if acceptor.loop.b < b then some b else acceptor.store.value⟩, [.reply sender (.ack ⟨d, b, x⟩)]) ∨
    ∃ c, acceptor.loop.b = (c : BallotId π) ∧ b < c ∧
      acceptor.receive name (.syn d b sender x) = (acceptor, [.reply sender (.nack c)]) := by
  simp only [receive, handle]
  by_cases trimmed : d < acceptor.loop.sd
  · exact .inl ⟨trimmed, by rw [if_pos trimmed]; rfl⟩
  rw [if_neg trimmed]
  refine .inr ?_
  split
  next accepted =>
    refine .inl ⟨accepted, not_lt.mp trimmed, ?_⟩
    by_cases raised : acceptor.loop.b < b
    · rw [if_pos raised, if_pos raised]
      rfl
    · rw [if_neg raised, if_neg raised]
      rfl
  next refused =>
    refine .inr ⟨fromValue acceptor.loop.b _, (coe_fromValue _ _).symm, ?_, rfl⟩
    rw [← WithBot.coe_lt_coe, coe_fromValue]
    exact not_le.mp refused

theorem receive_trim (d : DecreeId) : acceptor.receive name (.trim d) =
    (⟨⟨max d acceptor.loop.sd, acceptor.loop.b⟩, acceptor.store.trim d⟩, []) := rfl

theorem receive_query (κ : ReplyTo π) (d : DecreeId) : acceptor.receive name (.queryDecrees κ d) =
    (acceptor, [.reply κ (.decrees (acksFrom d acceptor.store.decrees))]) := rfl

end Acceptor
end Halon.Paxos
