import Halon.Proofs.PaxosReceive

/-! Calls keep the invariant: a process starts rounds in fresh children, commands
only values that its promises make safe, and returns what a majority voted for. -/

namespace Halon.Paxos.System
open Halon.Library List
variable {N π V : Type} {group : AcceptorGroup N}

def broadcast (group : AcceptorGroup N) (request : Request N π V) : List (N × Request N π V) :=
  group.acceptors.map fun α => (α, request)

theorem mem_broadcast :
    (α, sent) ∈ broadcast group request ↔ α ∈ group.acceptors ∧ sent = request := by
  simp [broadcast, eq_comm]

def Fresh (system : System N π V) (p : π) (child : Nat) : Prop :=
  ∀ α sent mailbox, (α, sent) ∈ system.requested → sent.replyTo = some mailbox → mailbox.parent = p →
    mailbox.child < child

theorem Round.fresh {system : System N π V}
    (round : system.Round p child request) : system.Fresh p (child + 1) := by
  intro α sent mailbox asked replyTo parent
  exact Nat.lt_succ_of_le (round α sent mailbox asked replyTo parent).1

variable [LinearOrder π]

theorem advance_self (system : System N π V) (p : π) (next : Call N π V × List (N × Request N π V)) :
    (system.advance p next).calls p = next.1 := Function.update_self ..

theorem advance_other (system : System N π V) (next : Call N π V × List (N × Request N π V))
    (different : q ≠ p) : (system.advance p next).calls q = system.calls q := Function.update_of_ne different ..

theorem advance_grows (system : System N π V) (p : π) (next : Call N π V × List (N × Request N π V)) :
    Grows system (system.advance p next) :=
  ⟨fun _ member => mem_append_left _ member, fun _ => Voting.History.Extends.refl _⟩

variable {before : System N π V} {p : π} {call : Call N π V} {request : Request N π V} {child : Nat}

theorem round_begins (fresh : before.Fresh p child) (replyTo : request.replyTo = some ⟨p, child⟩) :
    (before.advance p (call, broadcast group request)).Round p child request := by
  intro α sent mailbox asked awaited parent
  rcases mem_append.mp asked with old | new
  · have earlier := fresh α sent mailbox old awaited parent
    exact ⟨earlier.le, fun same => absurd same earlier.ne⟩
  · have same := (mem_broadcast.mp new).2
    subst same
    have equal : mailbox = ⟨p, child⟩ := Option.some.inj (awaited.symm.trans replyTo)
    subst equal
    exact ⟨le_rfl, fun _ => rfl⟩

theorem Commanded.advance (commanded : before.Commanded p allowed)
    (weaker : ∀ d b x, allowed d b x → wider d b x)
    (commands : ∀ d b mailbox x, request = .syn d b mailbox x → wider d b x) :
    (before.advance p (call, broadcast group request)).Commanded p wider := by
  intro α d b mailbox x asked parent
  rcases mem_append.mp asked with old | new
  · exact weaker d b x (commanded α d b mailbox x old parent)
  · exact commands d b mailbox x (mem_broadcast.mp new).2.symm

/-- Requests stay valid when a round begins: a command must be safe and agree with those already sent in its ballot. -/
theorem round_requests (valid : before.RequestsValid group) (replyTo : request.replyTo = some ⟨p, child⟩)
    (voting : request.Voting)
    (commands : ∀ d b mailbox x, request = .syn d b mailbox x → b.ballotProcessId = p ∧
      (before.history d).SafeAt (Majority group) b x ∧ before.Commanded p (fun d' b' y => b' = b → d' = d ∧ y = x)) :
    (before.advance p (call, broadcast group request)).RequestsValid group := by
  have either {α : N} {sent : Request N π V}
      (asked : (α, sent) ∈ (before.advance p (call, broadcast group request)).requested) :
      (α, sent) ∈ before.requested ∨ α ∈ group.acceptors ∧ sent = request := by
    rcases mem_append.mp asked with old | new
    · exact .inl old
    · exact .inr (mem_broadcast.mp new)
  have agrees {α : N} {d e : DecreeId} {b : BallotId π} {mailbox other : ReplyTo π} {x y : V}
      (old : (α, .syn e b other y) ∈ before.requested) (new : request = .syn d b mailbox x) : e = d ∧ y = x := by
    obtain ⟨own, _, earlier⟩ := commands d b mailbox x new
    exact earlier α e b other y old ((valid.owned old).symm.trans own) rfl
  constructor
  · intro α sent asked
    rcases either asked with old | ⟨_, rfl⟩
    · exact valid.voting old
    · exact voting
  · intro α sent mailbox asked awaited
    rcases either asked with old | ⟨inside, _⟩
    · exact valid.members old awaited
    · exact inside
  · intro α d b mailbox x asked
    rcases either asked with old | ⟨_, same⟩
    · exact valid.owned old
    · have equal : mailbox = ⟨p, child⟩ := by
        rw [← same] at replyTo
        exact Option.some.inj replyTo
      rw [equal]
      exact (commands d b mailbox x same.symm).1
  · intro α β d e b mailbox other x y first second
    rcases either first with old | ⟨_, new⟩
    · rcases either second with older | ⟨_, newer⟩
      · exact valid.single old older
      · exact agrees old newer.symm
    · rcases either second with older | ⟨_, newer⟩
      · obtain ⟨decree, value⟩ := agrees older new.symm
        exact ⟨decree.symm, value.symm⟩
      · cases new.trans newer.symm
        exact ⟨rfl, rfl⟩
  · intro α d b mailbox x asked
    rcases either asked with old | ⟨_, new⟩
    · exact valid.safe old
    · exact (commands d b mailbox x new.symm).2.1

variable [DecidableEq N]

theorem round_once (valid : before.Valid group) (fresh : before.Fresh p child)
    (replyTo : request.replyTo = some ⟨p, child⟩) (nothing : ∀ child, call.collected child = []) (mailbox : ReplyTo π)
    (α : N) : (before.advance p (call, broadcast group request)).outstanding mailbox α ≤ 1 := by
  have bound := valid.once mailbox α
  have sent : (broadcast group request).countP (fun entry => decide (entry.1 = α ∧ entry.2.replyTo = some mailbox)) ≤
      if mailbox = ⟨p, child⟩ then 1 else 0 := by
    rw [broadcast, countP_map]
    split
    next =>
      refine le_trans ?_ (nodup_iff_count.mp group.distinct α)
      rw [count_eq_countP]
      apply countP_mono_left
      intro name _ counted
      simpa using (of_decide_eq_true counted).1
    next different =>
      apply le_of_eq
      apply countP_eq_zero.mpr
      intro name _ counted
      have awaited := (of_decide_eq_true counted).2
      exact different (Option.some.inj (awaited.symm.trans replyTo))
  unfold outstanding at bound ⊢
  change (before.requests ++ broadcast group request).countP _ + before.replies.countP _ + _ ≤ 1
  rw [countP_append]
  by_cases same : mailbox = ⟨p, child⟩
  · subst same
    have unsent : before.requests.countP
        (fun entry => decide (entry.1 = α ∧ entry.2.replyTo = some (⟨p, child⟩ : ReplyTo π))) = 0 := by
      apply countP_eq_zero.mpr
      intro entry member counted
      have awaited := (of_decide_eq_true counted).2
      exact (fresh entry.1 entry.2 _ (valid.pending entry member) awaited rfl).false
    have unanswered : before.replies.countP
        (fun letter => decide (letter.source = α ∧ letter.receiver = (⟨p, child⟩ : ReplyTo π))) = 0 := by
      apply countP_eq_zero.mpr
      intro letter member counted
      obtain ⟨_, requested, awaited, _⟩ := valid.replied letter (valid.awaited letter member)
      rw [(of_decide_eq_true counted).2] at awaited
      exact (fresh _ _ _ requested awaited rfl).false
    rw [if_pos rfl] at sent
    change _ + _ + (((before.advance p (call, broadcast group request)).calls p).collected child).count α ≤ 1
    rw [advance_self, nothing]
    simp only [count_nil]
    omega
  · rw [if_neg same] at sent
    have collected : (((before.advance p (call, broadcast group request)).calls mailbox.parent).collected
        mailbox.child).count α ≤ ((before.calls mailbox.parent).collected mailbox.child).count α := by
      by_cases own : mailbox.parent = p
      · rw [own, advance_self, nothing]
        exact Nat.zero_le _
      · rw [advance_other _ _ own]
    omega

theorem advance_preserves {next} (valid : before.Valid group)
    (requests : (before.advance p next).RequestsValid group)
    (called : (before.advance p next).CallValid group p next.1)
    (own : ∀ α sent mailbox, (α, sent) ∈ next.2 → sent.replyTo = some mailbox → mailbox.parent = p)
    (once : ∀ mailbox α, (before.advance p next).outstanding mailbox α ≤ 1) :
    (before.advance p next).Valid group := by
  have grows := advance_grows before p next
  refine ⟨?_, requests, ?_, ?_, valid.awaited, ?_, once⟩
  · intro α
    exact { valid.acceptors α with }
  · exact fun letter sent => valid.replied.grow grows letter sent
  · intro entry member
    rcases mem_append.mp member with old | new
    · exact mem_append_left _ (valid.pending entry old)
    · exact mem_append_right _ new
  · intro q
    by_cases same : q = p
    · subst same
      rw [advance_self]
      exact called
    · rw [advance_other _ _ same]
      refine (valid.calls q).grow group grows ?_
      intro α sent mailbox asked replyTo parent
      rcases mem_append.mp asked with old | new
      · exact old
      · exact absurd (parent.symm.trans (own α sent mailbox new replyTo)) same

theorem round_preserves (valid : before.Valid group) (fresh : before.Fresh p child)
    (replyTo : request.replyTo = some ⟨p, child⟩) (voting : request.Voting)
    (commands : ∀ d b mailbox x, request = .syn d b mailbox x → b.ballotProcessId = p ∧
      (before.history d).SafeAt (Majority group) b x ∧ before.Commanded p (fun d' b' y => b' = b → d' = d ∧ y = x))
    (nothing : ∀ child, call.collected child = [])
    (called : (before.advance p (call, broadcast group request)).CallValid group p call) :
    (before.advance p (call, broadcast group request)).Valid group := by
  refine advance_preserves valid (round_requests valid.requested replyTo voting commands) called ?_
    (round_once valid fresh replyTo nothing)
  intro α sent mailbox asked awaited
  rw [(mem_broadcast.mp asked).2, replyTo] at awaited
  exact (Option.some.inj awaited) ▸ rfl

end Halon.Paxos.System
