import Halon.Proofs.PaxosInvariant
import Mathlib.Data.List.Perm.Basic

/-! Acceptors keep the invariant: one delivered request changes one acceptor and
answers at most once, in the round that the request belongs to. -/

namespace Halon.Paxos.System
open Halon.Library List OrderedMap
variable {N π V : Type}

variable {α : N} {index : Nat} {messages : List (Send N π V)} {before : System N π V} {request : Request N π V}

theorem countP_eraseIdx {α : Type} (test : α → Bool) {items : List α} {item} (found : items[index]? = some item) :
    (items.eraseIdx index).countP test + (if test item then 1 else 0) = items.countP test := by
  obtain ⟨inside, rfl⟩ := List.getElem?_eq_some_iff.mp found
  rw [← (getElem_cons_eraseIdx_perm inside).countP_eq test, countP_cons]

theorem mem_sentReplies : letter ∈ sentReplies source messages ↔
      letter.source = source ∧ Send.reply letter.receiver letter.message ∈ messages := by
  simp only [sentReplies, mem_filterMap]
  constructor
  · rintro ⟨sent, member, made⟩
    cases sent with
    | reply =>
      cases made
      exact ⟨rfl, member⟩
    | request => cases made
  · rintro ⟨rfl, member⟩
    exact ⟨_, member, rfl⟩

theorem mem_sentRequests : entry ∈ sentRequests messages ↔ Send.request entry.1 entry.2 ∈ messages := by
  simp only [sentRequests, mem_filterMap]
  constructor
  · intro sent
    obtain ⟨message, member, made⟩ := sent
    cases message with
    | reply => cases made
    | request =>
      cases made
      exact member
  · intro member
    exact ⟨_, member, rfl⟩

section
variable [DecidableEq N] {before : System N π V} {α : N} {next : Acceptor π V × List (Send N π V)}

theorem settle_self : (before.settle α next).acceptors α = next.1 := Function.update_self ..

theorem settle_other (different : β ≠ α) : (before.settle α next).acceptors β = before.acceptors β :=
  Function.update_of_ne different ..

variable {d : DecreeId} {b : BallotId π}

theorem settle_voted : ((before.settle α next).history d).voted β b x ↔ (before.history d).voted β b x ∨
      β = α ∧ ∃ mailbox, Send.reply mailbox (.ack ⟨d, b, x⟩) ∈ next.2 := by
  constructor
  · rintro ⟨receiver, sent⟩
    rcases mem_append.mp sent with old | fresh
    · exact .inl ⟨receiver, old⟩
    · exact .inr ⟨(mem_sentReplies.mp fresh).1, receiver, (mem_sentReplies.mp fresh).2⟩
  · rintro (⟨receiver, sent⟩ | ⟨rfl, mailbox, sent⟩)
    · exact ⟨receiver, mem_append_left _ sent⟩
    · exact ⟨mailbox, mem_append_right _ (mem_sentReplies.mpr ⟨rfl, sent⟩)⟩

variable [LinearOrder π]

section
variable (floor : (before.acceptors α).loop.b ≤ next.1.loop.b)
    (fresh : ∀ mailbox ack, Send.reply mailbox (.ack ack) ∈ next.2 →
    (before.acceptors α).loop.b ≤ (ack.ballot : Lifted (BallotId π)))
include floor fresh

theorem settle_grows : Grows before (before.settle α next) where
  requested entry member := mem_append_left _ member
  history d :=
    { voted := fun voted => settle_voted.mpr (.inl voted)
      floor := by
        intro voter
        change (before.acceptors voter).loop.b ≤ ((before.settle α next).acceptors voter).loop.b
        by_cases same : voter = α
        · subst same
          rw [settle_self]
          exact floor
        · rw [settle_other same]
      fresh := by
        intro voter b x voted
        rcases settle_voted.mp voted with old | ⟨rfl, mailbox, sent⟩
        · exact .inl old
        · exact .inr (fresh mailbox _ sent) }

theorem deliver_grows : Grows before ((before.dropRequest index).settle α next) := by
  have grows : Grows (before.dropRequest index) ((before.dropRequest index).settle α next) := settle_grows floor fresh
  exact ⟨grows.requested, grows.history⟩

end

theorem settle_other_valid (valid : before.AcceptorValid β) (different : β ≠ α) :
    (before.settle α next).AcceptorValid β := by
  have old {d : DecreeId} {b : BallotId π} {x : V} (voted : ((before.settle α next).history d).voted β b x) :
      (before.history d).voted β b x := by
    rcases settle_voted.mp voted with old | ⟨same, _⟩
    · exact old
    · exact absurd same different
  constructor
  · intro d b x voted
    rw [settle_other different]
    exact valid.bounded (old voted)
  · intro d vote stored
    rw [settle_other different] at stored
    exact settle_voted.mpr (.inl (valid.stored stored))
  · intro d b x voted untrimmed
    rw [settle_other different] at untrimmed ⊢
    exact valid.kept (old voted) untrimmed

theorem settle_without_vote (valid : before.AcceptorValid α)
    (silent : ∀ mailbox ack, Send.reply mailbox (.ack ack) ∉ next.2)
    (floor : (before.acceptors α).loop.b ≤ next.1.loop.b) (trimmed : (before.acceptors α).loop.sd ≤ next.1.loop.sd)
    (stored : ∀ entry ∈ next.1.store.decrees, entry ∈ (before.acceptors α).store.decrees)
    (kept : ∀ entry ∈ (before.acceptors α).store.decrees, next.1.loop.sd ≤ entry.1 → entry ∈ next.1.store.decrees) :
    (before.settle α next).AcceptorValid α := by
  have old {d : DecreeId} {b : BallotId π} {x : V} (voted : ((before.settle α next).history d).voted α b x) :
      (before.history d).voted α b x := by
    rcases settle_voted.mp voted with old | ⟨_, mailbox, sent⟩
    · exact old
    · exact absurd sent (silent mailbox _)
  constructor
  · intro d b x voted
    rw [settle_self]
    exact (valid.bounded (old voted)).trans floor
  · intro d vote member
    rw [settle_self] at member
    exact settle_voted.mpr (.inl (valid.stored (stored _ member)))
  · intro d b x voted untrimmed
    rw [settle_self] at untrimmed ⊢
    obtain ⟨vote, member, above⟩ := valid.kept (old voted) (trimmed.trans untrimmed)
    exact ⟨vote, kept _ member untrimmed, above⟩

theorem settle_vote (valid : before.AcceptorValid α)
    (accepted : (before.acceptors α).loop.b ≤ b) (voting : next = (⟨⟨(before.acceptors α).loop.sd, b⟩,
      (before.acceptors α).store.decrees.insert d ⟨b, x⟩, value⟩, [.reply mailbox (.ack ⟨d, b, x⟩)])) :
    (before.settle α next).AcceptorValid α := by
  subst voting
  have votes {d' : DecreeId} {b' : BallotId π} {x' : V}
      (voted : ((before.settle α (⟨⟨(before.acceptors α).loop.sd, b⟩,
        (before.acceptors α).store.decrees.insert d ⟨b, x⟩, value⟩,
          [.reply mailbox (.ack ⟨d, b, x⟩)])).history d').voted α b' x') :
      (before.history d').voted α b' x' ∨ d' = d ∧ b' = b ∧ x' = x := by
    rcases settle_voted.mp voted with old | ⟨_, _, sent⟩
    · exact .inl old
    · cases mem_singleton.mp sent
      exact .inr ⟨rfl, rfl, rfl⟩
  constructor
  · intro d' b' x' voted
    rw [settle_self]
    rcases votes voted with old | ⟨rfl, rfl, rfl⟩
    · exact (valid.bounded old).trans accepted
    · exact le_rfl
  · intro d' vote member
    rw [settle_self] at member
    rcases mem_insert.mp member with same | ⟨old, _⟩
    · cases same
      exact settle_voted.mpr (.inr ⟨rfl, mailbox, mem_singleton_self _⟩)
    · exact settle_voted.mpr (.inl (valid.stored old))
  · intro d' b' x' voted untrimmed
    rw [settle_self] at untrimmed ⊢
    by_cases same : d' = d
    · subst same
      refine ⟨⟨b, x⟩, mem_insert.mpr (.inl rfl), ?_⟩
      rcases votes voted with old | ⟨_, rfl, _⟩
      · exact WithBot.coe_le_coe.mp ((valid.bounded old).trans accepted)
      · exact le_rfl
    · rcases votes voted with old | ⟨equal, _⟩
      · obtain ⟨vote, member, above⟩ := valid.kept old untrimmed
        exact ⟨vote, mem_insert.mpr (.inr ⟨member, same⟩), above⟩
      · exact absurd equal same

theorem settle_promise (valid : before.AcceptorValid α) (untrimmed : (before.acceptors α).loop.sd ≤ d)
    (promising : next = (⟨⟨(before.acceptors α).loop.sd, b⟩, (before.acceptors α).store⟩,
      [.reply mailbox (.promise b α (storedAcks d ((before.acceptors α).store.decrees.lookup d)))])) :
    (before.settle α next).Promised d α b (storedAcks d ((before.acceptors α).store.decrees.lookup d)) := by
  have silent : ∀ mailbox ack, Send.reply mailbox (.ack ack) ∉ next.2 := by
    intro receiver ack sent
    rw [promising] at sent
    cases mem_singleton.mp sent
  constructor
  · rw [settle_self, promising]
  · intro ack member
    cases found : (before.acceptors α).store.decrees.lookup d with
    | none =>
      rw [found] at member
      cases member
    | some =>
      rw [found] at member
      cases mem_singleton.mp member
      exact ⟨rfl, settle_voted.mpr (.inl (valid.stored (lookup_eq_some.mp found)))⟩
  · intro earlier x voted _
    rcases settle_voted.mp voted with old | ⟨_, receiver, sent⟩
    · obtain ⟨_, member, above⟩ := valid.kept old untrimmed
      rw [lookup_eq_some.mpr member]
      exact ⟨_, mem_singleton_self _, above⟩
    · exact absurd sent (silent receiver _)

end

variable [LinearOrder π] [DecidableEq N] {group}

section
variable (valid : before.Valid group) (found : before.requests[index]? = some (α, request))
include valid found

/-- The whole invariant after a reaction of acceptor `α` to a request: what is
left to show is that the acceptor itself is valid and that it answers. -/
theorem settle_preserves {next} (replies : next.2 = [] ∨ ∃ mailbox message, request.replyTo = some mailbox ∧
    next.2 = [.reply mailbox message])
    (grows : Grows before ((before.dropRequest index).settle α next))
    (own : ((before.dropRequest index).settle α next).AcceptorValid α)
    (answers : ∀ mailbox message, Send.reply mailbox message ∈ next.2 →
      ((before.dropRequest index).settle α next).Answered α request message) :
      ((before.dropRequest index).settle α next).Valid group := by
  have silent : sentRequests next.2 = [] := by
    rcases replies with none | ⟨_, _, _, one⟩
    · rw [none]; rfl
    · rw [one]; rfl
  have asked := valid.pending _ (mem_of_getElem? found)
  have sameRequested : ((before.dropRequest index).settle α next).requested =
      before.requested := by
    change before.requested ++ sentRequests next.2 = before.requested
    rw [silent, append_nil]
  constructor
  · intro β
    by_cases same : β = α
    · exact same ▸ own
    · refine settle_other_valid ?_ same
      exact { valid.acceptors β with }
  · refine ⟨?_, ?_, ?_, ?_, ?_⟩
    · intro β sent member
      exact valid.requested.voting (sameRequested ▸ member)
    · intro β sent mailbox member replyTo
      exact valid.requested.members (sameRequested ▸ member) replyTo
    · intro β d b mailbox x member
      exact valid.requested.owned (sameRequested ▸ member)
    · intro β γ d e b mailbox other x y first second
      exact valid.requested.single (sameRequested ▸ first) (sameRequested ▸ second)
    · intro β d b mailbox x member
      exact (grows.history d).safeAt (valid.requested.safe (sameRequested ▸ member))
  · intro letter sent
    rcases mem_append.mp sent with old | fresh
    · exact valid.replied.grow grows letter old
    · obtain ⟨same, member⟩ := mem_sentReplies.mp fresh
      refine ⟨request, grows.requested _ (same ▸ asked), ?_, same ▸ answers _ _ member⟩
      rcases replies with none | ⟨_, _, replyTo, one⟩
      · rw [none] at member
        cases member
      · rw [one] at member
        cases mem_singleton.mp member
        exact replyTo
  · intro entry member
    change entry ∈ before.requests.eraseIdx index ++ sentRequests next.2 at member
    rw [silent, append_nil] at member
    exact grows.requested entry (valid.pending entry (mem_of_mem_eraseIdx member))
  · intro letter member
    rcases mem_append.mp member with old | fresh
    · exact mem_append_left _ (valid.awaited letter old)
    · exact mem_append_right _ fresh
  · intro p
    refine (valid.calls p).grow group grows ?_
    intro β sent mailbox member _ _
    exact sameRequested ▸ member
  · intro mailbox β
    have taken := countP_eraseIdx (fun entry => decide (entry.1 = β ∧ entry.2.replyTo = some mailbox)) found
    have bound := valid.once mailbox β
    have given : (sentReplies α next.2).countP (fun letter => decide (letter.source = β ∧ letter.receiver = mailbox)) ≤
        if decide (α = β ∧ request.replyTo = some mailbox) then 1 else 0 := by
      rcases replies with none | ⟨_, _, replyTo, one⟩
      · rw [none]
        exact Nat.zero_le _
      · rw [one, replyTo]
        simp [sentReplies, countP_cons]
    simp only [] at taken
    unfold outstanding at bound ⊢
    change (before.requests.eraseIdx index ++ sentRequests next.2).countP _ +
      (before.replies ++ sentReplies α next.2).countP _ + _ ≤ 1
    rw [silent, append_nil, countP_append]
    change _ + _ + ((before.calls mailbox.parent).collected mailbox.child).count β ≤ 1
    omega

private theorem unmoved_preserves
    (replies : messages = [] ∨ ∃ mailbox message, request.replyTo = some mailbox ∧ messages = [.reply mailbox message])
    (silent : ∀ mailbox ack, Send.reply mailbox (.ack ack) ∉ messages)
    (answers : ∀ mailbox message, Send.reply mailbox message ∈ messages →
      ((before.dropRequest index).settle α
        (before.acceptors α, messages)).Answered α request message) : ((before.dropRequest index).settle α
      (before.acceptors α, messages)).Valid group := by
  have acceptor := valid.acceptors α
  refine settle_preserves valid found replies ?_ ?_ answers
  · exact deliver_grows le_rfl fun mailbox ack sent => absurd sent (silent mailbox ack)
  · refine settle_without_vote ?_ silent le_rfl le_rfl (fun _ member => member) fun _ member _ => member
    exact { acceptor with }

private theorem refused_preserves (replyTo : request.replyTo = some mailbox)
    (answers : ∀ system : System N π V, system.Answered α request (.nack c)) :
    ((before.dropRequest index).settle α
      (before.acceptors α, [.reply mailbox (.nack c)])).Valid group := by
  refine unmoved_preserves valid found (.inr ⟨mailbox, _, replyTo, rfl⟩) ?_ ?_
  · intro receiver ack sent
    cases mem_singleton.mp sent
  · intro receiver message sent
    cases mem_singleton.mp sent
    exact answers _

end

private theorem receive_prepare_preserves (valid : before.Valid group)
    (found : before.requests[index]? = some (α, .prepare d b sender)) : ((before.dropRequest index).settle α
      ((before.acceptors α).receive α (.prepare d b sender))).Valid group := by
  have acceptor : (before.dropRequest index).AcceptorValid α :=
    { valid.acceptors α with }
  rcases (before.acceptors α).receive_prepare α d b sender with ⟨_, result⟩ | ⟨accepted, untrimmed, result⟩ |
    ⟨c, _, lower, result⟩
  · rw [result]
    exact unmoved_preserves valid found (.inl rfl) (by simp) (by simp)
  · have silent : ∀ mailbox ack, Send.reply mailbox (.ack ack) ∉ ((before.acceptors α).receive α (.prepare d b sender)).2 := by
      intro mailbox ack sent
      rw [result] at sent
      cases mem_singleton.mp sent
    refine settle_preserves valid found (.inr ⟨sender, _, rfl, by rw [result]⟩) ?_ ?_ ?_
    · refine deliver_grows ?_ fun mailbox ack sent => absurd sent (silent mailbox ack)
      rw [result]; exact accepted
    · refine settle_without_vote acceptor silent ?_ ?_ ?_ ?_
      · rw [result]; exact accepted
      · rw [result]; exact le_rfl
      · rw [result]; exact fun _ member => member
      · rw [result]; exact fun _ member _ => member
    · intro mailbox message sent
      have promise := settle_promise acceptor untrimmed result
      rw [result] at sent
      cases mem_singleton.mp sent
      exact ⟨rfl, promise⟩
  · rw [result]
    exact refused_preserves valid found rfl fun _ => lower

private theorem receive_syn_preserves (valid : before.Valid group)
    (found : before.requests[index]? = some (α, .syn d b sender x)) : ((before.dropRequest index).settle α
      ((before.acceptors α).receive α (.syn d b sender x))).Valid group := by
  have acceptor : (before.dropRequest index).AcceptorValid α :=
    { valid.acceptors α with }
  rcases (before.acceptors α).receive_syn α d b sender x with ⟨_, result⟩ | ⟨accepted, _, result⟩ | ⟨c, _, lower, result⟩
  · rw [result]
    exact unmoved_preserves valid found (.inl rfl) (by simp) (by simp)
  · refine settle_preserves valid found (.inr ⟨sender, _, rfl, by rw [result]⟩) ?_ ?_ ?_
    · refine deliver_grows (by rw [result]; exact accepted) ?_
      intro mailbox ack sent
      rw [result] at sent
      cases mem_singleton.mp sent
      exact accepted
    · exact settle_vote acceptor accepted result
    · intro mailbox message sent
      rw [result] at sent
      cases mem_singleton.mp sent
      rfl
  · rw [result]
    exact refused_preserves valid found rfl fun _ => lower

theorem receiveRequest_preserves (valid : before.Valid group) (found : before.requests[index]? = some (α, request)) :
    ((before.dropRequest index).settle α
      ((before.acceptors α).receive α request)).Valid group := by
  have voting := valid.requested.voting (valid.pending _ (mem_of_getElem? found))
  have acceptor : (before.dropRequest index).AcceptorValid α :=
    { valid.acceptors α with }
  cases request with
  | prepare => exact receive_prepare_preserves valid found
  | syn => exact receive_syn_preserves valid found
  | trim =>
    rw [Acceptor.receive_trim]
    refine settle_preserves valid found (.inl rfl) ?_ ?_ (by simp)
    · exact deliver_grows le_rfl (by simp)
    · refine settle_without_vote acceptor (by simp) le_rfl (le_max_right ..) ?_ ?_
      · exact fun entry member => (Store.mem_trim.mp member).1
      · exact fun entry member untrimmed => Store.mem_trim.mpr ⟨member, (le_max_left ..).trans untrimmed⟩
  | queryDecrees κ d =>
    rw [Acceptor.receive_query]
    refine unmoved_preserves valid found (.inr ⟨κ, _, rfl, rfl⟩) ?_ ?_
    · intro mailbox ack sent
      cases mem_singleton.mp sent
    · intro mailbox message sent
      cases mem_singleton.mp sent
      refine ⟨fun ack member => ?_, acksFrom_ascending d _⟩
      exact settle_voted.mpr (.inl (acceptor.stored (mem_acksFrom member)))
  | syncStart _ _ | syncAdvertise _ _ _ | syncRequest _ _ _ | syncResponse _ _ => cases voting

end Halon.Paxos.System
