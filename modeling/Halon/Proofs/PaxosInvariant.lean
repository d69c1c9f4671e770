import Halon.Library.Voting
import Halon.Proofs.PaxosAcceptor

/-! The invariant of a group of acceptors under concurrent calls. The acks ever
sent are the votes of an abstract voting history, whose floors are the ballots
of the acceptors; requests, replies and calls are valid with respect to it. -/

namespace Halon.Paxos

/-- The acceptors whose replies a call holds for one of its children. -/
def Call.collected {N π V : Type} : Call N π V → Nat → List N
  | .scouting _ _ _ current resps, child => if child = current then resps.map Prod.fst else []
  | .commanding _ _ _ current _ resps, child => if child = current then resps.map Prod.fst else []
  | .querying _ dvs, child => if child = 0 then dvs.map Prod.fst else []
  | _, _ => []

namespace System
open Halon.Library
variable {N π V : Type} [LinearOrder π]

/-- The votes for one decree are the acks sent for it. -/
def history (system : System N π V) (d : DecreeId) : Voting.History N (BallotId π) V where
  voted α b x := ∃ receiver, ⟨α, receiver, .ack ⟨d, b, x⟩⟩ ∈ system.replied
  floor α := (system.acceptors α).loop.b

def Majority (group : AcceptorGroup N) (members : Set N) : Prop :=
  ∃ names : List N, names.Nodup ∧ names ⊆ group.acceptors ∧ quorum group.acceptors.length ≤ names.length ∧
    ∀ name ∈ names, name ∈ members

theorem majorities_share (group : AcceptorGroup N) (first second : Set N)
    (enough : Majority group first) (alsoEnough : Majority group second) : (first ∩ second).Nonempty := by
  obtain ⟨_, leftDistinct, leftInside, leftLong, leftMembers⟩ := enough
  obtain ⟨_, rightDistinct, rightInside, rightLong, rightMembers⟩ := alsoEnough
  obtain ⟨name, inLeft, inRight⟩ := majorities_meet leftDistinct rightDistinct leftInside rightInside (by
    unfold quorum at leftLong rightLong
    omega)
  exact ⟨name, leftMembers name inLeft, rightMembers name inRight⟩

/-- What a promise of `α` for decree `d` in ballot `b` guarantees from then on. -/
structure Promised (system : System N π V) (d : DecreeId) (α : N) (b : BallotId π) (acks : List (Ack π V)) : Prop where
  floor : (b : Lifted (BallotId π)) ≤ (system.acceptors α).loop.b
  genuine : ∀ ack ∈ acks, ack.decree = d ∧ (system.history d).voted α ack.ballot ack.value
  complete : ∀ earlier x, (system.history d).voted α earlier x → earlier < b → ∃ ack ∈ acks, earlier ≤ ack.ballot

/-- A reply to a query reports votes, each decree at most once. -/
structure Reported (system : System N π V) (α : N) (acks : List (Ack π V)) : Prop where
  genuine : ∀ ack ∈ acks, (system.history ack.decree).voted α ack.ballot ack.value
  ascending : acks.Pairwise fun first second => first.decree < second.decree

/-- The message is what acceptor `α` may reply to the request. -/
def Answered (system : System N π V) (α : N) : Request N π V → Reply N π V → Prop
  | .prepare d b _, .promise b' _ acks => b' = b ∧ system.Promised d α b acks
  | .prepare _ b _, .nack c => b < c
  | .syn d b _ x, .ack ack => ack = ⟨d, b, x⟩
  | .syn _ b _ _, .nack c => b < c
  | .queryDecrees _ _, .decrees acks => system.Reported α acks
  | _, _ => False

/-- An acceptor's ballot bounds its votes, and its store holds the latest vote for each decree not trimmed. -/
structure AcceptorValid (system : System N π V) (α : N) : Prop where
  bounded : ∀ {d b x}, (system.history d).voted α b x → (b : Lifted (BallotId π)) ≤ (system.acceptors α).loop.b
  stored : ∀ {d vote}, (d, vote) ∈ (system.acceptors α).store.decrees → (system.history d).voted α vote.ballot vote.value
  kept : ∀ {d b x}, (system.history d).voted α b x → (system.acceptors α).loop.sd ≤ d →
    ∃ vote, (d, vote) ∈ (system.acceptors α).store.decrees ∧ b ≤ vote.ballot

/-- Child `child` of `p` is the latest and has sent nothing but `request`. -/
def Round (system : System N π V) (p : π) (child : Nat) (request : Request N π V) : Prop :=
  ∀ α sent mailbox, (α, sent) ∈ system.requested → sent.replyTo = some mailbox → mailbox.parent = p →
    mailbox.child ≤ child ∧ (mailbox.child = child → sent = request)

/-- The commands of process `p`, with the ballot and value of each, satisfy `allowed`. -/
def Commanded (system : System N π V) (p : π) (allowed : DecreeId → BallotId π → V → Prop) : Prop :=
  ∀ α d b mailbox x, (α, .syn d b mailbox x) ∈ system.requested → mailbox.parent = p → allowed d b x

variable (group : AcceptorGroup N)

/-- What holds of process `p` in each state of its call. -/
def CallValid (system : System N π V) (p : π) : Call N π V → Prop
  | .idle => ∀ α sent mailbox, (α, sent) ∈ system.requested → sent.replyTo = some mailbox → mailbox.parent ≠ p
  | .scouting d _ b child resps =>
    b.ballotProcessId = p ∧ system.Round p child (.prepare d b ⟨p, child⟩) ∧
      system.Commanded p (fun d' b' _ => d' = d ∧ b' < b) ∧
      ∀ entry ∈ resps, entry.1 ∈ group.acceptors ∧ system.Promised d entry.1 b entry.2
  | .commanding d _ b child x' resps =>
    b.ballotProcessId = p ∧ system.Round p child (.syn d b ⟨p, child⟩ x') ∧
      system.Commanded p (fun d' b' y => d' = d ∧ (b' < b ∨ b' = b ∧ y = x')) ∧
      (system.history d).SafeAt (Majority group) b x' ∧
      ∀ entry ∈ resps, entry.1 ∈ group.acceptors ∧ (system.history d).voted entry.1 b x'
  | .returned d x' => ∃ b, (system.history d).Chosen (Majority group) b x'
  | .querying d dvs =>
    system.Round p 0 (.queryDecrees ⟨p, 0⟩ d) ∧
      ∀ entry ∈ dvs, entry.1 ∈ group.acceptors ∧ system.Reported entry.1 entry.2
  | .answered dvs result =>
    (dvs.map Prod.fst).Nodup ∧ result = Query.result group.acceptors.length (dvs.map Prod.snd) ∧
      ∀ entry ∈ dvs, entry.1 ∈ group.acceptors ∧ system.Reported entry.1 entry.2
  | .syncing _ | .synced _ => False

/-- What the requests ever sent keep: one value in each ballot, and that value safe. -/
structure RequestsValid (system : System N π V) : Prop where
  voting : ∀ {α request}, (α, request) ∈ system.requested → request.Voting
  members : ∀ {α request mailbox}, (α, request) ∈ system.requested → request.replyTo = some mailbox → α ∈ group.acceptors
  owned : ∀ {α d b mailbox x}, (α, .syn d b mailbox x) ∈ system.requested → b.ballotProcessId = mailbox.parent
  single : ∀ {α β d e b mailbox other x y}, (α, .syn d b mailbox x) ∈ system.requested →
    (β, .syn e b other y) ∈ system.requested → d = e ∧ x = y
  safe : ∀ {α d b mailbox x}, (α, .syn d b mailbox x) ∈ system.requested →
    (system.history d).SafeAt (Majority group) b x

/-- Every reply ever sent answers a request sent to its sender. -/
def RepliesValid (system : System N π V) : Prop :=
  ∀ letter ∈ system.replied, ∃ request, (letter.source, request) ∈ system.requested ∧
    request.replyTo = some letter.receiver ∧ system.Answered letter.source request letter.message

section
variable [DecidableEq N]

/-- How often acceptor `α` may still count in the round of a mailbox: its requests
and replies in flight and its replies already collected. -/
def outstanding (system : System N π V) (mailbox : ReplyTo π) (α : N) : Nat :=
  system.requests.countP (fun entry => decide (entry.1 = α ∧ entry.2.replyTo = some mailbox)) +
    system.replies.countP (fun letter => decide (letter.source = α ∧ letter.receiver = mailbox)) +
    ((system.calls mailbox.parent).collected mailbox.child).count α

structure Valid (system : System N π V) : Prop where
  acceptors : ∀ α, system.AcceptorValid α
  requested : system.RequestsValid group
  replied : system.RepliesValid
  pending : ∀ entry ∈ system.requests, entry ∈ system.requested
  awaited : ∀ letter ∈ system.replies, letter ∈ system.replied
  calls : ∀ p, system.CallValid group p (system.calls p)
  once : ∀ mailbox α, system.outstanding mailbox α ≤ 1

end

variable {system : System N π V}

theorem voted_requested (valid : system.RepliesValid) (voted : (system.history d).voted α b x) :
    ∃ mailbox, (α, .syn d b mailbox x) ∈ system.requested := by
  obtain ⟨_, sent⟩ := voted
  obtain ⟨request, asked, _, answers⟩ := valid _ sent
  cases request with
  | syn d' b' mailbox =>
    cases answers
    exact ⟨mailbox, asked⟩
  | prepare _ _ _ | trim _ | syncStart _ _ | syncAdvertise _ _ _ | syncRequest _ _ _ | syncResponse _ _
  | queryDecrees => cases answers

theorem history_valid (requested : system.RequestsValid group) (replied : system.RepliesValid) (d : DecreeId) :
    (system.history d).Valid (Majority group) where
  single := by
    intro first second b x y left right
    obtain ⟨_, asked⟩ := voted_requested replied left
    obtain ⟨_, alsoAsked⟩ := voted_requested replied right
    exact (requested.single asked alsoAsked).2
  safe := by
    intro voter b x voted
    obtain ⟨_, asked⟩ := voted_requested replied voted
    exact requested.safe asked

/-- Nothing sent is unsent, and the voting histories extend. -/
structure Grows (before after : System N π V) : Prop where
  requested : ∀ entry ∈ before.requested, entry ∈ after.requested
  history : ∀ d, (before.history d).Extends (after.history d)

variable {before after : System N π V} (grows : Grows before after)
include grows

theorem Promised.grow (promised : before.Promised d α b acks) : after.Promised d α b acks where
  floor := promised.floor.trans ((grows.history d).floor α)
  genuine ack member := ⟨(promised.genuine ack member).1, (grows.history d).voted (promised.genuine ack member).2⟩
  complete := by
    intro earlier x voted lower
    rcases (grows.history d).fresh voted with old | above
    · exact promised.complete earlier x old lower
    · have reached := promised.floor.trans above
      exact absurd (WithBot.coe_le_coe.mp reached) (not_le.mpr lower)

theorem Reported.grow (reported : before.Reported α acks) : after.Reported α acks where
  genuine ack member := (grows.history ack.decree).voted (reported.genuine ack member)
  ascending := reported.ascending

theorem Answered.grow (answers : before.Answered α request message) : after.Answered α request message := by
  unfold Answered at answers ⊢
  split at answers
  next => exact ⟨answers.1, answers.2.grow grows⟩
  next => exact answers
  next => exact answers
  next => exact answers
  next => exact answers.grow grows
  next => cases answers

theorem RepliesValid.grow (valid : before.RepliesValid) (letter : Letter N π V) (sent : letter ∈ before.replied) :
    ∃ request, (letter.source, request) ∈ after.requested ∧ request.replyTo = some letter.receiver ∧
      after.Answered letter.source request letter.message := by
  obtain ⟨request, asked, mailbox, answers⟩ := valid letter sent
  exact ⟨request, grows.requested _ asked, mailbox, answers.grow grows⟩

theorem CallValid.grow (valid : before.CallValid group p call)
    (quiet : ∀ α sent mailbox, (α, sent) ∈ after.requested → sent.replyTo = some mailbox → mailbox.parent = p →
      (α, sent) ∈ before.requested) : after.CallValid group p call := by
  have round {child : Nat} {request : Request N π V} (held : before.Round p child request) :
      after.Round p child request := by
    intro α sent mailbox asked replyTo parent
    exact held α sent mailbox (quiet α sent mailbox asked replyTo parent) replyTo parent
  have commanded {allowed : DecreeId → BallotId π → V → Prop} (held : before.Commanded p allowed) :
      after.Commanded p allowed := by
    intro α d b mailbox x asked parent
    exact held α d b mailbox x (quiet α _ mailbox asked rfl parent) parent
  cases call with
  | idle =>
    intro α sent mailbox asked replyTo parent
    exact valid α sent mailbox (quiet α sent mailbox asked replyTo parent) replyTo parent
  | scouting =>
    obtain ⟨own, latest, commands, responses⟩ := valid
    exact ⟨own, round latest, commanded commands, fun entry member =>
      ⟨(responses entry member).1, (responses entry member).2.grow grows⟩⟩
  | commanding d =>
    obtain ⟨own, latest, commands, safe, responses⟩ := valid
    exact ⟨own, round latest, commanded commands, (grows.history d).safeAt safe, fun entry member =>
      ⟨(responses entry member).1, (grows.history d).voted (responses entry member).2⟩⟩
  | returned d =>
    obtain ⟨b, chosen⟩ := valid
    exact ⟨b, (grows.history d).chosen chosen⟩
  | querying =>
    obtain ⟨latest, responses⟩ := valid
    exact ⟨round latest, fun entry member => ⟨(responses entry member).1, (responses entry member).2.grow grows⟩⟩
  | answered =>
    obtain ⟨distinct, same, responses⟩ := valid
    exact ⟨distinct, same, fun entry member => ⟨(responses entry member).1, (responses entry member).2.grow grows⟩⟩
  | syncing _ | synced _ => exact valid

end System
end Halon.Paxos
