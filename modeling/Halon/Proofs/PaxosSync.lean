import Mathlib.Algebra.BigOperators.Group.List.Basic
import Mathlib.Algebra.Order.Ring.Int
import Halon.Proofs.PaxosIntervals
import Halon.Proofs.PaxosReceive

/-! Synchronisation of the acceptors. While an exchange is on its way, every decree
that its sender stored at the origin is stored by the receiver or still to come, and
every receiver holds at most one share in the exchange. -/

namespace Halon.Paxos
open Halon.Library List Acceptor
variable {N π V : Type}

/-- The acceptors that a child of a `sync` call has counted. -/
def Call.synchronised : Call N π V → Nat → List N
  | .syncing completed, child => completed[child]?.elim [] Prod.snd
  | .synced completed, child => completed[child]?.elim [] Prod.snd
  | _, _ => []

def Call.proposing : Call N π V → Bool
  | .scouting _ _ _ _ _ | .commanding _ _ _ _ _ _ => true
  | _ => false

def Action.synchronising : Action N π V → Bool
  | .sync _ | .query _ _ | .receiveRequest _ | .receiveReply _ => true
  | _ => false

namespace System

/-- Acceptors with any contents; nothing was called and nothing is in flight. -/
def quiescent (acceptors : N → Acceptor π V) : System N π V := ⟨acceptors, fun _ => .idle, [], [], [], []⟩

def Stored (system : System N π V) (α : N) (d : DecreeId) : Prop := d ∈ (system.acceptors α).store.decrees.keys

section
variable (group : AcceptorGroup N) (p : π) (origin system : System N π V)

/-- What `α` stored at the origin is stored by `β`, unless `β` has trimmed it or it is still to come. -/
def Owed (α β : N) (coming : DecreeId → Prop) : Prop :=
  ∀ d, origin.Stored α d → (system.acceptors β).loop.sd ≤ d → system.Stored β d ∨ coming d

def ExchangeRequest (receiver : N) : Request N π V → Prop
  | .prepare _ _ _ | .syn _ _ _ _ | .trim _ => False
  | .syncStart κ _ => κ.parent = p → group.acceptors[κ.child]? = some receiver
  | .syncAdvertise κ α ds => κ.parent = p →
    group.acceptors[κ.child]? = some α ∧ Separate ds ∧ ∀ d, origin.Stored α d → Covers ds d
  | .syncRequest κ β ds => κ.parent = p →
    group.acceptors[κ.child]? = some receiver ∧ Separate ds ∧ Owed origin system receiver β (Covers ds)
  | .syncResponse κ dvs => κ.parent = p →
    ∃ α, group.acceptors[κ.child]? = some α ∧ Owed origin system α receiver (· ∈ dvs.map Prod.fst)
  | .queryDecrees _ _ => True

def ExchangeReply (κ : ReplyTo π) : Reply N π V → Prop
  | .syncCompleted β => κ.parent = p → ∃ α, group.acceptors[κ.child]? = some α ∧ Owed origin system α β fun _ => False
  | _ => True

/-- The acceptors counted so far have caught up with the sender of their exchange. -/
structure Counted (completed : List (N × List N)) : Prop where
  owners : completed.map Prod.fst = if 1 < group.acceptors.length then group.acceptors else []
  half : ∀ entry ∈ completed, entry.2.length ≤ group.acceptors.length / 2
  owed : ∀ entry ∈ completed, ∀ β ∈ entry.2, Owed origin system entry.1 β fun _ => False

def ExchangeCall : Call N π V → Prop
  | .syncing completed => Counted group origin system completed
  | .synced completed => Counted group origin system completed ∧
    ∀ entry ∈ completed, group.acceptors.length / 2 ≤ entry.2.length
  | _ => True

end

variable {group : AcceptorGroup N} {p : π} {origin before after : System N π V}

structure Fills (before after : System N π V) : Prop where
  first : ∀ α, (after.acceptors α).loop.sd = (before.acceptors α).loop.sd
  stored : ∀ α d, before.Stored α d → after.Stored α d

theorem Owed.fill (owed : Owed origin before α β coming) (fills : Fills before after) :
    Owed origin after α β coming := by
  intro d held untrimmed
  rw [fills.first] at untrimmed
  exact (owed d held untrimmed).imp_left (fills.stored β d)

theorem ExchangeRequest.fill (valid : ExchangeRequest group p origin before receiver request) (fills : Fills before after) :
    ExchangeRequest group p origin after receiver request := by
  cases request with
  | syncRequest =>
    intro own
    obtain ⟨owner, separate, owed⟩ := valid own
    exact ⟨owner, separate, owed.fill fills⟩
  | syncResponse =>
    intro own
    obtain ⟨α, owner, owed⟩ := valid own
    exact ⟨α, owner, owed.fill fills⟩
  | prepare _ _ _ | syn _ _ _ _ | trim _ | syncStart _ _ | syncAdvertise _ _ _ | queryDecrees _ _ => exact valid

theorem ExchangeReply.fill (valid : ExchangeReply group p origin before κ message)
    (fills : Fills before after) : ExchangeReply group p origin after κ message := by
  cases message with
  | syncCompleted =>
    intro own
    obtain ⟨α, owner, owed⟩ := valid own
    exact ⟨α, owner, owed.fill fills⟩
  | promise _ _ _ | nack _ | ack _ | decrees _ => exact valid

theorem Counted.fill (counted : Counted group origin before completed)
    (fills : Fills before after) : Counted group origin after completed :=
  ⟨counted.owners, counted.half, fun entry member β inside => (counted.owed entry member β inside).fill fills⟩

theorem ExchangeCall.fill (valid : ExchangeCall group origin before call) (fills : Fills before after) :
    ExchangeCall group origin after call := by
  cases call with
  | syncing => exact Counted.fill valid fills
  | synced => exact ⟨Counted.fill valid.1 fills, valid.2⟩
  | _ => trivial

theorem sum_eraseIdx {α : Type} (weight : α → Nat) {items : List α} {index item}
    (found : items[index]? = some item) : ((items.eraseIdx index).map weight).sum + weight item = (items.map weight).sum := by
  obtain ⟨inside, rfl⟩ := List.getElem?_eq_some_iff.mp found
  rw [← ((getElem_cons_eraseIdx_perm inside).map weight).sum_eq, map_cons, sum_cons, Nat.add_comm]

end System

variable [DecidableEq N] [LinearOrder π]

/-- How often acceptor `β` can still be counted in the exchange `κ` because of a request. -/
def Request.shares (κ : ReplyTo π) (β receiver : N) : Request N π V → Nat
  | .syncStart κ' αs => if κ' = κ then αs.count β else 0
  | .syncAdvertise κ' _ _ => if κ' = κ ∧ receiver = β then 1 else 0
  | .syncRequest κ' α _ => if κ' = κ ∧ α = β then 1 else 0
  | .syncResponse κ' _ => if κ' = κ ∧ receiver = β then 1 else 0
  | _ => 0

def Reply.shares (κ : ReplyTo π) (β : N) (receiver : ReplyTo π) : Reply N π V → Nat
  | .syncCompleted α => if receiver = κ ∧ α = β then 1 else 0
  | _ => 0

def Send.shares (κ : ReplyTo π) (β : N) : Send N π V → Nat
  | .request receiver message => message.shares κ β receiver
  | .reply receiver message => message.shares κ β receiver

namespace System

/-- No advertisement is handled of which the receiver's own intervals sever an interval. -/
def unsevered (system : System N π V) : Action N π V → Bool
  | .receiveRequest index => system.requests[index]?.all fun
    | (α, .syncAdvertise _ _ ds) => !severed ds (system.acceptors α).own
    | _ => true
  | _ => true

def shares (system : System N π V) (κ : ReplyTo π) (β : N) : Nat :=
  (system.requests.map fun entry => entry.2.shares κ β entry.1).sum +
    (system.replies.map fun letter => letter.message.shares κ β letter.receiver).sum +
    ((system.calls κ.parent).synchronised κ.child).count β

/-- The invariant of the exchanges of `p`, for what the acceptors stored at the origin. -/
structure Exchanging (group : AcceptorGroup N) (p : π) (origin system : System N π V) : Prop where
  requests : ∀ entry ∈ system.requests, ExchangeRequest group p origin system entry.1 entry.2
  replies : ∀ letter ∈ system.replies, ExchangeReply group p origin system letter.receiver letter.message
  call : ExchangeCall group origin system (system.calls p)
  voteless : ∀ q, (system.calls q).proposing = false
  asked : system.calls p = .idle → ∀ entry ∈ system.requests, ∀ κ, entry.2.replyTo = some κ → κ.parent ≠ p
  answered : system.calls p = .idle → ∀ letter ∈ system.replies, letter.receiver.parent ≠ p
  kept : ∀ α d, origin.Stored α d → system.Stored α d
  once : ∀ child α, group.acceptors[child]? = some α → ∀ β, system.shares ⟨p, child⟩ β ≤ (group.acceptors.erase α).count β

variable {group : AcceptorGroup N} {p : π} {origin before after : System N π V}

private theorem sent_shares (κ : ReplyTo π) (β source : N) (messages : List (Send N π V)) :
    ((sentRequests messages).map fun entry => entry.2.shares κ β entry.1).sum +
      ((sentReplies source messages).map fun letter => letter.message.shares κ β letter.receiver).sum =
    (messages.map (Send.shares κ β)).sum := by
  induction messages with
  | nil => rfl
  | cons message rest ih =>
    cases message with
    | request | reply =>
      simp only [sentRequests, sentReplies, filterMap_cons, map_cons, sum_cons, Send.shares] at ih ⊢
      omega

variable {index : Nat} {γ : N} {request : Request N π V} {κ : ReplyTo π}

private theorem settle_shares {next} (taken : before.requests[index]? = some (γ, request))
    (weight : (next.2.map (Send.shares κ β)).sum ≤ request.shares κ β γ) :
    ((before.dropRequest index).settle γ next).shares κ β ≤ before.shares κ β := by
  have erased := sum_eraseIdx (fun entry : N × Request N π V => entry.2.shares κ β entry.1) taken
  have sent := sent_shares κ β γ next.2
  simp only at erased
  simp only [shares, settle, post, answer, dropRequest, map_append, sum_append]
  omega

omit [LinearOrder π] in
theorem settle_fills {next}
    (loop : next.1.loop = (before.acceptors γ).loop) (grows : ∀ d, before.Stored γ d → d ∈ next.1.store.decrees.keys) :
    Fills before ((before.dropRequest index).settle γ next) := by
  constructor
  · intro α
    by_cases same : α = γ
    · rw [same, settle_self, loop]
    · rw [settle_other same]
      rfl
  · intro α d stored
    unfold Stored
    by_cases same : α = γ
    · rw [same, settle_self]
      exact grows d (same ▸ stored)
    · rw [settle_other same]
      exact stored

section
variable (valid : Exchanging group p origin before) (taken : before.requests[index]? = some (γ, request))
include valid taken

private theorem settle_exchanging {next} (fills : Fills before ((before.dropRequest index).settle γ next))
    (asks : ∀ receiver message, .request receiver message ∈ next.2 → message.replyTo = request.replyTo ∧
      ExchangeRequest group p origin ((before.dropRequest index).settle γ next) receiver message)
    (answers : ∀ κ message, .reply κ message ∈ next.2 → request.replyTo = some κ ∧
      ExchangeReply group p origin ((before.dropRequest index).settle γ next) κ message)
    (weight : ∀ κ β, (next.2.map (Send.shares κ β)).sum ≤ request.shares κ β γ) :
    Exchanging group p origin ((before.dropRequest index).settle γ next) := by
  have handled : (γ, request) ∈ before.requests := mem_of_getElem? taken
  refine ⟨?_, ?_, valid.call.fill fills, valid.voteless, ?_, ?_, ?_, ?_⟩
  · intro entry member
    cases mem_append.mp member with
    | inl old => exact (valid.requests entry (mem_of_mem_eraseIdx old)).fill fills
    | inr new => exact (asks entry.1 entry.2 (mem_sentRequests.mp new)).2
  · intro letter member
    cases mem_append.mp member with
    | inl old => exact (valid.replies letter old).fill fills
    | inr new => exact (answers _ _ (mem_sentReplies.mp new).2).2
  · intro idle entry member κ replyTo
    cases mem_append.mp member with
    | inl old => exact valid.asked idle entry (mem_of_mem_eraseIdx old) κ replyTo
    | inr new =>
      have same := (asks entry.1 entry.2 (mem_sentRequests.mp new)).1
      exact valid.asked idle _ handled κ (same ▸ replyTo)
  · intro idle letter member
    cases mem_append.mp member with
    | inl old => exact valid.answered idle letter old
    | inr new => exact valid.asked idle _ handled _ (answers _ _ (mem_sentReplies.mp new).2).1
  · intro α d held
    exact fills.stored α d (valid.kept α d held)
  · intro child α owner β
    exact (settle_shares taken (weight _ β)).trans (valid.once child α owner β)

private theorem forward_exchanging
    (fills : Fills before ((before.dropRequest index).settle γ (acceptor, [.request receiver message])))
    (same : message.replyTo = request.replyTo)
    (asks : ExchangeRequest group p origin
    ((before.dropRequest index).settle γ (acceptor, [.request receiver message])) receiver message)
    (weight : ∀ κ β, message.shares κ β receiver ≤ request.shares κ β γ) :
    Exchanging group p origin ((before.dropRequest index).settle γ (acceptor, [.request receiver message])) := by
  refine settle_exchanging valid taken fills ?_ ?_ ?_
  · intro other sent member
    cases mem_singleton.mp member
    exact ⟨same, asks⟩
  · intro κ sent member
    cases mem_singleton.mp member
  · intro κ β
    exact weight κ β

private theorem reply_exchanging (fills : Fills before ((before.dropRequest index).settle γ (acceptor, [.reply κ message])))
    (same : request.replyTo = some κ)
    (answers : ExchangeReply group p origin ((before.dropRequest index).settle γ (acceptor, [.reply κ message])) κ message)
    (weight : ∀ κ' β, message.shares κ' β κ ≤ request.shares κ' β γ) :
    Exchanging group p origin ((before.dropRequest index).settle γ (acceptor, [.reply κ message])) := by
  refine settle_exchanging valid taken fills ?_ ?_ ?_
  · intro other sent member
    cases mem_singleton.mp member
  · intro κ' sent member
    cases mem_singleton.mp member
    exact ⟨same, answers⟩
  · intro κ' β
    exact weight κ' β

end

private theorem advertised_shares (κ κ' : ReplyTo π) (β name : N) (ds : List Interval) (αs : List N) :
    (αs.map fun α => Send.shares κ β (.request α (.syncAdvertise κ' name ds) : Send N π V)).sum =
      if κ' = κ then αs.count β else 0 := by
  induction αs with
  | nil => simp
  | cons α αs ih =>
    rw [map_cons, sum_cons, ih, count_cons]
    by_cases same : κ' = κ
    · by_cases equal : α = β
      · simp [Send.shares, Request.shares, same, equal, Nat.add_comm]
      · simp [Send.shares, Request.shares, same, equal]
    · simp [Send.shares, Request.shares, same]

variable (valid : Exchanging group p origin before)
include valid

private theorem start_exchanging (taken : before.requests[index]? = some (γ, .syncStart κ αs)) :
    Exchanging group p origin ((before.dropRequest index).settle γ ((before.acceptors γ).receive γ (.syncStart κ αs))) := by
  have request := valid.requests _ (mem_of_getElem? taken)
  refine settle_exchanging valid taken (settle_fills rfl fun _ => id) ?_ ?_ ?_
  · intro receiver message sent
    obtain ⟨α, _, same⟩ := mem_map.mp sent
    cases same
    refine ⟨rfl, ?_⟩
    intro own
    refine ⟨request own, advertised_separate _, ?_⟩
    intro d held
    exact (advertised_covers _ d).mpr (valid.kept γ d held)
  · intro κ message sent
    obtain ⟨α, _, same⟩ := mem_map.mp sent
    cases same
  · intro κ' β
    simp only [Acceptor.receive, handle, Store.run, Request.shares, map_map, Function.comp_def]
    exact (advertised_shares κ' κ β γ _ αs).le

private theorem advertise_exchanging (taken : before.requests[index]? = some (γ, .syncAdvertise κ α ds))
    (whole : severed ds (before.acceptors γ).own = false) :
    Exchanging group p origin ((before.dropRequest index).settle γ ((before.acceptors γ).receive γ (.syncAdvertise κ α ds))) := by
  have request := valid.requests _ (mem_of_getElem? taken)
  have owed (covered : ∀ d, origin.Stored α d → Covers ds d) :
      Owed origin before α γ (Covers (diffIntervals ds (before.acceptors γ).own)) := by
    intro d held untrimmed
    by_cases own : Covers (before.acceptors γ).own d
    · exact .inl (own_stored own untrimmed)
    · exact .inr (diffIntervals_covers whole (covered d held) own)
  by_cases nothing : diffIntervals ds (before.acceptors γ).own = []
  · rw [receive_advertise_known _ _ _ nothing]
    refine reply_exchanging valid taken (settle_fills rfl fun _ => id) rfl ?_ ?_
    · intro own
      obtain ⟨owner, _, covered⟩ := request own
      refine ⟨α, owner, Owed.fill ?_ (settle_fills rfl fun _ => id)⟩
      intro d held untrimmed
      exact (owed covered d held untrimmed).imp_right fun missing => not_covers_nil d (nothing ▸ missing)
    · exact fun κ' β => le_rfl
  · rw [receive_advertise_missing _ _ _ nothing]
    refine forward_exchanging valid taken (settle_fills rfl fun _ => id) rfl ?_ ?_
    · intro own
      obtain ⟨owner, separate, covered⟩ := request own
      exact ⟨owner, diffIntervals_separate _ separate, (owed covered).fill (settle_fills rfl fun _ => id)⟩
    · exact fun κ' β => le_rfl

private theorem request_exchanging (taken : before.requests[index]? = some (γ, .syncRequest κ α ds)) :
    Exchanging group p origin ((before.dropRequest index).settle γ ((before.acceptors γ).receive γ (.syncRequest κ α ds))) := by
  have request := valid.requests _ (mem_of_getElem? taken)
  rw [receive_request]
  refine forward_exchanging valid taken (settle_fills rfl fun _ => id) rfl ?_ ?_
  · intro own
    obtain ⟨owner, separate, owed⟩ := request own
    refine ⟨γ, owner, Owed.fill ?_ (settle_fills rfl fun _ => id)⟩
    intro d held untrimmed
    apply (owed d held untrimmed).imp_right
    intro covered
    obtain ⟨_, stored⟩ := OrderedMap.mem_keys.mp (valid.kept γ d held)
    exact mem_map_of_mem (mem_lookupRanges separate stored covered)
  · exact fun κ' β => le_rfl

private theorem response_exchanging (taken : before.requests[index]? = some (γ, .syncResponse κ dvs)) :
    Exchanging group p origin ((before.dropRequest index).settle γ ((before.acceptors γ).receive γ (.syncResponse κ dvs))) := by
  have request := valid.requests _ (mem_of_getElem? taken)
  have fills : Fills before ((before.dropRequest index).settle γ ((before.acceptors γ).receive γ (.syncResponse κ dvs))) :=
    settle_fills rfl fun d stored => OrderedMap.mem_keys_insertAll.mpr (.inr stored)
  rw [receive_response] at fills ⊢
  refine reply_exchanging valid taken fills rfl ?_ ?_
  · intro own
    obtain ⟨α, owner, owed⟩ := request own
    refine ⟨α, owner, ?_⟩
    intro d held untrimmed
    rw [fills.first] at untrimmed
    left
    unfold Stored
    rw [settle_self]
    exact OrderedMap.mem_keys_insertAll.mpr (owed d held untrimmed).symm
  · exact fun κ' β => le_rfl

theorem receiveRequest_exchanging (taken : before.requests[index]? = some (γ, request))
    (whole : before.unsevered (.receiveRequest index)) :
    Exchanging group p origin ((before.dropRequest index).settle γ ((before.acceptors γ).receive γ request)) := by
  cases request with
  | prepare _ _ _ | syn _ _ _ _ | trim _ => exact (valid.requests _ (mem_of_getElem? taken)).elim
  | syncStart => exact start_exchanging valid taken
  | syncAdvertise =>
    apply advertise_exchanging valid taken
    simpa [unsevered, taken] using whole
  | syncRequest => exact request_exchanging valid taken
  | syncResponse => exact response_exchanging valid taken
  | queryDecrees =>
    rw [receive_query]
    exact reply_exchanging valid taken (settle_fills rfl fun _ => id) rfl trivial fun κ' β => le_rfl

end System
end Halon.Paxos
