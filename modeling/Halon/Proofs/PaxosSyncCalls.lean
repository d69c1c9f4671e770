import Halon.Proofs.PaxosCalls
import Halon.Proofs.PaxosSync

/-! Calls of `sync`. A call starts one exchange for each acceptor and counts the
acceptors that completed it; when it returns, each exchange has reached a majority. -/

namespace Halon.Paxos
open Halon.Library Option Nat
variable {N π V : Type} [DecidableEq N] [LinearOrder π]

theorem Request.shares_other {request : Request N π V} (other : ∀ κ', request.replyTo = some κ' → κ' ≠ κ)
    (β receiver : N) : request.shares κ β receiver = 0 := by
  cases request with
  | prepare _ _ _ | syn _ _ _ _ | trim _ | queryDecrees _ _ => rfl
  | syncStart κ' => exact if_neg (other κ' rfl)
  | syncAdvertise κ' _ _ | syncRequest κ' _ _ | syncResponse κ' _ => exact if_neg fun same => other κ' rfl same.1

theorem Reply.shares_other (other : κ' ≠ κ) (β : N) (message : Reply N π V) :
    message.shares κ β κ' = 0 := by
  cases message with
  | syncCompleted => exact if_neg fun same => other same.1
  | promise _ _ _ | nack _ | ack _ | decrees _ => rfl

namespace Sync

omit [DecidableEq N] in
private theorem count_get (n child : Nat) (α : N) (completed : List (N × List N)) (index : Nat) :
    (count n child α completed)[index]? = completed[index]?.map fun entry =>
      if child = index ∧ entry.2.length < n / 2 then (entry.1, entry.2 ++ [α]) else entry := by
  rw [count, List.getElem?_modify]
  cases completed[index]? with
  | none => rfl
  | some =>
    by_cases here : child = index
    · simp [here]
    · simp [here]

end Sync

namespace System
variable {group : AcceptorGroup N} {p : π} {origin before : System N π V}

omit [DecidableEq N] [LinearOrder π] in
private theorem count_counted {κ : ReplyTo π} {completed : List (N × List N)}
    (counted : Counted group origin before completed) (owner : group.acceptors[κ.child]? = some α)
    (owed : Owed origin before α β fun _ => False) :
    Counted group origin before (Sync.count group.acceptors.length κ.child β completed) := by
  have entries {entry : N × List N} (member : entry ∈ Sync.count group.acceptors.length κ.child β completed) :
      entry ∈ completed ∨ ∃ old ∈ completed, old.1 = α ∧ old.2.length < group.acceptors.length / 2 ∧ entry =
        (α, old.2 ++ [β]) := by
    obtain ⟨_, held⟩ := List.mem_iff_getElem?.mp member
    rw [Sync.count_get, map_eq_some_iff] at held
    obtain ⟨old, known, rfl⟩ := held
    have inside := List.mem_of_getElem? known
    split
    next room =>
      obtain ⟨rfl, room⟩ := room
      have same : old.1 = α := by
        have first : (completed.map Prod.fst)[κ.child]? = some old.1 := by rw [List.getElem?_map, known]; rfl
        rw [counted.owners] at first
        split at first
        next => exact Option.some.inj (first.symm.trans owner)
        next => cases first
      exact .inr ⟨old, inside, same, room, by rw [same]⟩
    next => exact .inl inside
  constructor
  · rw [← counted.owners]
    apply List.ext_getElem?
    intro index
    rw [List.getElem?_map, List.getElem?_map, Sync.count_get, map_map]
    congr 1
    funext entry
    simp only [Function.comp]
    split <;> rfl
  · intro entry member
    cases entries member with
    | inl old => exact counted.half entry old
    | inr new =>
      obtain ⟨old, _, _, room, rfl⟩ := new
      rw [List.length_append]
      exact room
  · intro entry member other inside
    cases entries member with
    | inl old => exact counted.owed entry old other inside
    | inr new =>
      obtain ⟨old, known, rfl, _, rfl⟩ := new
      cases List.mem_append.mp inside with
      | inl earlier => exact counted.owed old known other earlier
      | inr last =>
        rw [List.mem_singleton.mp last]
        exact owed

variable {index : Nat} {letter : Letter N π V}

section
variable (valid : Exchanging group p origin before) (taken : before.replies[index]? = some letter)
include valid taken

private theorem collect_exchanging (voteless : next.proposing = false)
    (begun : next = .idle → before.calls letter.receiver.parent = .idle)
    (call : letter.receiver.parent = p → ExchangeCall group origin before next)
    (counts : letter.receiver.parent = p → ∀ child β, (next.synchronised child).count β ≤
      ((before.calls p).synchronised child).count β + letter.message.shares ⟨p, child⟩ β letter.receiver) :
    Exchanging group p origin ((before.dropReply index).advance letter.receiver.parent (next, [])) := by
  have idle (waits : ((before.dropReply index).advance letter.receiver.parent (next, [])).calls p = .idle) :
      before.calls p = .idle := by
    by_cases same : p = letter.receiver.parent
    · rw [same, advance_self] at waits
      exact same ▸ begun waits
    · rwa [advance_other _ _ same] at waits
  have fills : Fills before ((before.dropReply index).advance letter.receiver.parent (next, [])) := ⟨fun _ => rfl, fun _ _ => id⟩
  have requests : ((before.dropReply index).advance letter.receiver.parent (next, [])).requests = before.requests :=
    List.append_nil _
  constructor
  · rw [requests]
    exact valid.requests
  · exact fun other member => valid.replies other (List.mem_of_mem_eraseIdx member)
  · by_cases same : p = letter.receiver.parent
    · rw [same, advance_self]
      exact (call same.symm).fill fills
    · rw [advance_other _ _ same]
      exact valid.call.fill fills
  · intro q
    by_cases same : q = letter.receiver.parent
    · rw [same, advance_self]
      exact voteless
    · rw [advance_other _ _ same]
      exact valid.voteless q
  · intro waits
    rw [requests]
    exact valid.asked (idle waits)
  · exact fun waits other member => valid.answered (idle waits) other (List.mem_of_mem_eraseIdx member)
  · exact valid.kept
  · intro child α owner β
    apply le_trans _ (valid.once child α owner β)
    have erased := sum_eraseIdx (fun letter : Letter N π V => letter.message.shares ⟨p, child⟩ β letter.receiver) taken
    unfold shares
    rw [requests]
    by_cases same : p = letter.receiver.parent
    · have bound := counts same.symm child β
      rw [show (ReplyTo.mk p child).parent = letter.receiver.parent from same, advance_self]
      simp only [advance, post, dropReply] at erased bound ⊢
      rw [← same]
      omega
    · rw [advance_other _ _ same]
      simp only [advance, post, dropReply] at erased ⊢
      omega

private theorem ignore_exchanging :
    Exchanging group p origin ((before.dropReply index).advance letter.receiver.parent
      (before.calls letter.receiver.parent, [])) := by
  refine collect_exchanging valid taken (valid.voteless _) id ?_ ?_
  · intro own
    rw [own]
    exact valid.call
  · intro own child β
    rw [own]
    exact le_add_right _ _

private theorem query_exchanging (n : Nat) (d : DecreeId) (dvs : List (N × List (Ack π V))) :
    Exchanging group p origin ((before.dropReply index).advance letter.receiver.parent (Query.collect n d dvs, [])) := by
  unfold Query.collect
  split
  next => exact collect_exchanging valid taken rfl nofun (fun _ => trivial) fun _ child β => zero_le _
  next => exact collect_exchanging valid taken rfl nofun (fun _ => trivial) fun _ child β => zero_le _

private theorem completed_exchanging
    (called : before.calls letter.receiver.parent = .syncing completed) (message : letter.message = .syncCompleted β) :
    Exchanging group p origin ((before.dropReply index).advance letter.receiver.parent (Sync.collect group.acceptors.length
      (Sync.count group.acceptors.length letter.receiver.child β completed), [])) := by
  have reply := valid.replies letter (List.mem_of_getElem? taken)
  have counted (own : letter.receiver.parent = p) :
      Counted group origin before (Sync.count group.acceptors.length letter.receiver.child β completed) := by
    have call := valid.call
    rw [← own, called] at call
    rw [message] at reply
    obtain ⟨α, owner, owed⟩ := reply own
    exact count_counted call owner owed
  have counts (own : letter.receiver.parent = p) (child : Nat) (α : N) :
      (((Sync.count group.acceptors.length letter.receiver.child β completed)[child]?).elim [] Prod.snd).count α ≤
        ((before.calls p).synchronised child).count α + letter.message.shares ⟨p, child⟩ α letter.receiver := by
    rw [← own, called, message, Sync.count_get]
    simp only [Call.synchronised, Reply.shares]
    cases completed[child]? with
    | none => exact zero_le _
    | some =>
      simp only [map_some, elim_some]
      split
      next room =>
        rw [List.count_append, ← room.1]
        by_cases same : β = α
        · simp [same]
        · simp [same]
      next => exact le_add_right _ _
  unfold Sync.collect
  split
  next all =>
    refine collect_exchanging valid taken rfl (by simp) (fun own => ⟨counted own, ?_⟩) counts
    intro entry member
    exact of_decide_eq_true (List.all_eq_true.mp all entry member)
  next => exact collect_exchanging valid taken rfl (by simp) counted counts

theorem receiveReply_exchanging :
    Exchanging group p origin ((before.dropReply index).advance letter.receiver.parent
      ((before.calls letter.receiver.parent).receive group.acceptors letter.receiver.parent letter.receiver.child
        letter.source letter.message)) := by
  have voteless := valid.voteless letter.receiver.parent
  have ignored := ignore_exchanging valid taken
  cases called : before.calls letter.receiver.parent with
  | scouting _ _ _ _ _ | commanding _ _ _ _ _ _ =>
    rw [called] at voteless
    cases voteless
  | idle | returned _ _ | answered _ _ | synced _ =>
    rw [called] at ignored
    exact ignored
  | querying =>
    rw [called] at ignored
    cases message : letter.message with
    | decrees =>
      simp only [Call.receive]
      split
      next => exact query_exchanging valid taken _ _ _
      next => exact ignored
    | promise _ _ _ | nack _ | ack _ | syncCompleted _ => exact ignored
  | syncing =>
    rw [called] at ignored
    cases message : letter.message with
    | syncCompleted => exact completed_exchanging valid taken called message
    | promise _ _ _ | nack _ | ack _ | decrees _ => exact ignored

end

private theorem idle_shares (valid : Exchanging group p origin before) (idle : before.calls p = .idle) (child : Nat) (β : N) :
    before.shares ⟨p, child⟩ β = 0 := by
  have asked : (before.requests.map fun entry => entry.2.shares ⟨p, child⟩ β entry.1).sum = 0 := by
    apply List.sum_eq_zero
    intro share member
    obtain ⟨entry, inside, rfl⟩ := List.mem_map.mp member
    apply Request.shares_other
    intro κ replyTo same
    exact valid.asked idle entry inside κ replyTo (congrArg ReplyTo.parent same)
  have answered : (before.replies.map fun letter => letter.message.shares ⟨p, child⟩ β letter.receiver).sum = 0 := by
    apply List.sum_eq_zero
    intro share member
    obtain ⟨letter, inside, rfl⟩ := List.mem_map.mp member
    apply Reply.shares_other
    intro same
    exact valid.answered idle letter inside (congrArg ReplyTo.parent same)
  rw [shares, asked, answered, idle]
  rfl

private theorem begin_exchanging (valid : Exchanging group p origin before) (idle : before.calls q = .idle)
    (begun : next.1 ≠ .idle) (voteless : next.1.proposing = false)
    (own : ∀ entry ∈ next.2, ∀ κ, entry.2.replyTo = some κ → κ.parent = q)
    (asks : ∀ entry ∈ next.2, ExchangeRequest group p origin before entry.1 entry.2)
    (call : q = p → ExchangeCall group origin before next.1)
    (counts : q = p → ∀ child α, group.acceptors[child]? = some α → ∀ β,
      (next.2.map fun entry => entry.2.shares ⟨p, child⟩ β entry.1).sum + (next.1.synchronised child).count β ≤
        (group.acceptors.erase α).count β) :
    Exchanging group p origin (before.advance q next) := by
  have fills : Fills before (before.advance q next) := ⟨fun _ => rfl, fun _ _ => id⟩
  have other (waits : (before.advance q next).calls p = .idle) : p ≠ q := by
    intro same
    rw [same, advance_self] at waits
    exact begun waits
  constructor
  · intro entry member
    cases List.mem_append.mp member with
    | inl old => exact (valid.requests entry old).fill fills
    | inr new => exact (asks entry new).fill fills
  · exact fun letter member => (valid.replies letter member).fill fills
  · by_cases same : p = q
    · rw [same, advance_self]
      exact (call same.symm).fill fills
    · rw [advance_other _ _ same]
      exact valid.call.fill fills
  · intro r
    by_cases same : r = q
    · rw [same, advance_self]
      exact voteless
    · rw [advance_other _ _ same]
      exact valid.voteless r
  · intro waits entry member κ replyTo
    have different := other waits
    rw [advance_other _ _ different] at waits
    cases List.mem_append.mp member with
    | inl old => exact valid.asked waits entry old κ replyTo
    | inr new =>
      rw [own entry new κ replyTo]
      exact different.symm
  · intro waits
    rw [advance_other _ _ (other waits)] at waits
    exact valid.answered waits
  · exact valid.kept
  · intro child α owner β
    by_cases same : p = q
    · have none := idle_shares valid (same ▸ idle) child β
      have bound := counts same.symm child α owner β
      subst same
      simp only [shares] at none ⊢
      rw [advance_self]
      simp only [advance, post, List.map_append, List.sum_append]
      omega
    · have fresh : (next.2.map fun entry => entry.2.shares ⟨p, child⟩ β entry.1).sum = 0 := by
        apply List.sum_eq_zero
        intro share member
        obtain ⟨entry, inside, rfl⟩ := List.mem_map.mp member
        apply Request.shares_other
        intro κ replyTo equal
        apply same
        rw [← own entry inside κ replyTo, equal]
      have bound := valid.once child α owner β
      simp only [shares] at bound ⊢
      rw [advance_other _ _ same]
      simp only [advance, post, List.map_append, List.sum_append, fresh]
      omega

private theorem sum_zipIdx {α : Type} (weight : α → Nat) (items : List α) (first index : Nat) :
    ((items.zipIdx first).map fun entry => if entry.2 = index then weight entry.1 else 0).sum =
      if first ≤ index then items[index - first]?.elim 0 weight else 0 := by
  induction items generalizing first with
  | nil => simp
  | cons item _ ih =>
    rw [List.zipIdx_cons, List.map_cons, List.sum_cons, ih]
    by_cases here : first = index
    · simp [here]
    · by_cases before : first ≤ index
      · have next : index - first = (index - (first + 1)) + 1 := by omega
        rw [if_neg here, if_pos before, if_pos (by omega), next, List.getElem?_cons_succ, zero_add]
      · rw [if_neg here, if_neg before, if_neg (by omega)]

private theorem sync_exchanging (valid : Exchanging group p origin before) (idle : before.calls q = .idle) :
    Exchanging group p origin (before.advance q (sync group.acceptors q)) := by
  unfold sync
  split
  next several =>
    refine begin_exchanging valid idle (by simp) rfl ?_ ?_ ?_ ?_
    · intro entry member κ replyTo
      obtain ⟨_, _, rfl⟩ := List.mem_map.mp member
      cases replyTo
      rfl
    · intro entry member
      obtain ⟨⟨α, _⟩, inside, rfl⟩ := List.mem_map.mp member
      exact fun _ => List.mem_zipIdx_iff_getElem?.mp inside
    · intro _
      constructor
      · rw [if_pos several, List.map_map]
        exact List.map_id _
      · intro entry member
        obtain ⟨_, _, rfl⟩ := List.mem_map.mp member
        exact Nat.zero_le _
      · intro entry member β inside
        obtain ⟨_, _, rfl⟩ := List.mem_map.mp member
        cases inside
    · intro same child α owner β
      subst same
      have started := sum_zipIdx (fun α => (group.acceptors.erase α).count β) group.acceptors 0 child
      have uncounted : Call.synchronised (.syncing (group.acceptors.map fun α => (α, [])) : Call N π V) child = [] := by
        rw [Call.synchronised, List.getElem?_map, owner]
        rfl
      rw [if_pos (Nat.zero_le child), Nat.sub_zero, owner, elim_some] at started
      simp only [List.map_map, Function.comp_def, Request.shares, ReplyTo.mk.injEq, true_and, uncounted, List.count_nil]
      exact started.le
  next single =>
    refine begin_exchanging valid idle (by simp) rfl (by simp) (by simp) ?_ ?_
    · intro _
      exact ⟨⟨by rw [if_neg single]; rfl, by simp, by simp⟩, by simp⟩
    · exact fun _ child α _ β => Nat.zero_le _

theorem step_exchanging (valid : Exchanging group p origin before) (kind : action.synchronising)
    (whole : before.unsevered action) (moves : before.step group action = some after) :
    Exchanging group p origin after := by
  cases action with
  | propose _ _ _ | release _ _ | restart _ _ | timeout _ => cases kind
  | sync =>
    simp only [step, System.begin] at moves
    split at moves
    next idle =>
      cases moves
      exact sync_exchanging valid idle
    next => cases moves
  | query =>
    simp only [step, System.begin] at moves
    split at moves
    next idle =>
      cases moves
      refine begin_exchanging valid idle nofun rfl ?_ ?_ (fun _ => trivial) ?_
      · intro entry member κ replyTo
        obtain ⟨_, _, rfl⟩ := List.mem_map.mp member
        cases replyTo
        rfl
      · intro entry member
        obtain ⟨_, _, rfl⟩ := List.mem_map.mp member
        trivial
      · intro _ child α _ β
        simp [query, Request.shares, Call.synchronised, Function.comp_def]
    next => cases moves
  | receiveRequest =>
    obtain ⟨⟨γ, _⟩, taken, rfl⟩ := map_eq_some_iff.mp moves
    exact receiveRequest_exchanging valid taken whole
  | receiveReply =>
    obtain ⟨_, taken, rfl⟩ := map_eq_some_iff.mp moves
    exact receiveReply_exchanging valid taken

theorem quiescent_exchanging (group : AcceptorGroup N) (p : π) (acceptors : N → Acceptor π V) :
    Exchanging group p (quiescent acceptors) (quiescent acceptors) :=
  ⟨nofun, nofun, trivial, fun _ => rfl, fun _ => nofun, fun _ => nofun, fun _ _ => id, fun _ _ _ _ => zero_le _⟩

/-- Nothing is under way for a process that has not called yet, so any moment before the call can serve as the origin. -/
theorem Exchanging.restart (valid : Exchanging group p origin before) (idle : before.calls p = .idle) :
    Exchanging group p before before := by
  refine ⟨?_, ?_, ?_, valid.voteless, valid.asked, valid.answered, fun _ _ => id, ?_⟩
  · intro entry member
    have request := valid.requests entry member
    have asked := valid.asked idle entry member
    obtain ⟨_, message⟩ := entry
    cases message with
    | prepare _ _ _ | syn _ _ _ _ | trim _ => exact request
    | queryDecrees => trivial
    | syncStart κ _ | syncAdvertise κ _ _ | syncRequest κ _ _ | syncResponse κ _ =>
      exact fun own => absurd own (asked κ rfl)
  · intro letter member
    have answered := valid.answered idle letter member
    cases letter.message with
    | syncCompleted => exact fun own => absurd own answered
    | promise _ _ _ | nack _ | ack _ | decrees _ => trivial
  · rw [idle]
    trivial
  · intro child α owner β
    rw [idle_shares valid idle]
    exact zero_le _

/-- When the `sync` of `p` has returned, each acceptor has completed its exchange
with a majority, and each counted acceptor stores what that acceptor stored
before the call, as far as it is not below its first decree. -/
def SyncComplete (group : AcceptorGroup N) (p : π) (before final : System N π V) : Prop :=
  ∀ completed, final.calls p = .synced completed →
    (1 < group.acceptors.length → completed.map Prod.fst = group.acceptors) ∧
    ∀ entry ∈ completed, (entry.1 :: entry.2).Nodup ∧ (∀ β ∈ entry.1 :: entry.2, β ∈ group.acceptors) ∧
      (entry.1 :: entry.2).length = quorum group.acceptors.length ∧
      ∀ β ∈ entry.2, ∀ d, before.Stored entry.1 d → (final.acceptors β).loop.sd ≤ d → final.Stored β d

private theorem Exchanging.distinct (valid : Exchanging group p origin final) (returned : final.calls p = .synced completed)
    (member : entry ∈ completed) :
    (entry.1 :: entry.2).Nodup ∧ ∀ β ∈ entry.1 :: entry.2, β ∈ group.acceptors := by
  have call := valid.call
  rw [returned] at call
  obtain ⟨child, held⟩ := List.mem_iff_getElem?.mp member
  have owner : group.acceptors[child]? = some entry.1 := by
    have first : (completed.map Prod.fst)[child]? = some entry.1 := by rw [List.getElem?_map, held]; rfl
    rw [call.1.owners] at first
    split at first
    next => exact first
    next => cases first
  have bound (β : N) : entry.2.count β ≤ (group.acceptors.erase entry.1).count β := by
    have shares := valid.once child entry.1 owner β
    simp only [System.shares, returned, Call.synchronised, held, elim_some] at shares
    omega
  have others (β : N) (inside : β ∈ entry.2) : β ∈ group.acceptors.erase entry.1 :=
    List.count_pos_iff.mp ((List.count_pos_iff.mpr inside).trans_le (bound β))
  refine ⟨List.nodup_cons.mpr ⟨?_, ?_⟩, ?_⟩
  · intro inside
    exact group.distinct.not_mem_erase (others _ inside)
  · apply List.nodup_iff_count.mpr
    intro β
    exact (bound β).trans (List.nodup_iff_count.mp (group.distinct.erase _) β)
  · intro β inside
    cases inside with
    | head => exact List.mem_of_getElem? owner
    | tail _ counted => exact List.mem_of_mem_erase (others β counted)

/-- In every run of calls to `sync` and `query` in which no advertised interval is
severed, each `sync` that returns has synchronised what was stored when it was called. -/
theorem sync_completes {acceptors : N → Acceptor π V} {final : System N π V}
    (earlier : Run (step group) (fun system action => action.synchronising ∧ system.unsevered action)
      (quiescent acceptors) before)
    (idle : before.calls p = .idle)
    (run : Run (step group) (fun system action => action.synchronising ∧ system.unsevered action) before final) :
    SyncComplete group p before final := by
  have uncalled : Exchanging group p (quiescent acceptors) before := by
    apply earlier.invariant (quiescent_exchanging group p acceptors)
    exact fun _ _ _ valid permitted moves => step_exchanging valid permitted.1 permitted.2 moves
  have valid : Exchanging group p before final := by
    apply run.invariant (uncalled.restart idle)
    exact fun _ _ _ valid permitted moves => step_exchanging valid permitted.1 permitted.2 moves
  intro completed returned
  have call := valid.call
  rw [returned] at call
  obtain ⟨counted, half⟩ := call
  refine ⟨fun several => counted.owners.trans (if_pos several), ?_⟩
  intro entry member
  obtain ⟨distinct, members⟩ := valid.distinct returned member
  refine ⟨distinct, members, ?_, ?_⟩
  · rw [List.length_cons, quorum, le_antisymm (counted.half entry member) (half entry member)]
  · intro β inside d held untrimmed
    exact (counted.owed entry member β inside d held untrimmed).resolve_right id

def twoAcceptors : AcceptorGroup Nat := ⟨[0, 1], by decide⟩

/-- The first acceptor stores decrees 0 to 2 of legislature 0, the second those listed. -/
def unequal (decrees : List DecreeId) (α : Nat) : Acceptor Nat Nat :=
  .start initialDecreeId ⟨.fromList ((if α = 0 then [⟨0, 0⟩, ⟨0, 1⟩, ⟨0, 2⟩] else decrees).map fun d => (d, ⟨⟨0, 0⟩, 7⟩)), none⟩

/-- Process 0 calls `sync`; the exchange of the first acceptor runs to its end, then that of the second. -/
def bothExchanges : List (Action Nat Nat Nat) :=
  [.sync 0, .receiveRequest 0, .receiveRequest 1, .receiveRequest 1, .receiveRequest 1, .receiveReply 0,
    .receiveRequest 0, .receiveRequest 0, .receiveReply 0]

theorem sync_misses_decree : ¬ ∀ (group : AcceptorGroup Nat) (p : Nat) (acceptors : Nat → Acceptor Nat Nat)
    (before final : System Nat Nat Nat),
    Run (step group) (fun _ action => action.synchronising) (quiescent acceptors) before → before.calls p = .idle →
    Run (step group) (fun _ action => action.synchronising) before final → SyncComplete group p before final := by
  intro complete
  obtain ⟨final, run, returned, first, stored⟩ : ∃ final : System Nat Nat Nat,
      Run (step twoAcceptors) (fun _ action => action.synchronising) (quiescent (unequal [⟨0, 1⟩])) final ∧
      final.calls 0 = .synced [(0, [1]), (1, [0])] ∧ (final.acceptors 1).loop.sd = initialDecreeId ∧
      (final.acceptors 1).store.decrees.keys = [⟨0, 0⟩, ⟨0, 1⟩] := exists_run bothExchanges (by decide +kernel)
  have held : ⟨0, 2⟩ ∈ (unequal [⟨0, 1⟩] 0).store.decrees.keys := by decide +kernel
  obtain ⟨_, exchanges⟩ := complete twoAcceptors 0 _ _ final .refl rfl run _ returned
  have synchronised := (exchanges (0, [1]) List.mem_cons_self).2.2.2 1 List.mem_cons_self ⟨0, 2⟩ held (first ▸ by decide)
  rw [Stored, stored] at synchronised
  exact absurd synchronised (by decide)

theorem sync_completes_two : ∃ final : System Nat Nat Nat,
    Run (step twoAcceptors) (fun system action => action.synchronising ∧ system.unsevered action)
      (quiescent (unequal [])) final ∧
    final.calls 0 = .synced [(0, [1]), (1, [0])] ∧ SyncComplete twoAcceptors 0 (quiescent (unequal [])) final :=
  exists_run_and bothExchanges (by decide +kernel) fun _ run _ => sync_completes .refl rfl run

end System
end Halon.Paxos
