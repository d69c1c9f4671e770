import Halon.Paxos.AsyncStore
import Halon.Proofs.PaxosAcceptor
import Mathlib.Data.List.InsertIdx

/-! Promises over the persistent store. A promise accounts for the votes that the
acceptor acknowledges as long as tasks about one decree do not overtake each
other, no copied vote replaces a later one and no update of the map is lost. -/

namespace Halon.Paxos.Async
open Halon.Library OrderedMap
open List hiding after
variable {N π V : Type} [LinearOrder π]

def Quiet : Send N π V → Prop
  | .reply _ (.promise _ _ _) | .reply _ (.ack _) => False
  | _ => True

/-- The decree and the ballot of a message that asks for a promise or a vote. -/
def proposal : Request N π V → Option (DecreeId × BallotId π)
  | .prepare d b _ => some (d, b)
  | .syn d b _ _ => some (d, b)
  | _ => none

/-- The tasks that stem from a request, from the loop or from a callback, and those halfway. -/
inductive Issued (name : N) : Request N π V → Job N π V → Prop where
  | lookup (d : DecreeId) (b : BallotId π) (sender : ReplyTo π) : Issued name (.prepare d b sender)
      (.storeLookup d fun mbs => .send [.reply sender (.promise b name (storedAcks d mbs))])
  | put (d : DecreeId) (b : BallotId π) (sender : ReplyTo π) (x : V) : Issued name (.syn d b sender x)
      (.storePut b (.storeInsert [(d, ⟨b, x⟩)] (.send [.reply sender (.ack ⟨d, b, x⟩)])))
  | vote (d : DecreeId) (b : BallotId π) (sender : ReplyTo π) (x : V) : Issued name (.syn d b sender x)
      (.storeInsert [(d, ⟨b, x⟩)] (.send [.reply sender (.ack ⟨d, b, x⟩)]))
  | trim (d : DecreeId) : Issued name (.trim d) (.storeTrim d)
  | copy (κ : ReplyTo π) (dvs : List (DecreeId × Vote π V)) : Issued name (.syncResponse κ dvs)
      (.storeInsert dvs (.send [.reply κ (.syncCompleted name)]))
  | write (read : Store π V) (update : Issued name request (.storeInsert dvs done)) :
      Issued name request (.storeWrite read.decrees (read.insert dvs).decrees done)
  | cut (read : Store π V) (d : DecreeId) : Issued name (.trim d) (.storeWrite read.decrees (read.trim d).decrees (.send []))
  | list (request : Request N π V) (other : proposal request = none) (done : List (DecreeId × Vote π V) → Job N π V)
      (quiet : ∀ dvs, ∃ messages, done dvs = .send messages ∧ ∀ message ∈ messages, Quiet message) :
      Issued name request (.storeList done)
  | map (request : Request N π V) (other : proposal request = none) (done : Decrees π V → Job N π V)
      (quiet : ∀ m, ∃ messages, done m = .send messages ∧ ∀ message ∈ messages, Quiet message) :
      Issued name request (.storeMap done)

/-- The loop state in which a request that starts a task is handled, and the one it leaves. -/
structure Admitted (before after : Loop π) (request : Request N π V) : Prop where
  ballot : before.b ≤ after.b
  first : before.sd ≤ after.sd
  proposed : ∀ d b, proposal request = some (d, b) → before.sd ≤ d ∧ before.b ≤ b ∧ after.b = b
  trim : ∀ d, request = .trim d → d ≤ after.sd

private theorem admitted_same (loop : Loop π) {request : Request N π V} (other : proposal request = none)
    (trim : ∀ d, request ≠ .trim d) : Admitted loop loop request :=
  ⟨le_rfl, le_rfl, by simp [other], fun d same => absurd same (trim d)⟩

private theorem admitted_proposal {loop : Loop π} {request : Request N π V} {b : BallotId π}
    (untrimmed : ¬ d < loop.sd) (accepted : loop.b ≤ b)
    (same : proposal request = some (d, b)) (trim : ∀ d, request ≠ .trim d) : Admitted loop ⟨loop.sd, b⟩ request := by
  refine ⟨accepted, le_rfl, fun e c other => ?_, fun d same => absurd same (trim d)⟩
  cases same.symm.trans other
  exact ⟨not_lt.mp untrimmed, accepted, rfl⟩

/-- What the loop does with a message: it answers at once, without promise or ack, or it starts a task. -/
theorem handle_cases (name : N) (loop : Loop π) (request : Request N π V) :
    (∃ messages, handle name loop request = (loop, .send messages) ∧ ∀ message ∈ messages, Quiet message) ∨
    ∃ after job, handle name loop request = (after, job) ∧ Issued name request job ∧ Admitted loop after request := by
  cases request with
  | prepare d b sender =>
    simp only [handle]
    split
    next => exact .inl ⟨[], rfl, by simp⟩
    next untrimmed =>
      split
      next accepted => exact .inr ⟨_, _, rfl, .lookup d b sender, admitted_proposal untrimmed accepted rfl (by simp)⟩
      next => exact .inl ⟨_, rfl, by simp [Quiet]⟩
  | syn d b sender x =>
    simp only [handle]
    split
    next => exact .inl ⟨[], rfl, by simp⟩
    next untrimmed =>
      split
      next accepted =>
        have admitted : Admitted loop ⟨loop.sd, b⟩ (.syn d b sender x : Request N π V) :=
          admitted_proposal untrimmed accepted rfl (by simp)
        split
        next => exact .inr ⟨_, _, rfl, .put d b sender x, admitted⟩
        next => exact .inr ⟨_, _, rfl, .vote d b sender x, admitted⟩
      next => exact .inl ⟨_, rfl, by simp [Quiet]⟩
  | trim d =>
    refine .inr ⟨_, _, rfl, .trim d, le_rfl, le_max_right _ _, by simp [proposal], ?_⟩
    rintro _ ⟨⟩
    exact le_max_left _ _
  | syncResponse κ dvs => exact .inr ⟨_, _, rfl, .copy κ dvs, admitted_same loop rfl (by simp)⟩
  | syncStart =>
    refine .inr ⟨_, _, rfl, .list _ rfl _ fun dvs => ⟨_, rfl, ?_⟩, admitted_same loop rfl (by simp)⟩
    intro message member
    obtain ⟨α, _, rfl⟩ := mem_map.mp member
    trivial
  | syncAdvertise =>
    refine .inr ⟨_, _, rfl, .list _ rfl _ fun dvs => ?_, admitted_same loop rfl (by simp)⟩
    simp only
    split
    next => exact ⟨_, rfl, by simp [Quiet]⟩
    next => exact ⟨_, rfl, by simp [Quiet]⟩
  | syncRequest | queryDecrees =>
    exact .inr ⟨_, _, rfl, .map _ rfl _ fun m => ⟨_, rfl, by simp [Quiet]⟩, admitted_same loop rfl (by simp)⟩

def Acked (state : Async N π V) (d : DecreeId) (b : BallotId π) (x : V) : Prop :=
  ∃ request receiver, (request, .reply receiver (.ack ⟨d, b, x⟩)) ∈ state.sent

def Promised (state : Async N π V) (d : DecreeId) (b : BallotId π) (acks : List (Ack π V)) : Prop :=
  ∃ sender receiver name, (.prepare d b sender, .reply receiver (.promise b name acks)) ∈ state.sent

/-- Every vote for the decree that was acknowledged in a ballot below a promise is at most a vote that the promise reports. -/
def PromisesAccount (state : Async N π V) : Prop :=
  ∀ d b c acks x, state.Promised d c acks → state.Acked d b x → b < c → ∃ ack ∈ acks, b ≤ ack.ballot

/-- The store still holds a vote at least as late as each acknowledged one. -/
def Covered (state : Async N π V) (d : DecreeId) : Prop :=
  ∀ b x, state.Acked d b x → ∃ vote, (d, vote) ∈ state.store.decrees ∧ b ≤ vote.ballot

/-- What the handling order of two requests that both have a task pending tells about their ballots. -/
def Precedes : Request N π V → Request N π V → Prop
  | .syn d b _ _, .syn e c _ _ => d = e → b ≤ c
  | .prepare d b _, .syn e c _ _ => d = e → b ≤ c
  | .trim d, .prepare e _ _ => d ≤ e
  | _, _ => True

def waiting (state : Async N π V) : List (Request N π V) := state.pending.map Prod.fst

structure Valid (name : N) (state : Async N π V) : Prop where
  issued : ∀ entry ∈ state.pending, Issued name entry.1 entry.2
  ordered : state.waiting.Pairwise Precedes
  prepared : ∀ {d} {b : BallotId π} {sender}, .prepare d b sender ∈ state.waiting → b ≤ state.loop.b ∧ state.Covered d
  voting : ∀ {d} {b : BallotId π} {sender x}, .syn d b sender x ∈ state.waiting → b ≤ state.loop.b ∧
    (∀ c y, state.Acked d c y → c ≤ b) ∧ ∀ c acks, state.Promised d c acks → c ≤ b
  trimming : ∀ {d}, .trim d ∈ state.waiting → d ≤ state.loop.sd
  acked : ∀ {d} {b : BallotId π} {x}, state.Acked d b x → b ≤ state.loop.b
  promised : ∀ {d} {b : BallotId π} {acks}, state.Promised d b acks → b ≤ state.loop.b
  covered : ∀ {d}, state.loop.sd ≤ d → state.Covered d
  account : state.PromisesAccount

/-- The step must wait for the earlier request: a lookup, or the writing of a vote, for
earlier votes for the decree, the writing of a trimmed map for earlier lookups of what it removes. -/
def blocks : Request N π V → Request N π V × Job N π V → Bool
  | .syn d _ _ _, (.prepare e _ _, _) => d = e
  | .syn d _ _ _, (.syn e _ _ _, .storeWrite _ _ _) => d = e
  | .prepare d _ _, (.trim e, .storeWrite _ _ _) => d < e
  | _, _ => false

/-- A copied vote would replace a stored vote of a later ballot. -/
def lowers (store : Store π V) : Request N π V × Job N π V → Bool
  | (.syncResponse _ dvs, .storeWrite _ _ _) => dvs.any fun entry =>
    match dvs.lookup entry.1, store.decrees.lookup entry.1 with
    | some copy, some vote => decide (copy.ballot < vote.ballot)
    | _, _ => false
  | _ => false

/-- The map has been written since the task read it. -/
def stale [DecidableEq V] (store : Store π V) : Job N π V → Bool
  | .storeWrite read _ _ => read ≠ store.decrees
  | _ => false

/-- No task overtakes one it depends on, no copied vote lowers a stored one and no update is lost. -/
def orderly [DecidableEq V] (state : Async N π V) : Event N π V → Bool
  | .receive _ => true
  | .work index => (state.pending[index]?).all fun entry =>
    (state.pending.take index).all (fun earlier => !blocks earlier.1 entry) &&
      !lowers state.store entry && !stale state.store entry.2

omit [LinearOrder π] in
private theorem acked_append {state after : Async N π V} {messages : List (Send N π V)}
    (sent : after.sent = state.sent ++ messages.map fun message => (request, message)) :
    after.Acked d b x ↔ state.Acked d b x ∨ ∃ receiver, .reply receiver (.ack ⟨d, b, x⟩) ∈ messages := by
  simp [Acked, sent, exists_or]

omit [LinearOrder π] in
private theorem promised_append {state after : Async N π V} {messages : List (Send N π V)}
    (sent : after.sent = state.sent ++ messages.map fun message => (request, message)) :
    after.Promised d b acks ↔ state.Promised d b acks ∨
      ∃ sender receiver name, .reply receiver (.promise b name acks) ∈ messages ∧ request = .prepare d b sender := by
  simp [Promised, sent, exists_or]

omit [LinearOrder π] in
private theorem quiet_sent {state : Async N π V} (after : Async N π V) {messages : List (Send N π V)}
    (sent : after.sent = state.sent ++ messages.map fun message => (request, message))
    (quiet : ∀ message ∈ messages, Quiet message) :
    (∀ d b x, after.Acked d b x ↔ state.Acked d b x) ∧ ∀ d b acks, after.Promised d b acks ↔ state.Promised d b acks := by
  refine ⟨fun d b x => (acked_append sent).trans (or_iff_left ?_), fun d b acks => (promised_append sent).trans (or_iff_left ?_)⟩
  · exact fun new => new.elim fun _ member => quiet _ member
  · rintro ⟨_, _, _, member, _⟩
    exact quiet _ member

variable {state : Async N π V}

private theorem advance_preserves {after : Async N π V} (valid : state.Valid name) (loop : after.loop = state.loop)
    (acked : ∀ {d b x}, after.Acked d b x → state.Acked d b x ∨ b ≤ state.loop.b ∧
      (∀ c sender y, .syn d c sender y ∈ after.waiting → b ≤ c) ∧ ∀ c acks, state.Promised d c acks → c ≤ b)
    (promised : ∀ {d b acks}, after.Promised d b acks → state.Promised d b acks ∨ b ≤ state.loop.b ∧
      (∀ c sender y, .syn d c sender y ∈ after.waiting → b ≤ c) ∧ ∀ c x, after.Acked d c x → ∃ ack ∈ acks, c ≤ ack.ballot)
    (issued : ∀ entry ∈ after.pending, Issued name entry.1 entry.2) (requests : after.waiting.Sublist state.waiting)
    (covered : ∀ d, state.Covered d → (state.loop.sd ≤ d ∨ ∃ b sender, .prepare d b sender ∈ after.waiting) → after.Covered d) :
    after.Valid name where
  issued := issued
  ordered := valid.ordered.sublist requests
  prepared := by
    intro d b sender member
    obtain ⟨bound, before⟩ := valid.prepared (requests.subset member)
    exact ⟨loop ▸ bound, covered d before (.inr ⟨b, sender, member⟩)⟩
  voting := by
    intro d b sender x member
    obtain ⟨bound, votes, promises⟩ := valid.voting (requests.subset member)
    refine ⟨loop ▸ bound, fun c y vote => ?_, fun c acks promise => ?_⟩
    · exact (acked vote).elim (votes c y) fun new => new.2.1 b sender x member
    · exact (promised promise).elim (promises c acks) fun new => new.2.1 b sender x member
  trimming := fun member => loop ▸ valid.trimming (requests.subset member)
  acked := fun vote => loop ▸ (acked vote).elim valid.acked And.left
  promised := fun promise => loop ▸ (promised promise).elim valid.promised And.left
  covered := by
    intro d untrimmed
    rw [loop] at untrimmed
    exact covered d (valid.covered untrimmed) (.inl untrimmed)
  account := by
    intro d b c acks x promise vote lower
    rcases promised promise with old | new
    · rcases acked vote with earlier | ⟨_, _, above⟩
      · exact valid.account d b c acks x old earlier lower
      · exact absurd (above c acks old) (not_le.mpr lower)
    · exact new.2.2 b x vote

omit [LinearOrder π] in
theorem submit_issued (state : Async N π V) (loop : Loop π) (issued : Issued name request job) :
    state.submit loop request job = { state with loop := loop, pending := state.pending ++ [(request, job)] } := by
  cases issued <;> rfl

omit [LinearOrder π] in
theorem finish_issued (state : Async N π V) (store : Store π V) (issued : Issued name request job) :
    state.finish index store request job = { state with store := store, pending := state.pending.set index (request, job) } := by
  cases issued <;> rfl

private theorem start_preserves {name} (valid : state.Valid name) {request job loop}
    (issued : Issued name request job) (admitted : Admitted state.loop loop request) :
    (state.submit loop request job).Valid name := by
  rw [submit_issued state loop issued]
  have waits {other : Request N π V}
      (member : other ∈ waiting { state with loop := loop, pending := state.pending ++ [(request, job)] }) :
      other ∈ state.waiting ∨ other = request := by
    rw [waiting, map_append, mem_append] at member
    exact member.imp id mem_singleton.mp
  constructor
  · intro entry member
    rcases mem_append.mp member with old | new
    · exact valid.issued entry old
    · cases mem_singleton.mp new
      exact issued
  · rw [waiting, map_append, pairwise_append]
    refine ⟨valid.ordered, pairwise_singleton _ _, ?_⟩
    intro first old last new
    cases mem_singleton.mp new
    unfold Precedes
    split
    next =>
      intro _
      exact WithBot.coe_le_coe.mp ((valid.voting old).1.trans (admitted.proposed _ _ (by rw [‹request = _›]; rfl)).2.1)
    next =>
      intro _
      exact WithBot.coe_le_coe.mp ((valid.prepared old).1.trans (admitted.proposed _ _ (by rw [‹request = _›]; rfl)).2.1)
    next => exact (valid.trimming old).trans (admitted.proposed _ _ (by rw [‹request = _›]; rfl)).1
    next => trivial
  · intro d b sender member
    rcases waits member with old | rfl
    · exact ⟨(valid.prepared old).1.trans admitted.ballot, (valid.prepared old).2⟩
    · obtain ⟨untrimmed, _, reached⟩ := admitted.proposed d b rfl
      exact ⟨reached.ge, valid.covered untrimmed⟩
  · intro d b sender x member
    rcases waits member with old | rfl
    · exact ⟨(valid.voting old).1.trans admitted.ballot, (valid.voting old).2⟩
    · obtain ⟨_, accepted, reached⟩ := admitted.proposed d b rfl
      refine ⟨reached.ge, ?_, ?_⟩
      · exact fun c y vote => WithBot.coe_le_coe.mp ((valid.acked vote).trans accepted)
      · exact fun c acks promise => WithBot.coe_le_coe.mp ((valid.promised promise).trans accepted)
  · intro d member
    rcases waits member with old | rfl
    · exact (valid.trimming old).trans admitted.first
    · exact admitted.trim d rfl
  · exact fun vote => (valid.acked vote).trans admitted.ballot
  · exact fun promise => (valid.promised promise).trans admitted.ballot
  · exact fun untrimmed => valid.covered (admitted.first.trans untrimmed)
  · exact valid.account

theorem receive_preserves (valid : state.Valid name) (request : Request N π V)
    (moves : state.step name (.receive request) = some after) : after.Valid name := by
  rcases handle_cases name state.loop request with ⟨messages, handled, quiet⟩ | ⟨loop, job, handled, issued, admitted⟩
  · simp only [step, handled] at moves
    cases moves
    have sent := quiet_sent (state.submit state.loop request (.send messages)) rfl quiet
    refine advance_preserves valid rfl (fun vote => .inl ((sent.1 _ _ _).mp vote))
      (fun promise => .inl ((sent.2 _ _ _).mp promise))
      valid.issued (List.Sublist.refl _) ?_
    intro d covered _ b x vote
    exact covered b x ((sent.1 d b x).mp vote)
  · simp only [step, handled] at moves
    cases moves
    exact start_preserves valid issued admitted

section
variable {name : N} {state : Async N π V} {index : Nat} {request : Request N π V} {job : Job N π V}

private theorem remaining (valid : state.Valid name) (found : state.pending[index]? = some (request, job))
    (member : other ∈ state.waiting.eraseIdx index) :
    other ∈ state.waiting.take index ∨ Precedes request other := by
  obtain ⟨_, same⟩ := List.getElem?_eq_some_iff.mp found
  have bound : index < state.waiting.length := by rwa [waiting, length_map]
  have here : state.waiting.get ⟨index, bound⟩ = request := by simp [waiting, same]
  rw [eraseIdx_eq_take_drop_succ, mem_append] at member
  refine member.imp id fun later => ?_
  have ordered := valid.ordered.drop (i := index)
  rw [drop_eq_getElem_cons bound] at ordered
  have after := (pairwise_cons.mp ordered).1 other later
  exact here ▸ after

omit [LinearOrder π] in
theorem waiting_set {after : Async N π V} (found : state.pending[index]? = some (request, job)) {next : Job N π V}
    (pending : after.pending = state.pending.set index (request, next)) : after.waiting = state.waiting := by
  rw [waiting, pending, map_set, waiting]
  apply ext_getElem?
  intro other
  rw [getElem?_set]
  split
  next equal =>
    subst equal
    obtain ⟨inside, here⟩ := List.getElem?_eq_some_iff.mp found
    simp [inside, here]
  next => rfl

omit [LinearOrder π] in
theorem waiting_eraseIdx {after : Async N π V} (pending : after.pending = state.pending.eraseIdx index) :
    after.waiting = state.waiting.eraseIdx index := by
  rw [waiting, pending]
  exact (eraseIdx_map _ _ _).symm

variable {after : Async N π V} {d : DecreeId} {b : BallotId π} {sender : ReplyTo π}

variable (valid : state.Valid name)
include valid

private theorem done_issued (pending : after.pending = state.pending.eraseIdx index) :
    (∀ entry ∈ after.pending, Issued name entry.1 entry.2) ∧ after.waiting.Sublist state.waiting := by
  constructor
  · intro entry member
    rw [pending] at member
    exact valid.issued entry (mem_of_mem_eraseIdx member)
  · rw [waiting_eraseIdx pending]
    exact eraseIdx_sublist _ _

private theorem behind (found : state.pending[index]? = some (request, job))
    (first : ∀ c mailbox x, .syn d c mailbox x ∉ state.waiting.take index)
    (pending : after.pending = state.pending.eraseIdx index)
    (precedes : ∀ {c mailbox x}, Precedes request (.syn d c mailbox x) → b ≤ c) :
    ∀ c mailbox x, .syn d c mailbox x ∈ after.waiting → b ≤ c := by
  intro c mailbox x member
  rcases remaining valid found (waiting_eraseIdx pending ▸ member) with earlier | later
  · exact absurd earlier (first c mailbox x)
  · exact precedes later

private theorem lookup_preserves (found : state.pending[index]? = some (.prepare d b sender, job))
    (first : ∀ c mailbox x, .syn d c mailbox x ∉ state.waiting.take index) (loop : after.loop = state.loop)
    (store : after.store = state.store) (pending : after.pending = state.pending.eraseIdx index)
    (sent : after.sent = state.sent ++ [.reply sender (.promise b name (storedAcks d (state.store.decrees.lookup d)))].map
      fun message => (.prepare d b sender, message)) : after.Valid name := by
  obtain ⟨issued, requests⟩ := done_issued valid pending
  have acked {e : DecreeId} {c : BallotId π} {x : V} (vote : after.Acked e c x) : state.Acked e c x := by
    rcases (acked_append sent).mp vote with old | ⟨_, new⟩
    · exact old
    · cases mem_singleton.mp new
  obtain ⟨bound, stored⟩ := valid.prepared (mem_map_of_mem (mem_of_getElem? found))
  refine advance_preserves valid loop (fun vote => .inl (acked vote)) (fun promise => ?_) issued requests ?_
  · rcases (promised_append sent).mp promise with old | ⟨_, _, _, new, same⟩
    · exact .inl old
    · cases mem_singleton.mp new
      cases same
      refine .inr ⟨bound, behind valid found first pending fun precedes => precedes rfl, fun c x vote => ?_⟩
      obtain ⟨_, member, above⟩ := stored c x (acked vote)
      rw [lookup_eq_some.mpr member]
      exact ⟨_, mem_singleton_self _, above⟩
  · intro e before _ c x vote
    rw [store]
    exact before c x (acked vote)

private theorem vote_preserves (found : state.pending[index]? = some (.syn d b sender x, job))
    (first : ∀ c mailbox y, .syn d c mailbox y ∉ state.waiting.take index) (loop : after.loop = state.loop)
    (store : after.store = state.store.insert [(d, ⟨b, x⟩)]) (pending : after.pending = state.pending.eraseIdx index)
    (sent : after.sent = state.sent ++ [.reply sender (.ack ⟨d, b, x⟩)].map fun message => (.syn d b sender x, message)) :
    after.Valid name := by
  obtain ⟨issued, requests⟩ := done_issued valid pending
  obtain ⟨bound, votes, promises⟩ := valid.voting (mem_map_of_mem (mem_of_getElem? found))
  have acked {e : DecreeId} {c : BallotId π} {y : V} (vote : after.Acked e c y) : state.Acked e c y ∨ e = d ∧ c = b := by
    rcases (acked_append sent).mp vote with old | ⟨_, new⟩
    · exact .inl old
    · cases mem_singleton.mp new
      exact .inr ⟨rfl, rfl⟩
  refine advance_preserves valid loop (fun vote => ?_) (fun promise => ?_) issued requests ?_
  · rcases acked vote with old | ⟨rfl, rfl⟩
    · exact .inl old
    · exact .inr ⟨bound, behind valid found first pending fun precedes => precedes rfl, promises⟩
  · rcases (promised_append sent).mp promise with old | ⟨_, _, _, _, same⟩
    · exact .inl old
    · cases same
  · intro e before _ c y vote
    have decrees : after.store.decrees = state.store.decrees.insert d ⟨b, x⟩ := congrArg Store.decrees store
    rw [decrees]
    by_cases same : e = d
    · subst same
      refine ⟨⟨b, x⟩, mem_insert.mpr (.inl rfl), ?_⟩
      rcases acked vote with old | ⟨_, rfl⟩
      · exact votes c y old
      · exact le_rfl
    · rcases acked vote with old | ⟨equal, _⟩
      · obtain ⟨held, member, above⟩ := before c y old
        exact ⟨held, mem_insert.mpr (.inr ⟨member, same⟩), above⟩
      · exact absurd equal same

private theorem quiet_preserves {messages} (quiet : ∀ message ∈ messages, Quiet message) {store}
    (kept : ∀ d b vote, (state.loop.sd ≤ d ∨ ∃ c sender, .prepare d c sender ∈ state.waiting.eraseIdx index) →
      (d, vote) ∈ state.store.decrees → b ≤ vote.ballot → ∃ later, (d, later) ∈ store.decrees ∧ b ≤ later.ballot) :
    (state.finish index store request (.send messages)).Valid name := by
  have sent := quiet_sent (state.finish index store request (.send messages)) rfl quiet
  have requests : (state.finish index store request (.send messages)).waiting = state.waiting.eraseIdx index :=
    waiting_eraseIdx rfl
  obtain ⟨issued, fewer⟩ := done_issued valid (rfl : (state.finish index store request (.send messages)).pending = _)
  refine advance_preserves valid rfl (fun vote => .inl ((sent.1 _ _ _).mp vote)) (fun promise => .inl ((sent.2 _ _ _).mp promise))
    issued fewer ?_
  intro d covered needed b x vote
  obtain ⟨held, member, above⟩ := covered b x ((sent.1 d b x).mp vote)
  rw [requests] at needed
  exact kept d b held needed member above

private theorem goes_on (found : state.pending[index]? = some (request, job)) (next : Job N π V)
    (issued : Issued name request next) (store : Store π V) (same : store.decrees = state.store.decrees) :
    Valid name { state with store := store, pending := state.pending.set index (request, next) } := by
  refine advance_preserves valid rfl .inl .inl ?_ ?_ fun d covered _ b x vote => same ▸ covered b x vote
  · intro entry member
    rcases mem_or_eq_of_mem_set member with old | rfl
    · exact valid.issued entry old
    · exact issued
  · have requests : waiting { state with store := store, pending := state.pending.set index (request, next) } = state.waiting :=
      waiting_set found rfl
    exact requests ▸ List.Sublist.refl _

private theorem trim_preserves (found : state.pending[index]? = some (.trim d, job))
    (first : ∀ e c mailbox, .prepare e c mailbox ∈ state.waiting.take index → d ≤ e) :
    (state.finish index (state.store.trim d) (.trim d) (.send [])).Valid name := by
  refine quiet_preserves valid (by simp) ?_
  intro e b vote needed member above
  refine ⟨vote, Store.mem_trim.mpr ⟨member, ?_⟩, above⟩
  rcases needed with untrimmed | ⟨c, mailbox, waits⟩
  · exact (valid.trimming (mem_map_of_mem (mem_of_getElem? found))).trans untrimmed
  · rcases remaining valid found waits with earlier | later
    · exact first e c mailbox earlier
    · exact later

private theorem copy_preserves (raises : ∀ entry ∈ dvs, ∀ copy vote, dvs.lookup entry.1 = some copy →
    state.store.decrees.lookup entry.1 = some vote →
      vote.ballot ≤ copy.ballot) :
    (state.finish index (state.store.insert dvs) (.syncResponse κ dvs) (.send [.reply κ (.syncCompleted name)])).Valid name := by
  refine quiet_preserves valid (by simp [Quiet]) ?_
  intro d b vote _ member above
  have before := lookup_eq_some.mpr member
  cases listed : dvs.lookup d with
  | none =>
    refine ⟨vote, lookup_eq_some.mp ?_, above⟩
    rw [Store.insert, lookup_insertAll, listed, before]
    rfl
  | some copy =>
    refine ⟨copy, lookup_eq_some.mp ?_, above.trans ?_⟩
    · rw [Store.insert, lookup_insertAll, listed]
      rfl
    · obtain ⟨l₁, l₂, rfl, _⟩ := lookup_eq_some_iff.mp listed
      exact raises (d, copy) (by simp) copy vote listed before

theorem work_preserves [DecidableEq V] (permitted : state.orderly (.work index))
    (moves : state.step name (.work index) = some after) :
    after.Valid name := by
  obtain ⟨⟨request, job⟩, found, rfl⟩ := Option.map_eq_some_iff.mp moves
  simp only [orderly, found, Option.all_some, Bool.and_eq_true, all_eq_true, Bool.not_eq_true'] at permitted
  obtain ⟨⟨free, raises⟩, fresh⟩ := permitted
  have unblocked {earlier : Request N π V} (member : earlier ∈ state.waiting.take index) :
      blocks earlier (request, job) = false := by
    rw [waiting, ← map_take] at member
    obtain ⟨entry, inside, rfl⟩ := mem_map.mp member
    exact free entry inside
  cases valid.issued _ (mem_of_getElem? found) with
  | lookup =>
    refine lookup_preserves valid found ?_ rfl rfl rfl rfl
    intro c mailbox x member
    have free := unblocked member
    simp [blocks] at free
  | put d b sender x => exact goes_on valid found _ (.vote d b sender x) { state.store with value := some b } rfl
  | vote d b sender x => exact goes_on valid found _ (.write state.store (.vote d b sender x)) state.store rfl
  | copy κ dvs => exact goes_on valid found _ (.write state.store (.copy κ dvs)) state.store rfl
  | trim d => exact goes_on valid found _ (.cut state.store d) state.store rfl
  | cut read d =>
    have same : read.decrees = state.store.decrees := by simpa [stale] using fresh
    simp only [Store.perform, Store.trim, same]
    refine trim_preserves valid found ?_
    intro e c mailbox member
    exact not_lt.mp (of_decide_eq_false (unblocked member))
  | write read update =>
    have same : read.decrees = state.store.decrees := by simpa [stale] using fresh
    simp only [Store.perform, Store.insert, same]
    cases update with
    | vote =>
      refine vote_preserves valid found ?_ rfl rfl rfl rfl
      intro c mailbox y member
      have free := unblocked member
      simp [blocks] at free
    | copy κ dvs =>
      refine copy_preserves valid ?_
      intro entry member copy vote listed before
      have kept := any_eq_false.mp raises entry member
      simp only [listed, before, decide_eq_true_eq, not_lt] at kept
      exact kept
  | list _ _ done quiet =>
    obtain ⟨_, same, silent⟩ := quiet state.store.decrees.entries
    simp only [Store.perform, same]
    exact quiet_preserves valid silent fun d b vote _ member above => ⟨vote, member, above⟩
  | map _ _ done quiet =>
    obtain ⟨_, same, silent⟩ := quiet state.store.decrees
    simp only [Store.perform, same]
    exact quiet_preserves valid silent fun d b vote _ member above => ⟨vote, member, above⟩

end

theorem start_valid (name : N) (startDecree : DecreeId) (store : Store π V) :
    (start startDecree store : Async N π V).Valid name := by
  have unsent {d : DecreeId} {b : BallotId π} {x : V} : ¬ (start startDecree store : Async N π V).Acked d b x := by
    rintro ⟨_, _, member⟩
    cases member
  have unpromised {d : DecreeId} {b : BallotId π} {acks : List (Ack π V)} :
      ¬ (start startDecree store : Async N π V).Promised d b acks := by
    rintro ⟨_, _, _, member⟩
    cases member
  refine ⟨nofun, .nil, ?_, ?_, ?_, ?_, ?_, ?_, ?_⟩
  · exact nofun
  · exact nofun
  · exact nofun
  · exact fun vote => absurd vote unsent
  · exact fun promise => absurd promise unpromised
  · exact fun _ b x vote => absurd vote unsent
  · exact fun d b c acks x promise => absurd promise unpromised

/-- In every run over the persistent store in which no task overtakes one it
depends on, no copied vote lowers a stored one and no update of the map is lost,
promises account for all acks. -/
theorem promises_account [DecidableEq V] {name : N} {startDecree : DecreeId} {store : Store π V} {final : Async N π V}
    (run : Run (step name) (fun state event => state.orderly event) (start startDecree store) final) :
    final.PromisesAccount := by
  have valid : final.Valid name := by
    refine run.invariant (start_valid name startDecree store) ?_
    intro before event after valid permitted moves
    cases event with
    | receive request => exact receive_preserves valid request moves
    | work => exact work_preserves valid permitted moves
  exact valid.account

/-- The lookup for a prepare in proposal 1 overtakes the vote in proposal 0 that
was accepted before it: the promise reports nothing, and the vote is still acknowledged. -/
def overtaken : List (Event Nat Nat Nat) :=
  [.receive (.syn ⟨0, 0⟩ ⟨0, 0⟩ ⟨0, 0⟩ 7), .receive (.prepare ⟨0, 0⟩ ⟨1, 1⟩ ⟨1, 0⟩), .work 1, .work 0, .work 0, .work 0]

theorem promise_misses_vote : ¬ ∀ (name : Nat) (startDecree : DecreeId) (store : Store Nat Nat) (final : Async Nat Nat Nat),
    Run (step name) (fun _ _ => True) (start startDecree store) final → final.PromisesAccount := by
  intro account
  obtain ⟨final, run, sent⟩ : ∃ final : Async Nat Nat Nat, Run (step 0) (fun _ _ => True) (start initialDecreeId .empty) final ∧
      final.sent = [(.prepare ⟨0, 0⟩ ⟨1, 1⟩ ⟨1, 0⟩, .reply ⟨1, 0⟩ (.promise ⟨1, 1⟩ 0 [])),
        (.syn ⟨0, 0⟩ ⟨0, 0⟩ ⟨0, 0⟩ 7, .reply ⟨0, 0⟩ (.ack ⟨⟨0, 0⟩, ⟨0, 0⟩, 7⟩))] := exists_run overtaken (by decide)
  obtain ⟨ack, member, _⟩ := account 0 _ _ final run ⟨0, 0⟩ ⟨0, 0⟩ ⟨1, 1⟩ [] 7
    ⟨⟨1, 0⟩, ⟨1, 0⟩, 0, sent ▸ mem_cons_self⟩ ⟨_, ⟨0, 0⟩, sent ▸ mem_cons_of_mem _ mem_cons_self⟩ (by decide)
  cases member

theorem promise_reports_vote : ∃ final : Async Nat Nat Nat,
    Run (step 0) (fun state event => state.orderly event) (start initialDecreeId .empty) final ∧
    final.Promised ⟨0, 0⟩ ⟨1, 1⟩ [⟨⟨0, 0⟩, ⟨0, 0⟩, 7⟩] ∧ final.Acked ⟨0, 0⟩ ⟨0, 0⟩ 7 ∧ final.PromisesAccount := by
  obtain ⟨final, run, sent⟩ : ∃ final : Async Nat Nat Nat,
      Run (step 0) (fun state event => state.orderly event) (start initialDecreeId .empty) final ∧
      final.sent = [(.syn ⟨0, 0⟩ ⟨0, 0⟩ ⟨0, 0⟩ 7, .reply ⟨0, 0⟩ (.ack ⟨⟨0, 0⟩, ⟨0, 0⟩, 7⟩)),
        (.prepare ⟨0, 0⟩ ⟨1, 1⟩ ⟨1, 0⟩, .reply ⟨1, 0⟩ (.promise ⟨1, 1⟩ 0 [⟨⟨0, 0⟩, ⟨0, 0⟩, 7⟩]))] :=
    exists_run [.receive (.syn ⟨0, 0⟩ ⟨0, 0⟩ ⟨0, 0⟩ 7), .receive (.prepare ⟨0, 0⟩ ⟨1, 1⟩ ⟨1, 0⟩), .work 0, .work 0, .work 0,
      .work 0] (by decide)
  exact ⟨final, run, ⟨⟨1, 0⟩, ⟨1, 0⟩, 0, sent ▸ mem_cons_of_mem _ mem_cons_self⟩,
    ⟨_, ⟨0, 0⟩, sent ▸ mem_cons_self⟩, promises_account run⟩

end Halon.Paxos.Async
