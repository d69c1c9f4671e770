import Halon.Proofs.PaxosAsync
import Mathlib.Data.List.Induction
import Mathlib.Data.List.Perm.Basic

/-! Crash recovery of an acceptor. A promise never saves the ballot, and a vote saves it
only when it raises it. With ballots saved in order, the recovered ballot is high enough
as long as each prepare that raises the ballot is followed by a vote that raises it further. -/

namespace Halon.Paxos
open Halon.Library
open List hiding after
open Async (proposal Issued)
open Acceptor (restored)
variable {N π V : Type} [LinearOrder π]

/-- A run up to a crash: the acceptor, the messages it handled and the ballots in the order in which they were saved. -/
structure Session (N π V : Type) where
  state : Async N π V
  received : List (Request N π V)
  saved : List (BallotId π)

namespace Job

def saves : Job N π V → List (BallotId π)
  | .storePut b _ => [b]
  | _ => []

def writes : Job N π V → Bool
  | .storePut _ _ | .storeInsert _ _ | .storeWrite _ _ _ | .storeTrim _ => true
  | _ => false

end Job

/-- The ballot in which the message is a promise or an ack. -/
def Send.answers : Send N π V → Option (BallotId π)
  | .reply _ (.promise b _ _) => some b
  | .reply _ (.ack vote) => some vote.ballot
  | _ => none

namespace Session

def start (startDecree : DecreeId) (store : Store π V) : Session N π V := ⟨.start startDecree store, [], []⟩

def step (name : N) (session : Session N π V) (event : Async.Event N π V) : Option (Session N π V) :=
  (session.state.step name event).map fun state =>
    match event with
    | .receive request => { session with state := state, received := session.received ++ [request] }
    | .work index => { session with
        state := state
        saved := session.saved ++ (session.state.pending[index]?.elim [] fun entry => entry.2.saves) }

def voting : Async.Event N π V → Bool
  | .receive (.prepare _ _ _) | .receive (.syn _ _ _ _) | .work _ => true
  | _ => false

/-- No ballot is saved while that of an earlier message waits to be saved. -/
def inOrder (session : Session N π V) : Async.Event N π V → Bool
  | .receive _ => true
  | .work index => (session.state.pending[index]?).all fun entry =>
    entry.2.saves.isEmpty || (session.state.pending.take index).all fun earlier => earlier.2.saves.isEmpty

def Answered (session : Session N π V) (b : BallotId π) : Prop := ∃ entry ∈ session.state.sent, entry.2.answers = some b

def Settled (session : Session N π V) : Prop := ∀ entry ∈ session.state.pending, entry.2.writes = false

def recovered (session : Session N π V) (startDecree : DecreeId) : Lifted (BallotId π) :=
  (Acceptor.start startDecree session.state.store).loop.b

def Recovers (session : Session N π V) (startDecree : DecreeId) : Prop :=
  ∀ b, session.Answered b → b ≤ session.recovered startDecree

/-- The highest ballot so far, after a message. Messages about trimmed decrees do not count. -/
def raised (startDecree : DecreeId) (top : Lifted (BallotId π)) (request : Request N π V) : Lifted (BallotId π) :=
  match proposal request with
  | some (d, b) => if startDecree ≤ d then max top b else top
  | none => top

def reach (startDecree : DecreeId) (found : Lifted (BallotId π)) (received : List (Request N π V)) : Lifted (BallotId π) :=
  received.foldl (raised startDecree) found

def Raises (startDecree : DecreeId) (found : Lifted (BallotId π)) (before : List (Request N π V))
    (request : Request N π V) : Prop :=
  reach startDecree found before < reach startDecree found (before ++ [request])

/-- Each prepare that raises the ballot is followed by a vote that raises it further. -/
def Outvoted (startDecree : DecreeId) (found : Lifted (BallotId π)) (received : List (Request N π V)) : Prop :=
  ∀ before d b sender after, received = before ++ .prepare d b sender :: after →
    Raises startDecree found before (.prepare d b sender) →
    ∃ middle e c receiver x rest, after = middle ++ .syn e c receiver x :: rest ∧
      Raises startDecree found (before ++ .prepare d b sender :: middle) (.syn e c receiver x)

section messages
variable {startDecree : DecreeId}

/-- The ballot that a message makes the acceptor save: that of a vote which raises the ballot. -/
def votes (startDecree : DecreeId) (top : Lifted (BallotId π)) : Request N π V → List (BallotId π)
  | .syn d b _ _ => if startDecree ≤ d ∧ top < b then [b] else []
  | _ => []

def allVotes (startDecree : DecreeId) : Lifted (BallotId π) → List (Request N π V) → List (BallotId π)
  | _, [] => []
  | top, request :: rest => votes startDecree top request ++ allVotes startDecree (raised startDecree top request) rest

theorem reach_append (startDecree : DecreeId) (found : Lifted (BallotId π)) (received : List (Request N π V))
    (request : Request N π V) :
    reach startDecree found (received ++ [request]) = raised startDecree (reach startDecree found received) request := by
  simp [reach]

theorem allVotes_append (found : Lifted (BallotId π)) (received : List (Request N π V)) (request : Request N π V) :
    allVotes startDecree found (received ++ [request]) =
      allVotes startDecree found received ++ votes startDecree (reach startDecree found received) request := by
  induction received generalizing found with
  | nil => simp [allVotes, reach]
  | cons first rest ih => simp only [cons_append, allVotes, ih, append_assoc, reach, foldl_cons]

theorem raised_cases (startDecree : DecreeId) (top : Lifted (BallotId π)) (request : Request N π V) :
    raised startDecree top request = top ∧ votes startDecree top request = [] ∨
    (∃ d b sender, request = .prepare d b sender) ∧ top < raised startDecree top request ∧ votes startDecree top request = [] ∨
    ∃ d b sender x, request = .syn d b sender x ∧ top < b ∧ raised startDecree top request = b ∧
      votes startDecree top request = [b] := by
  cases request with
  | prepare d b sender =>
    by_cases higher : startDecree ≤ d ∧ top < b
    · exact .inr (.inl ⟨⟨d, b, sender, rfl⟩, by simp [raised, proposal, higher], rfl⟩)
    · refine .inl ⟨?_, rfl⟩
      simp only [raised, proposal]
      split
      next untrimmed => exact max_eq_left (not_lt.mp fun above => higher ⟨untrimmed, above⟩)
      next => rfl
  | syn d b sender x =>
    by_cases higher : startDecree ≤ d ∧ top < b
    · exact .inr (.inr ⟨d, b, sender, x, rfl, higher.2, by simp [raised, proposal, higher.1, higher.2.le], if_pos higher⟩)
    · refine .inl ⟨?_, if_neg higher⟩
      simp only [raised, proposal]
      split
      next untrimmed => exact max_eq_left (not_lt.mp fun above => higher ⟨untrimmed, above⟩)
      next => rfl
  | _ => exact .inl ⟨rfl, rfl⟩

theorem le_raised (startDecree : DecreeId) (top : Lifted (BallotId π)) (request : Request N π V) :
    top ≤ raised startDecree top request := by
  rcases raised_cases startDecree top request with ⟨same, _⟩ | ⟨_, above, _⟩ | ⟨d, b, sender, x, _, above, same, _⟩
  · exact same.ge
  · exact above.le
  · exact same ▸ above.le

variable {found : Lifted (BallotId π)} {received : List (Request N π V)}

omit [LinearOrder π] in
private theorem append_cases (same : received ++ [request] = before ++ first :: after) :
    (received = before ∧ request = first ∧ after = []) ∨
      ∃ inner, received = before ++ first :: inner ∧ after = inner ++ [request] := by
  rcases eq_nil_or_concat' after with rfl | ⟨inner, last, rfl⟩
  · obtain ⟨front, back⟩ := append_inj' same rfl
    exact .inl ⟨front, singleton_inj.mp back, rfl⟩
  · rw [← cons_append, ← append_assoc] at same
    obtain ⟨front, back⟩ := append_inj' same rfl
    exact .inr ⟨inner, front, back ▸ rfl⟩

theorem outvoted_append_same (level : ¬ Raises startDecree found received request) :
    Outvoted startDecree found (received ++ [request]) ↔ Outvoted startDecree found received := by
  constructor
  · intro outvoted before d b sender after same raises
    obtain ⟨middle, e, c, receiver, x, rest, split, further⟩ :=
      outvoted before d b sender (after ++ [request]) (by simp [same]) raises
    rcases append_cases split with ⟨rfl, rfl, _⟩ | ⟨inner, rfl, _⟩
    · exact absurd (same ▸ further) level
    · exact ⟨middle, e, c, receiver, x, inner, rfl, further⟩
  · intro outvoted before d b sender after same raises
    rcases append_cases same with ⟨rfl, rfl, _⟩ | ⟨inner, split, rfl⟩
    · exact absurd raises level
    · obtain ⟨middle, e, c, receiver, x, rest, rfl, further⟩ := outvoted before d b sender inner split raises
      exact ⟨middle, e, c, receiver, x, rest ++ [request], by simp, further⟩

/-- The ballot saved last is the highest one exactly when each prepare that raises the ballot is outvoted. -/
theorem outvoted_iff (startDecree : DecreeId) (found : Option (BallotId π)) (received : List (Request N π V)) :
    restored found ≤ restored ((allVotes startDecree (restored found) received).getLast?.or found) ∧
    restored ((allVotes startDecree (restored found) received).getLast?.or found) ≤ reach startDecree (restored found) received ∧
    (Outvoted startDecree (restored found) received ↔
      restored ((allVotes startDecree (restored found) received).getLast?.or found) = reach startDecree
      (restored found) received) := by
  induction received using reverseRecOn with
  | nil => exact ⟨le_rfl, le_rfl, fun _ => rfl, fun _ before d b sender after same => by simp at same⟩
  | append_singleton received request ih =>
    obtain ⟨above, below, exact_⟩ := ih
    have top := reach_append startDecree (restored found) received request
    rw [allVotes_append, top]
    rcases raised_cases startDecree (reach startDecree (restored found) received) request with
      ⟨same, none⟩ | ⟨⟨d, b, sender, rfl⟩, higher, none⟩ | ⟨d, b, sender, x, rfl, higher, same, one⟩
    · rw [none, append_nil, same]
      rw [same] at top
      exact ⟨above, below, (outvoted_append_same fun raises => raises.ne top.symm).trans exact_⟩
    · rw [none, append_nil]
      refine ⟨above, below.trans higher.le, fun outvoted => ?_, fun equal => absurd (equal ▸ below) (not_le.mpr higher)⟩
      obtain ⟨middle, _, _, _, _, _, split, _⟩ := outvoted received d b sender [] rfl (higher.trans_eq top.symm)
      simp at split
    · rw [one, getLast?_concat, same, Option.some_or]
      refine ⟨above.trans (below.trans higher.le), le_rfl, fun _ => rfl, fun _ before e c receiver after split raises => ?_⟩
      rcases append_cases split with ⟨_, other, _⟩ | ⟨inner, rfl, rfl⟩
      · cases other
      · exact ⟨inner, d, b, sender, x, [], rfl, higher.trans_eq (top.trans same).symm⟩

end messages

def Concerns (session : Session N π V) (b : BallotId π) : Prop :=
  session.Answered b ∨ ∃ request ∈ session.state.waiting, ∃ d, proposal request = some (d, b)

def queue (pending : List (Request N π V × Job N π V)) : List (BallotId π) := pending.flatMap fun entry => entry.2.saves

/-- The invariant of a session begun on a store in which `found` was saved: the ballots saved
and those that wait for it are those of the votes that raised the ballot, in their order. -/
structure Valid (name : N) (startDecree : DecreeId) (found : Option (BallotId π)) (session : Session N π V) : Prop where
  issued : ∀ entry ∈ session.state.pending, Issued name entry.1 entry.2
  first : session.state.loop.sd = startDecree
  reached : session.state.loop.b = reach startDecree (restored found) session.received
  queued : session.saved ++ queue session.state.pending = allVotes startDecree (restored found) session.received
  value : session.state.store.value = session.saved.getLast?.or found
  bounded : ∀ b, session.Concerns b → (b : Lifted (BallotId π)) ≤ session.state.loop.b
  topped : session.state.loop.b = restored found ∨ ∃ b : BallotId π, session.state.loop.b = b ∧ session.Concerns b

variable {startDecree d : DecreeId} {b : BallotId π} {name : N} {found : Option (BallotId π)} {session : Session N π V}
  {request : Request N π V} {job : Job N π V}

theorem start_valid (name : N) (startDecree : DecreeId) (store : Store π V) :
    (start startDecree store).Valid name startDecree store.value := by
  refine ⟨by simp [start, Async.start], rfl, rfl, rfl, rfl, ?_, .inl rfl⟩
  rintro b (⟨entry, member, _⟩ | ⟨entry, member, _⟩) <;> cases member

/-- What the loop does with a prepare or a vote: it refuses it, or takes its ballot and starts a task that will answer it. -/
theorem handle_voting (name : N) (loop : Loop π) (vote : voting (.receive request)) :
    (∃ messages, handle name loop request = (loop, .send messages) ∧ (∀ message ∈ messages, message.answers = none) ∧
      raised loop.sd loop.b request = loop.b ∧ votes loop.sd loop.b request = []) ∨
    ∃ d, ∃ b : BallotId π, ∃ job, proposal request = some (d, b) ∧ handle name loop request = (⟨loop.sd, b⟩, job) ∧
      Issued name request job ∧ raised loop.sd loop.b request = b ∧ job.saves = votes loop.sd loop.b request := by
  cases request with
  | prepare d b sender =>
    simp only [handle]
    split
    next trimmed => exact .inl ⟨[], rfl, by simp, if_neg (not_le.mpr trimmed), rfl⟩
    next untrimmed =>
      have top : raised loop.sd loop.b (.prepare d b sender : Request N π V) = max loop.b b := if_pos (not_lt.mp untrimmed)
      split
      next accepted => exact .inr ⟨d, b, _, rfl, rfl, .lookup d b sender, top.trans (sup_eq_right.mpr accepted), rfl⟩
      next refused => exact .inl ⟨_, rfl, by simp [Send.answers], top.trans (sup_eq_left.mpr (not_le.mp refused).le), rfl⟩
  | syn d b sender x =>
    simp only [handle]
    split
    next trimmed =>
      exact .inl ⟨[], rfl, by simp, if_neg (not_le.mpr trimmed), if_neg fun both => not_le.mpr trimmed both.1⟩
    next untrimmed =>
      have top : raised loop.sd loop.b (.syn d b sender x : Request N π V) = max loop.b b := if_pos (not_lt.mp untrimmed)
      split
      next accepted =>
        have highest := top.trans (sup_eq_right.mpr accepted)
        split
        next higher => exact .inr ⟨d, b, _, rfl, rfl, .put d b sender x, highest, (if_pos ⟨not_lt.mp untrimmed, higher⟩).symm⟩
        next level => exact .inr ⟨d, b, _, rfl, rfl, .vote d b sender x, highest, (if_neg fun both => level both.2).symm⟩
      next refused =>
        have lower := (not_le.mp refused).le
        exact .inl ⟨_, rfl, by simp [Send.answers], top.trans (sup_eq_left.mpr lower), if_neg fun both => both.2.not_ge lower⟩
  | _ => cases vote

omit [LinearOrder π] in
private theorem answered_append {session after : Session N π V} {messages : List (Send N π V)}
    (sent : after.state.sent = session.state.sent ++ messages.map fun message => (request, message)) :
    after.Answered b ↔ session.Answered b ∨ ∃ message ∈ messages, message.answers = some b := by
  simp [Answered, sent, or_and_right, exists_or]

theorem receive_preserves (valid : session.Valid name startDecree found) (vote : voting (.receive request))
    (moves : session.state.step name (.receive request) = some after) :
    Valid name startDecree found { session with state := after, received := session.received ++ [request] } := by
  rcases handle_voting name session.state.loop vote with
    ⟨messages, handled, silent, level, none⟩ | ⟨d, b, job, carries, handled, issued, top, saves⟩
  · simp only [Async.step, handled] at moves
    cases moves
    rw [valid.first, valid.reached] at level none
    have concerns (c : BallotId π) : Concerns { session with
        state := session.state.submit session.state.loop request (.send messages), received := session.received ++ [request] } c ↔
        session.Concerns c := by
      refine or_congr_left ((answered_append rfl).trans (or_iff_left ?_))
      rintro ⟨message, member, answers⟩
      cases (silent message member).symm.trans answers
    refine ⟨valid.issued, valid.first, ?_, ?_, valid.value, ?_, ?_⟩
    · exact valid.reached.trans ((reach_append _ _ _ _).trans level).symm
    · rw [allVotes_append, none, append_nil]
      exact valid.queued
    · exact fun c concerned => valid.bounded c ((concerns c).mp concerned)
    · exact valid.topped.imp_right (Exists.imp fun c => And.imp_right (concerns c).mpr)
  · simp only [Async.step, handled, Async.submit_issued _ _ issued] at moves
    cases moves
    have grows : session.state.loop.b ≤ b := top ▸ le_raised _ _ _
    rw [valid.first, valid.reached] at top saves
    refine ⟨?_, valid.first, ?_, ?_, valid.value, ?_, .inr ⟨b, rfl, .inr ⟨request, ?_, d, carries⟩⟩⟩
    · intro entry member
      rcases mem_append.mp member with old | new
      · exact valid.issued entry old
      · cases mem_singleton.mp new
        exact issued
    · exact ((reach_append _ _ _ _).trans top).symm
    · rw [allVotes_append, ← saves, ← valid.queued]
      simp [queue]
    · rintro c (answered | ⟨other, member, e, same⟩)
      · exact (valid.bounded c (.inl answered)).trans grows
      · rw [Async.waiting, map_append, mem_append] at member
        rcases member with old | new
        · exact (valid.bounded c (.inr ⟨other, old, e, same⟩)).trans grows
        · cases mem_singleton.mp new
          cases carries.symm.trans same
          exact le_rfl
    · simp [Async.waiting]

omit [LinearOrder π] in
private theorem queue_split {pending : List (Request N π V × Job N π V)} (taken : pending[index]? = some (request, job)) :
    queue pending = queue (pending.take index) ++ job.saves ++ queue (pending.drop (index + 1)) := by
  obtain ⟨inside, here⟩ := List.getElem?_eq_some_iff.mp taken
  conv_lhs => rw [← take_append_drop index pending, drop_eq_getElem_cons inside, here]
  simp [queue]

omit [LinearOrder π] in
private theorem mem_waiting {state : Async N π V} (taken : state.pending[index]? = some (request, job)) (other : Request N π V) :
    other ∈ state.waiting ↔ other = request ∨ other ∈ state.waiting.eraseIdx index := by
  have here : state.waiting[index]? = some request := by simp [Async.waiting, taken]
  obtain ⟨inside, same⟩ := List.getElem?_eq_some_iff.mp here
  rw [← (getElem_cons_eraseIdx_perm inside).mem_iff, same, mem_cons]

omit [LinearOrder π] in
/-- What one step of a task does: nothing is left to save, and the task goes on or answers its request. -/
theorem perform_cases (issued : Issued name request job) (store : Store π V) :
    (store.perform job).1.value = job.saves.getLast?.or store.value ∧ (store.perform job).2.saves = [] ∧
    (Issued name request (store.perform job).2 ∨
      ∃ messages, (store.perform job).2 = .send messages ∧
        ∀ b, (∃ message ∈ messages, message.answers = some b) ↔ ∃ d, proposal request = some (d, b)) := by
  have unanswered {messages : List (Send N π V)} (other : proposal request = none)
    (quiet : ∀ message ∈ messages, Async.Quiet message)
      (b : BallotId π) : (∃ message ∈ messages, message.answers = some b) ↔ ∃ d, proposal request = some (d, b) := by
    simp only [other, reduceCtorEq, exists_false, iff_false, not_exists, not_and]
    intro message member answers
    have silent := quiet message member
    unfold Send.answers at answers
    split at answers
    · exact silent
    · exact silent
    · cases answers
  cases issued with
  | lookup => exact ⟨rfl, rfl, .inr ⟨_, rfl, by simp [proposal, Send.answers]⟩⟩
  | put d b sender x => exact ⟨rfl, rfl, .inl (.vote d b sender x)⟩
  | vote d b sender x => exact ⟨rfl, rfl, .inl (.write store (.vote d b sender x))⟩
  | copy κ dvs => exact ⟨rfl, rfl, .inl (.write store (.copy κ dvs))⟩
  | trim d => exact ⟨rfl, rfl, .inl (.cut store d)⟩
  | cut => exact ⟨rfl, rfl, .inr ⟨_, rfl, by simp [proposal]⟩⟩
  | write read update =>
    cases update with
    | vote | copy => exact ⟨rfl, rfl, .inr ⟨_, rfl, by simp [proposal, Send.answers]⟩⟩
  | list _ other done quiet =>
    obtain ⟨messages, sends, silent⟩ := quiet store.decrees.entries
    exact ⟨rfl, by simp [Store.perform, sends, Job.saves], .inr ⟨messages, sends, unanswered other silent⟩⟩
  | map _ other done quiet =>
    obtain ⟨messages, sends, silent⟩ := quiet store.decrees
    exact ⟨rfl, by simp [Store.perform, sends, Job.saves], .inr ⟨messages, sends, unanswered other silent⟩⟩

theorem work_preserves (valid : session.Valid name startDecree found) (permitted : session.inOrder (.work index))
    (moves : session.step name (.work index) = some after) : after.Valid name startDecree found := by
  simp only [step, Async.step, Option.map_map, Option.map_eq_some_iff, Function.comp] at moves
  obtain ⟨⟨request, job⟩, taken, rfl⟩ := moves
  simp only [taken, Option.elim]
  have ordered : job.saves = [] ∨ queue (session.state.pending.take index) = [] := by
    simpa [inOrder, taken, queue] using permitted
  have advance {state : Async N π V} (loop : state.loop = session.state.loop)
      (issued : ∀ entry ∈ state.pending, Issued name entry.1 entry.2)
      (value : state.store.value = job.saves.getLast?.or session.state.store.value)
      (rest : queue state.pending = queue (session.state.pending.take index) ++ queue (session.state.pending.drop (index + 1)))
      (concerns : ∀ b, Concerns { session with state := state, saved := session.saved ++ job.saves } b ↔ session.Concerns b) :
      Valid name startDecree found { session with state := state, saved := session.saved ++ job.saves } := by
    refine ⟨issued, loop ▸ valid.first, loop ▸ valid.reached, ?_, ?_, ?_, ?_⟩
    · rw [← valid.queued, rest, queue_split taken]
      rcases ordered with none | none <;> simp [none]
    · rw [value, valid.value, getLast?_append, Option.or_assoc]
    · exact fun b concerned => loop ▸ valid.bounded b ((concerns b).mp concerned)
    · rw [loop]
      exact valid.topped.imp_right (Exists.imp fun b => And.imp_right (concerns b).mpr)
  have issued := valid.issued _ (mem_of_getElem? taken)
  obtain ⟨value, unsaved, goes_on | ⟨messages, sends, answers⟩⟩ := perform_cases issued session.state.store
  · rw [Async.finish_issued _ _ goes_on]
    refine advance rfl ?_ value ?_ fun b => or_congr Iff.rfl ?_
    · intro entry member
      rcases mem_or_eq_of_mem_set member with old | rfl
      · exact valid.issued entry old
      · exact goes_on
    · rw [List.set_eq_take_append_cons_drop, if_pos (List.getElem?_eq_some_iff.mp taken).1]
      simp [queue, unsaved]
    · rw [Async.waiting_set taken rfl]
  · rw [sends]
    refine advance rfl (fun entry member => valid.issued entry (mem_of_mem_eraseIdx member)) value ?_ fun b => ?_
    · simp [Async.finish, eraseIdx_eq_take_drop_succ, queue]
    · have fewer : (session.state.finish index (session.state.store.perform job).1 request (.send messages)).waiting =
          session.state.waiting.eraseIdx index := Async.waiting_eraseIdx rfl
      rw [Concerns, Concerns, answered_append rfl, answers, or_assoc, fewer]
      simp only [mem_waiting taken, or_and_right, exists_or, exists_eq_left]

theorem run_valid {store : Store π V} {final : Session N π V}
    (run : Run (step name) (fun session event => voting event && session.inOrder event) (start startDecree store) final) :
    final.Valid name startDecree store.value := by
  apply run.invariant (start_valid name startDecree store)
  intro before event after valid permitted moves
  obtain ⟨vote, ordered⟩ := Bool.and_eq_true_iff.mp permitted
  cases event with
  | receive =>
    obtain ⟨_, steps, rfl⟩ := Option.map_eq_some_iff.mp moves
    exact receive_preserves valid vote steps
  | work => exact work_preserves valid ordered moves

/-- When ballots are saved in order, the ballot recovered after a crash is at least every ballot answered before it
if each prepare that raised the ballot is followed by a vote that raised it further, and, once all messages are
answered, only then. -/
theorem recovers_iff {name : N} {startDecree : DecreeId} {store : Store π V} {final : Session N π V}
    (run : Run (step name) (fun session event => voting event && session.inOrder event) (start startDecree store) final)
    (settled : final.Settled) :
    (Outvoted startDecree (restored store.value) final.received → final.Recovers startDecree) ∧
    (final.state.pending = [] → final.Recovers startDecree → Outvoted startDecree (restored store.value) final.received) := by
  have valid := run_valid run
  have empty : queue final.state.pending = [] := by
    rw [queue, flatMap_eq_nil_iff]
    intro entry member
    have idle := settled entry member
    cases job : entry.2 with
    | storePut => simp [job, Job.writes] at idle
    | _ => rfl
  have saved := valid.queued
  rw [empty, append_nil] at saved
  have recovered : final.recovered startDecree =
      restored ((allVotes startDecree (restored store.value) final.received).getLast?.or store.value) :=
    congrArg restored (saved ▸ valid.value)
  obtain ⟨above, below, exact_⟩ := outvoted_iff startDecree store.value final.received
  rw [exact_, ← recovered, ← valid.reached]
  rw [← recovered] at above below
  rw [← valid.reached] at below
  refine ⟨fun same b answered => same ▸ valid.bounded b (.inl answered), fun idle recovers => below.antisymm ?_⟩
  rcases valid.topped with bottom | ⟨b, same, answered | ⟨request, member, _⟩⟩
  · exact bottom ▸ above
  · exact same ▸ recovers b answered
  · simp [Async.waiting, idle] at member

/-- A promise and an ack in ballot 1/1; nothing is saved, since the prepare had raised the ballot. -/
def unsaved : List (Async.Event Nat Nat Nat) :=
  [.receive (.prepare ⟨0, 0⟩ ⟨1, 1⟩ ⟨1, 0⟩), .work 0, .receive (.syn ⟨0, 0⟩ ⟨1, 1⟩ ⟨1, 0⟩ 7), .work 0, .work 0]

theorem ballot_forgotten : ¬ ∀ (name : Nat) (startDecree : DecreeId) (store : Store Nat Nat) (final : Session Nat Nat Nat),
    Run (step name) (fun _ event => voting event) (start startDecree store) final → final.Settled →
      final.Recovers startDecree := by
  intro recovers
  obtain ⟨final, run, idle, empty, sent⟩ : ∃ final : Session Nat Nat Nat, Run (step 0) (fun _ event => voting event)
      (start initialDecreeId .empty) final ∧ final.state.pending.isEmpty ∧ final.state.store.value.isNone ∧
      final.state.sent.map (fun entry => entry.2.answers) = [some ⟨1, 1⟩, some ⟨1, 1⟩] := exists_run unsaved (by decide)
  have settled : final.Settled := by simp [Settled, isEmpty_iff.mp idle]
  have answered : final.Answered ⟨1, 1⟩ := mem_map.mp (sent ▸ mem_cons_self)
  have bound := recovers 0 initialDecreeId .empty final run settled _ answered
  simp only [Session.recovered, Acceptor.start, Option.isNone_iff_eq_none.mp empty, restored] at bound
  exact absurd bound (WithBot.not_coe_le_bot _)

/-- A promise in ballot 1/1, and a vote that raises the ballot to 2/2. -/
theorem ballot_recovered : ∃ final : Session Nat Nat Nat,
    Run (step 0) (fun session event => voting event && session.inOrder event) (start initialDecreeId .empty) final ∧
    final.Settled ∧ final.Answered ⟨1, 1⟩ ∧ final.Answered ⟨2, 2⟩ ∧
    Outvoted initialDecreeId (restored (Store.empty : Store Nat Nat).value) final.received ∧ final.Recovers initialDecreeId := by
  obtain ⟨final, run, idle, sent, received⟩ : ∃ final : Session Nat Nat Nat,
      Run (step 0) (fun session event => voting event && session.inOrder event) (start initialDecreeId .empty) final ∧
      final.state.pending.isEmpty ∧ final.state.sent.map (fun entry => entry.2.answers) = [some ⟨1, 1⟩, some ⟨2, 2⟩] ∧
      final.received = [.prepare ⟨0, 0⟩ ⟨1, 1⟩ ⟨1, 0⟩, .syn ⟨0, 0⟩ ⟨2, 2⟩ ⟨2, 0⟩ 7] :=
    exists_run [.receive (.prepare ⟨0, 0⟩ ⟨1, 1⟩ ⟨1, 0⟩), .receive (.syn ⟨0, 0⟩ ⟨2, 2⟩ ⟨2, 0⟩ 7), .work 0, .work 0, .work 0,
      .work 0] (by decide)
  have settled : final.Settled := by simp [Settled, isEmpty_iff.mp idle]
  have outvoted : Outvoted initialDecreeId (restored (Store.empty : Store Nat Nat).value) final.received := by
    rw [received]
    exact (outvoted_iff _ _ _).2.2.mpr (by decide)
  exact ⟨final, run, settled, mem_map.mp (sent ▸ mem_cons_self),
    mem_map.mp (sent ▸ mem_cons_of_mem _ mem_cons_self), outvoted, (recovers_iff run settled).1 outvoted⟩

end Session
end Halon.Paxos
