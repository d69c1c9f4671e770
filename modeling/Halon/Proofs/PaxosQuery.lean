import Halon.Proofs.PaxosAgreement

/-! Soundness of `query`. A query counts the acceptors that report any vote for a
decree. What it answers is the chosen value when one ballot alone has a quorum. -/

namespace Halon.Paxos
open Halon.Library List Option

namespace Query
variable {N π V : Type}

variable {acks : List (Ack π V)} {dvs : List (List (Ack π V))}

private theorem lookup_single (ascending : acks.Pairwise fun first second => first.decree < second.decree) (d : DecreeId) :
    ((acks.map fun a => (a.decree, [a])).lookup d).getD [] = acks.filter fun a => decide (a.decree = d) := by
  induction acks with
  | nil => rfl
  | cons ack rest ih =>
    obtain ⟨least, remaining⟩ := pairwise_cons.mp ascending
    rw [map_cons, lookup_cons, filter_cons]
    by_cases same : d = ack.decree
    · subst same
      have none : rest.filter (fun a => decide (a.decree = ack.decree)) = [] := by
        apply filter_eq_nil_iff.mpr
        intro other member equal
        exact (least other member).ne' (of_decide_eq_true equal)
      rw [none]
      simp
    · simp [beq_eq_false_iff_ne.mpr same, Ne.symm same, ih remaining]

theorem reported_lookup (ascending : ∀ acks ∈ dvs, acks.Pairwise fun first second => first.decree < second.decree)
    (d : DecreeId) :
    ((reported dvs).lookup d).getD [] = dvs.flatMap fun acks => acks.filter fun a => decide (a.decree = d) := by
  have general : ∀ map : OrderedMap DecreeId (List (Ack π V)),
      (((dvs.map fun acks => OrderedMap.fromList (acks.map fun a => (a.decree, [a]))).foldl
        (OrderedMap.unionWith (· ++ ·)) map).lookup d).getD [] =
      (map.lookup d).getD [] ++ dvs.flatMap fun acks => acks.filter fun a => decide (a.decree = d) := by
    induction dvs with
    | nil => simp
    | cons acks rest ih =>
      intro map
      have sorted := ascending acks mem_cons_self
      rw [map_cons, foldl_cons, ih fun other member => ascending other (mem_cons_of_mem _ member),
        OrderedMap.lookup_unionWith, OrderedMap.lookup_fromList (pairwise_map.mpr sorted), flatMap_cons,
        ← lookup_single sorted, ← append_assoc]
      congr 1
      generalize (acks.map fun a => (a.decree, [a])).lookup d = found
      cases map.lookup d <;> cases found <;> simp
  exact general .empty

private theorem at_most_one (ascending : acks.Pairwise fun first second => first.decree < second.decree)
    (relevant : ∀ ack ∈ acks, ack.decree = d) : acks.length ≤ 1 := by
  match acks with
  | [] => exact Nat.zero_le 1
  | [_] => exact le_rfl
  | first :: second :: _ =>
    have lower := (pairwise_cons.mp ascending).1 second mem_cons_self
    rw [relevant first mem_cons_self, relevant second (mem_cons_of_mem _ mem_cons_self)] at lower
    exact absurd lower (lt_irrefl _)

variable [LinearOrder π]

/-- Each decree reported by a quorum has some ballot that a quorum reports for it. -/
def supported (n : Nat) (dvs : List (List (Ack π V))) : Bool :=
  (reported dvs).entries.all fun entry => decide (entry.2.length < quorum n) ||
    entry.2.any fun ack => decide (quorum n ≤ (entry.2.filter fun other => decide (other.ballot = ack.ballot)).length)

/-- Acceptors that report the ballot for the decree are as many as the reports, since each reports a decree once. -/
theorem reporters_enough {dvs : List (N × List (Ack π V))}
    (ascending : ∀ entry ∈ dvs, entry.2.Pairwise fun first second => first.decree < second.decree)
    (d : DecreeId) (b : BallotId π) :
    (((dvs.map Prod.snd).flatMap fun acks => acks.filter fun a => decide (a.decree = d)).filter
      fun a => decide (a.ballot = b)).length ≤
    (dvs.filter fun entry => entry.2.any fun a => decide (a.decree = d ∧ a.ballot = b)).length := by
  induction dvs with
  | nil => simp
  | cons entry rest ih =>
    have remaining := ih fun other member => ascending other (mem_cons_of_mem _ member)
    have sorted := ascending entry mem_cons_self
    rw [map_cons, flatMap_cons, filter_append, length_append, filter_cons]
    have atMost : ((entry.2.filter fun a => decide (a.decree = d)).filter fun a => decide (a.ballot = b)).length ≤ 1 := by
      apply at_most_one ((sorted.filter fun a => decide (a.decree = d)).filter fun a => decide (a.ballot = b))
      intro a member
      exact of_decide_eq_true (mem_filter.mp (mem_filter.mp member).1).2
    split
    next =>
      rw [length_cons]
      omega
    next absent =>
      have none : (entry.2.filter fun a => decide (a.decree = d)).filter (fun a => decide (a.ballot = b)) = [] := by
        apply filter_eq_nil_iff.mpr
        intro a member equal
        obtain ⟨inside, decree⟩ := mem_filter.mp member
        exact absent (any_eq_true.mpr ⟨a, inside, decide_eq_true ⟨of_decide_eq_true decree, of_decide_eq_true equal⟩⟩)
      rw [none, length_nil]
      omega

theorem mem_result (ascending : ∀ acks ∈ dvs, acks.Pairwise fun first second =>
    first.decree < second.decree) (member : (d, v) ∈ result n dvs) :
    let votes := dvs.flatMap fun acks => acks.filter fun a => decide (a.decree = d)
    (d, votes) ∈ reported dvs ∧ quorum n ≤ votes.length ∧ chooseValue d votes = some v := by
  obtain ⟨⟨di, _⟩, inside, decided⟩ := mem_filterMap.mp member
  unfold decideDecree at decided
  split at decided <;> try contradiction
  next enough =>
    obtain ⟨_, found, same⟩ := map_eq_some_iff.mp decided
    cases same
    have votes := reported_lookup ascending di
    rw [OrderedMap.lookup_eq_some.mpr inside, getD_some] at votes
    rw [← votes]
    exact ⟨inside, enough, found⟩

end Query

namespace System
variable {N π V : Type} [LinearOrder π]

/-- When a query gets its last reply, every decree that a quorum reports has a ballot that a quorum reports. -/
def queriesSupported (group : AcceptorGroup N) (system : System N π V) : Action N π V → Bool
  | .receiveReply index => (system.replies[index]?).all fun letter =>
    match system.calls letter.receiver.parent, letter.message with
    | .querying _ dvs, .decrees acks =>
      decide (dvs.length + 1 ≠ group.acceptors.length) ||
        Query.supported group.acceptors.length ((dvs ++ [(letter.source, acks)]).map Prod.snd)
    | _, _ => true
  | _ => true

/-- A `propose` that returns for an answered decree returns the answer. -/
def AnswersAgree (system : System N π V) : Prop :=
  ∀ p q dvs result d v x, system.calls p = .answered dvs result → (d, v) ∈ result →
    system.calls q = .returned d x → x = v

variable [DecidableEq N]

theorem answer_chosen {system : System N π V} (valid : system.Valid group) {p : π}
    {dvs : List (N × List (Ack π V))} {result : List (DecreeId × V)} (call : system.calls p = .answered dvs result)
    (supported : Query.supported group.acceptors.length (dvs.map Prod.snd)) {d : DecreeId} {v : V}
    (member : (d, v) ∈ result) : ∃ b, (system.history d).Chosen (Majority group) b v := by
  have called := valid.calls p
  rw [call] at called
  obtain ⟨distinct, rfl, responses⟩ := called
  have ascending : ∀ acks ∈ dvs.map Prod.snd, acks.Pairwise fun first second => first.decree < second.decree := by
    intro acks inside
    obtain ⟨entry, listed, rfl⟩ := mem_map.mp inside
    exact (responses entry listed).2.ascending
  obtain ⟨reported, enough, chosen⟩ := Query.mem_result ascending member
  have voted {ack : Ack π V} (inside : ack ∈ (dvs.map Prod.snd).flatMap fun acks => acks.filter fun a => decide (a.decree = d)) :
      ∃ α, (system.history d).voted α ack.ballot ack.value := by
    obtain ⟨_, listed, kept⟩ := mem_flatMap.mp inside
    obtain ⟨entry, responded, rfl⟩ := mem_map.mp listed
    obtain ⟨known, decree⟩ := mem_filter.mp kept
    have vote := (responses entry responded).2.genuine ack known
    rw [of_decide_eq_true decree] at vote
    exact ⟨entry.1, vote⟩
  have history := history_valid group valid.requested valid.replied d
  have held := all_eq_true.mp supported _ reported
  rw [Bool.or_eq_true, decide_eq_true_eq] at held
  obtain ⟨ack, inside, many⟩ := any_eq_true.mp (held.resolve_left (not_lt.mpr enough))
  have reporters := (of_decide_eq_true many).trans (Query.reporters_enough
    (fun entry listed => (responses entry listed).2.ascending) d ack.ballot)
  obtain ⟨_, firstVote⟩ := voted inside
  have choice : (system.history d).Chosen (Majority group) ack.ballot ack.value := by
    refine ⟨{ α | (system.history d).voted α ack.ballot ack.value },
      ⟨(dvs.filter fun entry => entry.2.any fun a => decide (a.decree = d ∧ a.ballot = ack.ballot)).map Prod.fst,
        distinct.sublist ((filter_sublist).map Prod.fst), ?_, ?_, ?_⟩, fun _ vote => vote⟩
    · intro α named
      obtain ⟨entry, listed, rfl⟩ := mem_map.mp named
      exact (responses entry (mem_filter.mp listed).1).1
    · rw [length_map]
      exact reporters
    · intro α named
      obtain ⟨entry, listed, rfl⟩ := mem_map.mp named
      obtain ⟨responded, reports⟩ := mem_filter.mp listed
      obtain ⟨other, known, same⟩ := any_eq_true.mp reports
      obtain ⟨decree, ballot⟩ := of_decide_eq_true same
      have vote := (responses entry responded).2.genuine other known
      rw [decree, ballot] at vote
      change (system.history d).voted entry.1 ack.ballot ack.value
      rw [← history.single vote firstVote]
      exact vote
  obtain ⟨top, topInside, _, rfl, highest⟩ := chooseValue_eq_some chosen
  obtain ⟨_, topVote⟩ := voted topInside
  have decree : ack.decree = d := by
    obtain ⟨_, _, kept⟩ := mem_flatMap.mp inside
    exact of_decide_eq_true (mem_filter.mp kept).2
  have agrees := Voting.History.later_vote_agrees (majorities_share group) history choice topVote
    (highest ack inside decree)
  exact ⟨ack.ballot, agrees ▸ choice⟩

/-- Every answered query had support in the replies it collected. -/
def AnswersSupported (group : AcceptorGroup N) (system : System N π V) : Prop :=
  ∀ p dvs result, system.calls p = .answered dvs result →
    Query.supported group.acceptors.length (dvs.map Prod.snd)

omit [DecidableEq N] in
theorem advance_supported {before : System N π V} (held : before.AnswersSupported group) (p : π)
    (next : Call N π V × List (N × Request N π V))
    (own : ∀ dvs result, next.1 = .answered dvs result → Query.supported group.acceptors.length (dvs.map Prod.snd)) :
    (before.advance p next).AnswersSupported group := by
  intro q dvs result call
  by_cases same : q = p
  · subst same
    rw [advance_self] at call
    exact own dvs result call
  · rw [advance_other _ _ same] at call
    exact held q dvs result call

omit [DecidableEq N] in
theorem receive_answered {acceptors : List N} {p : π} {call : Call N π V} {child : Nat} {source : N}
    {message : Reply N π V} {dvs : List (N × List (Ack π V))} {result : List (DecreeId × V)}
    (answered : (call.receive acceptors p child source message).1 = .answered dvs result) :
    call = .answered dvs result ∨ ∃ d earlier acks, call = .querying d earlier ∧ message = .decrees acks ∧
      dvs = earlier ++ [(source, acks)] ∧ earlier.length + 1 = acceptors.length := by
  cases call with
  | answered => exact .inl answered
  | querying d earlier =>
    right
    cases message with
    | decrees acks =>
      simp only [Call.receive] at answered
      split at answered <;> try contradiction
      simp only [Query.collect] at answered
      split at answered <;> try contradiction
      next complete =>
        cases answered
        refine ⟨d, earlier, acks, rfl, rfl, rfl, ?_⟩
        rw [← complete, length_append, length_singleton]
    | promise _ _ _ | nack _ | ack _ | syncCompleted _ => cases answered
  | scouting =>
    simp only [Call.receive] at answered
    split at answered <;> try contradiction
    split at answered <;> try contradiction
    split at answered <;> try contradiction
    next outcome _ =>
      cases outcome with
      | error =>
        simp only [Except.map, Propose.afterScout] at answered
        split at answered <;> cases answered
      | ok => cases answered
  | commanding =>
    simp only [Call.receive] at answered
    split at answered <;> try contradiction
    split at answered <;> try contradiction
    split at answered <;> try contradiction
    next outcome _ =>
      cases outcome with
      | error | ok => cases answered
  | syncing =>
    cases message with
    | syncCompleted =>
      simp only [Call.receive, Sync.collect] at answered
      split at answered <;> cases answered
    | promise _ _ _ | nack _ | ack _ | decrees _ => cases answered
  | idle | returned _ _ | synced _ => cases answered

theorem step_supported {before after : System N π V} (held : before.AnswersSupported group) {action : Action N π V}
    (permitted : before.queriesSupported group action) (moves : before.step group action = some after) :
    after.AnswersSupported group := by
  have begun {p : π} {next : Call N π V × List (N × Request N π V)} (begin : before.begin p next = some after)
      (own : ∀ dvs result, next.1 ≠ .answered dvs result) : after.AnswersSupported group := by
    unfold System.begin at begin
    split at begin <;> try contradiction
    cases begin
    exact advance_supported held p next fun dvs result same => absurd same (own dvs result)
  cases action with
  | propose | query => exact begun moves nofun
  | sync =>
    refine begun moves ?_
    intro dvs result same
    unfold Paxos.sync at same
    split at same <;> cases same
  | release α d | restart α startDecree =>
    cases moves
    exact held
  | timeout p =>
    obtain ⟨next, expired, rfl⟩ := map_eq_some_iff.mp moves
    refine advance_supported held p next ?_
    intro dvs result same
    cases call : before.calls p <;> rw [call] at expired <;> cases expired <;> cases same
  | receiveRequest =>
    obtain ⟨_, _, rfl⟩ := map_eq_some_iff.mp moves
    exact held
  | receiveReply index =>
    obtain ⟨_, found, rfl⟩ := map_eq_some_iff.mp moves
    have remaining : (before.dropReply index).AnswersSupported group := held
    refine advance_supported remaining _ _ ?_
    intro dvs result answered
    rcases receive_answered answered with old | ⟨d, _, _, call, message, rfl, complete⟩
    · exact held _ dvs result old
    · simp only [queriesSupported, found, all_some, call, message, complete, ne_eq, not_true_eq_false,
        decide_false, Bool.false_or] at permitted
      exact permitted

/-- In every run in which no command is refused in its own proposal number and
every query that returns has a ballot supporting each decree it reports, what a
query answers is what `propose` returns, before and after. -/
theorem query_agrees {startDecree : N → DecreeId} {final : System N π V}
    (run : Run (step group) (fun system action => action.basic ∧ system.undisturbed action ∧
      system.queriesSupported group action) (initial startDecree) final) : final.AnswersAgree := by
  have valid := run_valid (run.weaken fun _ _ permitted => ⟨permitted.1, permitted.2.1⟩)
  have supported : final.AnswersSupported group :=
    run.invariant (fun _ _ _ call => by cases call) fun _ _ _ held permitted moves =>
      step_supported held permitted.2.2 moves
  intro p q dvs result d v x answered member returned
  obtain ⟨b, chosen⟩ := answer_chosen valid answered (supported p dvs result answered) member
  have called := valid.calls q
  rw [returned] at called
  obtain ⟨c, alsoChosen⟩ := called
  exact Voting.History.agreement (majorities_share group) (history_valid group valid.requested valid.replied d)
    alsoChosen chosen

/-- Acceptor 0 votes for 7 in the first ballot and acceptor 1 for 8 in the
second. A query counts two votes and answers 8. Process 2 then hears from
acceptors 0 and 2, and returns 7. -/
def mixedBallots : List (Action Nat Nat Nat) :=
  [.propose 0 ⟨0, 0⟩ 7, .receiveRequest 0, .receiveRequest 0, .receiveReply 0, .receiveReply 0, .receiveRequest 1,
    .propose 1 ⟨0, 0⟩ 8, .receiveRequest 4, .receiveRequest 4, .receiveReply 1, .receiveReply 1, .receiveRequest 5,
    .query 3 ⟨0, 0⟩, .receiveRequest 6, .receiveRequest 6, .receiveRequest 6, .receiveReply 2, .receiveReply 2,
    .receiveReply 2, .propose 2 ⟨0, 0⟩ 9, .receiveRequest 6, .receiveRequest 7, .receiveReply 2, .receiveReply 2,
    .receiveRequest 7, .receiveRequest 8, .receiveReply 2, .receiveReply 2]

def answers (call : Call Nat Nat Nat) : List (DecreeId × Nat) :=
  match call with
  | .answered _ result => result
  | _ => []

theorem query_disagrees : ¬ ∀ (group : AcceptorGroup Nat) (startDecree : Nat → DecreeId) (final : System Nat Nat Nat),
    Run (step group) (fun _ action => action.basic) (initial startDecree) final → final.AnswersAgree := by
  intro agreement
  obtain ⟨final, run, answer, returned⟩ : ∃ final : System Nat Nat Nat, Run (step threeAcceptors)
      (fun _ action => action.basic) (initial fun _ => initialDecreeId) final ∧ answers (final.calls 3) = [(⟨0, 0⟩, 8)] ∧
      final.calls 2 = .returned ⟨0, 0⟩ 7 := exists_run mixedBallots (by decide)
  have agrees := agreement threeAcceptors _ final run
  cases call : final.calls 3 with
  | answered dvs result =>
    rw [call] at answer
    have same := agrees 3 2 dvs result ⟨0, 0⟩ 8 7 call (by
      rw [show result = [(⟨0, 0⟩, 8)] from answer]
      exact mem_singleton_self _) returned
    exact absurd same (by decide)
  | idle | scouting _ _ _ _ _ | commanding _ _ _ _ _ _ | returned _ _ | querying _ _ | syncing _ | synced _ =>
    rw [call] at answer
    cases answer

theorem query_agrees_once : ∃ final : System Nat Nat Nat,
    Run (step threeAcceptors) (fun system action => action.basic ∧ system.undisturbed action ∧
      system.queriesSupported threeAcceptors action) (initial fun _ => initialDecreeId) final ∧
    answers (final.calls 3) = [(⟨0, 0⟩, 7)] ∧ final.calls 0 = .returned ⟨0, 0⟩ 7 ∧ final.AnswersAgree := by
  obtain ⟨final, run, answered, returned⟩ : ∃ final : System Nat Nat Nat, Run (step threeAcceptors)
      (fun system action => action.basic ∧ system.undisturbed action ∧ system.queriesSupported threeAcceptors action)
      (initial fun _ => initialDecreeId) final ∧ answers (final.calls 3) = [(⟨0, 0⟩, 7)] ∧ final.calls 0 = .returned ⟨0, 0⟩ 7 :=
    exists_run [.propose 0 ⟨0, 0⟩ 7, .receiveRequest 0, .receiveRequest 0, .receiveReply 0, .receiveReply 0,
      .receiveRequest 1, .receiveRequest 1, .receiveReply 0, .receiveReply 0, .query 3 ⟨0, 0⟩, .receiveRequest 2,
      .receiveRequest 2, .receiveRequest 2, .receiveReply 0, .receiveReply 0, .receiveReply 0] (by decide)
  exact ⟨final, run, answered, returned, query_agrees run⟩

end System
end Halon.Paxos
