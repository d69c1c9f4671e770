import Halon.Proofs.PaxosReplies

/-! Agreement of the basic protocol. Every run in which no command is refused in
its own proposal number keeps the invariant, and so returns one value per decree. -/

namespace Halon.Paxos

/-- Proposals, queries and trims, without synchronisation and without restarts. -/
def Action.basic {N π V : Type} : Action N π V → Bool
  | .sync _ | .restart _ _ => false
  | _ => true

namespace System
open Halon.Library
variable {N π V : Type} [LinearOrder π]

/-- The step delivers no refusal in the command's own proposal number. -/
def undisturbed (system : System N π V) : Action N π V → Bool
  | .receiveReply index => (system.replies[index]?).all fun letter =>
    !refusedInOwnProposal (system.calls letter.receiver.parent) letter.receiver.child letter.message
  | _ => true

/-- Calls of `propose` for one decree that return return the same value. -/
def Agrees (system : System N π V) : Prop :=
  ∀ d p q x y, system.calls p = .returned d x → system.calls q = .returned d y → x = y

variable [DecidableEq N] {group : AcceptorGroup N} {before : System N π V}

theorem receiveReply_preserves (valid : before.Valid group)
    (found : before.replies[index]? = some letter)
    (permitted : refusedInOwnProposal (before.calls letter.receiver.parent) letter.receiver.child letter.message = false) :
    ((before.dropReply index).advance letter.receiver.parent
      ((before.calls letter.receiver.parent).receive group.acceptors letter.receiver.parent letter.receiver.child
        letter.source letter.message)).Valid group := by
  have remaining := dropReply_valid valid index
  have taken := dropReply_taken valid found
  have sent := valid.awaited letter (List.mem_of_getElem? found)
  obtain ⟨request, asked, replyTo, answers⟩ := valid.replied letter sent
  have member := valid.requested.members asked replyTo
  have answersNow := answers.grow (dropReply_grows before index)
  have unmoved : ((before.dropReply index).advance letter.receiver.parent
      (before.calls letter.receiver.parent, [])).Valid group := by
    have same := advance_same (before.dropReply index) letter.receiver.parent
    exact same.symm ▸ remaining
  obtain ⟨source, ⟨p, child⟩, _⟩ := letter
  have called := valid.calls p
  cases call : before.calls p with
  | scouting d x b current =>
    by_cases here : child = current
    · subst here
      rw [call] at called
      have same := (called.2.1 source request ⟨p, child⟩ asked replyTo rfl).2 rfl
      rw [← call]
      exact reply_scouting remaining call taken member (same ▸ answersNow)
    · simp only [call, Call.receive, if_neg here] at unmoved ⊢
      exact unmoved
  | commanding d x b current =>
    by_cases here : child = current
    · subst here
      rw [call] at called
      have same := (called.2.1 source request ⟨p, child⟩ asked replyTo rfl).2 rfl
      rw [← call]
      refine reply_commanding remaining call taken member ?_ (same ▸ answersNow) permitted
      intro ack equal
      exact ⟨⟨p, child⟩, equal ▸ sent⟩
    · simp only [call, Call.receive, if_neg here] at unmoved ⊢
      exact unmoved
  | querying =>
    rw [call] at called
    have latest := called.1 source request ⟨p, child⟩ asked replyTo rfl
    have first : child = 0 := Nat.le_zero.mp latest.1
    subst first
    rw [← call]
    exact reply_querying remaining call taken member (latest.2 rfl ▸ answersNow)
  | idle | returned _ _ | answered _ _ =>
    simp only [call, Call.receive] at unmoved ⊢
    exact unmoved
  | syncing _ | synced _ =>
    rw [call] at called
    cases called

theorem begin_preserves (begun : before.begin p next = some after)
    (started : before.calls p = .idle → (before.advance p next).Valid group) : after.Valid group := by
  unfold begin at begun
  split at begun
  next idle =>
    cases begun
    exact started idle
  next => cases begun

theorem step_preserves (valid : before.Valid group) (basic : action.basic)
    (permitted : before.undisturbed action) (moves : before.step group action = some after) :
    after.Valid group := by
  cases action with
  | propose => exact begin_preserves moves (propose_preserves valid)
  | query => exact begin_preserves moves (query_preserves valid)
  | release α d =>
    cases moves
    exact release_preserves valid α d
  | timeout =>
    obtain ⟨_, expired, rfl⟩ := Option.map_eq_some_iff.mp moves
    exact timeout_preserves valid expired
  | receiveRequest =>
    obtain ⟨⟨α, _⟩, found, rfl⟩ := Option.map_eq_some_iff.mp moves
    exact receiveRequest_preserves valid found
  | receiveReply =>
    obtain ⟨_, found, rfl⟩ := Option.map_eq_some_iff.mp moves
    simp only [undisturbed, found, Option.all_some, Bool.not_eq_true'] at permitted
    exact receiveReply_preserves valid found permitted
  | sync p | restart α startDecree => cases basic

theorem initial_valid (startDecree : N → DecreeId) : (initial startDecree : System N π V).Valid group := by
  have unsent {d : DecreeId} {α : N} {b : BallotId π} {x : V} :
      ¬ ((initial startDecree : System N π V).history d).voted α b x := by
    rintro ⟨_, sent⟩
    cases sent
  refine ⟨?_, ⟨?_, ?_, ?_, ?_, ?_⟩, ?_, ?_, ?_, ?_, ?_⟩
  · exact fun α => ⟨fun voted => absurd voted unsent, fun stored => absurd stored (OrderedMap.not_mem_empty _),
      fun voted => absurd voted unsent⟩
  · exact nofun
  · exact nofun
  · exact nofun
  · exact nofun
  · exact nofun
  · exact nofun
  · exact nofun
  · exact nofun
  · exact nofun
  · exact fun mailbox α => Nat.zero_le 1

theorem run_valid {final : System N π V}
    (run : Run (step group) (fun system action => action.basic ∧ system.undisturbed action) (initial startDecree) final) :
    final.Valid group :=
  run.invariant (initial_valid startDecree) fun _ _ _ valid permitted moves =>
    step_preserves valid permitted.1 permitted.2 moves

/-- Over any acceptors, proposers and schedule in which no command is refused in
its own proposal number, all `propose` calls for a decree that return agree. -/
theorem propose_agrees {startDecree : N → DecreeId} {final : System N π V}
    (run : Run (step group) (fun system action => action.basic ∧ system.undisturbed action) (initial startDecree) final) :
    final.Agrees := by
  have valid := run_valid run
  intro d p q x y first second
  have called := valid.calls p
  have alsoCalled := valid.calls q
  rw [first] at called
  rw [second] at alsoCalled
  obtain ⟨b, chosen⟩ := called
  obtain ⟨c, alsoChosen⟩ := alsoCalled
  exact Voting.History.agreement (majorities_share group) (history_valid group valid.requested valid.replied d)
    chosen alsoChosen

/-- Process 0 gets its value 7 to the last acceptor only; process 1 adopts 7 and
commands it. A prepare of process 2 has the last acceptor refuse that command in
proposal 0, so process 1 retries in its own ballot, hears of no vote, and has
its value 8 accepted. The first command then arrives and overwrites 8 with 7,
which process 2 finds and returns. -/
def twiceCommanded : List (Action Nat Nat Nat) :=
  [.propose 0 ⟨0, 0⟩ 7, .receiveRequest 1, .receiveRequest 1, .receiveReply 0, .receiveReply 0, .receiveRequest 3,
    .propose 1 ⟨0, 0⟩ 8, .receiveRequest 3, .receiveRequest 4, .receiveReply 1, .receiveReply 1,
    .propose 2 ⟨0, 0⟩ 9, .receiveRequest 9, .receiveRequest 6, .receiveReply 2,
    .receiveRequest 8, .receiveRequest 8, .receiveReply 2, .receiveReply 2,
    .receiveRequest 9, .receiveRequest 9, .receiveReply 2, .receiveReply 2,
    .receiveRequest 4, .receiveRequest 4, .receiveRequest 4, .receiveReply 4, .receiveReply 1,
    .receiveRequest 7, .receiveRequest 8, .receiveReply 3, .receiveReply 3]

def threeAcceptors : AcceptorGroup Nat := ⟨[0, 1, 2], by decide⟩

theorem propose_disagrees : ¬ ∀ (group : AcceptorGroup Nat) (startDecree : Nat → DecreeId) (final : System Nat Nat Nat),
    Run (step group) (fun _ action => action.basic) (initial startDecree) final → final.Agrees := by
  intro agreement
  obtain ⟨final, run, first, second⟩ : ∃ final : System Nat Nat Nat, Run (step threeAcceptors) (fun _ action => action.basic)
      (initial fun _ => initialDecreeId) final ∧ final.calls 1 = .returned ⟨0, 0⟩ 8 ∧ final.calls 2 = .returned ⟨0, 0⟩ 7 :=
    exists_run twiceCommanded (by decide)
  cases agreement threeAcceptors _ final run _ 1 2 _ _ first second

def acknowledged : List (Letter Nat Nat Nat) :=
  [⟨0, ⟨0, 1⟩, .ack ⟨⟨0, 0⟩, ⟨0, 0⟩, 7⟩⟩, ⟨1, ⟨0, 1⟩, .ack ⟨⟨0, 0⟩, ⟨0, 0⟩, 7⟩⟩, ⟨0, ⟨1, 1⟩, .ack ⟨⟨0, 0⟩, ⟨0, 1⟩, 7⟩⟩]

/-- Two proposers, one after the other, return the first one's value. -/
theorem proposed_twice : ∃ final : System Nat Nat Nat,
    Run (step threeAcceptors) (fun system action => action.basic ∧ system.undisturbed action)
      (initial fun _ => initialDecreeId) final ∧
    final.calls 0 = .returned ⟨0, 0⟩ 7 ∧ final.calls 1 = .returned ⟨0, 0⟩ 7 ∧ acknowledged ⊆ final.replied :=
  exists_run [.propose 0 ⟨0, 0⟩ 7, .receiveRequest 0, .receiveRequest 0, .receiveReply 0, .receiveReply 0,
    .receiveRequest 1, .receiveRequest 1, .receiveReply 0, .receiveReply 0,
    .propose 1 ⟨0, 0⟩ 8, .receiveRequest 3, .receiveRequest 3, .receiveReply 0, .receiveReply 0,
    .receiveRequest 3, .receiveRequest 3, .receiveReply 0, .receiveReply 0] (by decide)

theorem propose_agrees_twice : ∃ final : System Nat Nat Nat,
    Run (step threeAcceptors) (fun system action => action.basic ∧ system.undisturbed action)
      (initial fun _ => initialDecreeId) final ∧
    final.calls 0 = .returned ⟨0, 0⟩ 7 ∧ final.calls 1 = .returned ⟨0, 0⟩ 7 ∧ final.Agrees := by
  obtain ⟨final, run, first, second, -⟩ := proposed_twice
  exact ⟨final, run, first, second, propose_agrees run⟩

end System
end Halon.Paxos
