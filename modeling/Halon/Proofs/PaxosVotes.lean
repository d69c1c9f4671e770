import Halon.Proofs.PaxosAcceptor

/-! Regression of votes. An acceptor's own votes ascend, since its ballot does.
Votes copied from a peer are written whatever is stored, so a run keeps the
recorded ballots ascending exactly when every copy fits between the others. -/

namespace Halon.Paxos
open Halon.Library Option OrderedMap
variable {N π V : Type} [LinearOrder π]

/-- Where a recorded vote comes from: a `Syn` of this run, or a peer's store or an earlier run. -/
inductive Origin where
  | own
  | copied
deriving DecidableEq

structure Write (π : Type) where
  origin : Origin
  ballot : BallotId π

namespace Acceptor

def writes (acceptor : Acceptor π V) (request : Request N π V) (d : DecreeId) : Option (Write π) :=
  match request with
  | .syn e b _ _ => if d = e ∧ acceptor.loop.sd ≤ e ∧ acceptor.loop.b ≤ b then some ⟨.own, b⟩ else none
  | .syncResponse _ dvs =>
    if acceptor.loop.sd ≤ d then (dvs.lookup d).map fun vote => ⟨.copied, vote.ballot⟩ else none
  | _ => none

def recorded (acceptor : Acceptor π V) (d : DecreeId) : Option (Write π) :=
  (acceptor.store.decrees.lookup d).map fun vote => ⟨.copied, vote.ballot⟩

def runWrites (name : N) (acceptor : Acceptor π V) : List (Request N π V) → List (DecreeId → Option (Write π))
  | [] => []
  | request :: rest => acceptor.writes request :: runWrites name (acceptor.receive name request).1 rest

/-- No decree that is not trimmed loses its vote or gets one in a lower ballot. -/
def KeepsVotes (before after : Acceptor π V) : Prop :=
  ∀ d vote, after.loop.sd ≤ d → (d, vote) ∈ before.store.decrees →
    ∃ later, (d, later) ∈ after.store.decrees ∧ vote.ballot ≤ later.ballot

def NeverRegresses (name : N) (acceptor : Acceptor π V) : List (Request N π V) → Prop
  | [] => True
  | request :: rest => acceptor.KeepsVotes (acceptor.receive name request).1 ∧
      NeverRegresses name (acceptor.receive name request).1 rest

/-- A write does not lower an earlier one to the same decree, unless both are the acceptor's own votes. -/
def Ascends (first second : DecreeId → Option (Write π)) : Prop :=
  ∀ d earlier later, first d = some earlier → second d = some later →
    earlier.origin = .own ∧ later.origin = .own ∨ earlier.ballot ≤ later.ballot

variable (name : N) (acceptor : Acceptor π V)

theorem receive_other (request : Request N π V)
    (passive : match request with
      | .syncStart _ _ | .syncAdvertise _ _ _ | .syncRequest _ _ _ | .queryDecrees _ _ => True
      | _ => False) :
    (acceptor.receive name request).1 = acceptor := by
  cases request with
  | syncStart _ _ | syncRequest _ _ _ | queryDecrees _ _ => rfl
  | syncAdvertise =>
    simp only [receive, handle, Store.run]
    split <;> rfl
  | prepare _ _ _ | syn _ _ _ _ | trim _ | syncResponse _ _ => cases passive

theorem receive_syncResponse (κ : ReplyTo π) (dvs : List (DecreeId × Vote π V)) :
    acceptor.receive name (.syncResponse κ dvs) =
      (⟨acceptor.loop, acceptor.store.insert dvs⟩, [.reply κ (.syncCompleted name)]) := rfl

theorem receive_ascends (request : Request N π V) :
    acceptor.loop.sd ≤ (acceptor.receive name request).1.loop.sd ∧
      acceptor.loop.b ≤ (acceptor.receive name request).1.loop.b := by
  cases request with
  | prepare d b sender =>
    rcases acceptor.receive_prepare name d b sender with ⟨_, result⟩ | ⟨accepted, _, result⟩ | ⟨_, _, _, result⟩
    · rw [result]; exact ⟨le_rfl, le_rfl⟩
    · rw [result]; exact ⟨le_rfl, accepted⟩
    · rw [result]; exact ⟨le_rfl, le_rfl⟩
  | syn d b sender x =>
    rcases acceptor.receive_syn name d b sender x with ⟨_, result⟩ | ⟨accepted, _, result⟩ | ⟨_, _, _, result⟩
    · rw [result]; exact ⟨le_rfl, le_rfl⟩
    · rw [result]; exact ⟨le_rfl, accepted⟩
    · rw [result]; exact ⟨le_rfl, le_rfl⟩
  | trim => exact ⟨le_max_right _ _, le_rfl⟩
  | syncResponse => exact ⟨le_rfl, le_rfl⟩
  | syncStart _ _ | syncAdvertise _ _ _ | syncRequest _ _ _ | queryDecrees _ _ =>
    rw [receive_other name acceptor _ trivial]
    exact ⟨le_rfl, le_rfl⟩

theorem writes_untrimmed (written : acceptor.writes request d = some write) : (acceptor.receive name request).1.loop.sd ≤ d := by
  cases request with
  | syn e b sender x =>
    simp only [writes] at written
    split at written <;> try contradiction
    next accepted =>
      obtain ⟨rfl, untrimmed, _⟩ := accepted
      rcases acceptor.receive_syn name d b sender x with ⟨_, result⟩ | ⟨_, _, result⟩ | ⟨_, _, _, result⟩
      all_goals rw [result]; exact untrimmed
  | syncResponse =>
    simp only [writes] at written
    split at written <;> try contradiction
    next untrimmed => exact untrimmed
  | prepare _ _ _ | trim _ | syncStart _ _ | syncAdvertise _ _ _ | syncRequest _ _ _ | queryDecrees _ _ => cases written

theorem writes_own (written : acceptor.writes request d = some ⟨.own, b⟩) :
    acceptor.loop.b ≤ b ∧ (acceptor.receive name request).1.loop.b = b := by
  cases request with
  | syn e c sender x =>
    simp only [writes] at written
    split at written <;> try contradiction
    next accepted =>
      obtain ⟨rfl, untrimmed, lower⟩ := accepted
      cases written
      rcases acceptor.receive_syn name d b sender x with ⟨trimmed, _⟩ | ⟨_, _, result⟩ | ⟨c, same, above, _⟩
      · exact absurd untrimmed (not_le.mpr trimmed)
      · rw [result]; exact ⟨lower, rfl⟩
      · rw [same] at lower
        exact absurd (WithBot.coe_le_coe.mp lower) (not_le.mpr above)
  | syncResponse =>
    simp only [writes] at written
    split at written <;> try contradiction
    obtain ⟨_, _, same⟩ := map_eq_some_iff.mp written
    cases same
  | prepare _ _ _ | trim _ | syncStart _ _ | syncAdvertise _ _ _ | syncRequest _ _ _ | queryDecrees _ _ => cases written

theorem receive_recorded (request : Request N π V)
    (untrimmed : (acceptor.receive name request).1.loop.sd ≤ d) :
    (acceptor.receive name request).1.recorded d =
      ((acceptor.writes request d).map fun write => ⟨.copied, write.ballot⟩).or (acceptor.recorded d) := by
  cases request with
  | prepare e b sender =>
    rcases acceptor.receive_prepare name e b sender with ⟨_, result⟩ | ⟨_, _, result⟩ | ⟨_, _, _, result⟩
    all_goals rw [result]; rfl
  | syn e b sender x =>
    rcases acceptor.receive_syn name e b sender x with ⟨trimmed, result⟩ | ⟨accepted, kept, result⟩ | ⟨c, same, above, result⟩
    · rw [result]
      simp [writes, not_le.mpr trimmed]
    · rw [result]
      simp only [writes, kept, accepted, and_self, and_true, recorded, lookup_insert]
      split <;> rfl
    · rw [result]
      simp [writes, same, not_le.mpr above]
  | trim e =>
    rw [receive_trim] at untrimmed ⊢
    have above : e ≤ d := (le_max_left _ _).trans untrimmed
    have same : (acceptor.store.trim e).decrees.lookup d = acceptor.store.decrees.lookup d := by
      ext vote
      rw [lookup_eq_some, lookup_eq_some, Store.mem_trim]
      exact and_iff_left above
    simp only [writes, recorded, same]
    rfl
  | syncResponse κ dvs =>
    rw [receive_syncResponse] at untrimmed ⊢
    simp only [writes, if_pos untrimmed, recorded, Store.insert, lookup_insertAll, map_map]
    cases dvs.lookup d <;> rfl
  | syncStart _ _ | syncAdvertise _ _ _ | syncRequest _ _ _ | queryDecrees _ _ =>
    rw [receive_other name acceptor _ trivial]
    rfl

omit [LinearOrder π] in
theorem recorded_eq_some :
    acceptor.recorded d = some write ↔ ∃ vote, (d, vote) ∈ acceptor.store.decrees ∧ write = ⟨.copied, vote.ballot⟩ := by
  simp only [recorded, map_eq_some_iff, lookup_eq_some, eq_comm (b := write)]

theorem keepsVotes_iff (request : Request N π V) :
    acceptor.KeepsVotes (acceptor.receive name request).1 ↔ Ascends acceptor.recorded (acceptor.writes request) := by
  constructor
  · intro keeps d earlier later before written
    obtain ⟨vote, stored, rfl⟩ := (recorded_eq_some acceptor).mp before
    have untrimmed := writes_untrimmed name acceptor written
    obtain ⟨_, present, above⟩ := keeps d vote untrimmed stored
    have after := receive_recorded name acceptor request untrimmed
    rw [written, map_some, some_or] at after
    obtain ⟨held, kept, same⟩ := (recorded_eq_some _).mp after
    have equal : later.ballot = held.ballot := congrArg Write.ballot same
    refine .inr ?_
    rw [equal, ← OrderedMap.functional present kept]
    exact above
  · intro ascends d vote untrimmed stored
    have before : acceptor.recorded d = some ⟨.copied, vote.ballot⟩ := (recorded_eq_some acceptor).mpr ⟨vote, stored, rfl⟩
    have after := receive_recorded name acceptor request untrimmed
    cases written : acceptor.writes request d with
    | none =>
      rw [written, map_none, none_or, before] at after
      obtain ⟨held, kept, same⟩ := (recorded_eq_some _).mp after
      exact ⟨held, kept, (congrArg Write.ballot same).le⟩
    | some write =>
      rw [written, map_some, some_or] at after
      obtain ⟨held, kept, same⟩ := (recorded_eq_some _).mp after
      have equal : write.ballot = held.ballot := congrArg Write.ballot same
      rcases ascends d _ write before written with ⟨own, _⟩ | above
      · cases own
      · exact ⟨held, kept, equal ▸ above⟩

/-- Later writes of a run concern decrees not trimmed so far, and its own votes are not below the ballot so far. -/
theorem runWrites_bounds (requests : List (Request N π V))
    (member : write ∈ runWrites name acceptor requests) (written : write d = some made) :
    acceptor.loop.sd ≤ d ∧ (made.origin = .own → acceptor.loop.b ≤ (made.ballot : Lifted (BallotId π))) := by
  induction requests generalizing acceptor with
  | nil => cases member
  | cons request rest ih =>
    have rises := receive_ascends name acceptor request
    cases member with
    | head =>
      refine ⟨rises.1.trans (writes_untrimmed name acceptor written), ?_⟩
      obtain ⟨_, b⟩ := made
      rintro ⟨⟩
      exact (writes_own name acceptor written).1
    | tail _ later =>
      obtain ⟨untrimmed, own⟩ := ih (acceptor.receive name request).1 later
      exact ⟨rises.1.trans untrimmed, fun vote => rises.2.trans (own vote)⟩

private theorem ascends_step (request : Request N π V) (keeps : acceptor.KeepsVotes (acceptor.receive name request).1)
    (bounds : ∀ d made, later d = some made → (acceptor.receive name request).1.loop.sd ≤ d ∧
      (made.origin = .own → (acceptor.receive name request).1.loop.b ≤ (made.ballot : Lifted (BallotId π)))) :
    Ascends (acceptor.receive name request).1.recorded later ↔
      Ascends acceptor.recorded later ∧ Ascends (acceptor.writes request) later := by
  have ascends := (keepsVotes_iff name acceptor request).mp keeps
  have copied {d : DecreeId} {write : Write π} (held : acceptor.recorded d = some write) : write.origin = .copied := by
    obtain ⟨_, _, rfl⟩ := (recorded_eq_some acceptor).mp held
    rfl
  constructor
  · intro after
    have through {d : DecreeId} {write made : Write π} (written : acceptor.writes request d = some write)
        (made' : later d = some made) : write.ballot ≤ made.ballot := by
      have now := receive_recorded name acceptor request (bounds d made made').1
      rw [written, map_some, some_or] at now
      rcases after d _ made now made' with ⟨own, _⟩ | above
      · cases own
      · exact above
    refine ⟨fun d earlier made held made' => .inr ?_, fun d write made written made' => .inr (through written made')⟩
    cases written : acceptor.writes request d with
    | none =>
      have now := receive_recorded name acceptor request (bounds d made made').1
      rw [written, map_none, none_or, held] at now
      rcases after d _ made now made' with ⟨own, _⟩ | above
      · rw [copied held] at own
        cases own
      · exact above
    | some write =>
      rcases ascends d earlier write held written with ⟨own, _⟩ | below
      · rw [copied held] at own
        cases own
      · exact below.trans (through written made')
  · rintro ⟨before, written⟩ d earlier made held made'
    obtain ⟨untrimmed, own⟩ := bounds d made made'
    rw [receive_recorded name acceptor request untrimmed] at held
    cases write : acceptor.writes request d with
    | none =>
      rw [write, map_none, none_or] at held
      exact before d earlier made held made'
    | some wrote =>
      rw [write, map_some, some_or] at held
      cases held
      refine .inr ?_
      rcases written d wrote made write made' with ⟨ownWrite, ownMade⟩ | above
      · obtain ⟨_, b⟩ := wrote
        cases ownWrite
        have reached := own ownMade
        rw [(writes_own name acceptor write).2] at reached
        exact WithBot.coe_le_coe.mp reached
      · exact above

/-- The recorded ballots never decrease along a run if and only if its writes
ascend, counting the store at the start as the first write. Pairs of the
acceptor's own votes need no check. -/
theorem neverRegresses_iff (requests : List (Request N π V)) :
    NeverRegresses name acceptor requests ↔
      (acceptor.recorded :: runWrites name acceptor requests).Pairwise Ascends := by
  induction requests generalizing acceptor with
  | nil => simp [NeverRegresses, runWrites]
  | cons request rest ih =>
    have bounds : ∀ later ∈ runWrites name (acceptor.receive name request).1 rest, ∀ d made, later d = some made →
        (acceptor.receive name request).1.loop.sd ≤ d ∧
        (made.origin = .own → (acceptor.receive name request).1.loop.b ≤ (made.ballot : Lifted (BallotId π))) :=
      fun later member d made written => runWrites_bounds name _ rest member written
    rw [NeverRegresses, runWrites, ih, List.pairwise_cons, List.pairwise_cons, List.pairwise_cons, keepsVotes_iff]
    constructor
    · rintro ⟨ascends, after, remaining⟩
      have keeps := (keepsVotes_iff name acceptor request).mpr ascends
      refine ⟨?_, ?_, remaining⟩
      · intro later member
        cases member with
        | head => exact ascends
        | tail _ inside => exact ((ascends_step name acceptor request keeps (bounds later inside)).mp (after later inside)).1
      · intro later inside
        exact ((ascends_step name acceptor request keeps (bounds later inside)).mp (after later inside)).2
    · rintro ⟨before, written, remaining⟩
      have ascends := before _ List.mem_cons_self
      have keeps := (keepsVotes_iff name acceptor request).mpr ascends
      refine ⟨ascends, ?_, remaining⟩
      intro later inside
      exact (ascends_step name acceptor request keeps (bounds later inside)).mpr
        ⟨before later (List.mem_cons_of_mem _ inside), written later inside⟩

/-- A peer advertises decree 0 and is asked for it; before it answers, the
acceptor votes for 8 in proposal 1. The answer then puts the peer's vote for 7
in proposal 0 back in its place. -/
def staleCopy : List (Request Nat Nat Nat) :=
  [.syncAdvertise ⟨5, 0⟩ 1 [(⟨0, 0⟩, ⟨0, 1⟩)], .prepare ⟨0, 0⟩ ⟨1, 2⟩ ⟨2, 0⟩, .syn ⟨0, 0⟩ ⟨1, 2⟩ ⟨2, 1⟩ 8,
    .syncResponse ⟨5, 0⟩ [(⟨0, 0⟩, ⟨⟨0, 1⟩, 7⟩)]]

theorem vote_regresses : ¬ ∀ (name : Nat) (acceptor : Acceptor Nat Nat) (requests : List (Request Nat Nat Nat)),
    NeverRegresses name acceptor requests := by
  intro never
  obtain ⟨_, _, _, keeps, _⟩ := never 0 (.start initialDecreeId .empty) staleCopy
  obtain ⟨later, stored, above⟩ := keeps ⟨0, 0⟩ ⟨⟨1, 2⟩, 8⟩ (by decide +kernel)
    (lookup_eq_some.mp (by decide +kernel))
  have overwritten := lookup_eq_some.mpr stored
  have copy : some later = some (⟨⟨0, 1⟩, 7⟩ : Vote Nat Nat) := overwritten.symm.trans (by decide +kernel)
  cases copy
  exact absurd above (by decide)

end Acceptor
end Halon.Paxos
