import Mathlib.Order.WithBot

/-! Ballot voting over an arbitrary quorum system. A history records who voted
for what in which ballot and the ballot below which each voter abstains. A vote
is safe when no other value can ever be chosen in an earlier ballot. -/

namespace Halon.Library

universe u v w

theorem majorities_meet {α : Type u} {members first second : List α}
    (firstDistinct : first.Nodup) (secondDistinct : second.Nodup)
    (firstInside : first ⊆ members) (secondInside : second ⊆ members)
    (exceed : members.length < first.length + second.length) :
    ∃ member, member ∈ first ∧ member ∈ second := by
  by_contra disjoint
  have apart : (first ++ second).Nodup := by
    refine List.nodup_append.mpr ⟨firstDistinct, secondDistinct, ?_⟩
    intro left inFirst right inSecond same
    exact disjoint ⟨left, inFirst, same ▸ inSecond⟩
  have bounded := apart.length_le_of_subset (List.append_subset.mpr ⟨firstInside, secondInside⟩)
  rw [List.length_append] at bounded
  omega

namespace Voting

variable {A : Type u} {B : Type v} {V : Type w} [LinearOrder B]

/-- Votes are never withdrawn; `floor` is the ballot below which a voter abstains from now on. -/
structure History (A : Type u) (B : Type v) (V : Type w) where
  voted : A → B → V → Prop
  floor : A → WithBot B

namespace History

def Abstains (history : History A B V) (voter : A) (ballot : B) : Prop :=
  (ballot : WithBot B) < history.floor voter ∧ ∀ value, ¬ history.voted voter ballot value

def Chosen (quorum : Set A → Prop) (history : History A B V) (ballot : B) (value : V) : Prop :=
  ∃ members, quorum members ∧ ∀ voter ∈ members, history.voted voter ballot value

/-- In every earlier ballot some quorum voted for this value or abstains for ever. -/
def SafeAt (quorum : Set A → Prop) (history : History A B V) (ballot : B) (value : V) : Prop :=
  ∀ earlier < ballot, ∃ members, quorum members ∧
    ∀ voter ∈ members, history.voted voter earlier value ∨ history.Abstains voter earlier

/-- Each ballot carries one value, and every vote is safe. -/
structure Valid (quorum : Set A → Prop) (history : History A B V) : Prop where
  single : ∀ {first second ballot value other}, history.voted first ballot value →
    history.voted second ballot other → value = other
  safe : ∀ {voter ballot value}, history.voted voter ballot value → history.SafeAt quorum ballot value

/-- Later histories keep the votes, raise the floors and respect the floors they found. -/
structure Extends (before after : History A B V) : Prop where
  voted : ∀ {voter ballot value}, before.voted voter ballot value → after.voted voter ballot value
  floor : ∀ voter, before.floor voter ≤ after.floor voter
  fresh : ∀ {voter ballot value}, after.voted voter ballot value →
    before.voted voter ballot value ∨ before.floor voter ≤ ballot

theorem Extends.refl (history : History A B V) : history.Extends history :=
  ⟨id, fun _ => le_rfl, .inl⟩

variable {before after : History A B V} {ballot : B} {value : V}

theorem Extends.abstains (grows : before.Extends after) (silent : before.Abstains voter ballot) :
    after.Abstains voter ballot := by
  refine ⟨silent.1.trans_le (grows.floor voter), ?_⟩
  intro value voted
  rcases grows.fresh voted with old | above
  · exact silent.2 value old
  · exact absurd silent.1 (not_lt.mpr above)

theorem Extends.safeAt (grows : before.Extends after) (safe : before.SafeAt quorum ballot value) :
    after.SafeAt quorum ballot value := by
  intro earlier lower
  obtain ⟨members, enough, each⟩ := safe earlier lower
  refine ⟨members, enough, fun voter inside => ?_⟩
  rcases each voter inside with voted | silent
  · exact .inl (grows.voted voted)
  · exact .inr (grows.abstains silent)

theorem Extends.chosen (grows : before.Extends after) (chosen : before.Chosen quorum ballot value) :
    after.Chosen quorum ballot value := by
  obtain ⟨members, enough, each⟩ := chosen
  exact ⟨members, enough, fun voter inside => grows.voted (each voter inside)⟩

variable {quorum : Set A → Prop} {history : History A B V}

theorem safeAt_of_silent (enough : quorum members) (value : V)
    (promised : ∀ voter ∈ members, (ballot : WithBot B) ≤ history.floor voter)
    (silent : ∀ voter ∈ members, ∀ earlier < ballot, ∀ other, ¬ history.voted voter earlier other) :
    history.SafeAt quorum ballot value := by
  intro earlier lower
  refine ⟨members, enough, fun voter inside => .inr ⟨?_, silent voter inside earlier lower⟩⟩
  exact (WithBot.coe_lt_coe.mpr lower).trans_le (promised voter inside)

/-- The value of the highest vote reported by a quorum that abstains below
`ballot` is safe there: above that vote the quorum is silent, at it the ballot
has one value, and below it the vote itself was safe. -/
theorem safeAt_of_highest (valid : history.Valid quorum) (enough : quorum members)
    (promised : ∀ voter ∈ members, (ballot : WithBot B) ≤ history.floor voter) (reported : history.voted reporter highest value)
    (silent : ∀ voter ∈ members, ∀ earlier < ballot, highest < earlier → ∀ other, ¬ history.voted voter earlier other) :
    history.SafeAt quorum ballot value := by
  intro earlier lower
  have behind : ∀ voter ∈ members, (earlier : WithBot B) < history.floor voter := fun voter inside =>
    (WithBot.coe_lt_coe.mpr lower).trans_le (promised voter inside)
  rcases lt_trichotomy earlier highest with below | same | above
  · exact valid.safe reported earlier below
  · subst same
    classical
    refine ⟨members, enough, fun voter inside => ?_⟩
    by_cases voted : ∃ other, history.voted voter earlier other
    · obtain ⟨_, voted⟩ := voted
      exact .inl (valid.single voted reported ▸ voted)
    · exact .inr ⟨behind voter inside, fun other cast => voted ⟨other, cast⟩⟩
  · exact ⟨members, enough, fun voter inside => .inr ⟨behind voter inside, silent voter inside earlier lower above⟩⟩

theorem later_vote_agrees (meets : ∀ first second, quorum first → quorum second → (first ∩ second).Nonempty)
    (valid : history.Valid quorum) (chosen : history.Chosen quorum ballot value) (voted : history.voted voter later other)
    (after : ballot ≤ later) : other = value := by
  obtain ⟨members, enough, each⟩ := chosen
  rcases after.eq_or_lt with same | lower
  · subst same
    obtain ⟨member, inside, _⟩ := meets members members enough enough
    exact valid.single voted (each member inside)
  · obtain ⟨witnesses, alsoEnough, safe⟩ := valid.safe voted ballot lower
    obtain ⟨member, inside, witness⟩ := meets members witnesses enough alsoEnough
    rcases safe member witness with same | silent
    · exact valid.single same (each member inside)
    · exact absurd (each member inside) (silent.2 value)

theorem agreement (meets : ∀ first second, quorum first → quorum second → (first ∩ second).Nonempty)
    (valid : history.Valid quorum) (first : history.Chosen quorum ballot value)
    (second : history.Chosen quorum later other) : value = other := by
  have vote {at' : B} {chosen : V} (choice : history.Chosen quorum at' chosen) :
      ∃ voter, history.voted voter at' chosen := by
    obtain ⟨members, enough, each⟩ := choice
    obtain ⟨member, inside, _⟩ := meets members members enough enough
    exact ⟨member, each member inside⟩
  rcases le_total ballot later with before | before
  · obtain ⟨_, voted⟩ := vote second
    exact (later_vote_agrees meets valid first voted before).symm
  · obtain ⟨_, voted⟩ := vote first
    exact later_vote_agrees meets valid second voted before

end History
end Voting
end Halon.Library
