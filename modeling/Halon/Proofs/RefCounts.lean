import Halon.Recovery.RefCounts
import Mathlib.Data.List.Count

/-! A message is acknowledged only when no rule works on it. The count of a message
is the number of its rules as long as it is positive, provided that no rule takes
a message whose count is negative. -/

namespace Halon.Recovery
open Library OrderedMap Option

variable {R U : Type} [LinearOrder U]

def countOf (lsRefCount : OrderedMap U Int) (uuid : U) : Int := (lsRefCount.lookup uuid).getD 0

theorem countOf_todo (lsRefCount : OrderedMap U Int) (uuid other : U) :
    countOf (todo uuid lsRefCount) other = if other = uuid then countOf lsRefCount uuid + 1 else countOf lsRefCount other := by
  unfold countOf todo
  rw [lookup_insertWith]
  split
  next =>
    cases lsRefCount.lookup uuid with
    | none => rfl
    | some old => exact Int.add_comm 1 old
  next => rfl

theorem countOf_done (tracked : 0 < countOf lsRefCount uuid) (other : U) :
    countOf (done uuid lsRefCount) other = if other = uuid then countOf lsRefCount uuid - 1 else countOf lsRefCount other := by
  unfold countOf done at *
  rw [lookup_adjust]
  split
  next same =>
    subst same
    cases found : lsRefCount.lookup other with
    | none => simp [found] at tracked
    | some => rfl
  next => rfl

theorem update_positive (i : Int) : max 0 (ruleFinalizer.update i) = max 0 i := by
  unfold ruleFinalizer.update
  split
  next => omega
  next => rfl

theorem not_positive_of_removed (removed : ruleFinalizer.update i < -msgProcessedGap) : max 0 i = 0 := by
  rw [← update_positive]
  unfold msgProcessedGap at removed
  omega

theorem countOf_finalizer (lsRefCount : OrderedMap U Int) (uuid : U) :
    max 0 (countOf (ruleFinalizer lsRefCount).2 uuid) = max 0 (countOf lsRefCount uuid) := by
  unfold countOf
  change max 0 ((((lsRefCount.mapValues ruleFinalizer.update).filter _).lookup uuid).getD 0) = _
  rw [lookup_filter fun i => !decide (i < -msgProcessedGap), lookup_mapValues]
  cases lsRefCount.lookup uuid with
  | none => rfl
  | some i =>
    rw [map_some, filter_some]
    split
    next => exact update_positive i
    next gone =>
      have removed : ruleFinalizer.update i < -msgProcessedGap := by simpa using gone
      exact (not_positive_of_removed removed).symm

theorem countOf_removed {lsRefCount : OrderedMap U Int} (removed : uuid ∈ (ruleFinalizer lsRefCount).1) :
    max 0 (countOf lsRefCount uuid) = 0 := by
  obtain ⟨count, member⟩ := mem_keys.mp removed
  obtain ⟨member, below⟩ := mem_filter.mp member
  have found : (lsRefCount.mapValues ruleFinalizer.update).lookup uuid = some count := lookup_eq_some.mpr member
  rw [lookup_mapValues] at found
  obtain ⟨i, present, rfl⟩ := map_eq_some_iff.mp found
  unfold countOf
  rw [present]
  exact not_positive_of_removed (of_decide_eq_true below)

namespace RefCounts
variable {s s' : RefCounts R U}

/-- A positive count is the number of rules that work on the message, and otherwise none does. -/
def Tracks (s : RefCounts R U) : Prop := ∀ uuid, (s.outstanding uuid : Int) = max 0 (countOf s.lsRefCount uuid)

/-- A rule takes a message only if its count is not negative. -/
def Unreleased (s : RefCounts R U) : Action R U → Prop
  | .todo _ uuid => 0 ≤ countOf s.lsRefCount uuid
  | _ => True

instance (s : RefCounts R U) : (action : Action R U) → Decidable (s.Unreleased action)
  | .todo _ uuid => inferInstanceAs (Decidable (0 ≤ countOf s.lsRefCount uuid))
  | .done .. | .finalize => isTrue trivial

theorem todo_tracks (tracks : s.Tracks) (unreleased : 0 ≤ countOf s.lsRefCount uuid) :
    ({ s with lsRefCount := Recovery.todo uuid s.lsRefCount, working := (rule, uuid) :: s.working } : RefCounts R U).Tracks := by
  intro other
  have before := tracks other
  change ((((rule, uuid) :: s.working).countP fun work => decide (work.2 = other) : Nat) : Int) = _
  rw [List.countP_cons, countOf_todo]
  change ((s.outstanding other + _ : Nat) : Int) = _
  by_cases same : other = uuid
  · subst same
    simp only [if_true, decide_true]
    omega
  · have different : ¬ uuid = other := fun equal => same equal.symm
    simp only [same, different, if_false, decide_false, Bool.false_eq_true, Nat.add_zero]
    exact before

variable [DecidableEq R]

theorem done_tracks (tracks : s.Tracks) (taken : (rule, uuid) ∈ s.working) :
    ({ s with lsRefCount := Recovery.done uuid s.lsRefCount, working := s.working.erase (rule, uuid) } :
    RefCounts R U).Tracks := by
  have some : 0 < s.outstanding uuid := List.countP_pos_iff.mpr ⟨_, taken, decide_eq_true rfl⟩
  have positive : 0 < countOf s.lsRefCount uuid := by
    have counted := tracks uuid
    omega
  intro other
  have before := tracks other
  change (((s.working.erase (rule, uuid)).countP fun work => decide (work.2 = other) : Nat) : Int) = _
  rw [List.countP_erase, countOf_done positive]
  change ((s.outstanding other - _ : Nat) : Int) = _
  by_cases same : other = uuid
  · subst same
    simp only [taken, if_true, decide_true, and_self]
    omega
  · have different : ¬ uuid = other := fun equal => same equal.symm
    simp only [same, different, if_false, decide_false, Bool.false_eq_true, and_false, Nat.sub_zero]
    exact before

structure Valid (s : RefCounts R U) : Prop where
  tracks : s.Tracks
  acknowledged : ∀ report ∈ s.acknowledged, report.2 = 0

theorem step_valid (valid : s.Valid) (unreleased : s.Unreleased action) (moves : step s action = some s') :
    s'.Valid := by
  cases action with
  | todo =>
    cases moves
    exact ⟨todo_tracks valid.tracks unreleased, valid.acknowledged⟩
  | done =>
    unfold step at moves
    dsimp only at moves
    split at moves
    next taken =>
      cases moves
      exact ⟨done_tracks valid.tracks taken, valid.acknowledged⟩
    next => cases moves
  | finalize =>
    cases moves
    refine ⟨?_, List.forall_mem_append.mpr ⟨valid.acknowledged, ?_⟩⟩
    · intro uuid
      exact (valid.tracks uuid).trans (countOf_finalizer s.lsRefCount uuid).symm
    · intro report member
      obtain ⟨uuid, removed, rfl⟩ := List.mem_map.mp member
      have counted := valid.tracks uuid
      rw [countOf_removed removed] at counted
      exact Int.natCast_eq_zero.mp counted

/-- In every run in which no rule takes a message whose count is negative, the count of a message that rules work
on is positive, and whenever a message was acknowledged no rule worked on it. -/
theorem acknowledged_when_done (run : Run step Unreleased start s) :
    (∀ rule uuid, (rule, uuid) ∈ s.working → ∃ count, s.lsRefCount.lookup uuid = some count ∧ 0 < count) ∧
      ∀ report ∈ s.acknowledged, report.2 = 0 := by
  have valid : s.Valid := by
    apply run.invariant
    · exact ⟨fun _ => rfl, nofun⟩
    · exact fun _ _ _ kept unreleased moves => step_valid kept unreleased moves
  refine ⟨?_, valid.acknowledged⟩
  intro rule uuid working
  have some : 0 < s.outstanding uuid := List.countP_pos_iff.mpr ⟨_, working, decide_eq_true rfl⟩
  have counted := valid.tracks uuid
  unfold countOf at counted
  cases found : s.lsRefCount.lookup uuid with
  | none =>
    rw [found, getD_none] at counted
    omega
  | some count =>
    rw [found, getD_some] at counted
    exact ⟨count, rfl, by omega⟩

theorem acknowledged_when_done_once : ∃ s : RefCounts Nat Nat, Run step Unreleased start s ∧ s.acknowledged = [(7, 0)] ∧
    (∀ rule uuid, (rule, uuid) ∈ s.working → ∃ count, s.lsRefCount.lookup uuid = some count ∧ 0 < count) ∧
    ∀ report ∈ s.acknowledged, report.2 = 0 := by
  exact exists_run_and ([.todo 1 7, .todo 2 7, .done 1 7, .finalize, .done 2 7] ++ List.replicate 11 .finalize ++ [.todo 3 8])
    (by decide) fun _ run _ => acknowledged_when_done run

/-- A rule that takes a message after a round of the finalizer does not make its count positive again. The
message is acknowledged while the rule works on it. -/
theorem acknowledged_too_early : ¬ ∀ s : RefCounts Nat Nat, Run step (fun _ _ => True) start s →
    (∀ rule uuid, (rule, uuid) ∈ s.working → ∃ count, s.lsRefCount.lookup uuid = some count ∧ 0 < count) ∧
      ∀ report ∈ s.acknowledged, report.2 = 0 := by
  intro sound
  obtain ⟨s, run, acknowledged⟩ : ∃ s : RefCounts Nat Nat, Run step (fun _ _ => True) start s ∧ s.acknowledged = [(7, 1)] :=
    exists_run ([.todo 1 7, .done 1 7, .finalize, .todo 2 7] ++ List.replicate 11 .finalize) (by decide)
  have none := (sound s run).2 (7, 1) (acknowledged ▸ List.mem_singleton.mpr rfl)
  cases none

end RefCounts
end Halon.Recovery
