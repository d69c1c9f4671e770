import Mathlib.Data.List.Basic

/-! Selective receive: a process takes the first message of its mailbox that it accepts, and leaves the others. -/

namespace Halon.Library

universe u

variable {M : Type u} {accepts : M → Bool}

/-- The first message that is accepted, and the others. -/
def takeFirst (accepts : M → Bool) : List M → Option (M × List M)
  | [] => none
  | m :: rest => if accepts m then some (m, rest) else (takeFirst accepts rest).map fun found => (found.1, m :: found.2)

/-- The message that is received stands behind others that are not accepted, and all of the others stay. -/
theorem takeFirst_split (taken : takeFirst accepts mailbox = some (m, rest)) :
    accepts m ∧ ∃ before after, mailbox = before ++ m :: after ∧ rest = before ++ after ∧ ∀ other ∈ before, ¬ accepts other := by
  induction mailbox generalizing rest with
  | nil => cases taken
  | cons first _ ih =>
    unfold takeFirst at taken
    split at taken
    next accepted =>
      cases taken
      exact ⟨accepted, [], _, rfl, rfl, nofun⟩
    next refused =>
      obtain ⟨_, later, same⟩ := Option.map_eq_some_iff.mp taken
      cases same
      obtain ⟨accepted, before, after, rfl, left, passed⟩ := ih later
      exact ⟨accepted, first :: before, after, rfl, congrArg (first :: ·) left, List.forall_mem_cons.mpr ⟨refused, passed⟩⟩

theorem takeFirst_accepted (taken : takeFirst accepts mailbox = some (m, rest)) : accepts m = true := (takeFirst_split taken).1

theorem takeFirst_perm (taken : takeFirst accepts mailbox = some (m, rest)) : mailbox.Perm (m :: rest) := by
  obtain ⟨_, before, after, rfl, rfl, _⟩ := takeFirst_split taken
  exact List.perm_middle

theorem takeFirst_isSome (member : m ∈ mailbox) (accepted : accepts m = true) :
    ∃ found rest, takeFirst accepts mailbox = some (found, rest) := by
  induction mailbox with
  | nil => cases member
  | cons first _ ih =>
    unfold takeFirst
    split
    next => exact ⟨_, _, rfl⟩
    next refused =>
      rcases List.mem_cons.mp member with same | later
      · exact absurd (same ▸ accepted) refused
      · obtain ⟨found, rest, taken⟩ := ih later
        exact ⟨found, first :: rest, by rw [taken, Option.map_some]⟩

end Halon.Library
