import Halon.Proofs.BufferRefinement

/-! What an unbounded buffer holds. A message stays in it until it is taken out, and one of
a type is found as long as there is one. -/

namespace Halon.Cep
open Library OrderedMap
variable {P : Type}

namespace Buffer

def contents (b : Buffer P) : List (Message P) := b.messages.entries.map Prod.snd

/-- The buffer is unbounded, and gave out indexes from zero on. -/
def Sound (b : Buffer P) : Prop := ∃ q, b.Mirrors q ∧ 0 ≤ q.nextIndex ∧ ∀ entry ∈ q.entries, 0 ≤ entry.1

theorem sound_empty : (emptyFifoBuffer : Buffer P).Sound :=
  ⟨.empty, ⟨lists_empty _, rfl⟩, le_rfl, fun _ member => absurd member List.not_mem_nil⟩

variable {b rest : Buffer P} {e : Message P} {type : Nat} {idx : Index} {q : Arrivals P}

theorem Mirrors.contents (mirrors : b.Mirrors q) : b.contents.Perm (q.entries.map Prod.snd) := by
  have perm := mirrors.lists.entries.map Prod.snd
  rw [stored, List.map_map] at perm
  exact perm

namespace Sound

theorem insert (sound : b.Sound) (e : Message P) : (bufferInsert e b).Sound := by
  obtain ⟨q, mirrors, next, indexed⟩ := sound
  refine ⟨q.insert e, (mirrors.perform (.Insert e)).2, Int.add_nonneg next Int.one_nonneg, ?_⟩
  intro entry member
  rcases List.mem_append.mp member with earlier | last
  · exact indexed entry earlier
  · rw [List.mem_singleton.mp last]
    exact next

theorem contents_insert (sound : b.Sound) (e : Message P) : (bufferInsert e b).contents.Perm (e :: b.contents) := by
  obtain ⟨q, mirrors, _⟩ := sound
  have after : (bufferInsert e b).Mirrors (q.insert e) := (mirrors.perform (.Insert e)).2
  refine after.contents.trans ?_
  rw [Arrivals.insert, List.map_append]
  exact (List.perm_append_singleton _ _).trans (mirrors.contents.symm.cons e)

theorem get_some (sound : b.Sound) (found : bufferGet type b = some (idx, e, rest)) :
    e.fingerprint = type ∧ b.contents.Perm (e :: rest.contents) ∧ rest.Sound := by
  obtain ⟨q, mirrors, next, indexed⟩ := sound
  obtain ⟨entry, first, same⟩ := Option.map_eq_some_iff.mp ((mirrors.lists.get type initIndex).symm.trans found)
  have waits := Arrivals.first_next first
  cases same
  have removed := mirrors.lists.remove waits.member
  have held := lookup_eq_some.mpr (mirrors.lists.mem_entries.mp waits.member)
  rw [waits.typed] at removed held
  refine ⟨waits.typed, (entries_perm_of_lookup held).map Prod.snd, q.remove entry.1, ⟨removed, mirrors.unbounded⟩, next, ?_⟩
  exact fun other member => indexed other (List.mem_of_mem_filter member)

theorem get_none (sound : b.Sound) (missing : bufferGet type b = none) : ∀ e ∈ b.contents, e.fingerprint ≠ type := by
  obtain ⟨q, mirrors, _, indexed⟩ := sound
  have none := Option.map_eq_none_iff.mp ((mirrors.lists.get type initIndex).symm.trans missing)
  intro e inside typed
  obtain ⟨entry, member, rfl⟩ := List.mem_map.mp (mirrors.contents.mem_iff.mp inside)
  have low := Arrivals.first_none none entry member typed
  exact absurd (indexed entry member) (not_le.mpr (low.trans_lt (by decide)))

end Sound
end Buffer
end Halon.Cep
