import Halon.Cep.Buffer
import Halon.Library.Service

/-! The buffer as a list. Messages of all types stand in one map, ordered by type and then
by index; a list of arrivals in which the messages wait in the order of their indexes
answers every request in the same way. -/

namespace Halon.Cep
open Library OrderedMap Option
variable {P : Type}

structure Arrivals (P : Type) where
  entries : List (Int × Message P)
  nextIndex : Int
  ascending : entries.Pairwise fun first second => first.1 < second.1
  below : ∀ entry ∈ entries, entry.1 < nextIndex

namespace Arrivals

def empty : Arrivals P := ⟨[], 0, .nil, nofun⟩

def insert (e : Message P) (q : Arrivals P) : Arrivals P where
  entries := q.entries ++ [(q.nextIndex, e)]
  nextIndex := q.nextIndex + 1
  ascending := by
    refine List.pairwise_append.mpr ⟨q.ascending, List.pairwise_singleton _ _, ?_⟩
    intro entry member new last
    rw [List.mem_singleton.mp last]
    exact q.below entry member
  below := by
    intro entry member
    rcases List.mem_append.mp member with earlier | last
    · exact (q.below entry earlier).trans (Int.lt_succ _)
    · rw [List.mem_singleton.mp last]
      exact Int.lt_succ _

def keep (kept : Int × Message P → Bool) (q : Arrivals P) : Arrivals P where
  entries := q.entries.filter kept
  nextIndex := q.nextIndex
  ascending := q.ascending.filter kept
  below entry member := q.below entry (List.mem_of_mem_filter member)

def first (type : Nat) (i : Int) (q : Arrivals P) : Option (Int × Message P) :=
  q.entries.find? fun entry => entry.2.fingerprint = type ∧ i < entry.1

def remove (i : Int) (q : Arrivals P) : Arrivals P := q.keep fun entry => decide (entry.1 ≠ i)

def drop (i : Int) (q : Arrivals P) : Arrivals P := q.keep fun entry => decide (i ≤ entry.1)

def perform (q : Arrivals P) : BufferInput P → Option (Int × Message P) × Arrivals P
  | .Insert e => (none, q.insert e)
  | .Get type i =>
    match q.first type i with
    | none => (none, q)
    | some found => (some found, q.remove found.1)
  | .Peek type i => (q.first type i, q)
  | .Drop i => (none, q.drop i)

/-- The entry waits for a request for its type after an index, and none before it does. -/
structure Next (q : Arrivals P) (type : Nat) (i : Int) (entry : Int × Message P) : Prop where
  member : entry ∈ q.entries
  typed : entry.2.fingerprint = type
  after : i < entry.1
  least : ∀ other ∈ q.entries, other.2.fingerprint = type → i < other.1 → entry.1 ≤ other.1

variable {q : Arrivals P} {type : Nat} {i : Int} {entry other : Int × Message P}

theorem eq_of_index (member : entry ∈ q.entries) (inside : other ∈ q.entries) (same : entry.1 = other.1) : entry = other := by
  have distinct : (q.entries.map Prod.fst).Nodup := List.pairwise_map.mpr (q.ascending.imp fun before => before.ne)
  exact List.inj_on_of_nodup_map distinct member inside same

theorem first_next (found : q.first type i = some entry) : q.Next type i entry := by
  obtain ⟨fits, _, _, split, passed⟩ := List.find?_eq_some_iff_append.mp found
  obtain ⟨typed, after⟩ := of_decide_eq_true fits
  have ascending := q.ascending
  rw [split] at ascending
  refine ⟨split ▸ List.mem_append_right _ List.mem_cons_self, typed, after, ?_⟩
  intro other member wanted beyond
  rw [split] at member
  rcases List.mem_append.mp member with early | rest
  · have skipped := of_decide_eq_false ((Bool.not_eq_true' _).mp (passed other early))
    exact absurd ⟨wanted, beyond⟩ skipped
  · rcases List.mem_cons.mp rest with rfl | after
    · exact le_refl _
    · exact ((List.pairwise_cons.mp (List.pairwise_append.mp ascending).2.1).1 other after).le

theorem first_none (missing : q.first type i = none) : ∀ entry ∈ q.entries, entry.2.fingerprint = type → entry.1 ≤ i := by
  intro entry member typed
  have passed := List.find?_eq_none.mp missing entry member
  by_contra beyond
  exact passed (decide_eq_true ⟨typed, not_le.mp beyond⟩)

end Arrivals

namespace Buffer

def stored (b : Buffer P) : List (Int × Message P) := b.messages.entries.map fun entry => ((ofLex entry.1).2, entry.2)

/-- The buffer holds the entries of the list, each under its own type. -/
structure Lists (b : Buffer P) (q : Arrivals P) : Prop where
  typed : ∀ key e, (key, e) ∈ b.messages → (ofLex key).1 = e.fingerprint
  entries : b.stored.Perm q.entries
  next : b.nextIndex = q.nextIndex

theorem lists_empty (tpe : FIFOType) : (fifoBuffer tpe : Buffer P).Lists .empty :=
  ⟨fun _ _ member => absurd member (not_mem_empty _), .nil, rfl⟩

variable {b : Buffer P} {q : Arrivals P} {type : Nat} {i : Int} {e : Message P}

namespace Lists

variable (lists : b.Lists q)
include lists

theorem mem_entries : (i, e) ∈ q.entries ↔ (toLex (e.fingerprint, i), e) ∈ b.messages := by
  rw [← lists.entries.mem_iff, stored, List.mem_map]
  constructor
  · rintro ⟨⟨key, f⟩, member, same⟩
    cases same
    have own : toLex (f.fingerprint, (ofLex key).2) = key := by
      rw [← lists.typed key f member]
      rfl
    rw [own]
    exact member
  · intro member
    exact ⟨_, member, rfl⟩

theorem mem_messages (member : (key, e) ∈ b.messages) : key = toLex (e.fingerprint, (ofLex key).2) ∧
    ((ofLex key).2, e) ∈ q.entries := by
  refine ⟨?_, lists.entries.mem_iff.mp (List.mem_map.mpr ⟨(key, e), member, rfl⟩)⟩
  rw [← lists.typed key e member]
  rfl

theorem insert (e : Message P) :
    Lists { b with
      messages := b.messages.insert (toLex (e.fingerprint, b.nextIndex)) e
      nextIndex := b.nextIndex + 1 } (q.insert e) := by
  have fresh : b.messages.lookup (toLex (e.fingerprint, b.nextIndex)) = none := by
    rw [lookup_eq_none]
    intro other member
    have below := q.below _ (lists.mem_messages member).2
    rw [← lists.next] at below
    exact absurd below (lt_irrefl _)
  refine ⟨?_, ?_, congrArg (· + 1) lists.next⟩
  · intro key other member
    rcases mem_insert.mp member with same | ⟨earlier, _⟩
    · cases same
      rfl
    · exact lists.typed key other earlier
  · have inserted := entries_insert_perm (toLex (e.fingerprint, b.nextIndex)) e b.messages
    rw [delete_eq_self fresh] at inserted
    have perm : (stored { b with
        messages := b.messages.insert (toLex (e.fingerprint, b.nextIndex)) e
        nextIndex := b.nextIndex + 1 }).Perm
        ((b.nextIndex, e) :: b.stored) := inserted.map _
    rw [lists.next] at perm ⊢
    exact perm.trans ((lists.entries.cons _).trans (List.perm_append_singleton _ _).symm)

theorem keep (kept : Int × Message P → Bool) :
    Lists { b with messages := b.messages.filter fun entry => kept ((ofLex entry.1).2, entry.2) } (q.keep kept) := by
  refine ⟨fun key other member => lists.typed key other (mem_filter.mp member).1, ?_, lists.next⟩
  have perm := lists.entries.filter kept
  rw [stored, List.filter_map] at perm
  exact perm

theorem drop (i : Int) : (bufferDrop i b).Lists (q.drop i) :=
  lists.keep fun entry => decide (i ≤ entry.1)

theorem remove (member : (i, e) ∈ q.entries) :
    Lists { b with messages := b.messages.delete (toLex (e.fingerprint, i)) } (q.remove i) := by
  have same : b.messages.delete (toLex (e.fingerprint, i)) =
      b.messages.filter fun entry => decide ((ofLex entry.1).2 ≠ i) := by
    apply ext_lookup
    intro key
    rw [lookup_delete]
    ext other
    rw [lookup_eq_some, mem_filter, decide_eq_true_eq]
    by_cases taken : key = toLex (e.fingerprint, i)
    · simp [taken]
    · rw [if_neg taken, lookup_eq_some]
      refine ⟨fun stored => ⟨stored, fun index => taken ?_⟩, And.left⟩
      obtain ⟨form, listed⟩ := lists.mem_messages stored
      rw [index] at form listed
      have equal := Arrivals.eq_of_index listed member rfl
      cases equal
      exact form
  rw [same]
  exact lists.keep fun entry => decide (entry.1 ≠ i)

/-- The least key after the given one is of the type that is asked for if any such message waits, and of another type
if none does. -/
theorem get (type : Nat) (i : Int) : bufferGetWithIndex type i b =
    (q.first type i).map fun found => (found.1, found.2, { b with messages := b.messages.delete (toLex (type, found.1)) }) := by
  have key_lt {j : Int} (beyond : i < j) : toLex (type, i) < toLex (type, j) := Prod.Lex.lt_iff.mpr (.inr ⟨rfl, beyond⟩)
  have listed {f : Message P} {j : Int} (member : (j, f) ∈ q.entries) (typed : f.fingerprint = type) :
    (toLex (type, j), f) ∈ b.messages :=
    typed ▸ lists.mem_entries.mp member
  unfold bufferGetWithIndex
  cases found : q.first type i with
  | some entry =>
    obtain ⟨j, f⟩ := entry
    have next := Arrivals.first_next found
    have least : b.messages.lookupGT (toLex (type, i)) = some (toLex (type, j), f) := by
      refine lookupGT_eq_some.mpr ⟨listed next.member next.typed, key_lt next.after, ?_⟩
      rintro ⟨key, other⟩ member above
      obtain ⟨form, waits⟩ := lists.mem_messages member
      rw [form] at above ⊢
      rcases Prod.Lex.lt_iff.mp above with larger | ⟨same, beyond⟩
      · exact Prod.Lex.le_iff.mpr (.inl larger)
      · exact Prod.Lex.le_iff.mpr (.inr ⟨same, next.least _ waits same.symm beyond⟩)
    rw [least, bind_eq_bind, bind_some]
    exact if_pos next.typed
  | none =>
    cases least : b.messages.lookupGT (toLex (type, i)) with
    | none => rfl
    | some entry =>
      obtain ⟨key, other⟩ := entry
      obtain ⟨member, above, _⟩ := lookupGT_eq_some.mp least
      obtain ⟨form, waits⟩ := lists.mem_messages member
      -- A message of the type would wait after the index, and there is none.
      have different : other.fingerprint ≠ type := by
        intro same
        rw [form, same] at above
        have beyond : i < (ofLex key).2 := (Prod.Lex.lt_iff.mp above).resolve_left (lt_irrefl type) |>.2
        exact absurd (Arrivals.first_none found _ waits same) (not_le.mpr beyond)
      rw [bind_eq_bind, bind_some]
      exact if_neg different

end Lists

structure Mirrors (b : Buffer P) (q : Arrivals P) : Prop where
  lists : b.Lists q
  unbounded : b.tpe = .Unbounded

theorem Mirrors.perform (mirrors : b.Mirrors q) (input : BufferInput P) :
    (b.perform input).1 = (q.perform input).1 ∧ (b.perform input).2.Mirrors (q.perform input).2 := by
  obtain ⟨lists, unbounded⟩ := mirrors
  cases input with
  | Insert e =>
    have inserted : bufferInsert e b =
        { b with messages := b.messages.insert (toLex (e.fingerprint, b.nextIndex)) e, nextIndex := b.nextIndex + 1 } := by
      unfold bufferInsert
      rw [unbounded]
    refine ⟨rfl, ?_, ?_⟩
    · change (bufferInsert e b).Lists (q.insert e)
      rw [inserted]
      exact lists.insert e
    · change (bufferInsert e b).tpe = .Unbounded
      rw [inserted]
      exact unbounded
  | Get type i =>
    simp only [Buffer.perform, Arrivals.perform, lists.get]
    cases found : q.first type i with
    | none => exact ⟨rfl, lists, unbounded⟩
    | some =>
      have next := Arrivals.first_next found
      refine ⟨rfl, ?_, unbounded⟩
      have removed := lists.remove next.member
      rw [next.typed] at removed
      exact removed
  | Peek =>
    refine ⟨?_, lists, unbounded⟩
    simp only [Buffer.perform, Arrivals.perform, bufferPeek, lists.get, map_map]
    exact map_id'
  | Drop i => exact ⟨rfl, lists.drop i, unbounded⟩

end Buffer

/-- An unbounded buffer behaves as the list of arrivals, whatever is asked of it: it answers the same, and holds the same
entries afterwards. What a request for a type takes out is the entry with the smallest index after the given one among
those of the type, and nothing is found only when there is none. -/
theorem buffer_refines_arrivals (inputs : List (BufferInput P)) :
    (serve Buffer.perform (fifoBuffer .Unbounded) inputs).1 = (serve Arrivals.perform .empty inputs).1 ∧
      (serve Buffer.perform (fifoBuffer .Unbounded) inputs).2.Lists (serve Arrivals.perform .empty inputs).2 ∧
      ∀ type i, match bufferGetWithIndex type i (serve Buffer.perform (fifoBuffer .Unbounded) inputs).2 with
        | some (j, e, rest) => (serve Arrivals.perform .empty inputs).2.Next type i (j, e) ∧
            rest.Lists ((serve Arrivals.perform .empty inputs).2.remove j)
        | none => ∀ entry ∈ (serve Arrivals.perform .empty inputs).2.entries, entry.2.fingerprint = type → entry.1 ≤ i := by
  have initial : (fifoBuffer .Unbounded : Buffer P).Mirrors .empty := ⟨Buffer.lists_empty .Unbounded, rfl⟩
  obtain ⟨answers, lists, _⟩ := serve_alike initial (fun _ _ input mirrors => mirrors.perform input) inputs
  refine ⟨answers, lists, fun type i => ?_⟩
  rw [lists.get]
  cases found : Arrivals.first type i (serve Arrivals.perform .empty inputs).2 with
  | none => exact Arrivals.first_none found
  | some =>
    have next := Arrivals.first_next found
    refine ⟨next, ?_⟩
    have removed := lists.remove next.member
    rw [next.typed] at removed
    exact removed

/-- Messages of two types: the second is passed over when the first is asked for, and found later. -/
example : (serve Buffer.perform (fifoBuffer .Unbounded : Buffer Unit)
    [.Insert ⟨2, ()⟩, .Insert ⟨1, ()⟩, .Get 1 (-1), .Get 1 (-1), .Peek 2 (-1)]).1 =
      [none, none, some (1, ⟨1, ()⟩), none, some (0, ⟨2, ()⟩)] := by decide

end Halon.Cep
