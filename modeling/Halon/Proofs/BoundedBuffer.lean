import Halon.Proofs.BufferRefinement

/-! Buffers with a limit. The overflow rule counts indexes, not messages: a full buffer drops
what is older than the messages inserted last, which is the oldest message alone only
if none of those was taken out. -/

namespace Halon.Cep
open Library List Arrivals
variable {P : Type}

variable {xs : List Int}

private theorem span_le (ascending : (x :: xs).Pairwise (· < ·)) (below : ∀ y ∈ x :: xs, y < bound) :
    x + (xs.length + 1 : Nat) ≤ bound := by
  induction xs generalizing x with
  | nil =>
    have first := below x mem_cons_self
    simp only [length_nil]
    omega
  | cons y ys ih =>
    obtain ⟨above, rest⟩ := pairwise_cons.mp ascending
    have later := ih rest fun z member => below z (mem_cons_of_mem _ member)
    have next := above y mem_cons_self
    simp only [length_cons]
    omega

private theorem last_iff (ascending : xs.Pairwise (· < ·)) (below : ∀ x ∈ xs, x < bound) :
    (∀ x ∈ xs, bound - xs.length ≤ x) ↔ ∀ i, bound - xs.length ≤ i → i < bound → i ∈ xs := by
  induction xs with
  | nil =>
    simp only [not_mem_nil, false_imp_iff, implies_true, length_nil, true_iff]
    omega
  | cons x xs ih =>
    have span := span_le ascending below
    obtain ⟨above, rest⟩ := pairwise_cons.mp ascending
    have ih := ih rest fun z member => below z (mem_cons_of_mem _ member)
    simp only [length_cons] at span ⊢
    constructor
    · intro late i low high
      have first := late x mem_cons_self
      by_cases same : i = x
      · exact same ▸ mem_cons_self
      · apply mem_cons_of_mem
        refine ih.mp ?_ i (by omega) high
        intro y member
        have next := above y member
        omega
    · intro filled
      have others := ih.mpr (by
        intro i low high
        have member := filled i (by omega) high
        exact (mem_cons.mp member).resolve_left (by omega))
      intro y member
      rcases mem_cons.mp member with rfl | later
      · -- The lowest of the last indexes is the first one: the others are beyond it.
        rcases mem_cons.mp (filled (bound - (xs.length + 1 : Nat)) (le_refl _) (by omega)) with same | other
        · exact same.le
        · have beyond := others _ other
          omega
      · have beyond := others y later
        omega

namespace Arrivals
variable {q : Arrivals P} {limit : Nat} {e : Message P} {entry first : Int × Message P} {rest : List (Int × Message P)}

/-- The rule of the source: a full list loses what is older than its last messages. -/
def push (limit : Int) (e : Message P) (q : Arrivals P) : Arrivals P :=
  if limit ≤ q.entries.length then (q.insert e).drop (q.nextIndex + 1 - limit) else q.insert e

theorem mem_push (full : q.entries.length = limit) :
    entry ∈ (q.push limit e).entries ↔ (entry ∈ q.entries ∨ entry = (q.nextIndex, e)) ∧ q.nextIndex + 1 - limit ≤ entry.1 := by
  rw [push, if_pos (by omega), drop, keep]
  simp only [insert, mem_filter, mem_append, mem_singleton, decide_eq_true_eq]

theorem indexes_ascending (q : Arrivals P) : (q.entries.map Prod.fst).Pairwise (· < ·) := pairwise_map.mpr q.ascending

theorem indexes_below (q : Arrivals P) : ∀ i ∈ q.entries.map Prod.fst, i < q.nextIndex := by
  intro i member
  obtain ⟨entry, inside, rfl⟩ := mem_map.mp member
  exact q.below entry inside

theorem oldest_early (split : q.entries = (j, f) :: rest) : j + (rest.length + 1 : Nat) ≤ q.nextIndex := by
  have ascending := q.indexes_ascending
  have below := q.indexes_below
  rw [split, map_cons] at ascending below
  have span := span_le ascending below
  rw [length_map] at span
  exact span

theorem oldest_least (split : q.entries = first :: rest) : ∀ entry ∈ q.entries, first.1 ≤ entry.1 := by
  have ascending := q.ascending
  rw [split] at ascending ⊢
  intro entry member
  rcases mem_cons.mp member with rfl | later
  · exact le_refl _
  · exact ((pairwise_cons.mp ascending).1 entry later).le

theorem others_late_iff (split : q.entries = (j, f) :: rest) :
    (∀ entry ∈ rest, q.nextIndex - rest.length ≤ entry.1) ↔
      ∀ i, q.nextIndex - rest.length ≤ i → i < q.nextIndex → ∃ f, (i, f) ∈ q.entries := by
  have ascending := q.indexes_ascending
  have below := q.indexes_below
  have early := oldest_early split
  rw [split, map_cons] at ascending below
  have last := last_iff (pairwise_cons.mp ascending).2 fun i member => below i (mem_cons_of_mem _ member)
  rw [length_map, forall_mem_map] at last
  rw [last, split]
  refine forall_congr' fun i => forall_congr' fun low => forall_congr' fun _ => ?_
  constructor
  · intro member
    obtain ⟨⟨_, f⟩, inside, rfl⟩ := mem_map.mp member
    exact ⟨f, mem_cons_of_mem _ inside⟩
  · rintro ⟨f, member⟩
    rcases mem_cons.mp member with same | later
    · cases same
      omega
    · exact mem_map.mpr ⟨(i, f), later, rfl⟩

theorem length_push (some : 1 ≤ limit) (bounded : q.entries.length ≤ limit) : (q.push limit e).entries.length ≤ limit := by
  by_cases full : q.entries.length = limit
  · cases split : q.entries with
    | nil =>
      rw [split] at full
      simp only [length_nil] at full
      omega
    | cons first rest =>
      obtain ⟨j, f⟩ := first
      have early := oldest_early split
      have count : rest.length + 1 = limit := by
        rw [← full, split, length_cons]
      have gone : decide (q.nextIndex + 1 - (limit : Int) ≤ j) = false :=
        decide_eq_false (Int.not_le.mpr (by omega))
      have kept : (q.push limit e).entries = (rest ++ [(q.nextIndex, e)]).filter fun entry =>
          decide (q.nextIndex + 1 - (limit : Int) ≤ entry.1) := by
        rw [push, if_pos (by omega), drop, keep]
        simp only [insert, split, cons_append]
        exact filter_cons_of_neg (by rw [gone]; exact Bool.false_ne_true)
      rw [kept]
      have bound := length_filter_le (fun entry => decide (q.nextIndex + 1 - (limit : Int) ≤ entry.1))
        (rest ++ [(q.nextIndex, e)])
      simp only [length_append, length_singleton] at bound
      omega
  · rw [push, if_neg (by omega)]
    simp only [insert, length_append, length_singleton]
    omega

end Arrivals

namespace Buffer
variable {b : Buffer P} {q : Arrivals P} {limit : Nat} {e : Message P}

def KeepsAll (b : Buffer P) (e : Message P) : Prop :=
  ∀ entry, entry ∈ (bufferInsert e b).stored ↔ entry ∈ b.stored ∨ entry = (b.nextIndex, e)

/-- The insertion adds the message and loses the oldest one, and no other. -/
def DiscardsOldest (b : Buffer P) (e : Message P) : Prop :=
  ∃ oldest ∈ b.stored, (∀ entry ∈ b.stored, oldest.1 ≤ entry.1) ∧
    ∀ entry, entry ∈ (bufferInsert e b).stored ↔ entry ∈ b.stored ∧ entry ≠ oldest ∨ entry = (b.nextIndex, e)

/-- What is documented of an insertion: a full buffer discards its oldest message, any other buffer none. -/
def InsertsInto (limit : Nat) (b : Buffer P) (e : Message P) : Prop :=
  if bufferLength b < limit then b.KeepsAll e else b.DiscardsOldest e

/-- Of the messages inserted last, one fewer than the limit, none was taken out. -/
def HoldsRecent (limit : Nat) (b : Buffer P) : Prop :=
  ∀ i : Int, b.nextIndex - limit < i → i < b.nextIndex → ∃ f, (i, f) ∈ b.stored

structure Limited (limit : Nat) (b : Buffer P) (q : Arrivals P) : Prop where
  lists : b.Lists q
  bounded : b.tpe = .Bounded limit
  length : q.entries.length ≤ limit

theorem Lists.length_eq (lists : b.Lists q) : bufferLength b = q.entries.length := by
  rw [← lists.entries.length_eq, stored, length_map]
  rfl

theorem Lists.push (lists : b.Lists q) (bounded : b.tpe = .Bounded limit) :
    (bufferInsert e b).Lists (q.push limit e) ∧ (bufferInsert e b).tpe = .Bounded limit := by
  obtain ⟨tpe, _, nextIndex⟩ := b
  obtain rfl : tpe = .Bounded limit := bounded
  obtain rfl : nextIndex = q.nextIndex := lists.next
  unfold bufferInsert Arrivals.push
  simp only [lists.length_eq]
  split
  next => exact ⟨(lists.insert e).drop _, rfl⟩
  next => exact ⟨lists.insert e, rfl⟩

namespace Limited

theorem perform (limited : Limited limit b q) (some : 1 ≤ limit) (input : BufferInput P) :
    ∃ q', Limited limit (b.perform input).2 q' := by
  obtain ⟨lists, bounded, length⟩ := limited
  cases input with
  | Insert e =>
    obtain ⟨pushed, kept⟩ := lists.push (e := e) bounded
    exact ⟨_, pushed, kept, length_push some length⟩
  | Get type i =>
    simp only [Buffer.perform, lists.get]
    cases found : q.first type i with
    | none => exact ⟨q, lists, bounded, length⟩
    | some =>
      have next := first_next found
      have removed := lists.remove next.member
      rw [next.typed] at removed
      exact ⟨_, removed, bounded, (length_filter_le _ _).trans length⟩
  | Peek => exact ⟨q, lists, bounded, length⟩
  | Drop i => exact ⟨_, lists.drop i, bounded, (length_filter_le _ _).trans length⟩

theorem mem_inserted (limited : Limited limit b q) (full : q.entries.length = limit) :
    entry ∈ (bufferInsert e b).stored ↔ (entry ∈ q.entries ∨ entry = (q.nextIndex, e)) ∧ q.nextIndex + 1 - limit ≤ entry.1 := by
  rw [(limited.lists.push (e := e) limited.bounded).1.entries.mem_iff, mem_push full]

theorem keepsAll (limited : Limited limit b q) (room : q.entries.length < limit) : b.KeepsAll e := by
  intro entry
  rw [(limited.lists.push (e := e) limited.bounded).1.entries.mem_iff, limited.lists.entries.mem_iff, limited.lists.next,
    Arrivals.push, if_neg (by omega)]
  simp [Arrivals.insert]

/-- In a full buffer the oldest message is lost. The others are kept if they are the last ones. -/
theorem discardsOldest_iff (limited : Limited limit b q) (some : 1 ≤ limit) (full : q.entries.length = limit) :
    b.DiscardsOldest e ↔ b.HoldsRecent limit := by
  obtain ⟨lists, bounded, _⟩ := limited
  have limited : Limited limit b q := ⟨lists, bounded, full.le⟩
  cases split : q.entries with
  | nil =>
    rw [split, length_nil] at full
    omega
  | cons first rest =>
    obtain ⟨j, f⟩ := first
    have early := oldest_early split
    have least := oldest_least split
    have late := others_late_iff split
    have count : rest.length + 1 = limit := by
      rw [← full, split, length_cons]
    have recent : b.HoldsRecent limit ↔ ∀ entry ∈ rest, q.nextIndex - rest.length ≤ entry.1 := by
      rw [late, HoldsRecent, lists.next]
      simp only [lists.entries.mem_iff]
      refine forall_congr' fun i => ?_
      have bound : q.nextIndex - (limit : Int) < i ↔ q.nextIndex - (rest.length : Int) ≤ i := by
        constructor <;> intro above <;> omega
      rw [bound]
    have distinct {entry : Int × Message P} (member : entry ∈ rest) : entry ≠ (j, f) := by
      rintro rfl
      have ascending := q.ascending
      rw [split] at ascending
      exact lt_irrefl _ ((pairwise_cons.mp ascending).1 _ member)
    have inside : (j, f) ∈ q.entries := split ▸ mem_cons_self
    rw [recent]
    constructor
    · rintro ⟨oldest, member, smallest, kept⟩ entry later
      have same : oldest = (j, f) := by
        have listed := lists.entries.mem_iff.mp member
        exact eq_of_index listed inside
          (le_antisymm (smallest _ (lists.entries.mem_iff.mpr inside)) (least oldest listed))
      have waits : entry ∈ q.entries := split ▸ mem_cons_of_mem _ later
      have stays := (kept entry).mpr (.inl ⟨lists.entries.mem_iff.mpr waits, same ▸ distinct later⟩)
      have above := ((limited.mem_inserted full).mp stays).2
      omega
    · intro others
      refine ⟨(j, f), lists.entries.mem_iff.mpr inside, fun entry member => least entry (lists.entries.mem_iff.mp member), ?_⟩
      intro entry
      rw [limited.mem_inserted full, lists.entries.mem_iff, lists.next]
      constructor
      · rintro ⟨stored | new, above⟩
        · refine .inl ⟨stored, ?_⟩
          rintro rfl
          omega
        · exact .inr new
      · rintro (⟨stored, other⟩ | rfl)
        · refine ⟨.inl stored, ?_⟩
          rw [split] at stored
          have above := others entry ((mem_cons.mp stored).resolve_left other)
          omega
        · exact ⟨.inr rfl, by omega⟩

end Limited

/-- The buffer is as after some sequence of requests within the limit. -/
def Fits (limit : Nat) (b : Buffer P) : Prop := ∃ q, b.Limited limit q

theorem fits_empty (limit : Nat) : (fifoBuffer (.Bounded limit) : Buffer P).Fits limit :=
  ⟨.empty, lists_empty _, rfl, Nat.zero_le limit⟩

theorem fits_serve (some : 1 ≤ limit) (inputs : List (BufferInput P)) :
    (serve Buffer.perform (fifoBuffer (.Bounded limit)) inputs).2.Fits limit := by
  apply serve_kept (fits_empty limit)
  intro b input within
  obtain ⟨q, limited⟩ := within
  exact limited.perform some input

end Buffer

/-- A buffer with a limit never holds more messages, whatever is asked of it. An insertion is as documented if and only if,
when the buffer is full, the messages inserted last, one fewer than the limit, are all still there. -/
theorem bounded_buffer_iff {limit : Nat} (some : 1 ≤ limit) (inputs : List (BufferInput P)) :
    bufferLength (serve Buffer.perform (fifoBuffer (.Bounded limit)) inputs).2 ≤ limit ∧
      ∀ e, (serve Buffer.perform (fifoBuffer (.Bounded limit)) inputs).2.InsertsInto limit e ↔
        (bufferLength (serve Buffer.perform (fifoBuffer (.Bounded limit)) inputs).2 = limit →
          (serve Buffer.perform (fifoBuffer (.Bounded limit)) inputs).2.HoldsRecent limit) := by
  obtain ⟨q, limited⟩ := Buffer.fits_serve some inputs
  generalize (serve Buffer.perform (fifoBuffer (.Bounded limit)) inputs).2 = b at limited ⊢
  have count := limited.lists.length_eq
  have bound := limited.length
  refine ⟨count.le.trans bound, fun e => ?_⟩
  unfold Buffer.InsertsInto
  rw [count]
  split
  next room =>
    refine ⟨fun _ full => absurd full room.ne, fun _ => limited.keepsAll room⟩
  next =>
    have full : q.entries.length = limit := by omega
    rw [limited.discardsOldest_iff some full]
    exact ⟨fun recent _ => recent, fun recent => recent full⟩

/-- The message with the smallest index goes when nothing was taken out. -/
theorem bounded_buffer_two :
    (serve Buffer.perform (fifoBuffer (.Bounded 2)) [.Insert (⟨1, ()⟩ : Message Unit),
    .Insert ⟨2, ()⟩]).2.DiscardsOldest ⟨1, ()⟩ := by
  have documented := ((bounded_buffer_iff (by decide : 1 ≤ 2) [.Insert (⟨1, ()⟩ : Message Unit), .Insert ⟨2, ()⟩]).2
    ⟨1, ()⟩).mpr (by
    intro _ i low high
    have first : (0 : Int) < i := low
    have second : i < (2 : Int) := high
    have middle : i = 1 := by omega
    subst middle
    exact ⟨⟨2, ()⟩, by decide⟩)
  exact documented

/-- A buffer for three messages, of which the newest was taken out before two more came: the last insertion
discards two of the three. -/
theorem full_buffer_loses_two : ∃ b : Buffer Unit,
    (serve Buffer.perform (fifoBuffer (.Bounded 3))
      [.Insert ⟨1, ()⟩, .Insert ⟨1, ()⟩, .Insert ⟨2, ()⟩, .Get 2 (-1), .Insert ⟨1, ()⟩]).2 = b ∧ bufferLength b = 3 ∧
      b.stored.map Prod.fst = [0, 1, 3] ∧ (bufferInsert ⟨1, ()⟩ b).stored.map Prod.fst = [3, 4] ∧ ¬ b.InsertsInto 3 ⟨1, ()⟩ := by
  refine ⟨_, rfl, rfl, rfl, rfl, ?_⟩
  rintro ⟨oldest, _, least, stays⟩
  have zero : oldest.1 ≤ 0 := least (0, ⟨1, ()⟩) (by decide)
  have kept := (stays (1, ⟨1, ()⟩)).mpr (.inl ⟨by decide, fun same => by
    rw [← same] at zero
    exact absurd zero (by decide)⟩)
  exact absurd kept (by decide)

end Halon.Cep
