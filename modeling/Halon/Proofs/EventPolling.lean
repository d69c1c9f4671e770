import Halon.EventQueue

/-! Polling loses no event. What is stored below the cursor of the poller was sent,
as long as no event is added while the cursor is ahead of the sequence numbers. -/

namespace Halon
open Library OrderedMap Option

variable {U P : Type} [LinearOrder U]

namespace EventQueue

/-- Every event is stored under its identifier, and its number is known and was handed out. -/
structure Valid (eq : EventQueue U P) : Prop where
  named : ∀ uuid msg n, eq.eqMap.lookup uuid = some (msg, n) → msg.persistMessageId = uuid
  numbered : ∀ uuid msg n, eq.eqMap.lookup uuid = some (msg, n) → eq.eqSnMap.lookup n = some uuid
  below : ∀ n uuid, eq.eqSnMap.lookup n = some uuid → n < eq.eqSN

variable {eq : EventQueue U P} {msg : PersistMessage U P} {n : Nat}

theorem empty_valid : (emptyEventQueue : EventQueue U P).Valid := by
  constructor <;> intro _ _ _ <;> simp_all [emptyEventQueue]

theorem addSerializedEvent_valid (valid : eq.Valid) : (eq.addSerializedEvent msg).Valid := by
  unfold addSerializedEvent
  split
  next =>
    constructor
    · intro uuid stored n found
      rw [lookup_insert] at found
      split at found
      next same =>
        cases found
        exact same.symm
      next => exact valid.named uuid stored n found
    · intro uuid stored n found
      rw [lookup_insert] at found
      split at found
      next same =>
        cases found
        rw [same]
        exact lookup_insert_self _ _ _
      next =>
        have old := valid.numbered uuid stored n found
        have earlier := valid.below n uuid old
        dsimp only
        rw [lookup_insert_ne _ _ earlier.ne]
        exact old
    · intro n uuid found
      dsimp only at found ⊢
      rw [lookup_insert] at found
      split at found
      next => omega
      next =>
        have earlier := valid.below n uuid found
        omega
  next => exact valid

theorem lookup_filterEvent (found : (eq.filterEvent eid).eqMap.lookup uuid = some stored) : uuid ≠ eid ∧
    eq.eqMap.lookup uuid = some stored := by
  change (eq.eqMap.delete eid).lookup uuid = some stored at found
  rw [lookup_delete] at found
  split at found
  next => cases found
  next different => exact ⟨different, found⟩

theorem filterEvent_valid (valid : eq.Valid) : (eq.filterEvent eid).Valid := by
  constructor
  · intro uuid stored n found
    exact valid.named uuid stored n (lookup_filterEvent found).2
  · intro uuid stored n found
    obtain ⟨different, old⟩ := lookup_filterEvent found
    have number := valid.numbered uuid stored n old
    unfold filterEvent
    dsimp only
    split
    next removed present =>
      rw [lookup_delete, if_neg]
      · exact number
      · rintro rfl
        have other := valid.numbered eid removed.1 removed.2 present
        exact different (Option.some.inj (number.symm.trans other))
    next => exact number
  · intro n uuid found
    unfold filterEvent at found
    dsimp only at found
    split at found
    next =>
      rw [lookup_delete] at found
      split at found
      next => cases found
      next => exact valid.below n uuid found
    next => exact valid.below n uuid found

/-- A number that is known is the number of an event that is stored. -/
def Backed (eq : EventQueue U P) : Prop := ∀ n uuid, eq.eqSnMap.lookup n = some uuid → ∃ msg, eq.eqMap.lookup uuid = some (msg, n)

theorem addSerializedEvent_backed (backed : eq.Backed) : (eq.addSerializedEvent msg).Backed := by
  unfold addSerializedEvent
  split
  next absent =>
    intro n uuid found
    dsimp only at found ⊢
    rw [lookup_insert] at found
    split at found
    next same =>
      cases found
      rw [same, lookup_insert_self]
      exact ⟨msg, rfl⟩
    next =>
      obtain ⟨stored, old⟩ := backed n uuid found
      refine ⟨stored, ?_⟩
      rw [lookup_insert_ne]
      · exact old
      · rintro rfl
        rw [absent] at old
        cases old
  next => exact backed

theorem filterEvent_backed (backed : eq.Backed) : (eq.filterEvent eid).Backed := by
  have kept {n : Nat} {uuid : U} (different : uuid ≠ eid) (found : eq.eqSnMap.lookup n = some uuid) :
      ∃ stored, (eq.eqMap.delete eid).lookup uuid = some (stored, n) := by
    rw [lookup_delete, if_neg different]
    exact backed n uuid found
  intro n uuid found
  unfold filterEvent at found ⊢
  dsimp only at found ⊢
  split at found
  next present =>
    rw [lookup_delete] at found
    split at found
    next => cases found
    next other =>
      refine kept ?_ found
      rintro rfl
      obtain ⟨_, old⟩ := backed n uuid found
      rw [present] at old
      cases old
      exact other rfl
  next absent =>
    refine kept ?_ found
    rintro rfl
    obtain ⟨_, old⟩ := backed n uuid found
    rw [absent] at old
    cases old

theorem update_valid (valid : eq.Valid ∧ eq.Backed) (u : Update U P) : (eq.update u).Valid ∧ (eq.update u).Backed := by
  cases u with
  | add => exact ⟨addSerializedEvent_valid valid.1, addSerializedEvent_backed valid.2⟩
  | remove => exact ⟨filterEvent_valid valid.1, filterEvent_backed valid.2⟩
  | clear => exact ⟨empty_valid, nofun⟩

theorem updates_valid (us : List (Update U P)) (valid : eq.Valid ∧ eq.Backed) :
    (us.foldl update eq).Valid ∧ (us.foldl update eq).Backed := by
  induction us generalizing eq with
  | nil => exact valid
  | cons u us ih => exact ih (update_valid valid u)

/-- After any updates the two maps are inverse to each other, an event is stored under its own identifier, and
all numbers were handed out. -/
theorem maps_inverse (us : List (Update U P)) :
    (∀ uuid n, (∃ msg, (us.foldl update emptyEventQueue).eqMap.lookup uuid = some (msg, n)) ↔
      (us.foldl update emptyEventQueue).eqSnMap.lookup n = some uuid) ∧
    (∀ uuid msg n, (us.foldl update emptyEventQueue).eqMap.lookup uuid = some (msg, n) →
      msg.persistMessageId = uuid ∧ n < (us.foldl update emptyEventQueue).eqSN) ∧
    ∀ n uuid, (us.foldl update emptyEventQueue).eqSnMap.lookup n = some uuid → n < (us.foldl update emptyEventQueue).eqSN := by
  obtain ⟨valid, backed⟩ := updates_valid us ⟨empty_valid, nofun⟩
  refine ⟨?_, ?_, valid.below⟩
  · intro uuid n
    exact ⟨fun ⟨msg, stored⟩ => valid.numbered uuid msg n stored, backed n uuid⟩
  · intro uuid msg n stored
    exact ⟨valid.named uuid msg n stored, valid.below n uuid (valid.numbered uuid msg n stored)⟩

theorem mem_eqReadEvents (valid : eq.Valid) (stored : eq.eqMap.lookup uuid = some (msg, n)) (after : sn ≤ n) :
    msg ∈ (eq.eqReadEvents sn).2 := by
  have number := valid.numbered uuid msg n stored
  refine List.mem_filterMap.mpr ⟨uuid, ?_, by rw [stored, map_some]⟩
  have later : sn < n → uuid ∈ (eq.eqSnMap.above sn).entries.map Prod.snd := by
    intro beyond
    refine List.mem_map.mpr ⟨(n, uuid), ?_, rfl⟩
    exact mem_filter.mpr ⟨lookup_eq_some.mp number, decide_eq_true beyond⟩
  rcases after.eq_or_lt with rfl | beyond
  · rw [number]
    exact List.mem_cons_self
  · split
    next => exact List.mem_cons_of_mem _ (later beyond)
    next => exact later beyond

end EventQueue

namespace Polling
variable {s s' : Polling U P}

structure Valid (s : Polling U P) : Prop where
  queue : s.queue.Valid
  sent : ∀ uuid msg n, s.queue.eqMap.lookup uuid = some (msg, n) → n < s.poller.cursor → msg ∈ s.poller.sent
  answer : ∀ answer ∈ s.poller.answer, ∀ uuid msg n, s.queue.eqMap.lookup uuid = some (msg, n) → n < answer.1 →
    msg ∈ s.poller.sent ∨ msg ∈ answer.2

/-- A new event is added only when neither the cursor of the poller nor an answer on
its way to the poller is ahead of the sequence numbers. -/
def Trailing (s : Polling U P) : Action U P → Prop
  | .add msg => s.queue.eqMap.lookup msg.persistMessageId = none →
      s.poller.cursor ≤ s.queue.eqSN ∧ ∀ answer ∈ s.poller.answer, answer.1 ≤ s.queue.eqSN
  | _ => True

instance [DecidableEq P] (s : Polling U P) : (action : Action U P) → Decidable (s.Trailing action)
  | .add _ => inferInstanceAs (Decidable (_ = none → _ ≤ _ ∧ ∀ _ ∈ _, _))
  | .trim _ | .clear | .spawn | .read | .forward => isTrue trivial

theorem start_valid : (start : Polling U P).Valid :=
  ⟨EventQueue.empty_valid, fun _ _ n _ below => absurd below n.not_lt_zero, fun _ none => absurd none (not_mem_none _)⟩

theorem found_before {q : EventQueue U P} (behind : q.eqMap.lookup msg.persistMessageId = none → bound ≤ q.eqSN)
    (found : (q.addSerializedEvent msg).eqMap.lookup uuid = some (stored, n)) (below : n < bound) :
    q.eqMap.lookup uuid = some (stored, n) := by
  unfold EventQueue.addSerializedEvent at found
  split at found
  next absent =>
    rw [lookup_insert] at found
    split at found
    next =>
      cases found
      exact absurd below (behind absent).not_gt
    next => exact found
  next => exact found

theorem add_valid (valid : s.Valid) (trailing : s.Trailing (.add msg)) :
    ({ s with queue := s.queue.addSerializedEvent msg } : Polling U P).Valid := by
  refine ⟨EventQueue.addSerializedEvent_valid valid.queue, ?_, ?_⟩
  · intro uuid stored n found below
    exact valid.sent uuid stored n (found_before (fun absent => (trailing absent).1) found below) below
  · intro answer waiting uuid stored n found below
    exact valid.answer answer waiting uuid stored n
      (found_before (fun absent => (trailing absent).2 answer waiting) found below) below

theorem step_valid (valid : s.Valid) (trailing : s.Trailing action) (moves : step s action = some s') :
    s'.Valid := by
  cases action with
  | add =>
    cases moves
    exact add_valid valid trailing
  | trim =>
    cases moves
    refine ⟨EventQueue.filterEvent_valid valid.queue, ?_, ?_⟩
    · intro uuid msg n found
      exact valid.sent uuid msg n (EventQueue.lookup_filterEvent found).2
    · intro answer waiting uuid msg n found
      exact valid.answer answer waiting uuid msg n (EventQueue.lookup_filterEvent found).2
  | clear =>
    cases moves
    exact ⟨EventQueue.empty_valid, fun _ _ _ found => absurd found (by simp [EventQueue.clearQueue, emptyEventQueue]),
      fun _ _ _ _ _ found => absurd found (by simp [EventQueue.clearQueue, emptyEventQueue])⟩
  | spawn =>
    cases moves
    exact ⟨valid.queue, fun _ _ n _ below => absurd below n.not_lt_zero, fun _ none => absurd none (not_mem_none _)⟩
  | read =>
    cases moves
    refine ⟨valid.queue, valid.sent, ?_⟩
    rintro answer ⟨⟩ uuid msg n found _
    rcases Nat.lt_or_ge n s.poller.cursor with before | after
    · exact .inl (valid.sent uuid msg n found before)
    · exact .inr (EventQueue.mem_eqReadEvents valid.queue found after)
  | forward =>
    obtain ⟨answer, waiting, same⟩ := map_eq_some_iff.mp moves
    cases same
    refine ⟨valid.queue, ?_, fun _ none => absurd none (not_mem_none _)⟩
    intro uuid msg n found below
    exact List.mem_append.mpr (valid.answer answer waiting uuid msg n found below)

/-- In every run in which no event is added while the poller is ahead, every event that is
stored with a number below the cursor of the poller was sent by it. -/
theorem polling_complete (run : Run step Trailing start s) : ∀ uuid msg n,
    s.queue.eqMap.lookup uuid = some (msg, n) → n < s.poller.cursor → msg ∈ s.poller.sent := by
  have valid : s.Valid := run.invariant start_valid fun _ _ _ kept trailing moves => step_valid kept trailing moves
  exact valid.sent

namespace Example

def event (n : Nat) : PersistMessage Nat Unit := ⟨n, ()⟩

end Example

open Example in
theorem polling_complete_cleared : ∃ s : Polling Nat Unit, Run step Trailing start s ∧
    s.queue.eqMap.lookup 2 = some (event 2, 0) ∧ s.poller.cursor = 1 ∧ event 2 ∈ s.poller.sent := by
  obtain ⟨s, run, stored, cursor⟩ : ∃ s : Polling Nat Unit, Run step Trailing start s ∧
      s.queue.eqMap.lookup 2 = some (event 2, 0) ∧ s.poller.cursor = 1 :=
    exists_run [.add (event 1), .read, .forward, .clear, .read, .forward, .add (event 2), .read, .forward] (by decide)
  exact ⟨s, run, stored, cursor, polling_complete run 2 (event 2) 0 stored (cursor ▸ by decide)⟩

open Example in
/-- An event that is added after the queue was cleared is below the cursor from the start, and is never sent. -/
theorem polling_misses_event : ¬ ∀ s : Polling Nat Unit, Run step (fun _ _ => True) start s → ∀ uuid msg n,
    s.queue.eqMap.lookup uuid = some (msg, n) → n < s.poller.cursor → msg ∈ s.poller.sent := by
  intro complete
  obtain ⟨s, run, stored, cursor, missing⟩ : ∃ s : Polling Nat Unit, Run step (fun _ _ => True) start s ∧
      s.queue.eqMap.lookup 2 = some (event 2, 0) ∧ s.poller.cursor = 1 ∧ event 2 ∉ s.poller.sent :=
    exists_run [.add (event 1), .read, .forward, .clear, .add (event 2), .read, .forward] (by decide)
  exact missing (complete s run 2 (event 2) 0 stored (cursor ▸ by decide))

end Polling
end Halon
