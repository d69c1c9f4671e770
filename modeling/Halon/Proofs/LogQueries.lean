import Halon.Proofs.LogAgreement

/-! What a replica answers to a query. It looks in its log in memory, which is empty when it
starts, and not in the log that its node has persisted. What the log in memory holds follows from
the insertions, trims and starts so far. -/

namespace Halon.Log
open Library OrderedMap List Option

variable {A S : Type}

variable {st : ReplicaState A S}

/-- A query is handled without an error, and answered with the entry that is stored for its index. -/
def Answers [DecidableEq A] (config : Config) (machine : StateMachine A S) (here : Nat) (ph : PersistenceHandle A)
    (st : ReplicaState A S) (m : Moment) (ρ : Nat) (n : Int) : Prop :=
  ∃ next effects, handle config machine here m st (.message (.Query ρ n)) = some (.continues next effects) ∧
    ∀ v, ph.persistentLogMap.lookup n = some v → (ρ, .Decree 0 .Remote ⟨maxBound, n⟩ v) ∈ effects.sends

/-- A decree is sent in answer to a query only if the log in memory has it. -/
theorem Queried.found {next : ReplicaState A S} (queried : Queried ρ n st next effects)
    (sent : (ρ, .Decree 0 .Remote ⟨maxBound, n⟩ v) ∈ effects.sends) : st.log.lookup n = some v := by
  cases queried with
  | logged found =>
    cases mem_singleton.mp sent
    exact found
  | saved => cases mem_singleton.mp sent
  | missing => cases sent

namespace LogEvent

/-- The entry for the index stays in memory. -/
def Spares (n : Int) : LogEvent A → Prop
  | .wrote (.insertInLog m _) => m ≠ n
  | .wrote (.trimTheLog w0) => w0 ≤ n
  | .started => False
  | .turned => True

/-- The entry was inserted, and nothing has removed it or written over it since. -/
inductive InCache : List (LogEvent A) → Int → Value A → Prop where
  | inserted {n : Int} {v : Value A} {history : List (LogEvent A)} : InCache (.wrote (.insertInLog n v) :: history) n v
  | later {event : LogEvent A} {n : Int} {v : Value A} {history : List (LogEvent A)} (before : InCache history n v)
      (spared : event.Spares n) : InCache (event :: history) n v

/-- The entry was there when the loop took its last turn. -/
inductive InMemory : List (LogEvent A) → Int → Value A → Prop where
  | turned {n : Int} {v : Value A} (cached : InCache history n v) : InMemory (.turned :: history) n v
  | later {write : Write A} {n : Int} {v : Value A} {history : List (LogEvent A)} (before : InMemory history n v) :
      InMemory (.wrote write :: history) n v

variable {history : List (LogEvent A)} {cache : OrderedMap Int (Value A)} {n : Int} {v : Value A}

/-- A log in memory holds what the history says. -/
def Recorded (cache : OrderedMap Int (Value A)) (history : List (LogEvent A)) : Prop :=
  ∀ n v, cache.lookup n = some v ↔ InCache history n v

theorem inCache_turned : InCache (.turned :: history) n v ↔ InCache history n v := by
  constructor
  · rintro (_ | ⟨before, _⟩)
    exact before
  · exact fun before => .later before trivial

theorem inMemory_turned : InMemory (.turned :: history) n v ↔ InCache history n v := by
  constructor
  · rintro ⟨cached⟩
    exact cached
  · exact .turned

theorem Recorded.started : Recorded (.empty : OrderedMap Int (Value A)) (.started :: history) := by
  intro n v
  refine iff_of_false (by simp) ?_
  rintro (_ | ⟨_, spared⟩)
  exact spared

theorem Recorded.write {ph : PersistenceHandle A} (recorded : Recorded ph.persistentLogCache history) (write : Write A) :
    Recorded (ph.write write).persistentLogCache (.wrote write :: history) := by
  intro n v
  cases write with
  | insertInLog m u =>
    change (ph.persistentLogCache.insert m u).lookup n = some v ↔ _
    rw [lookup_insert]
    constructor
    · intro found
      split at found
      next same =>
        cases found
        exact same ▸ .inserted
      next other => exact .later ((recorded n v).mp found) (Ne.symm other)
    · rintro (_ | ⟨before, spared⟩)
      · exact if_pos rfl
      · exact (if_neg (Ne.symm spared)).trans ((recorded n v).mpr before)
  | trimTheLog w0 =>
    change (ph.persistentLogCache.above (w0 - 1)).lookup n = some v ↔ _
    rw [lookup_eq_some, above, OrderedMap.mem_filter, ← lookup_eq_some, recorded n v, decide_eq_true_iff]
    constructor
    · rintro ⟨before, beyond⟩
      exact .later before (show w0 ≤ n by omega)
    · rintro (_ | ⟨before, spared⟩)
      exact ⟨before, show w0 - 1 < n from Int.sub_one_lt_of_le spared⟩

theorem Recorded.writes (recorded : Recorded ph.persistentLogCache history) (writes : List (Write A)) :
    Recorded (writes.foldl PersistenceHandle.write ph).persistentLogCache
      (writes.foldl (fun history write => .wrote write :: history) history) := by
  induction writes generalizing ph history with
  | nil => exact recorded
  | cons first _ ih => exact ih (recorded.write first)

end LogEvent

open LogEvent

structure Node.Recorded (node : Node A S) : Prop where
  cache : LogEvent.Recorded node.handle.persistentLogCache node.history
  log : ∀ r ∈ node.replica, ∀ n v, r.state.log.lookup n = some v ↔ InMemory node.history n v

theorem Node.Recorded.resume {config : Config} {node : Node A S} (recorded : node.Recorded) (r : Replica A S)
    (effects : Effects A S) :
    (node.resume config here later r st effects).Recorded := by
  have written := recorded.cache.writes effects.writes
  refine ⟨fun n v => (written n v).trans inCache_turned.symm, ?_⟩
  rintro _ ⟨⟩ n v
  exact (written n v).trans inMemory_turned.symm

namespace System
variable [DecidableEq A] {config : Config} {machine : StateMachine A S} {s s' : System A S} {action : Action A S}

namespace Example

def passes : List (Action Nat (List Nat)) :=
  begin 0 [0] ++ .request 0 (append 7 5)
    (moment 1) :: [.propose 0, .decide ⟨0, 0⟩ (.Values [7]), .workerDecided 0, .workerFinished 0,
    .deliver 0 (moment 1), .deliver 0 (moment 1), .persist 0 0, .deliver 0 (moment 1)]

def again : List (Action Nat (List Nat)) :=
  .request 0 (append 8 5) (moment 3) :: [.propose 0, .propose 0, .decide ⟨0, 1⟩ (.Values [8]),
    .workerDecided 0, .workerFinished 0, .deliver 0 (moment 3), .deliver 0 (moment 3), .persist 0 0, .deliver 0 (moment 3)]

def restarted : List (Action Nat (List Nat)) := passes ++ .die 0 :: begin 2 [0] ++ .deliver 0 (moment 2) :: again

def logs (s : System Nat (List Nat)) (i : Nat) : Option (List (Int × Value Nat) × List (Int × Value Nat)) :=
  (s.nodes i).replica.map fun r => ((s.nodes i).handle.persistentLogMap.entries, r.state.log.entries)

end Example

end System

end Halon.Log
