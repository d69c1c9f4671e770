import Halon.Log.System

/-! How a replica writes its persisted log and its log in memory. The tasks of its pool and
the replica itself do so at the same time, and every access to either log is a step of its own. -/

namespace Halon.Log
open Library

variable {A : Type}

namespace PersistenceHandle

def insertEntry (n : Int) (v : Value A) (ph : PersistenceHandle A) : PersistenceHandle A :=
  { ph with
    persistentMembershipMap :=
      match v with
      | .Reconf leg' rs' => some (⟨leg', n⟩, rs')
      | .Values _ => ph.persistentMembershipMap
    persistentLogMap := ph.persistentLogMap.insert n v }

/-- The transaction of a trim, for which the log in memory was `log`. -/
def trimEntries (w0 : Int) (log : OrderedMap Int (Value A)) (ph : PersistenceHandle A) : PersistenceHandle A :=
  let w0' := w0 - 1
  let toTrim := (log.below w0').keys ++ [w0']
  { ph with persistentLogMap := ph.persistentLogMap.filter fun entry => entry.1 ∉ toTrim }

end PersistenceHandle

/-- Where an insertion or a trim stands. Both read the log in memory, and later write it
whole; the log that they have read is `log`. -/
inductive Operation (A : Type) where
  | insertInLog (n : Int) (v : Value A)
  | inserted (n : Int) (v : Value A)
  | modifying (n : Int) (v : Value A) (log : OrderedMap Int (Value A))
  | trimTheLog (w0 : Int)
  | splitting (w0 : Int) (log : OrderedMap Int (Value A))
  | trimmed (w0 : Int) (log : OrderedMap Int (Value A))
deriving DecidableEq

/-- The next access of an operation, and where it stands after it, unless that was its last one. -/
def Operation.step (ph : PersistenceHandle A) : Operation A → PersistenceHandle A × Option (Operation A)
  | .insertInLog n v => (ph.insertEntry n v, some (.inserted n v))
  | .inserted n v => (ph, some (.modifying n v ph.persistentLogCache))
  | .modifying n v log => ({ ph with persistentLogCache := log.insert n v }, none)
  | .trimTheLog w0 => (ph, some (.splitting w0 ph.persistentLogCache))
  | .splitting w0 log => (ph.trimEntries w0 log, some (.trimmed w0 log))
  | .trimmed w0 log => ({ ph with persistentLogCache := log.above (w0 - 1) }, none)

/-- The logs of a replica and what is being done with them. -/
structure Persistence (A : Type) where
  handle : PersistenceHandle A
  /-- The insertions that no worker of the pool has taken. -/
  queue : List (Int × Value A)
  workers : List (Operation A)
  /-- What the replica itself does. Until it is done, the replica submits no tasks. -/
  own : Option (Operation A)

namespace Persistence

def persistPool : Nat := 50

def initial : Persistence A := ⟨⟨none, .empty, .empty⟩, [], [], none⟩

/-- The scheduler's choices. Workers are named by their position. -/
inductive Action (A : Type) where
  | submitTask (n : Int) (v : Value A)
  | insertInLog (n : Int) (v : Value A)
  | trimTheLog (w0 : Int)
  | take
  | work (k : Nat)
  | go
  | restart

/-- A replica that starts again makes a new log in memory. The workers of before are gone, wherever they were. -/
def step (s : Persistence A) : Action A → Option (Persistence A)
  | .submitTask n v => if s.own.isNone then some { s with queue := s.queue ++ [(n, v)] } else none
  | .insertInLog n v => if s.own.isNone then some { s with own := some (.insertInLog n v) } else none
  | .trimTheLog w0 => if s.own.isNone then some { s with own := some (.trimTheLog w0) } else none
  | .take =>
    match s.queue with
    | [] => none
    | (n, v) :: queue =>
      if s.workers.length < persistPool then some { s with queue := queue, workers := s.workers ++ [.insertInLog n v] }
      else none
  | .work k => do
    let op ← s.workers[k]?
    let (handle, next) := op.step s.handle
    some { s with handle := handle, workers := s.workers.eraseIdx k ++ next.toList }
  | .go => do
    let op ← s.own
    let (handle, next) := op.step s.handle
    some { s with handle := handle, own := next }
  | .restart => some ⟨{ s.handle with persistentLogCache := .empty }, [], [], none⟩

end Persistence
end Halon.Log
