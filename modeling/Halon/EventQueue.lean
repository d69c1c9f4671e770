import Halon.Library.OrderedMap
import Halon.Library.Runs

/-! The event queue: the replicated state with the pending events and their sequence
numbers, and the poller that forwards new events to the recovery coordinator. -/

namespace Halon
open Library

variable {U P : Type} [LinearOrder U]

structure PersistMessage (U P : Type) where
  persistMessageId : U
  payload : P
deriving DecidableEq

structure EventQueue (U P : Type) [LinearOrder U] where
  eqSN : Nat
  eqMap : OrderedMap U (PersistMessage U P × Nat)
  /-- The identifiers by sequence number, for the polling of new events. -/
  eqSnMap : OrderedMap Nat U

def emptyEventQueue : EventQueue U P := ⟨0, .empty, .empty⟩

namespace EventQueue

def addSerializedEvent (msg : PersistMessage U P) (eq : EventQueue U P) : EventQueue U P :=
  match eq.eqMap.lookup msg.persistMessageId with
  | none => { eqSN := eq.eqSN + 1
              eqMap := eq.eqMap.insert msg.persistMessageId (msg, eq.eqSN)
              eqSnMap := eq.eqSnMap.insert eq.eqSN msg.persistMessageId }
  | some _ => eq

def filterEvent (eid : U) (eq : EventQueue U P) : EventQueue U P :=
  let me := eq.eqMap.lookup eid
  { eq with eqMap := eq.eqMap.delete eid
            eqSnMap := match me with
              | some found => eq.eqSnMap.delete found.2
              | none => eq.eqSnMap }

def clearQueue (_ : EventQueue U P) : EventQueue U P := emptyEventQueue

inductive Update (U P : Type) where
  | add (msg : PersistMessage U P)
  | remove (eid : U)
  | clear

def update (eq : EventQueue U P) : Update U P → EventQueue U P
  | .add msg => eq.addSerializedEvent msg
  | .remove eid => eq.filterEvent eid
  | .clear => eq.clearQueue

def eqReadEvents (sn : Nat) (eq : EventQueue U P) : Nat × List (PersistMessage U P) :=
  let (_, muuid, evs) := eq.eqSnMap.splitLookup sn
  let uuids := match muuid with
    | some uuid => uuid :: evs.entries.map Prod.snd
    | none => evs.entries.map Prod.snd
  (eq.eqSN, uuids.filterMap fun uuid => (eq.eqMap.lookup uuid).map Prod.fst)

end EventQueue

/-- The poller's cursor, the answer to its last request for the state if it has not got it yet, and what it
has sent to the recovery coordinator. -/
structure Poller (U P : Type) where
  cursor : Nat
  answer : Option (Nat × List (PersistMessage U P))
  sent : List (PersistMessage U P)

/-- The replicated queue and the poller of the current recovery coordinator. -/
structure Polling (U P : Type) [LinearOrder U] where
  queue : EventQueue U P
  poller : Poller U P

namespace Polling

inductive Action (U P : Type) where
  | add (msg : PersistMessage U P)
  | trim (eid : U)
  | clear
  /-- A new recovery coordinator gets a new poller. -/
  | spawn
  | read
  | forward

def start : Polling U P := ⟨emptyEventQueue, ⟨0, none, []⟩⟩

/-- The state is read on behalf of the poller at some time, and again if it retries. Later the poller gets
the answer, sends the events on and takes the sequence number for its cursor. -/
def step (s : Polling U P) : Action U P → Option (Polling U P)
  | .add msg => some { s with queue := s.queue.addSerializedEvent msg }
  | .trim eid => some { s with queue := s.queue.filterEvent eid }
  | .clear => some { s with queue := s.queue.clearQueue }
  | .spawn => some { s with poller := ⟨0, none, []⟩ }
  | .read => some { s with poller := { s.poller with answer := some (s.queue.eqReadEvents s.poller.cursor) } }
  | .forward => s.poller.answer.map fun answer =>
      { s with poller := ⟨answer.1, none, s.poller.sent ++ answer.2⟩ }

end Polling
end Halon
