import Halon.Library.Runs
import Halon.Paxos.Acceptor

/-! An acceptor over the persistent store. Each store operation is a task that
the pool's workers run at some later point, in any order; its callback runs in
the worker, and may submit a further task. -/

namespace Halon.Paxos

namespace Store
variable {N π V : Type}

/-- Run one step of a task: its effect on the store, and what comes next. The map is
kept in a reference that tasks read and then write, so that others may come in between. -/
def perform (store : Store π V) : Job N π V → Store π V × Job N π V
  | .send messages => (store, .send messages)
  | .storeInsert dvs done => (store, .storeWrite store.decrees (store.insert dvs).decrees done)
  | .storeWrite _ written done => ({ store with decrees := written }, done)
  | .storeLookup d done => (store, done (store.decrees.lookup d))
  | .storePut b done => ({ store with value := some b }, done)
  | .storeTrim d => (store, .storeWrite store.decrees (store.trim d).decrees (.send []))
  | .storeList done => (store, done store.decrees.entries)
  | .storeMap done => (store, done store.decrees)

end Store

/-- The acceptor's loop, its store, the tasks not run yet in the order of the
messages they stem from, and the messages sent, each with the one it answers. -/
structure Async (N π V : Type) where
  loop : Loop π
  store : Store π V
  pending : List (Request N π V × Job N π V)
  sent : List (Request N π V × Send N π V)

namespace Async
variable {N π V : Type} [LinearOrder π]

inductive Event (N π V : Type) where
  | receive (request : Request N π V)
  | work (index : Nat)

def start (startDecree : DecreeId) (store : Store π V) : Async N π V :=
  ⟨(Acceptor.start startDecree store).loop, store, [], []⟩

/-- The loop goes on; its job waits for a worker, unless it only sends. -/
def submit (state : Async N π V) (loop : Loop π) (request : Request N π V) : Job N π V → Async N π V
  | .send messages => { state with loop := loop, sent := state.sent ++ messages.map fun message => (request, message) }
  | job => { state with loop := loop, pending := state.pending ++ [(request, job)] }

/-- A step of a task has run; the task ends by sending, or goes on with a further step. -/
def finish (state : Async N π V) (index : Nat) (store : Store π V) (request : Request N π V) : Job N π V → Async N π V
  | .send messages => { state with
      store := store, pending := state.pending.eraseIdx index,
      sent := state.sent ++ messages.map fun message => (request, message) }
  | next => { state with store := store, pending := state.pending.set index (request, next) }

def step (name : N) (state : Async N π V) : Event N π V → Option (Async N π V)
  | .receive request =>
    let (loop, job) := handle name state.loop request
    some (state.submit loop request job)
  | .work index =>
    state.pending[index]?.map fun (request, job) =>
      let (store, next) := state.store.perform job
      state.finish index store request next

end Async
end Halon.Paxos
