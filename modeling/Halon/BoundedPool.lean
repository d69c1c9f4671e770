import Halon.Library.Runs

/-! The pool of processes that the stores and the replicas run their tasks on. There are at
most as many workers as the bound of the pool; a task for which there is none is queued. -/

namespace Halon

structure PoolState (T : Type) where
  psCount : Int
  psQueue : List T

/-- Where the computation that a worker runs stands. A task that ended with an exception
leads to `terminate` as well as an empty queue does. -/
inductive Worker (T : Type) where
  | ready (task : T)
  | running (task : T)
  | continuing
  | terminating
deriving DecidableEq

/-- A pool with its workers, and what was submitted and started so far. No step reads the last two. -/
structure BoundedPool (T : Type) where
  ppRef : PoolState T
  workers : List (Worker T)
  submitted : List T
  started : List T

namespace BoundedPool
variable {T : Type}

def newProcessPool : BoundedPool T := ⟨⟨0, []⟩, [], [], []⟩

/-- The scheduler's choices. Workers are named by their position. -/
inductive Action (T : Type) where
  | submitTask (t : T)
  | run (i : Nat)
  | returns (i : Nat)
  | throws (i : Nat)
  | continue (i : Nat)
  | terminate (i : Nat)

def submitTask (ppBound : Int) (t : T) (ps : PoolState T) : PoolState T × Option (Worker T) :=
  if ps.psCount < ppBound then ({ ps with psCount := ps.psCount + 1 }, some (.ready t))
  else ({ ps with psQueue := ps.psQueue ++ [t] }, none)

def «continue» (ps : PoolState T) : PoolState T × Worker T :=
  match ps.psQueue with
  | [] => (ps, .terminating)
  | next :: s => ({ ps with psQueue := s }, .ready next)

def terminate (ps : PoolState T) : PoolState T := { ps with psCount := ps.psCount - 1 }

/-- Each access to the state of the pool is one step, and so are the start and the end of a task. -/
def step (ppBound : Int) (s : BoundedPool T) : Action T → Option (BoundedPool T)
  | .submitTask t =>
    let (ps, proc) := submitTask ppBound t s.ppRef
    some { s with ppRef := ps, workers := s.workers ++ proc.toList, submitted := s.submitted ++ [t] }
  | .run i =>
    match s.workers[i]? with
    | some (.ready t) => some { s with workers := s.workers.set i (.running t), started := s.started ++ [t] }
    | _ => none
  | .returns i =>
    match s.workers[i]? with
    | some (.running _) => some { s with workers := s.workers.set i .continuing }
    | _ => none
  | .throws i =>
    match s.workers[i]? with
    | some (.running _) => some { s with workers := s.workers.set i .terminating }
    | _ => none
  | .continue i =>
    match s.workers[i]? with
    | some .continuing =>
      let (ps, worker) := «continue» s.ppRef
      some { s with ppRef := ps, workers := s.workers.set i worker }
    | _ => none
  | .terminate i =>
    match s.workers[i]? with
    | some .terminating => some { s with ppRef := terminate s.ppRef, workers := s.workers.eraseIdx i }
    | _ => none

end BoundedPool
end Halon
