import Halon.Library.Batching
import Halon.Library.Runs
import Halon.Multimap

/-! The process that manages the replicated multimap. It collects the update requests
that are pending, and replicates their updates together in batches of limited size. -/

namespace Halon
open Library

variable {K V : Type} [LinearOrder K] [LinearOrder V]

/-- The updates that a client asks for, and the callback to run when they are replicated. -/
structure UpdateRequest (K V : Type) where
  updates : List (StoreUpdate K V)
  callback : Nat
deriving DecidableEq

namespace MultimapProcess

/-- Pick updates until the size of the encoding exceeds a threshold, and at least one. -/
def pickBatch (size : StoreUpdate K V → Nat) (rs : List (StoreUpdate K V)) : List (StoreUpdate K V) × List (StoreUpdate K V) :=
  takeBatch size (64 * 1024) rs

inductive Phase (K V : Type) where
  | waiting
  /-- The requests read so far, the last one first. -/
  | reading (acc : List (UpdateRequest K V))
  /-- The updates that are not submitted yet. -/
  | replicating (rs : List (StoreUpdate K V)) (acc : List (UpdateRequest K V))
deriving DecidableEq

end MultimapProcess

open MultimapProcess

structure MultimapProcess (K V : Type) [LinearOrder K] [LinearOrder V] where
  wchan : List (UpdateRequest K V)
  phase : Phase K V
  store : StoreState K V
  notified : List Nat
  /-- All requests that were ever made, in the order of their arrival. No step reads this. -/
  arrived : List (UpdateRequest K V)

namespace MultimapProcess

inductive Action (K V : Type) where
  | write (request : UpdateRequest K V)
  | read
  | replicate
  | submit

def start (store : StoreState K V) : MultimapProcess K V := ⟨[], .waiting, store, [], []⟩

/-- A client makes a request; the process reads one, finds that there are no more and goes on to replicate
what it got, or submits the next batch. After the last batch it runs the callbacks. -/
def step (size : StoreUpdate K V → Nat) (p : MultimapProcess K V) : Action K V → Option (MultimapProcess K V)
  | .write request => some { p with wchan := p.wchan ++ [request], arrived := p.arrived ++ [request] }
  | .read =>
    match p.phase, p.wchan with
    | .waiting, request :: rest => some { p with wchan := rest, phase := .reading [request] }
    | .reading acc, request :: rest => some { p with wchan := rest, phase := .reading (request :: acc) }
    | _, _ => none
  | .replicate =>
    match p.phase, p.wchan with
    | .reading acc, [] => some { p with phase := .replicating (acc.map UpdateRequest.updates).reverse.flatten acc }
    | _, _ => none
  | .submit =>
    match p.phase with
    | .replicating rs acc =>
      let (rs', rest) := pickBatch size rs
      let store := updateStore rs' p.store
      if rest.isEmpty then
        some { p with phase := .waiting, store := store, notified := p.notified ++ acc.map UpdateRequest.callback }
      else some { p with phase := .replicating rest acc, store := store }
    | _ => none

end MultimapProcess
end Halon
