import Halon.Library.OrderedMap
import Mathlib.Data.Prod.Lex

/-! The message buffer of a state machine: messages ordered by type and then by
their index, the order of arrival. -/

namespace Halon.Cep
open Library

/-- A message of a type that is known by its fingerprint. -/
structure Message (P : Type) where
  fingerprint : Nat
  payload : P
deriving DecidableEq, Repr

inductive FIFOType where
  | Unbounded
  | Bounded (limit : Int)
deriving DecidableEq, Repr

abbrev Index := Int

def initIndex : Index := -1

structure Buffer (P : Type) where
  tpe : FIFOType
  messages : OrderedMap (Nat ×ₗ Index) (Message P)
  nextIndex : Index

variable {P : Type}

def fifoBuffer (tpe : FIFOType) : Buffer P := ⟨tpe, .empty, 0⟩

def emptyFifoBuffer : Buffer P := fifoBuffer .Unbounded

def bufferLength (b : Buffer P) : Nat := b.messages.entries.length

def bufferDrop (i : Index) (b : Buffer P) : Buffer P :=
  { b with messages := b.messages.filter fun entry => decide (i ≤ (ofLex entry.1).2) }

/-- A full bounded buffer drops the oldest messages for the new one. -/
def bufferInsert (e : Message P) (b : Buffer P) : Buffer P :=
  let inserted : Buffer P :=
    { b with messages := b.messages.insert (toLex (e.fingerprint, b.nextIndex)) e, nextIndex := b.nextIndex + 1 }
  match b.tpe with
  | .Bounded limit => if limit ≤ bufferLength b then bufferDrop (inserted.nextIndex - limit) inserted else inserted
  | .Unbounded => inserted

def bufferGetWithIndex (type : Nat) (idx : Index) (b : Buffer P) : Option (Index × Message P × Buffer P) := do
  let (k, e) ← b.messages.lookupGT (toLex (type, idx))
  if e.fingerprint = type then pure ((ofLex k).2, e, { b with messages := b.messages.delete k }) else none

def bufferGet (type : Nat) (b : Buffer P) : Option (Index × Message P × Buffer P) := bufferGetWithIndex type initIndex b

def bufferPeek (type : Nat) (idx : Index) (b : Buffer P) : Option (Index × Message P) :=
  (bufferGetWithIndex type idx b).map fun found => (found.1, found.2.1)

inductive BufferInput (P : Type) where
  | Insert (e : Message P)
  | Get (type : Nat) (i : Index)
  | Peek (type : Nat) (i : Index)
  | Drop (i : Index)

def Buffer.perform (b : Buffer P) : BufferInput P → Option (Index × Message P) × Buffer P
  | .Insert e => (none, bufferInsert e b)
  | .Get type i =>
    match bufferGetWithIndex type i b with
    | none => (none, b)
    | some (ei, e, rest) => (some (ei, e), rest)
  | .Peek type i => (bufferPeek type i b, b)
  | .Drop i => (none, bufferDrop i b)

end Halon.Cep
