import Halon.Paxos.Intervals

/-! The acceptor process. One message yields the loop's next state and a job: the
store operation it starts, with the callback that the operation runs when it is
done. What a store does with jobs (at once, or in some later order) is separate. -/

namespace Halon.Paxos
open Halon.Library

/-- Decrees of one acceptor, as the store keeps them. -/
abbrev Decrees (π V : Type) := OrderedMap DecreeId (Vote π V)

/-- A `Process ()` of the acceptor: it sends messages and ends, or calls a store
operation whose callback goes on. An update of the map is halfway when the map has
been read and the new one is about to be written. -/
inductive Job (N π V : Type) where
  | send (messages : List (Send N π V))
  | storeInsert (dvs : List (DecreeId × Vote π V)) (done : Job N π V)
  | storeWrite (read written : Decrees π V) (done : Job N π V)
  | storeLookup (d : DecreeId) (done : Option (Vote π V) → Job N π V)
  | storePut (b : BallotId π) (done : Job N π V)
  | storeTrim (d : DecreeId)
  | storeList (done : List (DecreeId × Vote π V) → Job N π V)
  | storeMap (done : Decrees π V → Job N π V)

/-- The arguments of the acceptor's `loop`. -/
structure Loop (π : Type) where
  sd : DecreeId
  b : Lifted (BallotId π)
deriving DecidableEq

variable {N π V : Type} [LinearOrder π]

def storedAcks (d : DecreeId) : Option (Vote π V) → List (Ack π V)
  | none => []
  | some vote => [⟨d, vote.ballot, vote.value⟩]

/-- The intervals an acceptor counts as its own when it compares them with an advertisement. -/
def ownIntervals (sd : DecreeId) (dvs : List (DecreeId × Vote π V)) : List Interval :=
  if initialDecreeId < sd then
    (initialDecreeId, sd) :: intervals DecreeId.succ ((dvs.map Prod.fst).dropWhile fun d => decide (d < sd))
  else intervals DecreeId.succ (dvs.map Prod.fst)

/-- Handle one message in the loop of the acceptor called `name`. -/
def handle (name : N) (loop : Loop π) : Request N π V → Loop π × Job N π V
  | .prepare d b' sender =>
    if d < loop.sd then (loop, .send [])
    else if accepted : loop.b ≤ b' then
      ({ loop with b := b' }, .storeLookup d fun mbs =>
        .send [.reply sender (.promise b' name (storedAcks d mbs))])
    else (loop, .send [.reply sender (.nack (fromValue loop.b fun bottom => accepted (bottom ▸ bot_le)))])
  | .syn d b' sender x =>
    if d < loop.sd then (loop, .send [])
    else if accepted : loop.b ≤ b' then
      let insert : Job N π V := .storeInsert [(d, ⟨b', x⟩)] (.send [.reply sender (.ack ⟨d, b', x⟩)])
      ({ loop with b := b' }, if loop.b < b' then .storePut b' insert else insert)
    else (loop, .send [.reply sender (.nack (fromValue loop.b fun bottom => accepted (bottom ▸ bot_le)))])
  | .trim d => ({ loop with sd := max d loop.sd }, .storeTrim d)
  | .syncStart κ αs =>
    (loop, .storeList fun dvs =>
      .send (αs.map fun α => .request α (.syncAdvertise κ name (intervals DecreeId.succ (dvs.map Prod.fst)))))
  | .syncAdvertise κ α ds =>
    (loop, .storeList fun dvs =>
      let rqs := diffIntervals ds (ownIntervals loop.sd dvs)
      if rqs = [] then .send [.reply κ (.syncCompleted name)]
      else .send [.request α (.syncRequest κ name rqs)])
  | .syncRequest κ α ds => (loop, .storeMap fun m => .send [.request α (.syncResponse κ (lookupRanges m ds))])
  | .syncResponse κ dvs => (loop, .storeInsert dvs (.send [.reply κ (.syncCompleted name)]))
  | .queryDecrees κ d =>
    (loop, .storeMap fun m =>
      let (_, mv, m') := m.splitLookup d
      .send [.reply κ (.decrees (((mv.map fun vote => (d, vote)).toList ++ m'.entries).map fun entry =>
        ⟨entry.1, entry.2.ballot, entry.2.value⟩))])

/-- The contents of an acceptor store: the votes and the value saved by `storePut`. -/
structure Store (π V : Type) where
  decrees : Decrees π V
  value : Option (BallotId π)

namespace Store

def empty : Store π V := ⟨.empty, none⟩

def insert (store : Store π V) (dvs : List (DecreeId × Vote π V)) : Store π V :=
  { store with decrees := store.decrees.insertAll dvs }

def trim (store : Store π V) (d : DecreeId) : Store π V :=
  let (_, mv, m') := store.decrees.splitLookup d
  { store with decrees := mv.elim m' fun vote => m'.insert d vote }

def run (store : Store π V) : Job N π V → Store π V × List (Send N π V)
  | .send messages => (store, messages)
  | .storeInsert dvs done => (store.insert dvs).run done
  | .storeWrite _ written done => run { store with decrees := written } done
  | .storeLookup d done => store.run (done (store.decrees.lookup d))
  | .storePut b done => run { store with value := some b } done
  | .storeTrim d => (store.trim d, [])
  | .storeList done => store.run (done store.decrees.entries)
  | .storeMap done => store.run (done store.decrees)

end Store

structure Acceptor (π V : Type) where
  loop : Loop π
  store : Store π V

namespace Acceptor

/-- The ballot that the loop starts with, from what `storeGet` yields. -/
def restored : Option (BallotId π) → Lifted (BallotId π)
  | none => ⊥
  | some b => b

def start (startDecree : DecreeId) (store : Store π V) : Acceptor π V :=
  ⟨⟨startDecree, restored store.value⟩, store⟩

/-- Receive one message over a store whose operations take effect in the order issued. -/
def receive (name : N) (acceptor : Acceptor π V) (request : Request N π V) : Acceptor π V × List (Send N π V) :=
  let (loop, job) := handle name acceptor.loop request
  let (store, messages) := acceptor.store.run job
  (⟨loop, store⟩, messages)

end Acceptor
end Halon.Paxos
