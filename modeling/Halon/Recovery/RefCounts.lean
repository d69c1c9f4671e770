import Halon.Library.OrderedMap
import Halon.Library.Runs

/-! Reference counts of messages in the recovery coordinator. Rules take a message
with `todo` and release it with `done`; the finalizer acknowledges it to the event
queue some rounds after the last release. -/

namespace Halon.Recovery
open Library

variable {R U : Type} [LinearOrder U]

/-- `insertWith` passes the new value first. -/
def todo (uuid : U) (lsRefCount : OrderedMap U Int) : OrderedMap U Int :=
  lsRefCount.insertWith add uuid 1
where
  add (old new : Int) : Int := if old < 0 then new else old + new

def done (uuid : U) (lsRefCount : OrderedMap U Int) : OrderedMap U Int := lsRefCount.adjust (fun x => x - 1) uuid

def msgProcessedGap : Int := 10

/-- Counts that are not positive go down by one. Those below the gap are removed, and their messages acknowledged. -/
def ruleFinalizer (lsRefCount : OrderedMap U Int) : List U × OrderedMap U Int :=
  let refCnt := lsRefCount.mapValues update
  let (removed, newRefCnt) := refCnt.partition fun i => decide (i < -msgProcessedGap)
  (removed.keys, newRefCnt)
where
  update (i : Int) : Int := if i ≤ 0 then i - 1 else i

/-- The counts, the messages that rules work on, and the acknowledgements that were sent, each with
the number of rules that worked on its message then. No step of the coordinator reads the last two. -/
structure RefCounts (R U : Type) [LinearOrder U] where
  lsRefCount : OrderedMap U Int
  working : List (R × U)
  acknowledged : List (U × Nat)

namespace RefCounts

inductive Action (R U : Type) where
  | todo (rule : R) (uuid : U)
  | done (rule : R) (uuid : U)
  | finalize

def start : RefCounts R U := ⟨.empty, [], []⟩

/-- The number of `todo` for a message that wait for their `done`. -/
def outstanding (s : RefCounts R U) (uuid : U) : Nat := s.working.countP fun work => decide (work.2 = uuid)

/-- A rule may call `done` for a message only after its own `todo`. -/
def step [DecidableEq R] (s : RefCounts R U) : Action R U → Option (RefCounts R U)
  | .todo rule uuid => some { s with lsRefCount := Recovery.todo uuid s.lsRefCount, working := (rule, uuid) :: s.working }
  | .done rule uuid =>
    if (rule, uuid) ∈ s.working then
      some { s with lsRefCount := Recovery.done uuid s.lsRefCount, working := s.working.erase (rule, uuid) }
    else none
  | .finalize =>
    let (removed, newRefCnt) := ruleFinalizer s.lsRefCount
    some { s with lsRefCount := newRefCnt
                  acknowledged := s.acknowledged ++ removed.map fun uuid => (uuid, s.outstanding uuid) }

end RefCounts
end Halon.Recovery
