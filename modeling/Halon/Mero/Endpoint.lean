import Mathlib.Init

/-! The notification interface and its users. Every access to the reference to the interface
takes it out of its place or puts it back, one such operation at a time; calls of `withNI`
are interleaved between any two of them. -/

namespace Halon.Mero

/-- An interface is known by the number under which it was initialised. Its barriers are kept with it. -/
structure EndpointRef where
  erNIRef : Option Nat
  erRefCount : Int
  erWantsFinalize : Bool
  erFinalizationBarriers : Option Nat
deriving DecidableEq, Repr

def emptyEndpointRef : EndpointRef := ⟨none, 0, false, none⟩

/-- A call of `withNI`, between two operations on the reference. In the cases with a reference the call has taken it. -/
inductive Call where
  | initializeInternal
  | initializing (ref : EndpointRef)
  | failed (ref : EndpointRef)
  | initialized (ref : EndpointRef) (niRef : Nat)
  | body (niRef : Nat)
  | leave (niRef : Nat)
  | left (newRef : EndpointRef)
  | finalize
  | finalizeNow (ref : EndpointRef)
  | finalizeLater (ref : EndpointRef)
  | finalizeInternal
  | finalizing (ref : EndpointRef)
  | finalized
  | done
deriving DecidableEq, Repr

structure NotificationInterface where
  globalEndpointRef : Option EndpointRef
  calls : List Call
  initialised : Nat
  terminated : List Nat
deriving DecidableEq, Repr

/-- A new call comes, or the call with the given number goes on. Making an interface may fail. -/
inductive NIAction where
  | withNI
  | proceed (index : Nat) (succeeds : Bool)
deriving DecidableEq, Repr

namespace NotificationInterface

def start : NotificationInterface := ⟨some emptyEndpointRef, [], 0, []⟩

section Reference
variable (s : NotificationInterface) (index : Nat)

def goOn (call : Call) : NotificationInterface := { s with calls := s.calls.set index call }

def takeMVar (next : EndpointRef → Call) : Option NotificationInterface :=
  s.globalEndpointRef.map fun ref => { s.goOn index (next ref) with globalEndpointRef := none }

def putMVar (ref : EndpointRef) (next : Call) : Option NotificationInterface :=
  match s.globalEndpointRef with
  | none => some { s.goOn index next with globalEndpointRef := some ref }
  | some _ => none

end Reference

/-- The interface that is there is used, or a new one is made. -/
def useEndpoint (s : NotificationInterface) (index : Nat) (ref : EndpointRef) (succeeds : Bool) : NotificationInterface :=
  match ref.erNIRef with
  | some niRef => s.goOn index (.initialized ref niRef)
  | none =>
    if succeeds then
      let ref' := { emptyEndpointRef with erNIRef := some s.initialised, erFinalizationBarriers := some s.initialised }
      { s.goOn index (.initialized ref' s.initialised) with initialised := s.initialised + 1 }
    else s.goOn index (.failed ref)

def afterLeaving (newRef : EndpointRef) : Call := if newRef.erRefCount ≤ 0 then .finalize else .done

def checkRefCount (ref : EndpointRef) : Call :=
  if ref.erRefCount ≤ 0 then .finalizeNow ref else .finalizeLater { ref with erWantsFinalize := true }

/-- The interface is terminated, whatever the count says. -/
def terminate (s : NotificationInterface) (index : Nat) (ref : EndpointRef) : NotificationInterface :=
  { s.goOn index .finalized with terminated := s.terminated ++ ref.erFinalizationBarriers.toList }

def proceed (s : NotificationInterface) (index : Nat) (succeeds : Bool) : Call → Option NotificationInterface
  | .initializeInternal => s.takeMVar index .initializing
  | .initializing ref => some (s.useEndpoint index ref succeeds)
  | .failed ref => s.putMVar index ref .done
  | .initialized ref niRef => s.putMVar index { ref with erRefCount := ref.erRefCount + 1 } (.body niRef)
  | .body niRef => some (s.goOn index (.leave niRef))
  | .leave _ => s.takeMVar index fun x => .left { x with erRefCount := max 0 (x.erRefCount - 1) }
  | .left newRef => s.putMVar index newRef (afterLeaving newRef)
  | .finalize => s.takeMVar index checkRefCount
  | .finalizeNow ref => s.putMVar index ref .finalizeInternal
  | .finalizeLater ref => s.putMVar index ref .done
  | .finalizeInternal => s.takeMVar index .finalizing
  | .finalizing ref => some (s.terminate index ref)
  | .finalized => s.putMVar index emptyEndpointRef .done
  | .done => none

def step (s : NotificationInterface) : NIAction → Option NotificationInterface
  | .withNI => some { s with calls := s.calls ++ [.initializeInternal] }
  | .proceed index succeeds => s.calls[index]?.bind (s.proceed index succeeds)

end NotificationInterface
end Halon.Mero
