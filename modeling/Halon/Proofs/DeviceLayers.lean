import Halon.Mero.Transitions

/-! Transient failures of a storage device and failures of the service it belongs to. They commute,
except that no device is recovered while its service inhibits it. -/

namespace Halon.Mero
open Transition

inductive DeviceEvent where
  | failTransient
  | recoverTransient
  | service (state : ServiceState)
deriving DecidableEq, Repr

namespace SDevState

def inhibitedLayers : SDevState → Nat
  | SDSInhibited state => state.inhibitedLayers + 1
  | SDSTransient state => state.inhibitedLayers
  | _ => 0

def transientLayers : SDevState → Nat
  | SDSInhibited state => state.transientLayers
  | SDSTransient state => state.transientLayers + 1
  | _ => 0

end SDevState

namespace DeviceEvent
variable {s : SDevState} {inhibited failed : Bool}

def transition : DeviceEvent → Transition
  | failTransient => sdevFailTransient
  | recoverTransient => sdevRecoverTransient
  | service state => serviceCascadeDisk (.service state)

/-- The state after an event. It stays when the transition is refused. -/
def settle (st : ObjectState) (event : DeviceEvent) : ObjectState :=
  match runTransition event.transition st with
  | .TransitionTo st' => st'
  | _ => st

/-- Whether the service inhibits its devices, when this is its state. -/
def inhibits : ServiceState → Bool → Bool
  | .SSUnknown, before => before
  | .SSStarting, _ | .SSOnline, _ => false
  | _, _ => true

/-- What was reported: whether the service inhibits, and whether a transient failure is still to be recovered. -/
def report : Bool × Bool → DeviceEvent → Bool × Bool
  | (inhibited, _), failTransient => (inhibited, true)
  | (inhibited, failed), recoverTransient => (inhibited, inhibited && failed)
  | (inhibited, failed), service state => (inhibits state inhibited, failed)

def layered (s : SDevState) (inhibited failed : Bool) : SDevState :=
  let state := if failed then .SDSTransient s else s
  if inhibited then .SDSInhibited state else state

def Plain (s : SDevState) : Prop := s = .SDSOnline ∨ s = .SDSUnknown

theorem settle_layered (plain : Plain s) (event : DeviceEvent) : settle (.sdev (layered s inhibited failed)) event =
    .sdev (layered s (report (inhibited, failed) event).1 (report (inhibited, failed) event).2) := by
  rcases plain with rfl | rfl
  all_goals
    cases event with
    | failTransient | recoverTransient => cases inhibited <;> cases failed <;> rfl
    | service state => cases state <;> cases inhibited <;> cases failed <;> rfl

theorem foldl_layered (plain : Plain s) (events : List DeviceEvent) (reported : Bool × Bool) :
    events.foldl settle (.sdev (layered s reported.1 reported.2)) =
      .sdev (layered s (events.foldl report reported).1 (events.foldl report reported).2) := by
  induction events generalizing reported with
  | nil => rfl
  | cons _ _ ih => rw [List.foldl_cons, settle_layered plain, ih, List.foldl_cons]

/-- No layer is ever doubled, and the device is back in its state as soon as the last transient failure is recovered,
at a time when the service does not inhibit it, and the service is online. A recovery of an inhibited device is refused. -/
theorem transient_inhibited_commute (start : s = .SDSOnline ∨ s = .SDSUnknown) (events : List DeviceEvent) :
    (∃ state, events.foldl settle (.sdev s) = .sdev state ∧ state.inhibitedLayers ≤ 1 ∧ state.transientLayers ≤ 1) ∧
    (events.foldl report (false, false) = (false, false) → events.foldl settle (.sdev s) = .sdev s) ∧
    ((events.foldl report (false, false)).1 = true →
      runTransition recoverTransient.transition (events.foldl settle (.sdev s)) = .InvalidTransition
      (events.foldl settle (.sdev s)) ∧
      settle (events.foldl settle (.sdev s)) recoverTransient = events.foldl settle (.sdev s)) := by
  have final : events.foldl settle (.sdev s) =
      .sdev (layered s (events.foldl report (false, false)).1 (events.foldl report (false, false)).2) :=
    foldl_layered start events (false, false)
  refine ⟨⟨_, final, ?_⟩, ?_, ?_⟩
  · generalize events.foldl report (false, false) = reported
    obtain ⟨inhibited, failed⟩ := reported
    rcases start with rfl | rfl
    all_goals cases inhibited <;> cases failed <;> decide
  · intro settled
    rw [settled] at final
    exact final
  · intro inhibited
    rw [final, inhibited]
    rcases start with rfl | rfl
    all_goals cases (events.foldl report (false, false)).2 <;> decide

theorem transient_inhibited_commute_online :
    [failTransient, service .SSFailed, service .SSOnline, recoverTransient].foldl settle (.sdev .SDSOnline) = .sdev .SDSOnline ∧
    runTransition recoverTransient.transition ([failTransient, service .SSFailed].foldl settle (.sdev .SDSOnline)) =
      .InvalidTransition (.sdev (.SDSInhibited (.SDSTransient .SDSOnline))) :=
  ⟨(transient_inhibited_commute (.inl rfl) _).2.1 rfl, ((transient_inhibited_commute (.inl rfl) _).2.2 rfl).1⟩

/-- A recovery that comes while the service inhibits the device is refused. -/
theorem recovery_refused :
    [failTransient, service .SSFailed, recoverTransient, service .SSOnline].foldl settle (.sdev .SDSOnline) =
      .sdev (.SDSTransient .SDSOnline) := by
  decide

end DeviceEvent
end Halon.Mero
