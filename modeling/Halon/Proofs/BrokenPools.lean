import Halon.Library.Traversal
import Halon.Proofs.FailureVectors

/-! States after a number of them were set. The last change of an object counts, and a
change of a disk is one of its storage device. -/

namespace Halon.Mero
open Library SetMap
variable {K V : Type} [LinearOrder K] [LinearOrder V] {enc : Encoding Relation Resource K V} {rg rg' : RG K V}

namespace RG
variable {links : Links Relation Resource} {x z : ConfObj} {b : ResourceType}

def carrier (x : ConfObj) (rg : RG K V) : Option ConfObj :=
  match x with
  | .root _ _ _ => none
  | .deviceV _ _ => none
  | .device .Disk _ => rg.connectedFromOne .IsOnHardware .SDev x
  | _ => some x

theorem setState_carrier (x : ConfObj) (st : ObjectState) :
    rg.setState enc x st =
      match rg.carrier x with
      | none => rg
      | some z => rg.connect enc schema (.conf z) .Is (.state st) := by
  cases x with
  | device level =>
    cases level with
    | Disk | _ => rfl
  | _ => rfl

theorem carrier_congr (same : SameTopology rg rg') (x : ConfObj) : rg.carrier x = rg'.carrier x := by
  unfold carrier
  split
  · rfl
  · rfl
  · exact same.connectedFromOne_eq nofun
  · rfl

theorem carrier_self (either : x.typeOf = .SDev ∨ x.typeOf = .PVer) : rg.carrier x = some x := by
  cases x with
  | sdev | pver => rfl
  | _ => rcases either with typed | typed <;> cases typed

theorem state?_eq_some {r : Resource} : r.state? = some s ↔ r = .state s := by
  cases r <;> simp [Resource.state?]

theorem typeOf_stateOf (depicts : Depicts rg.graph links) (found : rg.stateOf z b = some s) : s.typeOf = b := by
  obtain ⟨r, member, read⟩ := List.mem_filterMap.mp (List.mem_of_mem_head? found)
  rw [state?_eq_some] at read
  subst read
  exact ((Graph.mem_connectedTo depicts).mp member).2

theorem stateOf_connect (depicts : Depicts rg.graph links) (y : ConfObj) (st : ObjectState) :
    RG.stateOf z b (rg.connect enc schema (.conf y) .Is (.state st)) =
      if y = z ∧ st.typeOf = b then some st else rg.stateOf z b := by
  have replaced : Depicts (rg.connect enc schema (.conf y) .Is (.state st)).graph _ := depicts_replace depicts (state_single y st)
  unfold stateOf
  split
  next both =>
    obtain ⟨rfl, rfl⟩ := both
    have single : Graph.connectedTo schema (.conf y) .Is st.typeOf (rg.connect enc schema (.conf y) .Is (.state st)) =
        [.state st] := by
      apply Graph.connectedTo_single replaced (.inl ⟨rfl, rfl, rfl⟩)
      rintro r (⟨_, _, rfl⟩ | ⟨_, stays⟩) type
      · rfl
      · exact absurd ⟨rfl, rfl, type⟩ stays
    rw [single]
    rfl
  next apart =>
    rw [Graph.connectedTo_congr replaced depicts]
    intro r typed
    constructor
    · rintro (⟨same, _, rfl⟩ | ⟨linked, _⟩)
      · exact absurd ⟨(Resource.conf.inj same).symm, typed⟩ apart
      · exact linked
    · intro linked
      refine .inr ⟨linked, fun replaced => apart ⟨(Resource.conf.inj replaced.1).symm, ?_⟩⟩
      exact replaced.2.2.symm.trans typed

theorem stateOf_setState (depicts : Depicts rg.graph links) (x : ConfObj) (st : ObjectState) :
    (rg.setState enc x st).stateOf z b = if rg.carrier x = some z ∧ st.typeOf = b then some st else rg.stateOf z b := by
  rw [setState_carrier]
  cases kept : rg.carrier x with
  | none => simp
  | some y => simpa using stateOf_connect depicts y st

def assigned (rg : RG K V) (z : ConfObj) (b : ResourceType) (changes : List AnyStateChange) : List ObjectState :=
  changes.filterMap fun change => if rg.carrier change.object = some z ∧ change.new.typeOf = b then some change.new else none

theorem sameTopology_setStates (depicts : Depicts rg.graph links) (changes : List AnyStateChange) :
    SameTopology rg (setStates enc changes rg) := by
  induction changes generalizing rg links with
  | nil => exact .refl depicts
  | cons change _ ih =>
    have first : SameTopology rg (rg.setState enc change.object change.new) := sameTopology_setState depicts _ _
    obtain ⟨_, shown⟩ := first.depicts
    exact first.trans (ih shown)

theorem stateOf_setStates (depicts : Depicts rg.graph links) (changes : List AnyStateChange) :
    (setStates enc changes rg).stateOf z b = (rg.assigned z b changes).getLast?.or (rg.stateOf z b) := by
  unfold setStates
  induction changes generalizing rg links with
  | nil => rfl
  | cons change changes ih =>
    have first : SameTopology rg (rg.setState enc change.object change.new) := sameTopology_setState depicts _ _
    obtain ⟨_, shown⟩ := first.depicts
    have same : (rg.setState enc change.object change.new).assigned z b changes = rg.assigned z b changes := by
      unfold assigned
      simp only [← carrier_congr first]
    rw [List.foldl_cons, ih shown, same, stateOf_setState depicts]
    by_cases set : rg.carrier change.object = some z ∧ change.new.typeOf = b
    · have added : rg.assigned z b (change :: changes) = change.new :: rg.assigned z b changes := by
        unfold assigned
        rw [List.filterMap_cons_some]
        exact if_pos set
      rw [added, if_pos set, List.getLast?_cons]
      cases (rg.assigned z b changes).getLast? <;> rfl
    · have skipped : rg.assigned z b (change :: changes) = rg.assigned z b changes := by
        unfold assigned
        rw [List.filterMap_cons_none]
        exact if_neg set
      rw [skipped, if_neg set]

end RG

/-! The pool versions that the cascade marks. They are found by the number of devices in a
state, at the levels that the pool version has a tolerance for. -/

open List
variable {counted : ConfObjectState}

def Level.path : Level → List Level
  | .Site => [.Site]
  | .Rack => [.Site, .Rack]
  | .Enclosure => [.Site, .Rack, .Enclosure]
  | .Controller => [.Site, .Rack, .Enclosure, .Controller]
  | .Disk => [.Site, .Rack, .Enclosure, .Controller, .Disk]

def ConfObj.tolerances : ConfObj → List (Level × Nat)
  | .pver _ (.actual tolerance) => Level.Disk.path.zip tolerance
  | _ => []

/-- A pool version with a tolerance for each level, or without any. -/
def ConfObj.Readable : ConfObj → Prop
  | .pver _ (.actual tolerance) => tolerance.length = 5
  | _ => True

/-- When a pool version is put in a state, by the number of devices in that state and the limit. -/
def refusal : ConfObjectState → Nat → Nat → Bool
  | .M0_NC_FAILED => fun broken limit => decide (broken > limit)
  | _ => fun broken limit => decide (broken ≤ limit)

namespace RG

def virtuals (level : Level) (v : ConfObj) (rg : RG K V) : List ConfObj :=
  level.path.foldl (fun objects l => objects.flatMap fun o => rg.connectedTo o .IsParentOf (.DeviceV l)) [v]

def devices (level : Level) (v : ConfObj) (rg : RG K V) : List ConfObj :=
  (rg.virtuals level v).filterMap fun n => rg.connectedFromOne .IsRealOf (.Device level) n

/-- The number of devices in a state is such, at some level, that the pool version is put in it. -/
def Due (counted : ConfObjectState) (rg : RG K V) (v : ConfObj) : Prop :=
  ∃ entry ∈ v.tolerances, refusal counted ((rg.devices entry.1 v).countP fun realm => rg.getConfObjState realm = counted) entry.2

instance (v : ConfObj) : Decidable (rg.Due counted v) := inferInstanceAs (Decidable (∃ _ ∈ _, _))

variable {v x : ConfObj}

theorem checkBroken_eq (readable : v.Readable) :
    rg.checkBroken counted (refusal counted) v = .ok (if rg.Due counted v then .inl v else .inr ()) := by
  unfold checkBroken
  split
  next =>
    simp [Due, ConfObj.tolerances, Level.path, check, devices, virtuals]
  next tolerance other =>
    match tolerance, readable with
    | [fsite, frack, fencl, fctrl, fdisk], _ => exact absurd rfl (other fsite frack fencl fctrl fdisk)
  next unlike =>
    have none : v.tolerances = [] := by
      unfold ConfObj.tolerances
      split
      next => exact absurd rfl (unlike _ _)
      next => rfl
    simp [Due, none]

theorem readable_of_checkBroken (found : rg.checkBroken counted (refusal counted) v = .ok result) :
    v.Readable := by
  unfold checkBroken at found
  split at found
  next => rfl
  next => cases found
  next unlike =>
    unfold ConfObj.Readable
    split
    next => exact absurd rfl (unlike _ _)
    next => trivial

theorem brokenPVers_eq (readable : ∀ v ∈ rg.pversOf x counted, v.Readable) :
    rg.brokenPVers counted (refusal counted) x = .ok ((rg.pversOf x counted).filter fun v => rg.Due counted v) := by
  unfold brokenPVers
  rw [mapM_eq_map fun v member => checkBroken_eq (readable v member), ok_bind, filterMap_map, ← filterMap_eq_filter]
  congr 2
  funext v
  by_cases due : rg.Due counted v <;> simp [due, Option.guard]

theorem readable_of_brokenPVers (found : rg.brokenPVers counted (refusal counted) x = .ok broken) :
    ∀ v ∈ rg.pversOf x counted, v.Readable := by
  unfold brokenPVers at found
  cases all : (rg.pversOf x counted).mapM (rg.checkBroken counted (refusal counted)) with
  | error =>
    rw [all] at found
    cases found
  | ok =>
    intro v member
    obtain ⟨_, one⟩ := ok_of_mapM all v member
    exact readable_of_checkBroken one

/-- A disk stands for a virtual disk of the pool version. -/
def Reaches (rg : RG K V) (x v : ConfObj) : Prop :=
    ∃ diskv ∈ rg.connectedTo x .IsRealOf (.DeviceV .Disk), rg.pverOf diskv = some v

instance (x v : ConfObj) : Decidable (rg.Reaches x v) := inferInstanceAs (Decidable (∃ _ ∈ _, _))

theorem mem_pversOf : v ∈ rg.pversOf x counted ↔ rg.Reaches x v ∧ counted ≠ rg.getConfObjState v := by
  unfold pversOf Reaches
  simp only [mem_eraseDups, mem_filterMap, Option.filter_eq_some_iff, decide_eq_true_eq]
  constructor
  · rintro ⟨diskv, member, found, apart⟩
    exact ⟨⟨diskv, member, found⟩, apart⟩
  · rintro ⟨⟨diskv, member, found⟩, apart⟩
    exact ⟨diskv, member, found, apart⟩

theorem typeOf_connectedFromOne (found : rg.connectedFromOne r a y = some x) :
    x.typeOf = a := by
  obtain ⟨z, member, read⟩ := mem_filterMap.mp (mem_of_mem_head? found)
  rw [RG.conf?_eq_some] at read
  subst read
  exact of_decide_eq_true (mem_filter.mp member).2

theorem Reaches.typeOf (reaches : rg.Reaches x v) : v.typeOf = .PVer := by
  obtain ⟨_, _, found⟩ := reaches
  simp only [pverOf, bind, Option.bind_eq_some_iff] at found
  obtain ⟨_, _, _, _, _, _, _, _, above⟩ := found
  exact typeOf_connectedFromOne above

theorem mem_brokenPVers (found : rg.brokenPVers counted (refusal counted) x = .ok broken) :
    v ∈ broken ↔ rg.Reaches x v ∧ counted ≠ rg.getConfObjState v ∧ rg.Due counted v := by
  rw [brokenPVers_eq (readable_of_brokenPVers found)] at found
  cases found
  rw [mem_filter, mem_pversOf, decide_eq_true_eq, and_assoc]

end RG
end Halon.Mero
