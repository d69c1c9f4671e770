import Halon.Proofs.CascadeDisks

/-! Every kind of object has its own type of states, and the rules of the cascade keep to it. -/

namespace Halon.Mero
open Library Option List
variable {K V : Type} [LinearOrder K] [LinearOrder V] {enc : Encoding Relation Resource K V} {rg : RG K V}
variable {topFids : List Fid} {change : AnyStateChange} {x y z : ConfObj} {r : Relation} {b : ResourceType}

def ResourceType.stateType : ResourceType → ResourceType
  | .Node => .NodeState
  | .Process => .ProcessState
  | .Service => .ServiceState
  | .SDev => .SDevState
  | .Device .Disk => .SDevState
  | .Device .Controller => .ControllerState
  | .Device _ => .ConfObjectState
  | .Pool => .ConfObjectState
  | .PVer => .ConfObjectState
  | _ => .NoExplicitConfigState

def ConfObj.stateType (x : ConfObj) : ResourceType := x.typeOf.stateType

def ConfObj.initialState : ConfObj → ObjectState
  | .node _ => .node .NSUnknown
  | .process _ => .process .PSUnknown
  | .service _ _ _ => .service .SSUnknown
  | .sdev _ => .sdev .SDSUnknown
  | .device .Disk _ => .sdev .SDSUnknown
  | .device .Controller _ => .controller .CSUnknown
  | .device _ _ => .conf .M0_NC_ONLINE
  | .pool _ => .conf .M0_NC_ONLINE
  | .pver _ _ => .conf .M0_NC_ONLINE
  | _ => .noExplicitConfigState

/-- In the source the type of an object says what its states are. -/
def AnyStateSet.Typed (set : AnyStateSet) : Prop :=
    ∀ st st', set.transition st = .TransitionTo st' → st'.typeOf = set.object.stateType

def AnyStateChange.Typed (change : AnyStateChange) : Prop := change.new.typeOf = change.object.stateType

namespace RG

theorem getState_carrier (x : ConfObj) :
    rg.getState x = ((rg.carrier x).bind fun z => rg.stateOf z x.stateType).getD x.initialState := by
  cases x with
  | device level => cases level <;> rfl
  | _ => rfl

theorem carrier_cases (kept : rg.carrier x = some z) : z = x ∨ x.typeOf = .Device .Disk ∧ z.typeOf = .SDev := by
  cases x with
  | device level =>
    cases level with
    | Disk => exact .inr ⟨rfl, typeOf_connectedFromOne kept⟩
    | _ => exact .inl (Option.some.inj kept).symm
  | root | deviceV => cases kept
  | _ => exact .inl (Option.some.inj kept).symm

theorem getState_kept (kept : rg.carrier x = some z) : rg.getState x = (rg.stateOf z z.stateType).getD z.initialState := by
  rw [getState_carrier, kept]
  rcases carrier_cases kept with rfl | ⟨disk, sdev⟩
  · rfl
  · cases x with
    | device =>
      cases disk
      cases z with
      | sdev => rfl
      | _ => cases sdev
    | _ => cases disk

theorem stateType_carrier (kept : rg.carrier x = some z) : x.stateType = z.stateType := by
  rcases carrier_cases kept with rfl | ⟨disk, sdev⟩
  · rfl
  · unfold ConfObj.stateType
    rw [disk, sdev]
    rfl

theorem typeOf_connectedTo (found : y ∈ rg.connectedTo x r b) : y.typeOf = b := by
  obtain ⟨w, member, read⟩ := mem_filterMap.mp found
  rw [conf?_eq_some] at read
  subst read
  exact of_decide_eq_true (mem_filter.mp member).2

theorem typeOf_connectedToOne (found : rg.connectedToOne x r b = some y) : y.typeOf = b :=
  typeOf_connectedTo (mem_of_mem_head? found)

theorem typeOf_iosToController (found : y ∈ rg.iosToController x) : y.typeOf = .Device .Controller := by
  simp only [iosToController, mem_toList, bind_eq_bind, bind_eq_some_iff] at found
  obtain ⟨_, -, _, -, one⟩ := found
  exact typeOf_connectedToOne one

end RG

/-- A rule passes changes on to objects of one type, and to states that such objects have. -/
def StateCascadeRule.Typed : StateCascadeRule K V → Prop
  | .rule a _ _ find u => ∃ b, (∀ x rg found, find x rg = .ok found → ∀ y ∈ found, y.typeOf = b) ∧
      ∀ s st st', s.typeOf = a.stateType → u s st = .TransitionTo st' → st'.typeOf = b.stateType
  | .trigger _ _ _ _ => True

namespace StateCascadeRule

theorem typed_toChildren (moves : ∀ s st st', s.typeOf = a.stateType → u s st = .TransitionTo st' → st'.typeOf = b.stateType) :
    (toChildren a b old new u : StateCascadeRule K V).Typed := by
  refine ⟨b, fun x rg found listed y member => ?_, moves⟩
  cases listed
  exact RG.typeOf_connectedTo member

theorem const_moves (moved : constTransition t st = .TransitionTo st') : st'.typeOf = t.typeOf := by
  cases moved
  rfl

end StateCascadeRule

namespace Transition

variable {st st' s : ObjectState}

theorem inhibitService_typed (moved : inhibitService st = .TransitionTo st') : st'.typeOf = .ServiceState := by
  unfold inhibitService at moved
  split at moved <;> cases moved
  rfl

theorem processCascadeService_typed (moved : processCascadeService s st = .TransitionTo st') : st'.typeOf = .ServiceState := by
  unfold processCascadeService at moved
  split at moved
  case h_3 => split at moved <;> cases moved; rfl
  case h_5 =>
    split at moved
    next => cases moved
    next => exact inhibitService_typed moved
  case h_6 => split at moved <;> cases moved; rfl
  case h_7 => exact inhibitService_typed moved
  all_goals cases moved <;> rfl

theorem serviceCascadeDisk_typed (moved : serviceCascadeDisk s st = .TransitionTo st') : st'.typeOf = .SDevState := by
  have inhibited (moved : inhibitSDev st = .TransitionTo st') : st'.typeOf = .SDevState := by
    unfold inhibitSDev at moved
    split at moved <;> cases moved
    rfl
  have uninhibited (moved : uninhibitSDev st = .TransitionTo st') : st'.typeOf = .SDevState := by
    unfold uninhibitSDev at moved
    split at moved <;> cases moved
    rfl
  unfold serviceCascadeDisk at moved
  split at moved
  all_goals first | cases moved | exact inhibited moved | exact uninhibited moved

theorem nodeFailsProcess_typed (moved : nodeFailsProcess s st = .TransitionTo st') : st'.typeOf = .ProcessState := by
  unfold nodeFailsProcess at moved
  split at moved <;> cases moved
  rfl

theorem nodeUnfailsProcess_typed (moved : nodeUnfailsProcess s st = .TransitionTo st') : st'.typeOf = .ProcessState := by
  have taken (p : ProcessState) (moved : uninhibit p = .TransitionTo st') : st'.typeOf = .ProcessState := by
    fun_induction uninhibit p with
    | case3 p ih => exact ih moved
    | _ => cases moved <;> rfl
  unfold nodeUnfailsProcess at moved
  split at moved
  next p => exact taken p moved
  next => cases moved

theorem nodeCascadeController_typed (moved : nodeCascadeController' s st = .TransitionTo st') :
    st'.typeOf = .ControllerState := by
  unfold nodeCascadeController' at moved
  split at moved <;> cases moved <;> rfl

theorem marks_typed (either : u = diskFailsPVer ∨ u = diskFixesPVer) (moved : u s st = .TransitionTo st') :
    st'.typeOf = .ConfObjectState := by
  rcases either with rfl | rfl
  · unfold diskFailsPVer at moved
    split at moved <;> cases moved
    rfl
  · unfold diskFixesPVer at moved
    split at moved <;> cases moved
    rfl

end Transition

open StateCascadeRule Transition in
theorem typed_rules : ∀ rule ∈ stateCascadeRules enc, rule.Typed := by
  have controllers {u : CascadeTransition} {s : ObjectState} (constant : u = fun _ => constTransition s)
      (typed : s.typeOf = .ControllerState) {old new : ObjectState → Bool} :
      (.rule .Service old new (fun x rg => .ok (if isIOS x then rg.iosToController x else [])) u :
        StateCascadeRule K V).Typed := by
    refine ⟨.Device .Controller, fun x rg found listed y member => ?_, fun s st st' _ moved => ?_⟩
    · cases listed
      split at member
      · exact RG.typeOf_iosToController member
      · cases member
    · rw [constant] at moved
      exact (const_moves moved).trans typed
  have pvers {counted : ConfObjectState} {new : ObjectState → Bool} {u : CascadeTransition}
      (either : u = diskFailsPVer ∨ u = diskFixesPVer) :
      (.rule (.Device .Disk) always new (RG.brokenPVers counted (refusal counted)) u : StateCascadeRule K V).Typed := by
    refine ⟨.PVer, fun x rg found listed y member => ?_, fun s st st' _ moved => marks_typed either moved⟩
    exact ((RG.mem_brokenPVers listed).mp member).1.typeOf
  unfold stateCascadeRules enclosureCascadeControllerRules iosFailsController
  simp only [cons_append, nil_append, forall_mem_cons]
  refine ⟨?_, ?_, ?_, ?_, ?_, ?_, ?_, trivial, trivial, ?_, ?_, ?_, ?_, ?_, ?_, ?_, ?_, nofun⟩
  · exact typed_toChildren fun s st st' _ moved => const_moves moved
  · exact typed_toChildren fun s st st' _ moved => const_moves moved
  · refine ⟨.Device .Disk, fun x rg found listed y member => ?_, fun s st st' typed moved => ?_⟩
    · cases listed
      exact RG.typeOf_connectedToOne (mem_toList.mp member)
    · exact (const_moves moved).trans typed
  · refine ⟨.SDev, fun x rg found listed y member => ?_, fun s st st' typed moved => ?_⟩
    · cases listed
      exact RG.typeOf_connectedFromOne (mem_toList.mp member)
    · exact (const_moves moved).trans typed
  · refine ⟨.Device .Controller, fun x rg found listed y member => ?_, fun s st st' _ moved => nodeCascadeController_typed moved⟩
    cases listed
    exact RG.typeOf_connectedToOne (mem_toList.mp member)
  · exact pvers (.inl rfl)
  · exact pvers (.inr rfl)
  · exact typed_toChildren fun s st st' _ moved => processCascadeService_typed moved
  · exact typed_toChildren fun s st st' _ moved => nodeFailsProcess_typed moved
  · exact typed_toChildren fun s st st' _ moved => nodeUnfailsProcess_typed moved
  · exact typed_toChildren fun s st st' _ moved => serviceCascadeDisk_typed moved
  · exact typed_toChildren fun s st st' _ moved => const_moves moved
  · exact typed_toChildren fun s st st' _ moved => const_moves moved
  · exact controllers rfl rfl
  · exact controllers rfl rfl

theorem runTransition_moved (moved : runTransition t st = .TransitionTo st') :
    t st = .TransitionTo st' := by
  unfold runTransition at moved
  split at moved
  next found =>
    split at moved
    next => cases moved
    next => rw [found, moved]
  next => exact moved

theorem passOn_moved {next} (passed : passOn rg topFids t x = some next) :
    next.object = x ∧ t (rg.getState x) = .TransitionTo next.new := by
  unfold passOn at passed
  split at passed
  next => cases passed
  next =>
    split at passed
    next moved =>
      cases passed
      exact ⟨rfl, runTransition_moved moved⟩
    next => cases passed

theorem typed_applyCascadeRule (member : rule ∈ stateCascadeRules enc) (typed : change.Typed)
    (applied : applyCascadeRule rg topFids change rule = .ok result) :
    ∀ next ∈ result.2, next.Typed := by
  have rules := typed_rules rule member
  cases rule with
  | rule a old new =>
    simp only [applyCascadeRule] at applied
    split at applied
    next meets =>
      obtain ⟨_, listed, applied⟩ := bind_ok applied
      cases applied
      intro next inside
      obtain ⟨y, among, passed⟩ := mem_filterMap.mp inside
      obtain ⟨b, targets, moves⟩ := rules
      obtain ⟨same, moved⟩ := passOn_moved passed
      have state : change.new.typeOf = a.stateType := by
        rw [typed, ConfObj.stateType, meets.1]
      unfold AnyStateChange.Typed ConfObj.stateType
      rw [moves _ _ _ state moved, same, targets _ _ _ listed y among]
    next =>
      cases applied
      intro next inside
      cases inside
  | trigger =>
    intro next inside
    simp only [applyCascadeRule] at applied
    split at applied
    next =>
      cases applied
      cases inside
    next =>
      cases applied
      cases inside

end Halon.Mero
