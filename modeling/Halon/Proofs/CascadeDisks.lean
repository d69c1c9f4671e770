import Halon.Proofs.BrokenPools
import Halon.Proofs.GraphCardinality

/-! The cascade of a disk that fails or comes online: its storage device follows,
pool versions are marked, and the failure vectors are told. -/

namespace Halon.Mero
open Library SetMap List
variable {K V : Type} [LinearOrder K] [LinearOrder V] {enc : Encoding Relation Resource K V} {rg : RG K V}
variable {topFids : List Fid} {d : Fid} {old : ObjectState} {new : SDevState}

def marking : SDevState → Transition
  | .SDSFailed => Transition.diskFailsPVer (.sdev .SDSFailed)
  | s => Transition.diskFixesPVer (.sdev s)

def recording (enc : Encoding Relation Resource K V) : SDevState → Fid → GraphUpdate K V
  | .SDSFailed => RG.rgRecordDiskFailure enc
  | _ => RG.rgRecordDiskOnline enc

variable (enc rg topFids d old) in
open StateCascadeRule in
theorem rules_disk (either : new = .SDSFailed ∨ new = .SDSOnline) :
    match rg.brokenPVers new.toConfObjState (refusal new.toConfObjState) (.disk d) with
    | .error e => (stateCascadeRules enc).mapM (applyCascadeRule rg topFids ⟨.disk d, old, .sdev new⟩) = .error e
    | .ok broken => ∃ results,
      (stateCascadeRules enc).mapM (applyCascadeRule rg topFids ⟨.disk d, old, .sdev new⟩) = .ok results ∧
      results.filterMap Prod.fst = [recording enc new d] ∧
      results.flatMap Prod.snd =
        (rg.connectedFromOne .IsOnHardware .SDev (.disk d)).toList.filterMap (passOn rg topFids (constTransition (.sdev new))) ++
          broken.filterMap (passOn rg topFids (marking new)) := by
  cases found : rg.brokenPVers new.toConfObjState (refusal new.toConfObjState) (.disk d)
  all_goals
    rcases either with rfl | rfl
    all_goals
      simp only [SDevState.toConfObjState, refusal] at found
      simp only [stateCascadeRules, siteCascadeRackRule, rackCascadeEnclosureRule, sdevCascadeDisk, diskCascadeSdev,
        nodeCascadeController,
        diskFailsPVer, diskFixesPVer, diskAddToFailureVector, diskRemoveFromFailureVector, processCascadeServiceRule,
        nodeFailsProcessRule, nodeUnfailsProcessRule, serviceCascadeDiskRule, enclosureCascadeControllerRules, iosFailsController,
        toChildren, cons_append, nil_append, mapM_cons, mapM_nil, applyCascadeRule, ConfObj.typeOf, always,
        reduceCtorEq, false_and, if_false, true_and, if_true, decide_true, decide_false, Bool.false_eq_true,
          ResourceType.Device.injEq,
        ObjectState.sdev.injEq, found, ok_bind, error_bind, pure_bind]
  all_goals
    refine ⟨_, rfl, ?_, ?_⟩
    · simp [ConfObj.fid, recording]
    · simp [marking, Transition.diskCascadeSDev']

def StateCascadeRule.source : StateCascadeRule K V → ResourceType
  | .rule a _ _ _ _ => a
  | .trigger a _ _ _ => a

variable {change : AnyStateChange} {links : Links Relation Resource}

theorem applyCascadeRule_other (apart : change.object.typeOf ≠ rule.source) :
    applyCascadeRule rg topFids change rule = .ok (none, []) := by
  cases rule with
  | rule | trigger => exact if_neg fun both => apart both.1

open StateCascadeRule in
theorem rules_sources {rule} (member : rule ∈ stateCascadeRules enc) :
    rule.source ≠ .PVer ∧ (rule.source = .SDev → rule = sdevCascadeDisk) := by
  simp only [stateCascadeRules, enclosureCascadeControllerRules, iosFailsController, cons_append, nil_append,
    mem_cons, not_mem_nil, or_false] at member
  rcases member with rfl | rfl | rfl | rfl | rfl | rfl | rfl | rfl | rfl | rfl | rfl | rfl | rfl | rfl | rfl | rfl | rfl
  all_goals exact ⟨nofun, fun same => by first | rfl | cases same⟩

theorem passOn_object (passed : passOn rg topFids t x = some change) : change.object = x := by
  unfold passOn at passed
  split at passed
  next => cases passed
  next =>
    split at passed
    next => cases passed; rfl
    next => cases passed

theorem passOn_const (passed : passOn rg topFids (constTransition s) x = some change) : change.new = s := by
  unfold passOn runTransition constTransition at passed
  split at passed
  next => cases passed
  next =>
    by_cases same : rg.getState x = s
    · simp only [same, if_true] at passed
      cases passed
    · simp only [same, if_false] at passed
      cases passed
      rfl

def Follows (rg : RG K V) (d : Fid) (x : ConfObj) : Prop :=
  rg.connectedFromOne .IsOnHardware .SDev (.disk d) = some x ∨ x.typeOf = .PVer

section
variable (back : ∀ x, rg.connectedFromOne .IsOnHardware .SDev (.disk d) = some x →
    rg.connectedToOne x .IsOnHardware (.Device .Disk) = some (.disk d))
include back

theorem rules_following (follows : Follows rg d change.object) (member : rule ∈ stateCascadeRules enc) :
    ∃ changes, applyCascadeRule rg topFids change rule = .ok (none, changes) ∧ ∀ c ∈ changes, c.object = .disk d := by
  obtain ⟨noPVer, sdev⟩ := rules_sources member
  by_cases same : change.object.typeOf = rule.source
  · rcases follows with device | pver
    · have type := RG.typeOf_connectedFromOne device
      obtain rfl := sdev (same.symm.trans type)
      refine ⟨_, if_pos ⟨same, rfl, rfl⟩, ?_⟩
      intro c passed
      obtain ⟨x, found, passed⟩ := mem_filterMap.mp passed
      rw [passOn_object passed]
      rw [back _ device] at found
      exact mem_singleton.mp found
    · exact absurd (same.symm.trans pver) noPVer
  · refine ⟨[], applyCascadeRule_other same, ?_⟩
    intro c listed
    cases listed

theorem go_following (follow : ∀ c ∈ changes, Follows rg d c.object) (known : asc ∈ acc)
    (disk : asc.object = .disk d) (rounds : Nat)
    (update : GraphUpdate K V) : cascadeStateChange.go enc rg topFids (rounds + 1) changes acc update = .ok (update, acc) := by
  rw [cascadeStateChange.go]
  split
  next => rfl
  next =>
    have quiet : ∀ pair ∈ changes.flatMap fun change => (stateCascadeRules enc).map (change, ·),
        ∃ y, applyCascadeRule rg topFids pair.1 pair.2 = .ok y ∧ (y.1 = none ∧ ∀ c ∈ y.2, c.object = .disk d) := by
      intro pair member
      obtain ⟨change, listed, member⟩ := mem_flatMap.mp member
      obtain ⟨_, among, rfl⟩ := mem_map.mp member
      obtain ⟨_, applied, only⟩ := rules_following back (follow change listed) among
      exact ⟨_, applied, rfl, only⟩
    obtain ⟨results, applied, nothing⟩ := mapM_ok quiet
    have noUpdate : results.filterMap Prod.fst = [] := filterMap_eq_nil_iff.mpr fun y member => (nothing y member).1
    have noChange : (results.flatMap Prod.snd).filter (fun change => acc.all (notMatch change)) = [] := by
      apply filter_eq_nil_iff.mpr
      intro c found fresh
      obtain ⟨y, member, inside⟩ := mem_flatMap.mp found
      have apart := all_eq_true.mp fresh asc known
      rw [notMatch, (nothing y member).2 c inside, disk] at apart
      exact of_decide_eq_true apart rfl
    simp only [applied, ok_bind, noUpdate, noChange, foldl_nil, nil_append]
    unfold cascadeStateChange.go
    rfl

end

/-- The change of the storage device and the marks on pool versions that a disk's change leads to, without those that
are set anyway. -/
def followers (rg : RG K V) (topFids : List Fid) (d : Fid) (new : SDevState) (broken : List ConfObj) : List AnyStateChange :=
  ((rg.connectedFromOne .IsOnHardware .SDev (.disk d)).toList.filterMap (passOn rg topFids (constTransition (.sdev new))) ++
    broken.filterMap (passOn rg topFids (marking new))).filter fun change => change.object.fid ≠ d

theorem cascade_disk (back : ∀ x, rg.connectedFromOne .IsOnHardware .SDev (.disk d) = some x →
      rg.connectedToOne x .IsOnHardware (.Device .Disk) = some (.disk d))
    (either : new = .SDSFailed ∨ new = .SDSOnline) (rounds : Nat) :
    cascadeStateChange enc (rounds + 2) ⟨.disk d, old, .sdev new⟩ rg topFids =
      (rg.brokenPVers new.toConfObjState (refusal new.toConfObjState) (.disk d)).map fun broken =>
        (recording enc new d, followers rg topFids d new broken ++ [⟨.disk d, old, .sdev new⟩]) := by
  have rules := rules_disk enc rg topFids d old either
  unfold cascadeStateChange
  rw [cascadeStateChange.go, if_neg (cons_ne_nil _ _)]
  simp only [flatMap_cons, flatMap_nil, append_nil, mapM_map, Function.comp_def]
  cases found : rg.brokenPVers new.toConfObjState (refusal new.toConfObjState) (.disk d) with
  | error =>
    simp only [found] at rules
    simp only [rules, error_bind, Except.map]
  | ok broken =>
    rw [found] at rules
    obtain ⟨results, applied, updates, changes⟩ := rules
    have follow : ∀ c ∈ followers rg topFids d new broken, Follows rg d c.object := by
      intro c member
      rcases mem_append.mp (mem_filter.mp member).1 with device | marked
      · obtain ⟨x, kept, passed⟩ := mem_filterMap.mp device
        exact .inl (passOn_object passed ▸ Option.mem_toList.mp kept)
      · obtain ⟨x, listed, passed⟩ := mem_filterMap.mp marked
        exact .inr (passOn_object passed ▸ ((RG.mem_brokenPVers found).mp listed).1.typeOf)
    have kept : (results.flatMap Prod.snd).filter (fun change => [⟨.disk d, old, .sdev new⟩].all (notMatch change)) =
        followers rg topFids d new broken := by
      rw [changes, followers]
      congr 1
      funext change
      exact Bool.and_true _
    simp only [applied, ok_bind, updates, kept]
    exact go_following back follow (mem_append_right _ mem_cons_self) rfl rounds _

theorem RG.sdev_back (sound : Graph.Sound schema rg) (found : rg.connectedFromOne .IsOnHardware .SDev (.disk d) = some x) :
    rg.connectedToOne x .IsOnHardware (.Device .Disk) = some (.disk d) := by
  obtain ⟨_, depicts⟩ := sound.depicts
  obtain ⟨z, member, read⟩ := mem_filterMap.mp (mem_of_mem_head? found)
  rw [RG.conf?_eq_some] at read
  subst read
  obtain ⟨linked, _⟩ := (Graph.mem_connectedFrom depicts).mp member
  have single : Graph.connectedTo schema (.conf x) .IsOnHardware (.Device .Disk) rg = [.conf (.disk d)] := by
    apply Graph.connectedTo_single depicts linked
    intro other also same
    exact sound.cardinal.targets _ _ _ _ (depicts.holds_out.mpr also) (depicts.holds_out.mpr linked) same rfl
  unfold RG.connectedToOne RG.connectedTo
  rw [single]
  rfl

/-- What the cascade of a disk's change does: it marks pool versions, by the graph it looks at, and the rest is the change itself,
on the storage device. -/
structure Cascades (rg : RG K V) (topFids : List Fid) (root : AnyStateChange) (changes : List AnyStateChange) : Prop where
  marks : ∀ change, change ∈ changes ∧ change.object.typeOf = .PVer ↔
    change.object.fid ∉ topFids ∧ rg.Reaches root.object change.object ∧
      root.new.toConfObjState ≠ rg.getConfObjState change.object ∧ rg.Due root.new.toConfObjState change.object ∧
      change = ⟨change.object, rg.getState change.object, .conf root.new.toConfObjState⟩
  devices : ∀ change ∈ changes, change.object.typeOf ≠ .PVer → rg.carrier change.object = rg.carrier root.object ∧
    change.new = root.new
  self : root ∈ changes

theorem getState_pver (depicts : Depicts rg.graph links) (typed : v.typeOf = .PVer) :
    rg.getState v = .conf (rg.getConfObjState v) := by
  cases v with
  | pver f data =>
    unfold RG.getConfObjState RG.getState
    cases found : rg.stateOf (.pver f data) .ConfObjectState with
    | none => rfl
    | some s =>
      cases s with
      | conf => rfl
      | _ => cases RG.typeOf_stateOf depicts found
  | _ => cases typed

theorem passOn_marking (depicts : Depicts rg.graph links) (either : new = .SDSFailed ∨ new = .SDSOnline)
    (typed : v.typeOf = .PVer) (apart : new.toConfObjState ≠ rg.getConfObjState v) :
    passOn rg topFids (marking new) v =
      if v.fid ∈ topFids then none else some ⟨v, rg.getState v, .conf new.toConfObjState⟩ := by
  have moves : runTransition (marking new) (rg.getState v) = .TransitionTo (.conf new.toConfObjState) := by
    rw [getState_pver depicts typed]
    generalize rg.getConfObjState v = s at apart
    rcases either with rfl | rfl
    · cases s <;> first | rfl | exact absurd rfl apart
    · cases s <;> first | rfl | exact absurd rfl apart
  unfold passOn
  simp only [moves]

theorem cascades_disk (depicts : Depicts rg.graph links) (either : new = .SDSFailed ∨ new = .SDSOnline)
    (top : d ∈ topFids) (found : rg.brokenPVers new.toConfObjState (refusal new.toConfObjState) (.disk d) = .ok broken) :
    Cascades rg topFids ⟨.disk d, old, .sdev new⟩ (followers rg topFids d new broken ++ [⟨.disk d, old, .sdev new⟩]) := by
  have device {change : AnyStateChange} (listed : change ∈ (rg.connectedFromOne .IsOnHardware .SDev (.disk d)).toList.filterMap
      (passOn rg topFids (constTransition (.sdev new)))) :
      rg.connectedFromOne .IsOnHardware .SDev (.disk d) = some change.object ∧ change.new = .sdev new := by
    obtain ⟨x, kept, passed⟩ := mem_filterMap.mp listed
    rw [← passOn_object passed] at kept
    exact ⟨Option.mem_toList.mp kept, passOn_const passed⟩
  refine ⟨?_, ?_, mem_append_right _ mem_cons_self⟩
  · intro change
    constructor
    · rintro ⟨member, typed⟩
      rcases mem_append.mp member with member | last
      · rcases mem_append.mp (mem_filter.mp member).1 with listed | listed
        · cases (RG.typeOf_connectedFromOne (device listed).1).symm.trans typed
        · obtain ⟨x, among, passed⟩ := mem_filterMap.mp listed
          obtain ⟨reaches, apart, due⟩ := (RG.mem_brokenPVers found).mp among
          obtain rfl := passOn_object passed
          rw [passOn_marking depicts either typed apart] at passed
          split at passed
          next => cases passed
          next outside => exact ⟨outside, reaches, apart, due, (Option.some.inj passed).symm⟩
      · rw [mem_singleton.mp last] at typed
        cases typed
    · rintro ⟨outside, reaches, apart, due, same⟩
      refine ⟨mem_append_left _ (mem_filter.mpr ⟨mem_append_right _ ?_, ?_⟩), reaches.typeOf⟩
      · apply mem_filterMap.mpr
        refine ⟨change.object, (RG.mem_brokenPVers found).mpr ⟨reaches, apart, due⟩, ?_⟩
        rw [passOn_marking depicts either reaches.typeOf apart, if_neg outside]
        exact congrArg some same.symm
      · exact decide_eq_true fun equal => outside (equal ▸ top)
  · intro change member untyped
    rcases mem_append.mp member with member | last
    · rcases mem_append.mp (mem_filter.mp member).1 with listed | listed
      · obtain ⟨partner, same⟩ := device listed
        exact ⟨(RG.carrier_self (.inl (RG.typeOf_connectedFromOne partner))).trans partner.symm, same⟩
      · obtain ⟨x, among, passed⟩ := mem_filterMap.mp listed
        exact absurd (passOn_object passed ▸ ((RG.mem_brokenPVers found).mp among).1.typeOf) untyped
    · rw [mem_singleton.mp last]
      exact ⟨rfl, rfl⟩

end Halon.Mero
