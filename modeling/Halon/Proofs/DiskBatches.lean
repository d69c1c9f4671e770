import Halon.Proofs.CascadeDisks

/-! Disks that change their states together. Each change cascades on its own, so of the
changes that mark a pool version the last one counts. -/

namespace Halon.Mero
open Library SetMap
variable {K V : Type} [LinearOrder K] [LinearOrder V] {enc : Encoding Relation Resource K V} {rg : RG K V}
variable {links : Links Relation Resource} {sets : List AnyStateSet} {topFids : List Fid} {root : AnyStateChange}

/-- A state set for a disk that can only fail or come online by it. -/
structure AnyStateSet.ForDisk (set : AnyStateSet) : Prop where
  disk : ∃ d, set.object = .disk d
  moves : ∀ st s, set.transition st = .TransitionTo s → s = .sdev .SDSFailed ∨ s = .sdev .SDSOnline

inductive AnyStateChange.OfDisk : AnyStateChange → Prop where
  | change (d : Fid) (old : ObjectState) (new : SDevState) (either : new = .SDSFailed ∨ new = .SDSOnline) :
    OfDisk ⟨.disk d, old, .sdev new⟩

theorem ofDisk_root (disks : ∀ set ∈ sets, set.ForDisk) (member : root ∈ rootStateChanges sets rg) : root.OfDisk := by
  obtain ⟨⟨_, transition⟩, listed, found⟩ := List.mem_filterMap.mp member
  obtain ⟨⟨d, rfl⟩, moves⟩ := disks _ listed
  unfold lookupOldState runTransition at found
  cases moved : transition (rg.getState (.disk d)) with
  | TransitionTo st =>
    simp only [moved] at found
    by_cases same : rg.getState (.disk d) = st
    · rw [if_pos same] at found
      cases found
    · rw [if_neg same] at found
      cases found
      rcases moves _ _ moved with rfl | rfl
      · exact .change _ _ _ (.inl rfl)
      · exact .change _ _ _ (.inr rfl)
  | _ => simp [moved] at found

/-- The graph is edited where failures are recorded. -/
structure Records (update : GraphUpdate K V) : Prop where
  fails : ∀ rg e, rg.getNonMD = .error e → update rg = .error e
  keeps : ∀ rg links nonMD, Depicts rg.graph links → rg.getNonMD = .ok nonMD →
    ∃ after, update rg = .ok after ∧ SameTopology rg after ∧ ∀ z b, after.stateOf z b = rg.stateOf z b

theorem updateDiskFailure_error (missing : rg.getNonMD = .error e) : rg.updateDiskFailure enc df f d = .error e := by
  unfold RG.updateDiskFailure
  rw [missing, error_bind]

theorem records_recording (d : Fid) (either : new = .SDSFailed ∨ new = .SDSOnline) : Records (recording enc new d) := by
  rcases either with rfl | rfl
  · constructor
    · exact fun rg e missing => updateDiskFailure_error missing
    · intro rg links nonMD depicts pools
      obtain ⟨after, updated, topology, _, _, states⟩ := RG.updateDiskFailure_spec (RG.changesVector_failure d) depicts pools
      exact ⟨after, updated, topology, states⟩
  · constructor
    · exact fun rg e missing => updateDiskFailure_error missing
    · intro rg links nonMD depicts pools
      obtain ⟨after, updated, topology, _, _, states⟩ := RG.updateDiskFailure_spec (RG.changesVector_online d) depicts pools
      exact ⟨after, updated, topology, states⟩

theorem foldl_andThen (updates : List (GraphUpdate K V)) (start : GraphUpdate K V) :
    updates.foldl GraphUpdate.andThen start rg = start rg >>= fun rg => updates.foldlM (fun rg update => update rg) rg := by
  induction updates generalizing start with
  | nil => exact (bind_pure _).symm
  | cons _ _ ih =>
    rw [List.foldl_cons, ih]
    exact bind_assoc _ _ _

theorem Records.fold {updates : List (GraphUpdate K V)} (records : ∀ update ∈ updates, Records update)
    (depicts : Depicts rg.graph links) (pools : rg.getNonMD = .ok nonMD) :
    ∃ after, updates.foldlM (fun rg update => update rg) rg = .ok after ∧ SameTopology rg after ∧
      ∀ z b, after.stateOf z b = rg.stateOf z b := by
  induction updates generalizing rg links with
  | nil => exact ⟨rg, rfl, .refl depicts, fun _ _ => rfl⟩
  | cons update _ ih =>
    obtain ⟨_, updated, topology, states⟩ := (records update List.mem_cons_self).keeps rg links nonMD depicts pools
    obtain ⟨_, shown⟩ := topology.depicts
    obtain ⟨after, rest, further, others⟩ := ih (fun u member => records u (List.mem_cons_of_mem _ member)) shown
      (topology.getNonMD_eq ▸ pools)
    refine ⟨after, ?_, topology.trans further, fun z b => (others z b).trans (states z b)⟩
    rw [List.foldlM_cons, updated, ok_bind, rest]

variable (enc) in
theorem cascade_root (sound : Graph.Sound schema rg) (disk : root.OfDisk) (top : root.object.fid ∈ topFids)
    (readable : ∀ v ∈ rg.pversOf root.object root.new.toConfObjState, v.Readable) (rounds : Nat) :
    ∃ update changes, cascadeStateChange enc (rounds + 2) root rg topFids = .ok (update, changes) ∧ Records update ∧
      Cascades rg topFids root changes := by
  obtain ⟨_, depicts⟩ := sound.depicts
  cases disk with
  | change d old new either =>
    have found : rg.brokenPVers new.toConfObjState _ (.disk d) = _ := RG.brokenPVers_eq readable
    refine ⟨recording enc new d, _, ?_, records_recording d either, cascades_disk depicts either top found⟩
    rw [cascade_disk (fun x => RG.sdev_back sound) either, found]
    rfl

theorem readable_of_cascade (sound : Graph.Sound schema rg) (disk : root.OfDisk)
    (ok : cascadeStateChange enc (rounds + 2) root rg topFids = .ok result) :
    ∀ v ∈ rg.pversOf root.object root.new.toConfObjState, v.Readable := by
  cases disk with
  | change d old new either =>
    rw [cascade_disk (fun x => RG.sdev_back sound) either] at ok
    cases found : rg.brokenPVers new.toConfObjState (refusal new.toConfObjState) (.disk d) with
    | error =>
      rw [found] at ok
      cases ok
    | ok => exact RG.readable_of_brokenPVers found

variable {α : Type}

theorem getLast?_of_forall_eq (same : ∀ x ∈ xs, x = a) :
    xs.getLast? = if xs = [] then none else some a := by
  cases found : xs.getLast? with
  | none => rw [if_pos (List.getLast?_eq_none_iff.mp found)]
  | some x =>
    have member := List.mem_of_getLast? found
    rw [if_neg (List.ne_nil_of_mem member), same x member]

/-- Where each element has one value for all it adds, or adds nothing, the last one that adds something counts. -/
theorem getLast?_flatMap_of {β : Type} {xs : List α} {l : α → List β} {adds : α → Prop} [DecidablePred adds] {value : α → β}
    (each : ∀ x ∈ xs, (l x).getLast? = if adds x then some (value x) else none) :
    (xs.flatMap l).getLast? = ((xs.filter adds).getLast?).map value := by
  induction xs using List.reverseRecOn with
  | nil => rfl
  | append_singleton xs x ih =>
    rw [List.flatMap_append, List.flatMap_singleton, List.getLast?_append, each x (by simp),
      ih fun y member => each y (List.mem_append_left _ member), List.filter_append, List.getLast?_append]
    by_cases adding : adds x <;> simp [adding]

def Marks (rg : RG K V) (topFids : List Fid) (v : ConfObj) (root : AnyStateChange) : Prop :=
  v.fid ∉ topFids ∧ rg.Reaches root.object v ∧
    root.new.toConfObjState ≠ rg.getConfObjState v ∧ rg.Due root.new.toConfObjState v

instance {v : ConfObj} : DecidablePred (Marks rg topFids v) := fun _ => inferInstanceAs (Decidable (_ ∧ _))

namespace Cascades
variable {changes : List AnyStateChange} {z : ConfObj} {b : ResourceType}

theorem mem_assigned :
    s ∈ rg.assigned z b changes ↔ ∃ change ∈ changes, rg.carrier change.object = some z ∧ change.new.typeOf = b ∧
    change.new = s := by
  unfold RG.assigned
  rw [List.mem_filterMap]
  apply exists_congr
  intro change
  by_cases set : rg.carrier change.object = some z ∧ change.new.typeOf = b
  · simp [set]
  · simp only [set, if_false]
    constructor
    · rintro ⟨_, impossible⟩
      cases impossible
    · rintro ⟨_, kept, typed, _⟩
      exact absurd ⟨kept, typed⟩ set

theorem typeOf_carrier (disk : root.OfDisk) (kept : rg.carrier root.object = some z) : z.typeOf = .SDev := by
  cases disk with
  | change => exact RG.typeOf_connectedFromOne kept

variable (cascades : Cascades rg topFids root changes) (disk : root.OfDisk)
include cascades disk

theorem pver (typed : z.typeOf = .PVer) :
    (rg.assigned z .ConfObjectState changes).getLast? =
      if Marks rg topFids z root then some (.conf root.new.toConfObjState) else none := by
  have only {change : AnyStateChange} (member : change ∈ changes) (kept : rg.carrier change.object = some z) :
      change.object = z ∧ change.object.typeOf = .PVer := by
    by_cases type : change.object.typeOf = .PVer
    · rw [RG.carrier_self (.inr type)] at kept
      exact ⟨Option.some.inj kept, type⟩
    · rw [(cascades.devices change member type).1] at kept
      cases (typeOf_carrier disk kept).symm.trans typed
  have all : ∀ s ∈ rg.assigned z .ConfObjectState changes, s = .conf root.new.toConfObjState := by
    intro s assigned
    obtain ⟨change, member, kept, _, rfl⟩ := mem_assigned.mp assigned
    obtain ⟨rfl, type⟩ := only member kept
    obtain ⟨_, _, _, _, same⟩ := (cascades.marks change).mp ⟨member, type⟩
    rw [same]
  rw [getLast?_of_forall_eq all]
  by_cases marks : Marks rg topFids z root
  · obtain ⟨outside, reaches, apart, due⟩ := marks
    obtain ⟨member, _⟩ :=
      (cascades.marks ⟨z, rg.getState z, .conf root.new.toConfObjState⟩).mpr ⟨outside, reaches, apart, due, rfl⟩
    have assigned : .conf root.new.toConfObjState ∈ rg.assigned z .ConfObjectState changes :=
      mem_assigned.mpr ⟨_, member, RG.carrier_self (.inr typed), rfl, rfl⟩
    rw [if_neg (List.ne_nil_of_mem assigned), if_pos ⟨outside, reaches, apart, due⟩]
  · have none : rg.assigned z .ConfObjectState changes = [] := by
      apply List.eq_nil_iff_forall_not_mem.mpr
      intro s assigned
      obtain ⟨change, member, kept, _, rfl⟩ := mem_assigned.mp assigned
      obtain ⟨rfl, type⟩ := only member kept
      obtain ⟨outside, reaches, apart, due, _⟩ := (cascades.marks change).mp ⟨member, type⟩
      exact marks ⟨outside, reaches, apart, due⟩
    rw [if_pos none, if_neg marks]

theorem sdev (typed : z.typeOf = .SDev) :
    (rg.assigned z .SDevState changes).getLast? = if rg.carrier root.object = some z then some root.new else none := by
  have only {change : AnyStateChange} (member : change ∈ changes) (kept : rg.carrier change.object = some z) :
      rg.carrier root.object = some z ∧ change.new = root.new := by
    have type : change.object.typeOf ≠ .PVer := by
      intro type
      rw [RG.carrier_self (.inr type)] at kept
      cases kept
      cases type.symm.trans typed
    obtain ⟨same, new⟩ := cascades.devices change member type
    exact ⟨same ▸ kept, new⟩
  have all : ∀ s ∈ rg.assigned z .SDevState changes, s = root.new := by
    intro s assigned
    obtain ⟨_, member, kept, _, rfl⟩ := mem_assigned.mp assigned
    exact (only member kept).2
  rw [getLast?_of_forall_eq all]
  by_cases keeps : rg.carrier root.object = some z
  · have state : root.new.typeOf = .SDevState := by cases disk; rfl
    have assigned : root.new ∈ rg.assigned z .SDevState changes := mem_assigned.mpr ⟨root, cascades.self, keeps, state, rfl⟩
    rw [if_neg (List.ne_nil_of_mem assigned), if_pos keeps]
  · have none : rg.assigned z .SDevState changes = [] := by
      apply List.eq_nil_iff_forall_not_mem.mpr
      intro s assigned
      obtain ⟨_, member, kept, _, rfl⟩ := mem_assigned.mp assigned
      exact keeps (only member kept).1
    rw [if_pos none, if_neg keeps]

theorem other (pver : z.typeOf ≠ .PVer) (sdev : z.typeOf ≠ .SDev) : rg.assigned z b changes = [] := by
  apply List.eq_nil_iff_forall_not_mem.mpr
  intro s assigned
  obtain ⟨change, member, kept, _, rfl⟩ := mem_assigned.mp assigned
  by_cases type : change.object.typeOf = .PVer
  · rw [RG.carrier_self (.inr type)] at kept
    exact pver (Option.some.inj kept ▸ type)
  · rw [(cascades.devices change member type).1] at kept
    exact sdev (typeOf_carrier disk kept)

end Cascades

/-- The state of a device after the changes: one that has where to keep its state is in that of its last change. -/
def RG.stateAfter (rg : RG K V) (changes : List AnyStateChange) (x : ConfObj) : ConfObjectState :=
  match rg.carrier x, (changes.filter fun change => change.object = x).getLast? with
  | some _, some last => last.new.toConfObjState
  | _, _ => rg.getConfObjState x

structure Settled (rg : RG K V) (roots : List AnyStateChange) (after : RG K V) : Prop where
  topology : SameTopology rg after
  pvers : ∀ v, v.typeOf = .PVer → after.getConfObjState v =
    ((roots.filter (Marks rg (roots.map fun root => root.object.fid) v)).getLast?.map fun root => root.new.toConfObjState).getD
      (rg.getConfObjState v)
  devices : ∀ level x, x.typeOf = .Device level → after.getConfObjState x = rg.stateAfter roots x

theorem assigned_flatMap (xs : List α) (l : α → List AnyStateChange) (z : ConfObj) (b : ResourceType) :
    rg.assigned z b (xs.flatMap l) = xs.flatMap fun x => rg.assigned z b (l x) := List.filterMap_flatMap

theorem RG.getConfObjState_pver (typed : v.typeOf = .PVer) :
    rg.getConfObjState v = ((rg.stateOf v .ConfObjectState).getD (.conf .M0_NC_ONLINE)).toConfObjState := by
  cases v with
  | pver => rfl
  | _ => cases typed

theorem RG.carrier_disk (sound : Graph.Sound schema rg) (disk : root.OfDisk)
    (kept : rg.carrier (.disk d) = some z) : rg.carrier root.object = some z ↔ root.object = .disk d := by
  constructor
  · intro also
    cases disk with
    | change => exact Option.some.inj ((RG.sdev_back sound also).symm.trans (RG.sdev_back sound kept))
  · intro same
    rw [same, kept]

section
variable {roots : List AnyStateChange} {after : RG K V}

theorem stateAfter_other (disks : ∀ root ∈ roots, root.OfDisk) (other : x.typeOf ≠ .Device .Disk) :
    rg.stateAfter roots x = rg.getConfObjState x := by
  have unchanged : roots.filter (fun change => change.object = x) = [] := by
    apply List.filter_eq_nil_iff.mpr
    intro root member same
    cases disks root member with
    | change => exact other (of_decide_eq_true same ▸ rfl)
  unfold RG.stateAfter
  rw [unchanged]
  split
  next impossible => cases impossible
  next => rfl

theorem RG.getConfObjState_disk (d : Fid) :
    rg.getConfObjState (.disk d) =
      (((rg.carrier (.disk d)).bind fun sdev => rg.stateOf sdev .SDevState).getD (.sdev .SDSUnknown)).toConfObjState := rfl

theorem stateAfter_disk (sound : Graph.Sound schema rg) (disks : ∀ root ∈ roots, root.OfDisk)
    (cascades : ∀ root ∈ roots, Cascades rg topFids root (changes root)) (topology : SameTopology rg after)
    (states : ∀ z b, after.stateOf z b = (rg.assigned z b (roots.flatMap changes)).getLast?.or (rg.stateOf z b)) (d : Fid) :
    after.getConfObjState (.disk d) = rg.stateAfter roots (.disk d) := by
  unfold RG.stateAfter
  rw [RG.getConfObjState_disk, RG.getConfObjState_disk, ← RG.carrier_congr topology]
  cases kept : rg.carrier (.disk d) with
  | none => rfl
  | some z =>
    have typed : z.typeOf = .SDev := RG.typeOf_connectedFromOne kept
    have own : roots.filter (fun root => rg.carrier root.object = some z) = roots.filter fun root => root.object = .disk d := by
      apply List.filter_congr
      intro root member
      exact decide_eq_decide.mpr (RG.carrier_disk sound (disks root member) kept)
    have set := states z .SDevState
    rw [assigned_flatMap, getLast?_flatMap_of fun root member =>
      (cascades root member).sdev (disks root member) typed, own] at set
    rw [Option.bind_some, Option.bind_some, set]
    cases (roots.filter fun root => root.object = .disk d).getLast? <;> rfl

theorem settled (sound : Graph.Sound schema rg) (disks : ∀ root ∈ roots, root.OfDisk)
    {changes : AnyStateChange → List AnyStateChange}
    (cascades : ∀ root ∈ roots, Cascades rg (roots.map fun root => root.object.fid) root (changes root))
    (topology : SameTopology rg after)
    (states : ∀ z b, after.stateOf z b = (rg.assigned z b (roots.flatMap changes)).getLast?.or (rg.stateOf z b)) :
    Settled rg roots after where
  topology := topology
  pvers v typed := by
    have marked := states v .ConfObjectState
    rw [assigned_flatMap, getLast?_flatMap_of fun root member => (cascades root member).pver (disks root member) typed] at marked
    rw [RG.getConfObjState_pver typed, marked, RG.getConfObjState_pver typed]
    cases (roots.filter (Marks rg (roots.map fun root => root.object.fid) v)).getLast? <;> rfl
  devices level x typed := by
    have same {b : ResourceType} (other : x.typeOf ≠ .PVer) (apart : x.typeOf ≠ .SDev) : after.stateOf x b = rg.stateOf x b := by
      have nothing : (roots.flatMap fun root => rg.assigned x b (changes root)) = [] := by
        apply List.flatMap_eq_nil_iff.mpr
        exact fun root member => (cascades root member).other (disks root member) other apart
      rw [states, assigned_flatMap, nothing]
      rfl
    cases x with
    | device level f =>
      cases level with
      | Disk => exact stateAfter_disk sound disks cascades topology states f
      | _ =>
        rw [stateAfter_other disks (by intro type; cases type)]
        exact congrArg (fun s : Option ObjectState => (s.getD _).toConfObjState) (same nofun nofun)
    | _ => cases typed

end

theorem applyStateChanges_eq (rounds : Nat) : applyStateChanges enc rounds sets rg =
    ((rootStateChanges sets rg).mapM fun root =>
      cascadeStateChange enc rounds root rg ((rootStateChanges sets rg).map fun root => root.object.fid)) >>= fun cascades =>
        (cascades.map Prod.fst).foldl GraphUpdate.andThen .ok (setStates enc (cascades.flatMap Prod.snd) rg) := by
  unfold applyStateChanges createDeferredStateChanges
  simp only [bind_assoc, pure_bind]

variable (enc) in
theorem cascade_roots (sound : Graph.Sound schema rg) {roots : List AnyStateChange} (disks : ∀ root ∈ roots, root.OfDisk)
    (readable : ∀ root ∈ roots, ∀ v ∈ rg.pversOf root.object root.new.toConfObjState, v.Readable) (rounds : Nat) :
    ∃ (update : AnyStateChange → GraphUpdate K V) (changes : AnyStateChange → List AnyStateChange),
      (roots.mapM fun root => cascadeStateChange enc (rounds + 2) root rg (roots.map fun root => root.object.fid)) =
        .ok (roots.map fun root => (update root, changes root)) ∧ (∀ root ∈ roots, Records (update root)) ∧
      ∀ root ∈ roots, Cascades rg (roots.map fun root => root.object.fid) root (changes root) := by
  have top : ∀ root ∈ roots, root.object.fid ∈ roots.map fun root => root.object.fid := fun root member =>
    List.mem_map.mpr ⟨root, member, rfl⟩
  generalize roots.map (fun root => root.object.fid) = topFids at top
  have each : ∀ root ∈ roots, ∃ result : GraphUpdate K V × List AnyStateChange,
      cascadeStateChange enc (rounds + 2) root rg topFids = .ok result ∧ Records result.1 ∧
        Cascades rg topFids root result.2 := by
    intro root member
    obtain ⟨update, changes, ok, records, cascades⟩ := cascade_root enc sound (disks root member) (top root member)
      (readable root member) rounds
    exact ⟨(update, changes), ok, records, cascades⟩
  have : Nonempty (GraphUpdate K V) := ⟨.ok⟩
  choose! result cascade records cascades using each
  exact ⟨fun root => (result root).1, fun root => (result root).2, mapM_eq_map cascade, records, cascades⟩

variable (enc) in
theorem applied (sound : Graph.Sound schema rg) (disks : ∀ set ∈ sets, set.ForDisk)
    (readable : ∀ root ∈ rootStateChanges sets rg, ∀ v ∈ rg.pversOf root.object root.new.toConfObjState, v.Readable)
    (rooted : rootStateChanges sets rg ≠ [] → ∃ nonMD, rg.getNonMD = .ok nonMD) (rounds : Nat) :
    ∃ after, applyStateChanges enc (rounds + 2) sets rg = .ok after ∧ Settled rg (rootStateChanges sets rg) after := by
  have disks : ∀ root ∈ rootStateChanges sets rg, root.OfDisk := fun root => ofDisk_root disks
  rw [applyStateChanges_eq]
  generalize rootStateChanges sets rg = roots at disks readable rooted
  obtain ⟨_, depicts⟩ := sound.depicts
  obtain ⟨update, changes, cascade, records, cascades⟩ := cascade_roots enc sound disks readable rounds
  have set : SameTopology rg (setStates enc (roots.flatMap changes) rg) := RG.sameTopology_setStates depicts _
  have states : ∀ z b, (setStates enc (roots.flatMap changes) rg).stateOf z b =
      (rg.assigned z b (roots.flatMap changes)).getLast?.or (rg.stateOf z b) := fun z b => RG.stateOf_setStates depicts _
  rw [cascade, ok_bind, List.map_map, List.flatMap_map, foldl_andThen, ok_bind]
  change ∃ after, (roots.map update).foldlM (fun rg update => update rg)
    (setStates enc (roots.flatMap changes) rg) = .ok after ∧ _
  by_cases none : roots = []
  · subst none
    exact ⟨rg, rfl, settled sound disks cascades (.refl depicts) fun _ _ => rfl⟩
  · obtain ⟨_, pools⟩ := rooted none
    obtain ⟨_, shown⟩ := set.depicts
    have updates : ∀ u ∈ roots.map update, Records u := by
      intro u member
      obtain ⟨root, listed, rfl⟩ := List.mem_map.mp member
      exact records root listed
    obtain ⟨after, recorded, topology, kept⟩ := Records.fold updates shown (set.getNonMD_eq ▸ pools)
    exact ⟨after, recorded, settled sound disks cascades (set.trans topology) fun z b => (kept z b).trans (states z b)⟩

theorem of_applied (sound : Graph.Sound schema rg) (disks : ∀ set ∈ sets, set.ForDisk)
    (ok : applyStateChanges enc (rounds + 2) sets rg = .ok after) :
    (∀ root ∈ rootStateChanges sets rg, ∀ v ∈ rg.pversOf root.object root.new.toConfObjState, v.Readable) ∧
      (rootStateChanges sets rg ≠ [] → ∃ nonMD, rg.getNonMD = .ok nonMD) := by
  rw [applyStateChanges_eq] at ok
  have disks : ∀ root ∈ rootStateChanges sets rg, root.OfDisk := fun root => ofDisk_root disks
  generalize rootStateChanges sets rg = roots at disks ok
  have readable : ∀ root ∈ roots, ∀ v ∈ rg.pversOf root.object root.new.toConfObjState, v.Readable := by
    intro root member
    cases all : roots.mapM fun root => cascadeStateChange enc (rounds + 2) root rg (roots.map fun root => root.object.fid) with
    | error =>
      rw [all] at ok
      cases ok
    | ok =>
      obtain ⟨_, cascade⟩ := ok_of_mapM all root member
      exact readable_of_cascade sound (disks root member) cascade
  refine ⟨readable, ?_⟩
  intro some
  obtain ⟨_, depicts⟩ := sound.depicts
  obtain ⟨update, changes, cascade, records, _⟩ := cascade_roots enc sound disks readable rounds
  have set : SameTopology rg (setStates enc (roots.flatMap changes) rg) := RG.sameTopology_setStates depicts _
  cases pools : rg.getNonMD with
  | ok nonMD => exact ⟨nonMD, rfl⟩
  | error e =>
    rw [cascade, ok_bind, List.map_map, List.flatMap_map, foldl_andThen, ok_bind] at ok
    cases roots with
    | nil => exact absurd rfl some
    | cons root rest =>
      rw [List.map_cons, List.foldlM_cons] at ok
      change update root (setStates enc ((root :: rest).flatMap changes) rg) >>= _ = _ at ok
      rw [(records root List.mem_cons_self).fails _ e (set.getNonMD_eq ▸ pools)] at ok
      cases ok

end Halon.Mero
