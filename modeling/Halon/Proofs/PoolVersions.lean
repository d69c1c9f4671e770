import Halon.Proofs.DiskBatches

/-! The health of pool versions. Marks are decided by the graph before the changes, one
change at a time, so they are right only where that graph already tells the outcome. -/

namespace Halon.Mero
open Library SetMap List
variable {K V : Type} [LinearOrder K] [LinearOrder V] {enc : Encoding Relation Resource K V} {rg rg' : RG K V}
variable {sets : List AnyStateSet} {roots : List AnyStateChange} {v : ConfObj}

def ConfObj.isActual : ConfObj → Bool
  | .pver _ (.actual _) => true
  | _ => false

namespace RG

/-- At some level more devices of the pool version are failed than it tolerates. -/
def Exceeded (rg : RG K V) (state : ConfObj → ConfObjectState) (v : ConfObj) : Prop :=
  ∃ entry ∈ v.tolerances, entry.2 < (rg.devices entry.1 v).countP fun x => state x = .M0_NC_FAILED

instance {state : ConfObj → ConfObjectState} : Decidable (rg.Exceeded state v) := inferInstanceAs (Decidable (∃ _ ∈ _, _))

def Concerned (rg : RG K V) (roots : List AnyStateChange) (v : ConfObj) : Prop :=
  ∃ root ∈ roots, ∃ pool ∈ rg.poolsOf root.object.fid, v ∈ rg.connectedTo pool .IsParentOf .PVer ∧ v.isActual

instance : Decidable (rg.Concerned roots v) := inferInstanceAs (Decidable (∃ _ ∈ _, ∃ _ ∈ _, _))

/-- The pool version is failed if and only if it has to be, and is online otherwise. -/
structure Healthy (rg : RG K V) (v : ConfObj) : Prop where
  failed : rg.getConfObjState v = .M0_NC_FAILED ↔ rg.Exceeded rg.getConfObjState v
  online : ¬ rg.Exceeded rg.getConfObjState v → rg.getConfObjState v = .M0_NC_ONLINE

/-- The new states of the disks that a pool version has, one change after another. A pool version with the fid of a changed
object is left alone. -/
def hitting (rg : RG K V) (roots : List AnyStateChange) (v : ConfObj) : List ConfObjectState :=
  (roots.filter fun root => v.fid ∉ roots.map (fun root => root.object.fid) ∧ rg.Reaches root.object v).map fun root =>
    root.new.toConfObjState

/-- By the graph before the changes the pool version ends in the one state and not in the other: it is in it and
no disk takes it out, or a disk puts it in it and none takes it out again. -/
def EndsIn (rg : RG K V) (roots : List AnyStateChange) (v : ConfObj) (wanted other : ConfObjectState) : Prop :=
  rg.getConfObjState v = wanted ∧ ¬ (rg.Due other v ∧ other ∈ rg.hitting roots v) ∨
    rg.getConfObjState v ≠ wanted ∧ rg.Due wanted v ∧ wanted ∈ rg.hitting roots v ∧
      (rg.getConfObjState v ≠ other → rg.Due other v → (rg.hitting roots v).getLast? = some wanted)

instance {wanted other : ConfObjectState} : Decidable (rg.EndsIn roots v wanted other) := inferInstanceAs (Decidable (_ ∨ _))

/-- The graph before the changes tells what becomes of the pool versions. -/
structure Foreseen (rg : RG K V) (roots : List AnyStateChange) : Prop where
  rooted : roots ≠ [] → ∃ nonMD, rg.getNonMD = .ok nonMD
  readable : ∀ root ∈ roots, ∀ v, rg.Reaches root.object v → root.new.toConfObjState ≠ rg.getConfObjState v → v.Readable
  failed : ∀ v, rg.Concerned roots v → rg.Exceeded (rg.stateAfter roots) v → rg.EndsIn roots v .M0_NC_FAILED .M0_NC_ONLINE
  online : ∀ v, rg.Concerned roots v → ¬ rg.Exceeded (rg.stateAfter roots) v → rg.EndsIn roots v .M0_NC_ONLINE .M0_NC_FAILED

end RG

/-- Of two kinds of marks, where only those count that are due and change the state, which is the last. -/
theorem getLast?_due {α : Type} [DecidableEq α] {marks : List α} {due : α → Prop} [DecidablePred due] {start wanted other}
    (either : ∀ m ∈ marks, m = wanted ∨ m = other) (apart : wanted ≠ other) :
    (marks.filter fun m => m ≠ start ∧ due m).getLast?.getD start = wanted ↔
      start = wanted ∧ ¬ (due other ∧ other ∈ marks) ∨
        start ≠ wanted ∧ due wanted ∧ wanted ∈ marks ∧ (start ≠ other → due other → marks.getLast? = some wanted) := by
  have counts {m : α} : m ∈ marks.filter (fun m => m ≠ start ∧ due m) ↔ m ∈ marks ∧ m ≠ start ∧ due m := by simp
  by_cases held : start = wanted
  · subst held
    have all : ∀ m ∈ marks.filter (fun m => m ≠ start ∧ due m), m = other := by
      intro m member
      obtain ⟨listed, changes, _⟩ := counts.mp member
      exact (either m listed).resolve_left changes
    rw [getLast?_of_forall_eq all]
    by_cases takes : due other ∧ other ∈ marks
    · rw [if_neg (ne_nil_of_mem (counts.mpr ⟨takes.2, apart.symm, takes.1⟩))]
      simp [takes, apart.symm]
    · have none : marks.filter (fun m => m ≠ start ∧ due m) = [] := by
        apply eq_nil_iff_forall_not_mem.mpr
        intro m member
        obtain ⟨listed, _, isDue⟩ := counts.mp member
        exact takes (all m member ▸ ⟨isDue, listed⟩)
      rw [if_pos none]
      simp [takes]
  · have last : (marks.filter fun m => m ≠ start ∧ due m).getLast?.getD start = wanted ↔
        (marks.filter fun m => m ≠ start ∧ due m).getLast? = some wanted := by
      cases (marks.filter fun m => m ≠ start ∧ due m).getLast? <;> simp [held]
    rw [last]
    by_cases isDue : due wanted
    · by_cases both : start ≠ other ∧ due other
      · have kept : marks.filter (fun m => m ≠ start ∧ due m) = marks := by
          apply filter_eq_self.mpr
          intro m listed
          rcases either m listed with rfl | rfl
          · exact decide_eq_true ⟨Ne.symm held, isDue⟩
          · exact decide_eq_true ⟨Ne.symm both.1, both.2⟩
        rw [kept]
        constructor
        · exact fun found => .inr ⟨held, isDue, mem_of_getLast? found, fun _ _ => found⟩
        · rintro (⟨same, _⟩ | ⟨_, _, _, found⟩)
          · exact absurd same held
          · exact found both.1 both.2
      · have all : ∀ m ∈ marks.filter (fun m => m ≠ start ∧ due m), m = wanted := by
          intro m member
          obtain ⟨listed, changes, too⟩ := counts.mp member
          rcases either m listed with rfl | rfl
          · rfl
          · exact absurd ⟨Ne.symm changes, too⟩ both
        rw [getLast?_of_forall_eq all]
        constructor
        · intro found
          split at found
          next => cases found
          next some =>
            obtain ⟨m, member⟩ := exists_mem_of_ne_nil _ some
            refine .inr ⟨held, isDue, all m member ▸ (counts.mp member).1, fun first second => absurd ⟨first, second⟩ both⟩
        · rintro (⟨same, _⟩ | ⟨_, _, listed, _⟩)
          · exact absurd same held
          · rw [if_neg (ne_nil_of_mem (counts.mpr ⟨listed, Ne.symm held, isDue⟩))]
    · constructor
      · exact fun found => absurd (counts.mp (mem_of_getLast? found)).2.2 isDue
      · rintro (⟨same, _⟩ | ⟨_, too, _⟩)
        · exact absurd same held
        · exact absurd too isDue

theorem SameTopology.devices_eq (same : SameTopology rg rg') (level : Level) (v : ConfObj) :
    rg.devices level v = rg'.devices level v := by
  have down (o : ConfObj) (l : Level) : rg.connectedTo o .IsParentOf (.DeviceV l) = rg'.connectedTo o .IsParentOf (.DeviceV l) :=
    same.connectedTo_eq nofun nofun
  unfold RG.devices RG.virtuals
  simp only [same.connectedFromOne_eq (r := .IsRealOf) nofun, down]

namespace Settled
variable {after : RG K V}

theorem exceeded_iff (settled : Settled rg roots after) : after.Exceeded after.getConfObjState v ↔
    rg.Exceeded (rg.stateAfter roots) v := by
  have counts (level : Level) : (after.devices level v).countP (fun x => after.getConfObjState x = .M0_NC_FAILED) =
      (rg.devices level v).countP fun x => rg.stateAfter roots x = .M0_NC_FAILED := by
    rw [settled.topology.devices_eq]
    apply countP_congr
    intro x member
    obtain ⟨n, _, found⟩ := mem_filterMap.mp member
    rw [settled.devices level x (RG.typeOf_connectedFromOne found)]
  unfold RG.Exceeded
  simp only [counts]

theorem concerned_iff (settled : Settled rg roots after) : after.Concerned roots v ↔ rg.Concerned roots v := by
  unfold RG.Concerned
  simp only [settled.topology.poolsOf_eq, settled.topology.connectedTo_eq (r := .IsParentOf) (b := .PVer) nofun nofun]

theorem endsIn_iff (settled : Settled rg roots after) (disks : ∀ root ∈ roots, root.OfDisk) (typed : v.typeOf = .PVer)
    (two : wanted = .M0_NC_FAILED ∧ other = .M0_NC_ONLINE ∨ wanted = .M0_NC_ONLINE ∧ other = .M0_NC_FAILED) :
    after.getConfObjState v = wanted ↔ rg.EndsIn roots v wanted other := by
  have marks : ((roots.filter (Marks rg (roots.map fun root => root.object.fid) v)).getLast?.map fun root =>
    root.new.toConfObjState) =
      ((rg.hitting roots v).filter fun m => m ≠ rg.getConfObjState v ∧ rg.Due m v).getLast? := by
    unfold RG.hitting
    rw [filter_map, filter_filter, List.getLast?_map]
    congr 2
    apply filter_congr
    intro root _
    simp only [Function.comp_apply, ← Bool.decide_and, decide_eq_decide]
    exact ⟨fun ⟨outside, reaches, rest⟩ => ⟨rest, outside, reaches⟩, fun ⟨rest, outside, reaches⟩ => ⟨outside, reaches, rest⟩⟩
  have either : ∀ m ∈ rg.hitting roots v, m = wanted ∨ m = other := by
    intro m member
    obtain ⟨root, listed, rfl⟩ := mem_map.mp member
    cases disks root (mem_filter.mp listed).1 with
    | change d old new either =>
      rcases two with ⟨rfl, rfl⟩ | ⟨rfl, rfl⟩ <;> rcases either with rfl | rfl
      · exact .inl rfl
      · exact .inr rfl
      · exact .inr rfl
      · exact .inl rfl
  rw [settled.pvers v typed, marks]
  exact getLast?_due either (by rcases two with ⟨rfl, rfl⟩ | ⟨rfl, rfl⟩ <;> nofun)

theorem healthy_iff (settled : Settled rg roots after) (disks : ∀ root ∈ roots, root.OfDisk) (typed : v.typeOf = .PVer) :
    after.Healthy v ↔
      (rg.Exceeded (rg.stateAfter roots) v → rg.EndsIn roots v .M0_NC_FAILED .M0_NC_ONLINE) ∧
        (¬ rg.Exceeded (rg.stateAfter roots) v → rg.EndsIn roots v .M0_NC_ONLINE .M0_NC_FAILED) := by
  rw [← settled.endsIn_iff disks typed (.inl ⟨rfl, rfl⟩), ← settled.endsIn_iff disks typed (.inr ⟨rfl, rfl⟩),
    ← settled.exceeded_iff]
  constructor
  · exact fun healthy => ⟨healthy.failed.mpr, healthy.online⟩
  · rintro ⟨failed, online⟩
    refine ⟨⟨fun marked => ?_, failed⟩, online⟩
    by_contra within
    cases marked.symm.trans (online within)

end Settled

/-- Disks that fail or come online together, with all that follows from it, leave the pool versions concerned healthy exactly when
the graph before them foresees it. -/
theorem pool_versions_healthy (sound : Graph.Sound schema rg) (disks : ∀ set ∈ sets, set.ForDisk) (rounds : Nat) :
    (∃ after, applyStateChanges enc (rounds + 2) sets rg = .ok after ∧
        ∀ v, after.Concerned (rootStateChanges sets rg) v → after.Healthy v) ↔
      rg.Foreseen (rootStateChanges sets rg) := by
  have changed : ∀ root ∈ rootStateChanges sets rg, root.OfDisk := fun root => ofDisk_root disks
  have actual {v : ConfObj} (concerned : rg.Concerned (rootStateChanges sets rg) v) : v.typeOf = .PVer := by
    obtain ⟨_, _, _, _, _, kind⟩ := concerned
    cases v with
    | pver => rfl
    | _ => cases kind
  constructor
  · rintro ⟨after, ok, healthy⟩
    obtain ⟨readable, rooted⟩ := of_applied sound disks ok
    obtain ⟨_, again, settled⟩ := applied enc sound disks readable rooted rounds
    cases ok.symm.trans again
    have each {v : ConfObj} (concerned : rg.Concerned (rootStateChanges sets rg) v) :=
      (settled.healthy_iff changed (actual concerned)).mp (healthy v (settled.concerned_iff.mpr concerned))
    refine ⟨rooted, ?_, fun v concerned => (each concerned).1, fun v concerned => (each concerned).2⟩
    intro root member v reaches apart
    exact readable root member v (RG.mem_pversOf.mpr ⟨reaches, apart⟩)
  · rintro ⟨rooted, readable, failed, online⟩
    have listed : ∀ root ∈ rootStateChanges sets rg, ∀ v ∈ rg.pversOf root.object root.new.toConfObjState, v.Readable := by
      intro root member v found
      obtain ⟨reaches, apart⟩ := RG.mem_pversOf.mp found
      exact readable root member v reaches apart
    obtain ⟨after, ok, settled⟩ := applied enc sound disks listed rooted rounds
    refine ⟨after, ok, ?_⟩
    intro v concerned
    have before := settled.concerned_iff.mp concerned
    exact (settled.healthy_iff changed (actual before)).mpr ⟨failed v before, online v before⟩

namespace Example

theorem sound_build (edges : List (Resource × Relation × Resource)) : Graph.Sound schema (build edges) := by
  unfold build
  induction edges using List.reverseRecOn with
  | nil => exact Graph.sound_empty _
  | append_singleton _ edge ih =>
    rw [foldl_append]
    exact ih.perform (.connect edge.1 edge.2.1 edge.2.2) trivial trivial

def broken : List (Resource × Relation × Resource) :=
  edges [0, 0, 0, 0, 0] ++
    [(.conf (.sdev ⟨4, 1⟩), .Is, .state (.sdev .SDSFailed)),
      (.conf (.pver ⟨7, 1⟩ (.actual [0, 0, 0, 0, 0])), .Is, .state (.conf .M0_NC_FAILED))]

theorem forDisk_const (either : new = .SDSFailed ∨ new = .SDSOnline) :
    ∀ set ∈ [(⟨.disk d, constTransition (.sdev new)⟩ : AnyStateSet)], set.ForDisk := by
  intro set member
  rw [mem_singleton.mp member]
  refine ⟨⟨d, rfl⟩, ?_⟩
  intro st s moved
  cases moved
  rcases either with rfl | rfl
  · exact .inl rfl
  · exact .inr rfl

end Example
open Example

/-- The disk comes online again, and the pool version with it. -/
theorem pool_version_recovers :
    ∃ after, applyStateChanges encoding 2 [⟨.disk ⟨5, 1⟩, Transition.diskOnline⟩] (build broken) = .ok after ∧
      ∀ v, after.Concerned (rootStateChanges [⟨.disk ⟨5, 1⟩, Transition.diskOnline⟩] (build broken)) v → after.Healthy v := by
  have disks : ∀ set ∈ [(⟨.disk ⟨5, 1⟩, Transition.diskOnline⟩ : AnyStateSet)], set.ForDisk := forDisk_const (.inr rfl)
  apply (pool_versions_healthy (sound_build broken) disks 0).mpr
  have roots : rootStateChanges [⟨.disk ⟨5, 1⟩, Transition.diskOnline⟩] (build broken) =
      [⟨.disk ⟨5, 1⟩, .sdev .SDSFailed, .sdev .SDSOnline⟩] := by decide +kernel
  have pools : (build broken).poolsOf ⟨5, 1⟩ = [.pool ⟨6, 1⟩] := by decide +kernel
  have pvers : (build broken).connectedTo (.pool ⟨6, 1⟩) .IsParentOf .PVer = [.pver ⟨7, 1⟩ (.actual [0, 0, 0, 0, 0])] := by
    decide +kernel
  have only {v : ConfObj} (concerned : (build broken).Concerned [⟨.disk ⟨5, 1⟩, .sdev .SDSFailed, .sdev .SDSOnline⟩] v) :
      v = .pver ⟨7, 1⟩ (.actual [0, 0, 0, 0, 0]) := by
    obtain ⟨_, member, _, found, below, _⟩ := concerned
    obtain rfl := mem_singleton.mp member
    obtain rfl := mem_singleton.mp (pools ▸ found)
    exact mem_singleton.mp (pvers ▸ below)
  rw [roots]
  refine ⟨fun _ => ⟨[.pool ⟨6, 1⟩], by decide +kernel⟩, ?_, ?_, ?_⟩
  · intro root member v reaches _
    obtain rfl := mem_singleton.mp member
    have virtual : (build broken).connectedTo (.disk ⟨5, 1⟩) .IsRealOf (.DeviceV .Disk) = [.deviceV .Disk ⟨8, 5⟩] :=
      by decide +kernel
    have above : (build broken).pverOf (.deviceV .Disk ⟨8, 5⟩) = some (.pver ⟨7, 1⟩ (.actual [0, 0, 0, 0, 0])) :=
      by decide +kernel
    obtain ⟨_, listed, found⟩ := reaches
    obtain rfl := mem_singleton.mp (virtual ▸ listed)
    cases above.symm.trans found
    rfl
  · intro v concerned
    obtain rfl := only concerned
    decide +kernel
  · intro v concerned
    obtain rfl := only concerned
    decide +kernel

/-- A disk fails that the pool version cannot do without, and the pool version stays online. -/
theorem pool_version_unnoticed :
    ∃ after, applyStateChanges encoding 2 [⟨.disk ⟨5, 1⟩, Transition.diskFailed⟩] (build (edges [0, 0, 0, 0, 0])) = .ok after ∧
      after.Concerned (rootStateChanges [⟨.disk ⟨5, 1⟩, Transition.diskFailed⟩] (build (edges [0, 0, 0, 0, 0])))
        (.pver ⟨7, 1⟩ (.actual [0, 0, 0, 0, 0])) ∧
      after.Exceeded after.getConfObjState (.pver ⟨7, 1⟩ (.actual [0, 0, 0, 0, 0])) ∧
      after.getConfObjState (.pver ⟨7, 1⟩ (.actual [0, 0, 0, 0, 0])) = .M0_NC_ONLINE :=
  exists_ok (by decide +kernel)

end Halon.Mero
