import Halon.Library.Spreading
import Halon.Proofs.CascadeLinks
import Halon.Proofs.DiskBatches
import Halon.Proofs.TypedChanges

/-! One change for each object. A cascade leaves out the objects of earlier rounds, but it does
not look at the others of the same round, nor at the cascades of the other state sets. -/

namespace Halon.Mero
open Library SetMap List
variable {K V : Type} [LinearOrder K] [LinearOrder V] {enc : Encoding Relation Resource K V} {rg after : RG K V}
variable {sets : List AnyStateSet} {topFids : List Fid} {root asc : AnyStateChange} {rounds : Nat}

def AnyStateChange.fid (change : AnyStateChange) : Fid := change.object.fid

variable (enc rg topFids) in
def passed (change : AnyStateChange) : List AnyStateChange :=
  (stateCascadeRules enc).flatMap fun rule => okOr [] ((applyCascadeRule rg topFids change rule).map Prod.snd)

theorem go_layers (done : cascadeStateChange.go enc rg topFids rounds (layers (passed enc rg topFids) AnyStateChange.fid asc k).1
      (layers (passed enc rg topFids) AnyStateChange.fid asc k).2 f = .ok result) :
    ∃ n, (layers (passed enc rg topFids) AnyStateChange.fid asc n).1 = [] ∧
      result.2 = (layers (passed enc rg topFids) AnyStateChange.fid asc n).2 := by
  induction rounds generalizing k f with
  | zero =>
    unfold cascadeStateChange.go at done
    split at done
    next nothing =>
      cases done
      exact ⟨k, nothing, rfl⟩
    next => cases done
  | succ _ ih =>
    unfold cascadeStateChange.go at done
    split at done
    next nothing =>
      cases done
      exact ⟨k, nothing, rfl⟩
    next =>
      obtain ⟨results, applied, rest⟩ := bind_ok done
      have all : results.flatMap Prod.snd =
          (layers (passed enc rg topFids) AnyStateChange.fid asc k).1.flatMap (passed enc rg topFids) := by
        rw [flatMap_of_mapM applied, flatMap_assoc]
        rfl
      rw [all] at rest
      exact ih (k := k + 1) rest

variable (enc rg topFids) in
def Ensues : AnyStateChange → AnyStateChange → Prop := Reached (passed enc rg topFids) AnyStateChange.fid

theorem cascade_spread (done : cascadeStateChange enc rounds root rg topFids = .ok result) :
    ((result.2.map AnyStateChange.fid).Nodup ↔ Unmet (passed enc rg topFids) AnyStateChange.fid root) ∧
      ∀ change, change ∈ result.2 ↔ Ensues enc rg topFids root change := by
  have start : cascadeStateChange.go enc rg topFids rounds (layers (passed enc rg topFids) AnyStateChange.fid root 0).1
      (layers (passed enc rg topFids) AnyStateChange.fid root 0).2 .ok = .ok result := done
  obtain ⟨n, nothing, same⟩ := go_layers start
  rw [same]
  exact ⟨nodup_final nothing, fun change => mem_final nothing⟩

variable (rg sets) in
def rootFids : List Fid := (rootStateChanges sets rg).map fun change => change.object.fid

variable (enc rg sets) in
/-- No object is reached twice: neither from two of the objects that are set nor in one round of a cascade. -/
structure Unentangled : Prop where
  apart : (rootStateChanges sets rg).Pairwise fun root other => ∀ change next, Ensues enc rg (rootFids rg sets) root change →
    Ensues enc rg (rootFids rg sets) other next → change.fid ≠ next.fid
  unmet : ∀ root ∈ rootStateChanges sets rg, Unmet (passed enc rg (rootFids rg sets)) AnyStateChange.fid root

variable (enc rg sets) in
def Made (change : AnyStateChange) : Prop := ∃ root ∈ rootStateChanges sets rg, Ensues enc rg (rootFids rg sets) root change

variable (enc rg sets) in
/-- Changes whose states are kept in one place report the same, and one without a place reports what is there. -/
structure Agreeing : Prop where
  kept : ∀ change next z, Made enc rg sets change → Made enc rg sets next → rg.carrier change.object = some z →
    rg.carrier next.object = some z → change.new.toConfObjState = next.new.toConfObjState
  nowhere : ∀ change, Made enc rg sets change → rg.carrier change.object = none →
    change.new.toConfObjState = rg.getConfObjState change.object

section
variable {cascades : List (GraphUpdate K V × List AnyStateChange)}
  (all : (rootStateChanges sets rg).mapM (fun change => cascadeStateChange enc rounds change rg (rootFids rg sets)) =
    .ok cascades)
include all

theorem cascaded (member : root ∈ rootStateChanges sets rg) :
    (((okOr [] ((cascadeStateChange enc rounds root rg (rootFids rg sets)).map Prod.snd)).map AnyStateChange.fid).Nodup ↔
        Unmet (passed enc rg (rootFids rg sets)) AnyStateChange.fid root) ∧
      ∀ change, change ∈ okOr [] ((cascadeStateChange enc rounds root rg (rootFids rg sets)).map Prod.snd) ↔
        Ensues enc rg (rootFids rg sets) root change := by
  obtain ⟨_, done⟩ := ok_of_mapM all root member
  rw [done]
  exact cascade_spread done

theorem nodup_cascades : ((cascades.flatMap Prod.snd).map AnyStateChange.fid).Nodup ↔ Unentangled enc rg sets := by
  rw [flatMap_of_mapM all, List.Nodup, pairwise_map, pairwise_flatMap]
  have within : (∀ root ∈ rootStateChanges sets rg,
    (okOr [] ((cascadeStateChange enc rounds root rg (rootFids rg sets)).map Prod.snd)).Pairwise
        fun change next => change.fid ≠ next.fid) ↔
      ∀ root ∈ rootStateChanges sets rg, Unmet (passed enc rg (rootFids rg sets)) AnyStateChange.fid root := by
    refine forall₂_congr fun root member => ?_
    rw [← (cascaded all member).1, List.Nodup, pairwise_map]
  have between : ((rootStateChanges sets rg).Pairwise fun root other =>
        ∀ change ∈ okOr [] ((cascadeStateChange enc rounds root rg (rootFids rg sets)).map Prod.snd),
          ∀ next ∈ okOr [] ((cascadeStateChange enc rounds other rg (rootFids rg sets)).map Prod.snd), change.fid ≠ next.fid) ↔
      (rootStateChanges sets rg).Pairwise fun root other => ∀ change next, Ensues enc rg (rootFids rg sets) root change →
        Ensues enc rg (rootFids rg sets) other next → change.fid ≠ next.fid := by
    apply List.Pairwise.iff_of_mem
    intro root other first second
    simp only [(cascaded all first).2, (cascaded all second).2]
    exact ⟨fun apart change next one two => apart change one next two, fun apart change one next two => apart change next one two⟩
  rw [within, between]
  exact ⟨fun ⟨unmet, apart⟩ => ⟨apart, unmet⟩, fun ⟨apart, unmet⟩ => ⟨unmet, apart⟩⟩

theorem mem_cascades (change : AnyStateChange) : change ∈ cascades.flatMap Prod.snd ↔ Made enc rg sets change := by
  rw [flatMap_of_mapM all, mem_flatMap]
  exact exists_congr fun root => and_congr_right fun member => (cascaded all member).2 change

end

theorem created_changes (created : createDeferredStateChanges enc rounds sets rg = .ok (wrns, changes)) :
    ((changes.changes.map AnyStateChange.fid).Nodup ↔ Unentangled enc rg sets) ∧
      (∀ change, change ∈ changes.changes ↔ Made enc rg sets change) ∧
      changes.notes = changes.changes.map fun change => ⟨change.fid, change.new.toConfObjState⟩ := by
  obtain ⟨_, all, created⟩ := bind_ok created
  cases created
  refine ⟨?_, fun change => ?_, ?_⟩
  · rw [← nodup_cascades all, map_reverse, nodup_reverse]
  · rw [mem_reverse]
    exact mem_cascades all change
  · exact (map_reverse ..).symm

theorem Made.typed (sets_typed : ∀ set ∈ sets, set.Typed) (made : Made enc rg sets change) : change.Typed := by
  obtain ⟨root, member, k, reached⟩ := made
  have first : root.Typed := by
    obtain ⟨set, listed, found⟩ := mem_filterMap.mp member
    unfold lookupOldState at found
    split at found
    next => cases found
    next => cases found
    next moved =>
      cases found
      exact sets_typed set listed _ _ (runTransition_moved moved)
  induction k generalizing change with
  | zero =>
    obtain rfl : change = root := reached
    exact first
  | succ k ih =>
    obtain ⟨⟨before, earlier, next⟩, -⟩ := reached
    obtain ⟨rule, among, found⟩ := mem_flatMap.mp next
    cases applied : applyCascadeRule rg (rootFids rg sets) before rule with
    | error =>
      rw [applied] at found
      cases found
    | ok =>
      rw [applied] at found
      exact typed_applyCascadeRule among (ih earlier) applied change found

/-- An update that leaves states and what they are looked up by alone. -/
def GraphUpdate.Keeps (update : GraphUpdate K V) : Prop := ∀ rg rg' links, Depicts rg.graph links → update rg = .ok rg' →
  SameTopology rg rg' ∧ ∀ z b, rg'.stateOf z b = rg.stateOf z b

theorem GraphUpdate.keeps_ok : GraphUpdate.Keeps (Except.ok : GraphUpdate K V) := by
  intro rg rg' links depicts done
  cases done
  exact ⟨.refl depicts, fun _ _ => rfl⟩

theorem GraphUpdate.Keeps.andThen (f g : GraphUpdate K V) (first : f.Keeps) (second : g.Keeps) : (f.andThen g).Keeps := by
  intro rg rg' links depicts done
  obtain ⟨between, middle, last⟩ := bind_ok done
  obtain ⟨topology, states⟩ := first rg between links depicts middle
  obtain ⟨links', shown⟩ := topology.depicts
  obtain ⟨topology', states'⟩ := second between rg' links' shown last
  exact ⟨topology.trans topology', fun z b => (states' z b).trans (states z b)⟩

theorem Records.toKeeps {update : GraphUpdate K V} (records : Records update) : update.Keeps := by
  intro rg rg' links depicts done
  cases pools : rg.getNonMD with
  | error e => cases (records.fails rg e pools).symm.trans done
  | ok nonMD =>
    obtain ⟨_, updated, topology, states⟩ := records.keeps rg links nonMD depicts pools
    cases updated.symm.trans done
    exact ⟨topology, states⟩

theorem keeps_rules : ∀ rule ∈ stateCascadeRules enc, rule.Triggers GraphUpdate.Keeps := by
  apply triggers_rules
  · exact fun x => (records_recording x.fid (.inl rfl)).toKeeps
  · exact fun x => (records_recording x.fid (.inr rfl)).toKeeps

section
variable {links : Links Relation Resource} {wrns : List Warning} {changes : DeferredStateChanges K V}

section
variable (depicts : Depicts rg.graph links) (created : createDeferredStateChanges enc rounds sets rg = .ok (wrns, changes))
  (updated : changes.update rg = .ok after)
include depicts created updated

theorem updated_states : SameTopology rg after ∧ ∀ z b, after.stateOf z b =
    (rg.assigned z b changes.changes.reverse).getLast?.or (rg.stateOf z b) := by
  obtain ⟨_, keeps, same⟩ := created_update GraphUpdate.keeps_ok GraphUpdate.Keeps.andThen keeps_rules created
  rw [same] at updated
  have set : SameTopology rg (setStates enc changes.changes.reverse rg) := RG.sameTopology_setStates depicts _
  obtain ⟨links', shown⟩ := set.depicts
  obtain ⟨topology, states⟩ := keeps _ after links' shown updated
  exact ⟨set.trans topology, fun z b => (states z b).trans (RG.stateOf_setStates depicts _)⟩

theorem updated_reports (typed : ∀ set ∈ sets, set.Typed) (made : Made enc rg sets change)
    (kept : rg.carrier change.object = some z) :
    ∃ next, Made enc rg sets next ∧ rg.carrier next.object = some z ∧
      after.getConfObjState change.object = next.new.toConfObjState := by
  obtain ⟨topology, states⟩ := updated_states depicts created updated
  obtain ⟨-, mem, -⟩ := created_changes created
  have assigned : change.new ∈ rg.assigned z z.stateType changes.changes.reverse := by
    refine Cascades.mem_assigned.mpr ⟨change, mem_reverse.mpr ((mem change).mpr made), kept, ?_, rfl⟩
    rw [made.typed typed, RG.stateType_carrier kept]
  cases last : (rg.assigned z z.stateType changes.changes.reverse).getLast? with
  | none =>
    rw [List.getLast?_eq_none_iff.mp last] at assigned
    cases assigned
  | some =>
    obtain ⟨next, listed, here, -, rfl⟩ := Cascades.mem_assigned.mp (mem_of_getLast? last)
    refine ⟨next, (mem next).mp (mem_reverse.mp listed), here, ?_⟩
    unfold RG.getConfObjState
    rw [RG.getState_kept ((RG.carrier_congr topology change.object).symm.trans kept), states, last]
    rfl

theorem updated_nowhere (nowhere : rg.carrier x = none) : after.getConfObjState x = rg.getConfObjState x := by
  obtain ⟨topology, -⟩ := updated_states depicts created updated
  unfold RG.getConfObjState
  rw [RG.getState_carrier, RG.getState_carrier, ← RG.carrier_congr topology, nowhere]
  rfl

/-- All reports are right exactly if changes that are kept in one place agree. -/
theorem reports_right_iff (typed : ∀ set ∈ sets, set.Typed) :
    (∀ change, Made enc rg sets change → after.getConfObjState change.object = change.new.toConfObjState) ↔
    Agreeing enc rg sets := by
  obtain ⟨topology, -⟩ := updated_states depicts created updated
  constructor
  · intro right
    constructor
    · intro change next z made made' kept kept'
      rw [← right change made, ← right next made']
      unfold RG.getConfObjState
      rw [RG.getState_kept ((RG.carrier_congr topology _).symm.trans kept),
        RG.getState_kept ((RG.carrier_congr topology _).symm.trans kept')]
    · intro change made nowhere
      rw [← right change made]
      exact updated_nowhere depicts created updated nowhere
  · intro agreeing change made
    cases kept : rg.carrier change.object with
    | none => rw [updated_nowhere depicts created updated kept, agreeing.nowhere change made kept]
    | some z =>
      obtain ⟨next, made', kept', same⟩ := updated_reports depicts created updated typed made kept
      rw [same, agreeing.kept next change z made' made kept' kept]

end

/-- Each object has one change and is then in the state that its note reports, exactly if no object is reached twice and
changes whose states are kept in one place agree. -/
theorem one_change_each_iff (depicts : Depicts rg.graph links) (typed : ∀ set ∈ sets, set.Typed)
    (created : createDeferredStateChanges enc rounds sets rg = .ok (wrns, changes)) (updated : changes.update rg = .ok after) :
    ((changes.notes.map Note.fid).Nodup ∧ (changes.changes.map fun change => change.object.fid).Nodup ∧
      ∀ change ∈ changes.changes, ∀ note ∈ changes.notes, note.fid = change.object.fid →
        after.getConfObjState change.object = note.state) ↔
    Unentangled enc rg sets ∧ Agreeing enc rg sets := by
  obtain ⟨unique, mem, notes⟩ := created_changes created
  have fids : changes.notes.map Note.fid = changes.changes.map AnyStateChange.fid := by
    rw [notes, map_map]
    rfl
  have right := reports_right_iff depicts created updated typed
  constructor
  · intro ⟨once, _, reports⟩
    refine ⟨unique.mp (fids ▸ once), right.mp fun change made => ?_⟩
    have listed := (mem change).mpr made
    refine reports change listed ⟨change.fid, change.new.toConfObjState⟩ ?_ rfl
    rw [notes]
    exact mem_map.mpr ⟨change, listed, rfl⟩
  · intro ⟨unentangled, agreeing⟩
    have once := unique.mpr unentangled
    refine ⟨fids ▸ once, once, fun change listed note noted same => ?_⟩
    rw [notes] at noted
    obtain ⟨other, listed', rfl⟩ := mem_map.mp noted
    obtain rfl : other = change := inj_on_of_nodup_map once listed' listed same
    exact right.mpr agreeing other ((mem other).mp listed')

end

namespace Example

def iosEdges (services : List Nat) : List (Resource × Relation × Resource) :=
  [(.conf (.node ⟨1, 1⟩), .IsParentOf, .conf (.process ⟨2, 1⟩)),
    (.conf (.node ⟨1, 1⟩), .IsOnHardware, .conf (.device .Controller ⟨4, 1⟩))] ++
    services.map fun i => (.conf (.process ⟨2, 1⟩), .IsParentOf, .conf (.service ⟨3, i⟩ .CST_IOS []))

def processFails : List AnyStateSet := [⟨.process ⟨2, 1⟩, constTransition (.process (.PSFailed "stopped"))⟩]

end Example
open Example

theorem one_change_each_iff_single : ∃ wrns changes after,
    createDeferredStateChanges encoding 5 processFails (build (iosEdges [0])) = .ok (wrns, changes) ∧
    changes.update (build (iosEdges [0])) = .ok after ∧
    (((changes.notes.map Note.fid).Nodup ∧ (changes.changes.map fun change => change.object.fid).Nodup ∧
      ∀ change ∈ changes.changes, ∀ note ∈ changes.notes, note.fid = change.object.fid →
        after.getConfObjState change.object = note.state) ↔
    Unentangled encoding (build (iosEdges [0])) processFails ∧ Agreeing encoding (build (iosEdges [0])) processFails) := by
  obtain ⟨_, depicts⟩ := depicts_build (iosEdges [0])
  have typed : ∀ set ∈ processFails, set.Typed := by
    intro set member st st' moved
    obtain rfl := mem_singleton.mp member
    cases moved
    rfl
  have applies : (applyStateChanges encoding 5 processFails (build (iosEdges [0]))).isOk = true := by decide
  cases applied : applyStateChanges encoding 5 processFails (build (iosEdges [0])) with
  | error =>
    rw [applied] at applies
    cases applies
  | ok after =>
    obtain ⟨⟨wrns, changes⟩, created, updated⟩ := bind_ok applied
    exact ⟨wrns, changes, after, created, updated, one_change_each_iff depicts typed created updated⟩

/-- Two IO services of a process that fails both bring their controller. -/
theorem controller_changed_twice :
    (createDeferredStateChanges encoding 5 processFails (build (iosEdges [0, 1]))).map (fun result => result.2.notes) =
      .ok [⟨⟨2, 1⟩, .M0_NC_FAILED⟩, ⟨⟨3, 1⟩, .M0_NC_FAILED⟩, ⟨⟨3, 0⟩, .M0_NC_FAILED⟩, ⟨⟨4, 1⟩, .M0_NC_TRANSIENT⟩,
        ⟨⟨4, 1⟩, .M0_NC_TRANSIENT⟩] := by
  decide

end Halon.Mero
