import Halon.Proofs.MeroGraph
import Mathlib.Data.Nat.Find

/-! The disk failure vectors. Whatever disks fail and recover, the vector of a pool
lists the disks of the pool that are failed in the order in which they failed. -/

namespace Halon.Mero
open Library SetMap List

section History
variable {changes : List (Fid × SDevState)} {d e : Fid} {s : SDevState} {i j : Nat}

/-- The disk changed to failed and has not since changed to online. -/
def Outstanding (changes : List (Fid × SDevState)) (d : Fid) : Prop :=
  ∃ i : Nat, changes[i]? = some (d, .SDSFailed) ∧ ∀ j, i < j → changes[j]? ≠ some (d, .SDSOnline)

/-- The change by which the disk first failed since it last became online. -/
@[mk_iff] structure FirstFailed (changes : List (Fid × SDevState)) (d : Fid) (i : Nat) : Prop where
  failed : changes[i]? = some (d, .SDSFailed)
  lasting : ∀ j, i < j → changes[j]? ≠ some (d, .SDSOnline)
  first : ∀ j < i, changes[j]? = some (d, .SDSFailed) → ∃ k > j, changes[k]? = some (d, .SDSOnline)

theorem outstanding_iff : Outstanding changes d ↔ ∃ i, FirstFailed changes d i := by
  classical
  constructor
  · intro outstanding
    refine ⟨Nat.find outstanding, (Nat.find_spec outstanding).1, (Nat.find_spec outstanding).2, ?_⟩
    intro j below failed
    by_contra never
    apply Nat.find_min outstanding below
    exact ⟨failed, fun k above online => never ⟨k, above, online⟩⟩
  · rintro ⟨i, first⟩
    exact ⟨i, first.failed, first.lasting⟩

theorem FirstFailed.lt_length (first : FirstFailed changes d i) : i < changes.length :=
  (List.getElem?_eq_some_iff.mp first.failed).1

theorem getElem?_snoc {α : Type} {xs : List α} {x y : α} {i : Nat} :
    (xs ++ [x])[i]? = some y ↔ xs[i]? = some y ∨ i = xs.length ∧ x = y := by
  rcases Nat.lt_trichotomy i xs.length with below | rfl | above
  · rw [List.getElem?_append_left below]
    exact ⟨.inl, fun either => either.resolve_right fun last => Nat.lt_irrefl _ (last.1 ▸ below)⟩
  · simp
  · have outside : (xs ++ [x])[i]? = none := List.getElem?_eq_none (by simp; omega)
    have before : xs[i]? = none := List.getElem?_eq_none (by omega)
    rw [outside, before]
    simp only [reduceCtorEq, false_or, false_iff]
    omega

private theorem snoc_other (apart : ¬ (e = d ∧ s = t)) :
    (changes ++ [(e, s)])[j]? = some (d, t) ↔ changes[j]? = some (d, t) := by
  rw [getElem?_snoc, Prod.mk.injEq]
  exact or_iff_left fun last => apart last.2

theorem FirstFailed.congr (failures : ∀ j : Nat, changes[j]? = some (d, .SDSFailed) ↔ others[j]? = some (d, .SDSFailed))
    (recoveries : ∀ j : Nat, changes[j]? = some (d, .SDSOnline) ↔ others[j]? = some (d, .SDSOnline)) :
    FirstFailed changes d i ↔ FirstFailed others d i := by
  simp only [firstFailed_iff, ne_eq, failures, recoveries]

theorem firstFailed_snoc_other (apart : ¬ (e = d ∧ (s = .SDSFailed ∨ s = .SDSOnline))) :
    FirstFailed (changes ++ [(e, s)]) d i ↔ FirstFailed changes d i := by
  apply FirstFailed.congr
  · exact fun j => snoc_other fun both => apart ⟨both.1, .inl both.2⟩
  · exact fun j => snoc_other fun both => apart ⟨both.1, .inr both.2⟩

theorem not_firstFailed_snoc_online : ¬ FirstFailed (changes ++ [(d, .SDSOnline)]) d i := by
  intro first
  have before : i < changes.length := by
    rcases getElem?_snoc.mp first.failed with earlier | ⟨_, same⟩
    · exact (List.getElem?_eq_some_iff.mp earlier).1
    · cases same
  exact first.lasting changes.length before (getElem?_snoc.mpr (.inr ⟨rfl, rfl⟩))

theorem firstFailed_snoc_failed :
    FirstFailed (changes ++ [(d, .SDSFailed)]) d i ↔
      FirstFailed changes d i ∨ i = changes.length ∧ ¬ Outstanding changes d := by
  have online {j : Nat} : (changes ++ [(d, .SDSFailed)])[j]? = some (d, .SDSOnline) ↔ changes[j]? = some (d, .SDSOnline) :=
    snoc_other nofun
  constructor
  · rintro ⟨failed, lasting, first⟩
    rcases getElem?_snoc.mp failed with earlier | ⟨rfl, _⟩
    · refine .inl ⟨earlier, fun j after recovered => lasting j after (online.mpr recovered), ?_⟩
      intro j below also
      obtain ⟨k, after, recovered⟩ := first j below (getElem?_snoc.mpr (.inl also))
      exact ⟨k, after, online.mp recovered⟩
    · refine .inr ⟨rfl, ?_⟩
      rintro ⟨j, also, still⟩
      obtain ⟨k, after, recovered⟩ := first j (List.getElem?_eq_some_iff.mp also).1 (getElem?_snoc.mpr (.inl also))
      exact still k after (online.mp recovered)
  · rintro (⟨failed, lasting, first⟩ | ⟨rfl, settled⟩)
    · refine ⟨getElem?_snoc.mpr (.inl failed), fun j after recovered => lasting j after (online.mp recovered), ?_⟩
      intro j below also
      rcases getElem?_snoc.mp also with earlier | ⟨rfl, _⟩
      · obtain ⟨k, after, recovered⟩ := first j below earlier
        exact ⟨k, after, online.mpr recovered⟩
      · exact absurd (List.getElem?_eq_some_iff.mp failed).1 (by omega)
    · refine ⟨getElem?_snoc.mpr (.inr ⟨rfl, rfl⟩), ?_, ?_⟩
      · intro j after recovered
        exact absurd (List.getElem?_eq_some_iff.mp (online.mp recovered)).1 (by omega)
      · intro j below also
        have earlier := (getElem?_snoc.mp also).resolve_right fun last => by omega
        by_contra never
        exact settled ⟨j, earlier, fun k after recovered => never ⟨k, after, online.mpr recovered⟩⟩

/-- The disks inside that are still failed, each once and in the order in which they failed. -/
structure Lists (inside : Fid → Prop) (changes : List (Fid × SDevState)) (v : List Fid) : Prop where
  listed : ∀ d, d ∈ v ↔ inside d ∧ Outstanding changes d
  once : v.Nodup
  ordered : v.Pairwise fun d e => ∃ i j, FirstFailed changes d i ∧ FirstFailed changes e j ∧ i < j

namespace Lists

theorem nil : Lists inside [] [] where
  listed d := by simp [Outstanding]
  once := .nil
  ordered := .nil

theorem congr (lists : Lists inside changes v)
    (same : ∀ d i, FirstFailed others d i ↔ FirstFailed changes d i) : Lists inside others v where
  listed d := by
    rw [lists.listed, outstanding_iff, outstanding_iff]
    simp only [same]
  once := lists.once
  ordered := by simpa only [same] using lists.ordered

theorem other (lists : Lists inside changes v) (failed : s ≠ .SDSFailed) (online : s ≠ .SDSOnline) :
    Lists inside (changes ++ [(d, s)]) v :=
  lists.congr fun _ _ => firstFailed_snoc_other fun both => both.2.elim failed online

theorem recovers (lists : Lists inside changes v) : Lists inside (changes ++ [(d, .SDSOnline)]) (v.erase d) where
  listed e := by
    rw [lists.once.mem_erase_iff, lists.listed, outstanding_iff, outstanding_iff]
    by_cases same : e = d
    · subst same
      simp [not_firstFailed_snoc_online]
    · simp [same, firstFailed_snoc_other fun both => same both.1.symm]
  once := lists.once.erase d
  ordered := by
    apply (lists.ordered.sublist erase_sublist).imp_of_mem
    intro e f first second order
    obtain ⟨i, j, failed, also, before⟩ := order
    have kept {e : Fid} {i : Nat} (member : e ∈ v.erase d) (failed : FirstFailed changes e i) :
        FirstFailed (changes ++ [(d, .SDSOnline)]) e i :=
      (firstFailed_snoc_other fun both => (lists.once.mem_erase_iff.mp member).1 both.1.symm).mpr failed
    exact ⟨i, j, kept first failed, kept second also, before⟩

private theorem still_failed (failed : FirstFailed changes e i) : FirstFailed (changes ++ [(d, .SDSFailed)]) e i := by
  by_cases same : e = d
  · subst same
    exact firstFailed_snoc_failed.mpr (.inl failed)
  · exact (firstFailed_snoc_other fun both => same both.1.symm).mpr failed

private theorem outstanding_snoc_failed : Outstanding (changes ++ [(d, .SDSFailed)]) e ↔ e = d ∨ Outstanding changes e := by
  by_cases same : e = d
  · subst same
    refine iff_of_true (outstanding_iff.mpr ?_) (.inl rfl)
    by_cases already : Outstanding changes e
    · obtain ⟨i, failed⟩ := outstanding_iff.mp already
      exact ⟨i, still_failed failed⟩
    · exact ⟨changes.length, firstFailed_snoc_failed.mpr (.inr ⟨rfl, already⟩)⟩
  · simp [outstanding_iff, same, firstFailed_snoc_other fun both => same both.1.symm]

theorem fails_again (lists : Lists inside changes v) (known : inside d → d ∈ v) :
    Lists inside (changes ++ [(d, .SDSFailed)]) v where
  listed e := by
    rw [lists.listed, outstanding_snoc_failed]
    constructor
    · exact fun both => ⟨both.1, .inr both.2⟩
    · rintro ⟨member, rfl | before⟩
      · exact (lists.listed e).mp (known member)
      · exact ⟨member, before⟩
  once := lists.once
  ordered := lists.ordered.imp fun ⟨i, j, first, second, before⟩ => ⟨i, j, still_failed first, still_failed second, before⟩

theorem fails (lists : Lists inside changes v) (member : inside d) (new : d ∉ v) :
    Lists inside (changes ++ [(d, .SDSFailed)]) (v ++ [d]) where
  listed e := by
    rw [mem_append, mem_singleton, lists.listed, outstanding_snoc_failed]
    constructor
    · rintro (⟨inner, before⟩ | rfl)
      · exact ⟨inner, .inr before⟩
      · exact ⟨member, .inl rfl⟩
    · rintro ⟨inner, rfl | before⟩
      · exact .inr rfl
      · exact .inl ⟨inner, before⟩
  once := nodup_append.mpr ⟨lists.once, nodup_singleton d, by
    intro e listed f last same
    cases mem_singleton.mp last
    exact new (same ▸ listed)⟩
  ordered := by
    have settled : ¬ Outstanding changes d := fun before => new ((lists.listed d).mpr ⟨member, before⟩)
    refine pairwise_append.mpr ⟨?_, pairwise_singleton _ d, ?_⟩
    · exact lists.ordered.imp fun ⟨i, j, first, second, before⟩ => ⟨i, j, still_failed first, still_failed second, before⟩
    · intro e listed f last
      cases mem_singleton.mp last
      obtain ⟨i, failed⟩ := outstanding_iff.mp ((lists.listed e).mp listed).2
      exact ⟨i, changes.length, still_failed failed, firstFailed_snoc_failed.mpr (.inr ⟨rfl, settled⟩), failed.lt_length⟩

end Lists

def recorded (d : Fid) (s : SDevState) (v : List Fid) : List Fid :=
  match s with
  | .SDSFailed => if d ∈ v then v else v ++ [d]
  | .SDSOnline => v.erase d
  | _ => v

theorem recorded_other (failed : s ≠ .SDSFailed) (online : s ≠ .SDSOnline) : recorded d s v = v := by
  cases s <;> first | rfl | exact absurd rfl failed | exact absurd rfl online

namespace Lists

theorem recorded (lists : Lists inside changes v) (member : inside d) : Lists inside (changes ++ [(d, s)]) (recorded d s v) := by
  by_cases failed : s = .SDSFailed
  · subst failed
    unfold Mero.recorded
    by_cases known : d ∈ v
    · simpa [known] using lists.fails_again fun _ => known
    · simpa [known] using lists.fails member known
  · by_cases online : s = .SDSOnline
    · subst online
      exact lists.recovers
    · rw [recorded_other failed online]
      exact lists.other failed online

theorem outside (lists : Lists inside changes v) (apart : ¬ inside d) : Lists inside (changes ++ [(d, s)]) v := by
  by_cases failed : s = .SDSFailed
  · subst failed
    exact lists.fails_again fun member => absurd member apart
  · by_cases online : s = .SDSOnline
    · subst online
      have absent : d ∉ v := fun listed => apart ((lists.listed d).mp listed).1
      simpa [erase_of_not_mem absent] using lists.recovers (d := d)
    · exact lists.other failed online

end Lists
end History
variable {K V : Type} [LinearOrder K] [LinearOrder V] {enc : Encoding Relation Resource K V} {rg : RG K V}

theorem ins_eq (d : Fid) (v : List Fid) : ins d v = if d ∈ v then none else some (v ++ [d]) := by
  induction v with
  | nil => rfl
  | cons x xs ih => by_cases same : d = x <;> by_cases member : d ∈ xs <;> simp [ins, same, member, ih]

theorem rm_eq (d : Fid) (v : List Fid) : rm d v = if d ∈ v then some (v.erase d) else none := by
  induction v with
  | nil => rfl
  | cons x xs ih =>
    by_cases same : d = x
    · simp [rm, same]
    · have other : x ≠ d := fun h => same h.symm
      by_cases member : d ∈ xs <;> simp [rm, same, other, member, ih]

namespace RG

/-- An edit that changes the vector of the given pool and nothing else. -/
structure ChangesVector (change : List Fid → List Fid) (edit : RG K V → ConfObj → RG K V) : Prop where
  topology : ∀ rg links pool, Depicts rg.graph links → pool.typeOf = .Pool → SameTopology rg (edit rg pool)
  changed : ∀ rg links pool, Depicts rg.graph links → pool.typeOf = .Pool →
    ((edit rg pool).failureVector pool).getD [] = change ((rg.failureVector pool).getD [])
  others : ∀ rg links pool other, Depicts rg.graph links → pool.typeOf = .Pool → other ≠ pool →
    (edit rg pool).failureVector other = rg.failureVector other
  states : ∀ rg links pool z b, Depicts rg.graph links → pool.typeOf = .Pool → (edit rg pool).stateOf z b = rg.stateOf z b

theorem ChangesVector.fold {change : List Fid → List Fid} {edit : RG K V → ConfObj → RG K V}
    (changes : ChangesVector change edit) (depicts : Depicts rg.graph links) {pools : List ConfObj}
    (typed : ∀ pool ∈ pools, pool.typeOf = .Pool)
    (once : pools.Nodup) :
    SameTopology rg (pools.foldl edit rg) ∧
      (∀ pool ∈ pools, ((pools.foldl edit rg).failureVector pool).getD [] = change ((rg.failureVector pool).getD [])) ∧
      (∀ pool ∉ pools, (pools.foldl edit rg).failureVector pool = rg.failureVector pool) ∧
      ∀ z b, (pools.foldl edit rg).stateOf z b = rg.stateOf z b := by
  induction pools generalizing rg links with
  | nil => exact ⟨.refl depicts, nofun, fun _ _ => rfl, fun _ _ => rfl⟩
  | cons first rest ih =>
    have type := typed first mem_cons_self
    obtain ⟨fresh, once⟩ := nodup_cons.mp once
    have edited := changes.topology rg links first depicts type
    obtain ⟨_, shown⟩ := edited.depicts
    obtain ⟨topology, changed, others, states⟩ := ih shown (fun pool member => typed pool (mem_cons_of_mem _ member)) once
    refine ⟨edited.trans topology, ?_, ?_, fun z b => (states z b).trans (changes.states rg links first z b depicts type)⟩
    · intro pool member
      rcases mem_cons.mp member with rfl | later
      · exact (congrArg (Option.getD · []) (others pool fresh)).trans (changes.changed rg links pool depicts type)
      · have different : pool ≠ first := fun same => fresh (same ▸ later)
        exact (changed pool later).trans
          (congrArg (fun v => change (Option.getD v [])) (changes.others rg links first pool depicts type different))
    · intro pool outside
      have different : pool ≠ first := fun same => outside (same ▸ mem_cons_self)
      exact (others pool fun later => outside (mem_cons_of_mem _ later)).trans
        (changes.others rg links first pool depicts type different)

/-- It is enough that the edit sets the vector, or leaves all when there is nothing to change. -/
theorem ChangesVector.of_sets {change : List Fid → List Fid} {edit : RG K V → ConfObj → RG K V}
    (sets : ∀ rg pool, edit rg pool = setFailureVector enc pool (change ((rg.failureVector pool).getD [])) rg ∨
      edit rg pool = rg ∧ (rg.failureVector pool).getD [] = change ((rg.failureVector pool).getD [])) :
    ChangesVector change edit := by
  constructor
  · intro rg links pool depicts typed
    rcases sets rg pool with set | ⟨same, -⟩
    · exact set ▸ sameTopology_setFailureVector depicts typed
    · exact same.symm ▸ .refl depicts
  · intro rg links pool depicts typed
    rcases sets rg pool with set | ⟨same, kept⟩
    · rw [set, failureVector_set depicts typed, Option.getD_some]
    · rw [same, ← kept]
  · intro rg links pool other depicts typed different
    rcases sets rg pool with set | ⟨same, -⟩
    · exact set ▸ failureVector_set_other depicts typed different
    · rw [same]
  · intro rg links pool z b depicts typed
    rcases sets rg pool with set | ⟨same, -⟩
    · exact set ▸ stateOf_setFailureVector depicts typed z b
    · rw [same]

theorem changesVector_failure (d : Fid) :
    ChangesVector (fun v => if d ∈ v then v else v ++ [d])
      (updateDiskFailure.apply enc (fun pool => setFailureVector enc pool [d]) ins d : RG K V → ConfObj → RG K V) := by
  apply @ChangesVector.of_sets _ _ _ _ enc
  intro rg pool
  unfold updateDiskFailure.apply
  split
  next missing => simp [missing]
  next v found => by_cases member : d ∈ v <;> simp [ins_eq, member, found]

theorem changesVector_online (d : Fid) :
    ChangesVector (fun v => v.erase d) (updateDiskFailure.apply enc (fun _ rg => rg) rm d : RG K V → ConfObj → RG K V) := by
  apply @ChangesVector.of_sets _ _ _ _ enc
  intro rg pool
  unfold updateDiskFailure.apply
  split
  next missing => simp [missing]
  next v found => by_cases member : d ∈ v <;> simp [rm_eq, member, found, erase_of_not_mem]

variable {nonMD : List ConfObj} {links : Links Relation Resource}

theorem mem_getNonMD (depicts : Depicts rg.graph links) (pools : rg.getNonMD = .ok nonMD) :
    nonMD.Nodup ∧ ∀ pool ∈ nonMD, pool.typeOf = .Pool := by
  unfold getNonMD at pools
  cases found : rg.getM0Root with
  | error =>
    rw [found] at pools
    cases pools
  | ok =>
    rw [found] at pools
    cases pools
    refine ⟨(nodup_connectedTo depicts).filter _, ?_⟩
    intro pool member
    exact ((mem_connectedTo depicts).mp (mem_filter.mp member).1).2

theorem updateDiskFailure_spec (changes : ChangesVector change (updateDiskFailure.apply enc df f d))
    (depicts : Depicts rg.graph links) (pools : rg.getNonMD = .ok nonMD) :
    ∃ after, rg.updateDiskFailure enc df f d = .ok after ∧ SameTopology rg after ∧
      (∀ pool ∈ nonMD, pool ∈ rg.poolsOf d → (after.failureVector pool).getD [] = change ((rg.failureVector pool).getD [])) ∧
      (∀ pool, ¬ (pool ∈ nonMD ∧ pool ∈ rg.poolsOf d) → after.failureVector pool = rg.failureVector pool) ∧
      ∀ z b, after.stateOf z b = rg.stateOf z b := by
  obtain ⟨once, typed⟩ := mem_getNonMD depicts pools
  have pool (pool : ConfObj) (member : pool ∈ nonMD.filter fun pool => pool ∈ rg.poolsOf d) : pool.typeOf = .Pool :=
    typed pool (mem_filter.mp member).1
  obtain ⟨topology, changed, others, states⟩ := changes.fold depicts pool (once.filter _)
  refine ⟨_, ?_, topology, ?_, ?_, states⟩
  · unfold updateDiskFailure
    rw [pools]
    rfl
  · intro pool member within
    exact changed pool (mem_filter.mpr ⟨member, decide_eq_true within⟩)
  · intro pool outside
    apply others
    intro member
    obtain ⟨inner, within⟩ := mem_filter.mp member
    exact outside ⟨inner, of_decide_eq_true within⟩

private theorem changeDisk_eq (d : Fid) (s : SDevState) :
    rg.changeDisk enc d s =
      (if s = .SDSOnline then rgRecordDiskOnline enc d
        else if s = .SDSFailed then rgRecordDiskFailure enc d else .ok) (rg.setState enc (.disk d) (.sdev s)) := by
  unfold changeDisk triggered
  simp only [StateCascadeRule.diskAddToFailureVector, StateCascadeRule.diskRemoveFromFailureVector, StateCascadeRule.always,
    mapM_cons, mapM_nil, applyCascadeRule, ConfObj.typeOf, ObjectState.sdev.injEq, decide_eq_true_eq, true_and]
  have skip (update : GraphUpdate K V) : GraphUpdate.andThen .ok update = update := rfl
  by_cases failed : s = .SDSFailed
  · simp [failed, skip, ConfObj.fid]
  · by_cases online : s = .SDSOnline <;> simp [failed, online, skip, ConfObj.fid]

variable (enc)

theorem changeDisk_spec (depicts : Depicts rg.graph links) (pools : rg.getNonMD = .ok nonMD) (d : Fid) (s : SDevState) :
    ∃ after, rg.changeDisk enc d s = .ok after ∧ SameTopology rg after ∧
      (∀ pool ∈ nonMD, pool ∈ rg.poolsOf d →
        (after.failureVector pool).getD [] = recorded d s ((rg.failureVector pool).getD [])) ∧
      ∀ pool, ¬ (pool ∈ nonMD ∧ pool ∈ rg.poolsOf d) → after.failureVector pool = rg.failureVector pool := by
  have set : SameTopology rg (rg.setState enc (.disk d) (.sdev s)) := sameTopology_setState depicts _ _
  have vectors (pool : ConfObj) : (rg.setState enc (.disk d) (.sdev s)).failureVector pool = rg.failureVector pool :=
    failureVector_setState depicts _ _ pool
  obtain ⟨_, shown⟩ := set.depicts
  have same : (rg.setState enc (.disk d) (.sdev s)).getNonMD = .ok nonMD := set.getNonMD_eq ▸ pools
  rw [changeDisk_eq]
  by_cases online : s = .SDSOnline
  · obtain ⟨after, updated, topology, changed, others, _⟩ := updateDiskFailure_spec (changesVector_online d) shown same
    refine ⟨after, by rw [if_pos online]; exact updated, set.trans topology, ?_, ?_⟩
    · intro pool member within
      rw [changed pool member (set.poolsOf_eq d ▸ within), vectors, online]
      rfl
    · intro pool outside
      rw [others pool (set.poolsOf_eq d ▸ outside), vectors]
  · by_cases failed : s = .SDSFailed
    · obtain ⟨after, updated, topology, changed, others, _⟩ := updateDiskFailure_spec (changesVector_failure d) shown same
      refine ⟨after, by rw [if_neg online, if_pos failed]; exact updated, set.trans topology, ?_, ?_⟩
      · intro pool member within
        rw [changed pool member (set.poolsOf_eq d ▸ within), vectors, failed]
        rfl
      · intro pool outside
        rw [others pool (set.poolsOf_eq d ▸ outside), vectors]
    · refine ⟨_, by rw [if_neg online, if_neg failed], set, ?_, fun pool _ => vectors pool⟩
      intro pool _ _
      rw [vectors, recorded_other failed online]

theorem changeDisks_spec (depicts : Depicts rg.graph links) (pools : rg.getNonMD = .ok nonMD)
    (blank : ∀ pool ∈ nonMD, (rg.failureVector pool).getD [] = []) (changes : List (Fid × SDevState)) :
    ∃ final, changes.foldlM (fun rg change => changeDisk enc change.1 change.2 rg) rg = .ok final ∧ SameTopology rg final ∧
      ∀ pool ∈ nonMD, Lists (fun d => pool ∈ rg.poolsOf d) changes ((final.failureVector pool).getD []) := by
  induction changes using List.reverseRecOn with
  | nil => exact ⟨rg, rfl, .refl depicts, fun pool member => (blank pool member).symm ▸ Lists.nil⟩
  | append_singleton _ change ih =>
    obtain ⟨_, reached, topology, lists⟩ := ih
    obtain ⟨_, shown⟩ := topology.depicts
    obtain ⟨final, changed, next, vectors, others⟩ :=
      changeDisk_spec enc shown (topology.getNonMD_eq ▸ pools) change.1 change.2
    refine ⟨final, ?_, topology.trans next, ?_⟩
    · rw [foldlM_append, reached]
      simp only [foldlM_cons, foldlM_nil, bind_pure]
      exact changed
    · intro pool member
      by_cases within : pool ∈ rg.poolsOf change.1
      · rw [vectors pool member (topology.poolsOf_eq change.1 ▸ within)]
        exact (lists pool member).recorded within
      · rw [others pool fun both => within (topology.poolsOf_eq change.1 ▸ both.2)]
        exact (lists pool member).outside within

/-- From empty vectors, after any changes of disks: the vector of each pool lists its disks that are still failed, in the order
in which they failed, and another change leaves the vectors of the pools without the disk as they are. -/
theorem failure_vectors (depicts : Depicts rg.graph links) (pools : rg.getNonMD = .ok nonMD)
    (blank : ∀ pool ∈ nonMD, (rg.failureVector pool).getD [] = []) (changes : List (Fid × SDevState)) :
    ∃ final, changes.foldlM (fun rg change => changeDisk enc change.1 change.2 rg) rg = .ok final ∧
      (∀ pool ∈ nonMD, Lists (fun d => pool ∈ rg.poolsOf d) changes ((final.failureVector pool).getD [])) ∧
      ∀ d s, ∃ after, final.changeDisk enc d s = .ok after ∧
        ∀ pool, pool ∉ rg.poolsOf d → after.failureVector pool = final.failureVector pool := by
  obtain ⟨final, reached, topology, lists⟩ := changeDisks_spec enc depicts pools blank changes
  refine ⟨final, reached, lists, ?_⟩
  intro d s
  obtain ⟨_, shown⟩ := topology.depicts
  obtain ⟨after, changed, _, _, others⟩ := changeDisk_spec enc shown (topology.getNonMD_eq ▸ pools) d s
  exact ⟨after, changed, fun pool without => others pool fun both => without (topology.poolsOf_eq d ▸ both.2)⟩

end RG

namespace Example

def edges (tolerance : List Nat) : List (Resource × Relation × Resource) :=
  let pver : Resource := .conf (.pver ⟨7, 1⟩ (.actual tolerance))
  [(.cluster, .Has, .conf (.root ⟨0, 0⟩ ⟨6, 9⟩ ⟨7, 9⟩)),
    (.conf (.root ⟨0, 0⟩ ⟨6, 9⟩ ⟨7, 9⟩), .IsParentOf, .conf (.pool ⟨6, 1⟩)),
    (.conf (.pool ⟨6, 1⟩), .IsParentOf, pver),
    (pver, .IsParentOf, .conf (.deviceV .Site ⟨8, 1⟩)),
    (.conf (.deviceV .Site ⟨8, 1⟩), .IsParentOf, .conf (.deviceV .Rack ⟨8, 2⟩)),
    (.conf (.deviceV .Rack ⟨8, 2⟩), .IsParentOf, .conf (.deviceV .Enclosure ⟨8, 3⟩)),
    (.conf (.deviceV .Enclosure ⟨8, 3⟩), .IsParentOf, .conf (.deviceV .Controller ⟨8, 4⟩)),
    (.conf (.deviceV .Controller ⟨8, 4⟩), .IsParentOf, .conf (.deviceV .Disk ⟨8, 5⟩)),
    (.conf (.disk ⟨5, 1⟩), .IsRealOf, .conf (.deviceV .Disk ⟨8, 5⟩)),
    (.conf (.sdev ⟨4, 1⟩), .IsOnHardware, .conf (.disk ⟨5, 1⟩))]

/-- The pool version has a second disk. -/
def twoDisks : List (Resource × Relation × Resource) := edges [0, 0, 0, 0, 1] ++
  [(.conf (.deviceV .Controller ⟨8, 4⟩), .IsParentOf, .conf (.deviceV .Disk ⟨8, 6⟩)),
    (.conf (.disk ⟨5, 2⟩), .IsRealOf, .conf (.deviceV .Disk ⟨8, 6⟩)),
    (.conf (.sdev ⟨4, 2⟩), .IsOnHardware, .conf (.disk ⟨5, 2⟩))]

/-- The first disk recovers and fails again after the second has failed. -/
def swapped : List (Fid × SDevState) :=
  [(⟨5, 1⟩, .SDSFailed), (⟨5, 2⟩, .SDSFailed), (⟨5, 1⟩, .SDSOnline), (⟨5, 2⟩, .SDSFailed), (⟨5, 1⟩, .SDSFailed)]

end Example
open Example

theorem failure_vectors_listed :
    ∃ final, swapped.foldlM (fun rg change => RG.changeDisk encoding change.1 change.2 rg) (build twoDisks) = .ok final ∧
      (final.failureVector (.pool ⟨6, 1⟩)).getD [] = [⟨5, 2⟩, ⟨5, 1⟩] ∧
      Lists (fun d => .pool ⟨6, 1⟩ ∈ (build twoDisks).poolsOf d) swapped [⟨5, 2⟩, ⟨5, 1⟩] := by
  obtain ⟨_, depicts⟩ := depicts_build twoDisks
  have pools : (build twoDisks).getNonMD = .ok [.pool ⟨6, 1⟩] := by decide +kernel
  have blank : ∀ pool ∈ [ConfObj.pool ⟨6, 1⟩], ((build twoDisks).failureVector pool).getD [] = [] := by decide +kernel
  obtain ⟨final, reached, lists, _⟩ := RG.failure_vectors encoding depicts pools blank swapped
  have vector : (swapped.foldlM (fun rg change => RG.changeDisk encoding change.1 change.2 rg) (build twoDisks)).toOption.map
      (fun final => (final.failureVector (.pool ⟨6, 1⟩)).getD []) = some [⟨5, 2⟩, ⟨5, 1⟩] := by decide +kernel
  rw [reached] at vector
  have vector := Option.some.inj vector
  exact ⟨final, reached, vector, vector ▸ lists _ mem_cons_self⟩

end Halon.Mero
