import Halon.Proofs.BrokenPools
import Mathlib.Data.Finset.Card

/-! The cascade ends. Every round but the last one changes an object that no round before
has changed, and all of these objects are in the graph. -/

namespace Halon.Mero
open Library List Option
variable {K V : Type} [LinearOrder K] [LinearOrder V] {enc : Encoding Relation Resource K V} {rg : RG K V}
variable {topFids : List Fid} {acc : List AnyStateChange} {x y : ConfObj} {r : Relation} {a b : ResourceType}

namespace RG

/-- The configuration objects that the graph has, with relations of their own or at an end of others' relations. -/
def confObjects (rg : RG K V) : Finset ConfObj :=
  ((rg.graph.entries.flatMap fun entry => entry.1 :: entry.2.elements.flatMap fun rel => [rel.source, rel.target]).filterMap
    Resource.conf?).toFinset

theorem mem_confObjects (kept : rel ∈ rg.lookupRes res) (either : rel.source = .conf y ∨ rel.target = .conf y) :
    y ∈ rg.confObjects := by
  obtain ⟨set, looked, inside⟩ := Graph.mem_lookupRes.mp kept
  rw [confObjects, List.mem_toFinset, mem_filterMap]
  refine ⟨.conf y, ?_, rfl⟩
  apply mem_flatMap.mpr
  refine ⟨(res, set), OrderedMap.lookup_eq_some.mp looked, mem_cons_of_mem _ ?_⟩
  apply mem_flatMap.mpr
  refine ⟨rel, inside, ?_⟩
  cases either with
  | inl source => exact source ▸ mem_cons_self
  | inr target => exact target ▸ mem_cons_of_mem _ mem_cons_self

theorem present_connectedTo (found : y ∈ rg.connectedTo x r b) : y ∈ rg.confObjects := by
  obtain ⟨res, member, read⟩ := mem_filterMap.mp found
  obtain ⟨rel, kept, ends⟩ := mem_filterMap.mp (mem_filter.mp member).1
  split at ends
  next =>
    cases ends
    exact mem_confObjects (mem_filter.mp kept).1 (.inr (RG.conf?_eq_some.mp read))
  next => cases ends

theorem present_connectedFromOne (found : rg.connectedFromOne r a x = some y) : y ∈ rg.confObjects := by
  obtain ⟨res, member, read⟩ := mem_filterMap.mp (mem_of_mem_head? found)
  obtain ⟨rel, kept, ends⟩ := mem_filterMap.mp (mem_filter.mp member).1
  split at ends
  next =>
    cases ends
    exact mem_confObjects (mem_filter.mp kept).1 (.inl (RG.conf?_eq_some.mp read))
  next => cases ends

theorem present_connectedToOne (found : rg.connectedToOne x r b = some y) : y ∈ rg.confObjects :=
  present_connectedTo (mem_of_mem_head? found)

theorem present_iosToController (found : y ∈ rg.iosToController x) : y ∈ rg.confObjects := by
  simp only [iosToController, mem_toList, bind_eq_bind, bind_eq_some_iff] at found
  obtain ⟨_, -, _, -, one⟩ := found
  exact present_connectedToOne one

theorem Reaches.present (reaches : rg.Reaches x y) : y ∈ rg.confObjects := by
  obtain ⟨_, _, found⟩ := reaches
  simp only [pverOf, bind, bind_eq_some_iff] at found
  obtain ⟨_, _, _, _, _, _, _, _, above⟩ := found
  exact present_connectedFromOne above

theorem checkBroken_ne : rg.checkBroken counted refused x ≠ .error .outOfRounds := by
  unfold checkBroken
  split <;> nofun

theorem brokenPVers_ne : rg.brokenPVers counted refused x ≠ .error .outOfRounds := by
  intro failed
  unfold brokenPVers at failed
  cases all : (rg.pversOf x counted).mapM (rg.checkBroken counted refused) with
  | error =>
    rw [all] at failed
    cases failed
    obtain ⟨v, _, broken⟩ := error_of_mapM all
    exact checkBroken_ne broken
  | ok =>
    rw [all] at failed
    cases failed

end RG

/-- A rule passes changes on to objects of the graph, and does not wait for rounds. -/
def StateCascadeRule.Present : StateCascadeRule K V → Prop
  | .rule _ _ _ find _ => ∀ x rg, find x rg ≠ .error .outOfRounds ∧
      ∀ found, find x rg = .ok found → ∀ y ∈ found, y ∈ rg.confObjects
  | .trigger _ _ _ _ => True

namespace StateCascadeRule

theorem present_ok {find : ConfObj → RG K V → List ConfObj} (present : ∀ x rg, ∀ y ∈ find x rg, y ∈ rg.confObjects) :
    (.rule a old new (fun x rg => .ok (find x rg)) u : StateCascadeRule K V).Present := by
  intro x rg
  refine ⟨nofun, ?_⟩
  intro found listed
  cases listed
  exact present x rg

theorem present_toChildren : (toChildren a b old new u : StateCascadeRule K V).Present :=
  present_ok fun _ _ _ => RG.present_connectedTo

theorem present_controllers :
    (.rule .Service old new (fun x rg => .ok (if isIOS x then rg.iosToController x else [])) u :
    StateCascadeRule K V).Present := by
  apply present_ok
  intro x rg y member
  split at member
  · exact RG.present_iosToController member
  · cases member

theorem present_pvers (counted : ConfObjectState) :
    (.rule (.Device .Disk) always new (RG.brokenPVers counted (refusal counted)) u : StateCascadeRule K V).Present := by
  intro x rg
  refine ⟨RG.brokenPVers_ne, ?_⟩
  intro found listed y member
  exact ((RG.mem_brokenPVers listed).mp member).1.present

theorem present_rules : ∀ rule ∈ stateCascadeRules enc, rule.Present := by
  unfold stateCascadeRules enclosureCascadeControllerRules iosFailsController
  simp only [cons_append, nil_append, forall_mem_cons]
  refine ⟨present_toChildren, present_toChildren, ?_, ?_, ?_, present_pvers .M0_NC_FAILED, present_pvers .M0_NC_ONLINE,
    trivial, trivial, present_toChildren, present_toChildren, present_toChildren,
    present_toChildren, present_toChildren, present_toChildren, present_controllers, present_controllers, nofun⟩
  · exact present_ok fun x rg y member => RG.present_connectedToOne (mem_toList.mp member)
  · exact present_ok fun x rg y member => RG.present_connectedFromOne (mem_toList.mp member)
  · exact present_ok fun x rg y member => RG.present_connectedToOne (mem_toList.mp member)

end StateCascadeRule

theorem present_applyCascadeRule (present : rule.Present) :
    applyCascadeRule rg topFids change rule ≠ .error .outOfRounds ∧
      ∀ result, applyCascadeRule rg topFids change rule = .ok result → ∀ made ∈ result.2, made.object ∈ rg.confObjects := by
  generalize applied : applyCascadeRule rg topFids change rule = outcome
  have nothing {update : Option (GraphUpdate K V)} (same : .ok (update, []) = outcome) : outcome ≠ .error .outOfRounds ∧
      ∀ result, outcome = .ok result → ∀ made ∈ result.2, made.object ∈ rg.confObjects := by
    subst same
    refine ⟨by simp, ?_⟩
    intro result done made member
    cases done
    cases member
  cases rule with
  | trigger =>
    rw [applyCascadeRule] at applied
    split at applied
    · exact nothing applied
    · exact nothing applied
  | rule a old new find =>
    obtain ⟨free, objects⟩ := present change.object rg
    rw [applyCascadeRule] at applied
    split at applied
    · cases listed : find change.object rg with
      | error =>
        rw [listed, error_bind] at applied
        subst applied
        exact ⟨fun failed => free (listed.trans (congrArg Except.error (Except.error.inj failed))), by simp⟩
      | ok found =>
        rw [listed, ok_bind] at applied
        subst applied
        refine ⟨by rintro ⟨⟩, ?_⟩
        intro result done made member
        cases done
        obtain ⟨object, inside, passed⟩ := mem_filterMap.mp member
        unfold passOn at passed
        split at passed
        · cases passed
        · split at passed
          · cases passed
            exact objects found listed object inside
          · cases passed
    · exact nothing applied

def untouched (rg : RG K V) (acc : List AnyStateChange) : Finset ConfObj :=
  rg.confObjects.filter fun object => ∀ change ∈ acc, object.fid ≠ change.object.fid

theorem untouched_shrinks (member : change ∈ found)
    (present : change.object ∈ rg.confObjects) (fresh : acc.all (notMatch change)) :
    (untouched rg (found ++ acc)).card < (untouched rg acc).card := by
  apply Finset.card_lt_card
  apply Finset.ssubset_iff_subset_ne.mpr
  constructor
  · intro object inside
    obtain ⟨held, apart⟩ := Finset.mem_filter.mp inside
    exact Finset.mem_filter.mpr ⟨held, fun other known => apart other (mem_append_right _ known)⟩
  · intro same
    have before : change.object ∈ untouched rg acc := by
      refine Finset.mem_filter.mpr ⟨present, ?_⟩
      intro other known
      exact of_decide_eq_true (all_eq_true.mp fresh other known)
    rw [← same] at before
    exact (Finset.mem_filter.mp before).2 change (mem_append_left _ member) rfl

theorem go_ends (enough : (untouched rg acc).card < rounds) :
    cascadeStateChange.go enc rg topFids rounds new_cgs acc f ≠ .error .outOfRounds := by
  induction rounds generalizing new_cgs acc f with
  | zero => exact absurd enough (Nat.not_lt_zero _)
  | succ rounds ih =>
    unfold cascadeStateChange.go
    split
    next => nofun
    next =>
      cases all : (new_cgs.flatMap fun change => (stateCascadeRules enc).map (change, ·)).mapM fun pair =>
          applyCascadeRule rg topFids pair.1 pair.2 with
      | error =>
        intro failed
        cases failed
        obtain ⟨_, member, broken⟩ := error_of_mapM all
        obtain ⟨_, _, inside⟩ := mem_flatMap.mp member
        obtain ⟨rule, listed, rfl⟩ := mem_map.mp inside
        exact (present_applyCascadeRule (StateCascadeRule.present_rules rule listed)).1 broken
      | ok results =>
        change cascadeStateChange.go enc rg topFids rounds _ _ _ ≠ _
        cases new : (results.flatMap Prod.snd).filter fun change => acc.all (notMatch change) with
        | nil =>
          unfold cascadeStateChange.go
          nofun
        | cons change rest =>
          have member : change ∈ (results.flatMap Prod.snd).filter fun change => acc.all (notMatch change) := new ▸ mem_cons_self
          obtain ⟨made, fresh⟩ := mem_filter.mp member
          obtain ⟨result, found, inside⟩ := mem_flatMap.mp made
          obtain ⟨_, listed, applied⟩ := mem_of_mapM all found
          obtain ⟨_, _, paired⟩ := mem_flatMap.mp listed
          obtain ⟨rule, known, rfl⟩ := mem_map.mp paired
          have present := (present_applyCascadeRule (StateCascadeRule.present_rules rule known)).2 result applied change inside
          have fewer := untouched_shrinks (mem_cons_self : change ∈ change :: rest) present fresh
          apply ih
          omega

/-- As many rounds as there are objects in the graph and one more are always enough. -/
theorem cascade_terminates (asc : AnyStateChange) (rg : RG K V) (topFids : List Fid) (more : Nat) :
    cascadeStateChange enc (rg.confObjects.card + 1 + more) asc rg topFids ≠ .error .outOfRounds := by
  apply go_ends
  have some : (untouched rg [asc]).card ≤ rg.confObjects.card := Finset.card_le_card (Finset.filter_subset _ _)
  omega

end Halon.Mero
