import Halon.Mero.State
import Halon.Proofs.GraphConnected

/-! Edits of the resource graph that keep its objects in their places. Setting a state
replaces a link to a state, recording a failure one to a failure vector. -/

namespace Halon.Mero
open Library SetMap Halon.Graph
variable {K V : Type} [LinearOrder K] [LinearOrder V] {enc : Encoding Relation Resource K V} {rg rg' rg'' : RG K V}
variable {links : Links Relation Resource}

/-- Both graphs keep their edges at both ends, and differ in links to states and failure vectors at most. -/
def SameTopology (rg rg' : RG K V) : Prop :=
  ∃ links links', Depicts rg.graph links ∧ Depicts rg'.graph links' ∧
    ∀ a s c, s ≠ .Is → c.typeOf ≠ .DiskFailureVector → (links a s c ↔ links' a s c)

namespace SameTopology

theorem refl (depicts : Depicts rg.graph links) : SameTopology rg rg := ⟨links, links, depicts, depicts, fun _ _ _ _ _ => Iff.rfl⟩

theorem trans (first : SameTopology rg rg') (second : SameTopology rg' rg'') : SameTopology rg rg'' := by
  obtain ⟨links, _, depicts, shown, same⟩ := first
  obtain ⟨_, last, shown', depicts', same'⟩ := second
  obtain rfl := shown.unique shown'
  exact ⟨links, last, depicts, depicts', fun a s c kind type => (same a s c kind type).trans (same' a s c kind type)⟩

theorem depicts (same : SameTopology rg rg') : ∃ links, Depicts rg'.graph links := by
  obtain ⟨_, links', _, depicts', _⟩ := same
  exact ⟨links', depicts'⟩

variable {x y : ConfObj} {r : Relation} {a b : ResourceType}

variable (same : SameTopology rg rg')
include same

theorem resources_eq (kind : r ≠ .Is) (type : b ≠ .DiskFailureVector) :
    Graph.connectedTo schema z r b rg = Graph.connectedTo schema z r b rg' := by
  obtain ⟨_, _, depicts, depicts', same⟩ := same
  exact connectedTo_congr depicts depicts' fun c typed => same z r c kind fun vector => type (typed.symm.trans vector)

theorem connectedTo_eq (kind : r ≠ .Is) (type : b ≠ .DiskFailureVector) : rg.connectedTo x r b = rg'.connectedTo x r b := by
  unfold RG.connectedTo
  rw [same.resources_eq kind type]

theorem connectedFromOne_eq (kind : r ≠ .Is) : rg.connectedFromOne r a y = rg'.connectedFromOne r a y := by
  obtain ⟨_, _, depicts, depicts', same⟩ := same
  have object : (Resource.conf y).typeOf ≠ .DiskFailureVector := by cases y <;> nofun
  unfold RG.connectedFromOne
  rw [connectedFrom_congr depicts depicts' fun z _ => same z r (.conf y) kind object]

theorem pverOf_eq (diskv : ConfObj) : rg.pverOf diskv = rg'.pverOf diskv := by
  unfold RG.pverOf
  simp only [same.connectedFromOne_eq (r := .IsParentOf) nofun]

theorem poolsOf_eq (disk : Fid) : rg.poolsOf disk = rg'.poolsOf disk := by
  unfold RG.poolsOf
  simp only [same.connectedTo_eq (r := .IsRealOf) (b := .DeviceV .Disk) nofun nofun, same.pverOf_eq,
    same.connectedFromOne_eq (r := .IsParentOf) nofun]

theorem getNonMD_eq : rg.getNonMD = rg'.getNonMD := by
  unfold RG.getNonMD RG.getM0Root
  simp only [same.resources_eq (r := .Has) (b := .Root) nofun nofun,
    same.connectedTo_eq (r := .IsParentOf) (b := .Pool) nofun nofun]

end SameTopology

theorem depicts_replace (depicts : Depicts rg.graph links)
    (single : cardinality r x.typeOf y.typeOf = (.Unbounded, .AtMostOne)) :
    Depicts (rg.connect enc schema x r y).graph
      fun a s c => (a = x ∧ s = r ∧ c = y) ∨ links a s c ∧ ¬ (a = x ∧ s = r ∧ c.typeOf = y.typeOf) := by
  apply (depicts.connect x r y).congr
  intro a s c
  have targets : schema.cardinalityTo r (schema.typeOf x) (schema.typeOf y) = .AtMostOne := congrArg Prod.snd single
  have sources : schema.cardinalityFrom r (schema.typeOf x) (schema.typeOf y) = .Unbounded := congrArg Prod.fst single
  unfold Competes
  rw [targets, sources]
  have typed : schema.typeOf = Resource.typeOf := rfl
  simp only [typed, and_true, reduceCtorEq, and_false, or_false, and_left_comm]

namespace RG

theorem conf?_eq_some {r : Resource} : r.conf? = some y ↔ r = .conf y := by
  cases r <;> simp [Resource.conf?]

theorem mem_connectedTo (depicts : Depicts rg.graph links) :
    y ∈ rg.connectedTo x r b ↔ links (.conf x) r (.conf y) ∧ y.typeOf = b := by
  simp only [connectedTo, List.mem_filterMap, conf?_eq_some, exists_eq_right, Graph.mem_connectedTo depicts]
  rfl

theorem nodup_connectedTo (depicts : Depicts rg.graph links) :
    (rg.connectedTo x r b).Nodup := by
  apply (Graph.nodup_connectedTo depicts).filterMap
  intro s t y first second
  rw [conf?_eq_some.mp first, conf?_eq_some.mp second]

theorem setState_eq (x : ConfObj) (st : ObjectState) :
    rg.setState enc x st = rg ∨ ∃ z, rg.setState enc x st = rg.connect enc schema (.conf z) .Is (.state st) := by
  unfold setState
  split
  next => exact .inl rfl
  next => exact .inl rfl
  next =>
    split
    next => exact .inl rfl
    next sdev _ => exact .inr ⟨sdev, rfl⟩
  next => exact .inr ⟨x, rfl⟩

theorem state_single (z : ConfObj) (st : ObjectState) :
    cardinality .Is (Resource.conf z).typeOf (Resource.state st).typeOf = (.Unbounded, .AtMostOne) := by
  cases z with
  | service => cases st <;> rfl
  | _ => rfl

theorem sameTopology_setState (depicts : Depicts rg.graph links) (x : ConfObj) (st : ObjectState) :
    SameTopology rg (rg.setState enc x st) := by
  rcases rg.setState_eq x st with same | ⟨z, set⟩
  · rw [same]
    exact .refl depicts
  · rw [set]
    refine ⟨_, _, depicts, depicts_replace depicts (state_single z st), ?_⟩
    intro a s c kind _
    simp only [kind, false_and, and_false, not_false_eq_true, and_true, false_or]

theorem failureVector_setState (depicts : Depicts rg.graph links) (x : ConfObj) (st : ObjectState) (pool : ConfObj) :
    (rg.setState enc x st).failureVector pool = rg.failureVector pool := by
  rcases rg.setState_eq x st with same | ⟨z, set⟩
  · rw [same]
  · unfold failureVector Graph.connectedToOne
    rw [set, connectedTo_congr (depicts_replace depicts (state_single z st)) depicts]
    intro c _
    simp

variable {pool other : ConfObj} {v : List Fid}

private theorem vector_single (typed : pool.typeOf = .Pool) :
    cardinality .Has (Resource.conf pool).typeOf (Resource.diskFailureVector v).typeOf = (.Unbounded, .AtMostOne) := by
  change cardinality .Has pool.typeOf _ = _
  rw [typed]
  rfl

variable (depicts : Depicts rg.graph links) (typed : pool.typeOf = .Pool)
include depicts typed

theorem sameTopology_setFailureVector : SameTopology rg (rg.setFailureVector enc pool v) := by
  refine ⟨_, _, depicts, depicts_replace depicts (vector_single typed), ?_⟩
  intro a s c _ type
  constructor
  · exact fun linked => .inr ⟨linked, fun replaced => type replaced.2.2⟩
  · rintro (⟨_, _, rfl⟩ | ⟨linked, _⟩)
    · exact absurd rfl type
    · exact linked

theorem failureVector_set : (rg.setFailureVector enc pool v).failureVector pool = some v := by
  have replaced : Depicts (rg.setFailureVector enc pool v).graph _ := depicts_replace depicts (vector_single typed)
  have single : Graph.connectedTo schema (.conf pool) .Has .DiskFailureVector (rg.setFailureVector enc pool v) =
      [.diskFailureVector v] := by
    apply connectedTo_single replaced (.inl ⟨rfl, rfl, rfl⟩)
    rintro z (⟨_, _, rfl⟩ | ⟨_, stays⟩) type
    · rfl
    · exact absurd ⟨rfl, rfl, type⟩ stays
  unfold failureVector Graph.connectedToOne
  rw [single]
  rfl

theorem failureVector_set_other (different : other ≠ pool) :
    (rg.setFailureVector enc pool v).failureVector other = rg.failureVector other := by
  have replaced : Depicts (rg.setFailureVector enc pool v).graph _ := depicts_replace depicts (vector_single typed)
  have apart : Resource.conf other ≠ .conf pool := fun same => different (Resource.conf.inj same)
  unfold failureVector Graph.connectedToOne
  rw [connectedTo_congr replaced depicts]
  intro c _
  simp [apart]

theorem stateOf_setFailureVector (z : ConfObj) (b : ResourceType) :
    (rg.setFailureVector enc pool v).stateOf z b = rg.stateOf z b := by
  have replaced : Depicts (rg.setFailureVector enc pool v).graph _ := depicts_replace depicts (vector_single typed)
  unfold stateOf
  rw [connectedTo_congr replaced depicts]
  intro c _
  simp

end RG

namespace Example

def encoding : Encoding Relation Resource Resource (Rel Relation Resource) := ⟨id, id, some, some, fun _ => rfl, fun _ => rfl⟩

def build (edges : List (Resource × Relation × Resource)) : RG Resource (Rel Relation Resource) :=
  edges.foldl (fun rg edge => rg.connect encoding schema edge.1 edge.2.1 edge.2.2) (Graph.emptyGraph ⟨0, 100, []⟩)

theorem depicts_build (edges : List (Resource × Relation × Resource)) : ∃ links, Depicts (build edges).graph links := by
  unfold build
  induction edges using List.reverseRecOn with
  | nil => exact ⟨_, Depicts.empty⟩
  | append_singleton _ edge ih =>
    obtain ⟨_, depicts⟩ := ih
    rw [List.foldl_append]
    exact ⟨_, depicts.connect edge.1 edge.2.1 edge.2.2⟩

end Example
end Halon.Mero
