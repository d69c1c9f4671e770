import Halon.ResourceGraph
import Halon.Proofs.ChangeLog

/-! The graph and the store. Every operation edits the graph in memory as the updates that it records
edit the store, and keeps three facts: the change log compresses these updates, they lead from the store
that was read to one that represents the graph, and every relation is kept at its own end. -/

namespace Halon
open Library SetMap List
variable {T L R K V : Type}

namespace Rel

def near (rel : Rel L R) : R :=
  match rel.direction with
  | .In => rel.target
  | .Out => rel.source

def far (rel : Rel L R) : R :=
  match rel.direction with
  | .In => rel.source
  | .Out => rel.target

theorem near_invert (rel : Rel L R) : rel.invert.near = rel.far := by
  obtain ⟨_ | _, _, _, _⟩ := rel <;> rfl

end Rel

namespace Encoding
variable (enc : Encoding L R K V)

theorem resource_injective (same : enc.encodeUniversalResource r = enc.encodeUniversalResource s) : r = s := by
  have decoded := congrArg enc.decodeUniversalResource same
  rw [enc.decode_resource, enc.decode_resource] at decoded
  exact Option.some.inj decoded

theorem relation_injective (same : enc.encodeUniversalRelation ρ = enc.encodeUniversalRelation σ) : ρ = σ := by
  have decoded := congrArg enc.decodeUniversalRelation same
  rw [enc.decode_relation, enc.decode_relation] at decoded
  exact Option.some.inj decoded

def entries (kvs : List (R × List (Rel L R))) : List (K × List V) :=
  kvs.map fun entry => (enc.encodeUniversalResource entry.1, entry.2.map enc.encodeUniversalRelation)

theorem mem_keys_entries :
    k ∈ (enc.entries kvs).map Prod.fst ↔ ∃ r, enc.encodeUniversalResource r = k ∧ r ∈ kvs.map Prod.fst := by
  simp only [entries, map_map, mem_map, Function.comp]
  constructor
  · intro listed
    obtain ⟨entry, member, rfl⟩ := listed
    exact ⟨entry.1, rfl, entry, member, rfl⟩
  · intro listed
    obtain ⟨_, rfl, entry, member, rfl⟩ := listed
    exact ⟨entry, member, rfl⟩

theorem listed_entries :
    Listed (enc.entries kvs) k v ↔
      ∃ r ρ, enc.encodeUniversalResource r = k ∧ enc.encodeUniversalRelation ρ = v ∧ Listed kvs r ρ := by
  constructor
  · intro listed
    obtain ⟨_, encoded, rfl, inside⟩ := listed
    obtain ⟨entry, member, rfl⟩ := mem_map.mp encoded
    obtain ⟨ρ, held, rfl⟩ := mem_map.mp inside
    exact ⟨entry.1, ρ, rfl, rfl, entry, member, rfl, held⟩
  · intro listed
    obtain ⟨_, ρ, rfl, rfl, _, member, rfl, held⟩ := listed
    exact ⟨_, mem_map_of_mem member, rfl, mem_map_of_mem held⟩

end Encoding

variable [DecidableEq T] [LinearOrder L] [LinearOrder R] [LinearOrder K] [LinearOrder V]

/-- The store holds the encoded resources and relations of the graph and its metadata, and nothing else. -/
structure Represents (enc : Encoding L R K V) (store : StoreState K V) (graph : SetMap R (Rel L R))
    (info : GraphGCInfo R) : Prop where
  keys : ∀ k, Has store.2 k ↔ ∃ r, enc.encodeUniversalResource r = k ∧ Has graph r
  values : ∀ k v, Holds store.2 k v ↔
    ∃ r ρ, enc.encodeUniversalResource r = k ∧ enc.encodeUniversalRelation ρ = v ∧ Holds graph r ρ
  info : store.1 = Graph.metaInfo enc info

namespace Represents
open Multimap
variable {enc : Encoding L R K V} {store : StoreState K V} {graph : SetMap R (Rel L R)} {info : GraphGCInfo R}

variable (represents : Represents enc store graph info)
include represents

theorem insertMany (kvs : List (R × List (Rel L R))) :
    Represents enc (updateStore [.insertMany (enc.entries kvs)] store) (Multimap.insertMany kvs graph) info where
  keys k := by
    simp only [has_insertMany, and_or_left, exists_or, ← enc.mem_keys_entries, ← represents.keys k]
    exact has_insertMany
  values k v := by
    simp only [holds_insertMany, and_or_left, exists_or, ← enc.listed_entries, ← represents.values k v]
    exact holds_insertMany
  info := represents.info

theorem deleteValues (kvs : List (R × List (Rel L R))) :
    Represents enc (updateStore [.deleteValues (enc.entries kvs)] store) (Multimap.deleteValues kvs graph) info where
  keys k := by
    simp only [has_deleteValues, ← represents.keys k]
    exact has_deleteValues
  values k v := by
    have deleted : Holds (updateStore [.deleteValues (enc.entries kvs)] store).2 k v ↔
        Holds store.2 k v ∧ ¬ Listed (enc.entries kvs) k v := holds_deleteValues
    rw [deleted, represents.values, enc.listed_entries]
    constructor
    · intro kept
      obtain ⟨⟨r, ρ, rfl, rfl, held⟩, unlisted⟩ := kept
      exact ⟨r, ρ, rfl, rfl, holds_deleteValues.mpr ⟨held, fun listed => unlisted ⟨r, ρ, rfl, rfl, listed⟩⟩⟩
    · intro kept
      obtain ⟨r, ρ, rfl, rfl, held⟩ := kept
      obtain ⟨before, unlisted⟩ := holds_deleteValues.mp held
      refine ⟨⟨r, ρ, rfl, rfl, before⟩, ?_⟩
      intro listed
      obtain ⟨s, σ, same, equal, listed⟩ := listed
      rw [enc.resource_injective same, enc.relation_injective equal] at listed
      exact unlisted listed
  info := represents.info

theorem deleteKeys (rs : List R) :
    Represents enc (updateStore [.deleteKeys (rs.map enc.encodeUniversalResource)] store)
    (Multimap.deleteKeys rs graph) info := by
  have encoded {r : R} : enc.encodeUniversalResource r ∈ rs.map enc.encodeUniversalResource ↔ r ∈ rs := by
    constructor
    · intro member
      obtain ⟨s, inside, same⟩ := mem_map.mp member
      exact enc.resource_injective same ▸ inside
    · exact mem_map_of_mem
  constructor
  · intro k
    have deleted : Has (updateStore [.deleteKeys (rs.map enc.encodeUniversalResource)] store).2 k ↔
        Has store.2 k ∧ k ∉ rs.map enc.encodeUniversalResource := has_deleteKeys
    rw [deleted, represents.keys]
    constructor
    · intro kept
      obtain ⟨⟨r, rfl, has⟩, undeleted⟩ := kept
      exact ⟨r, rfl, has_deleteKeys.mpr ⟨has, fun member => undeleted (encoded.mpr member)⟩⟩
    · intro kept
      obtain ⟨r, rfl, has⟩ := kept
      obtain ⟨before, undeleted⟩ := has_deleteKeys.mp has
      exact ⟨⟨r, rfl, before⟩, fun member => undeleted (encoded.mp member)⟩
  · intro k v
    have deleted : Holds (updateStore [.deleteKeys (rs.map enc.encodeUniversalResource)] store).2 k v ↔
        Holds store.2 k v ∧ k ∉ rs.map enc.encodeUniversalResource := holds_deleteKeys
    rw [deleted, represents.values]
    constructor
    · intro kept
      obtain ⟨⟨r, ρ, rfl, rfl, held⟩, undeleted⟩ := kept
      exact ⟨r, ρ, rfl, rfl, holds_deleteKeys.mpr ⟨held, fun member => undeleted (encoded.mpr member)⟩⟩
    · intro kept
      obtain ⟨r, ρ, rfl, rfl, held⟩ := kept
      obtain ⟨before, undeleted⟩ := holds_deleteKeys.mp held
      exact ⟨⟨r, ρ, rfl, rfl, before⟩, fun member => undeleted (encoded.mp member)⟩
  · exact represents.info

theorem setMetaInfo (next : GraphGCInfo R) : Represents enc
    (updateStore [.setMetaInfo (Graph.metaInfo enc next)] store) graph next :=
  ⟨represents.keys, represents.values, rfl⟩

end Represents

open Multimap

def Local (graph : SetMap R (Rel L R)) : Prop := ∀ r ρ, Holds graph r ρ → ρ.near = r

structure Mirrored (enc : Encoding L R K V) (store : StoreState K V) (g : Graph L R K V) : Prop where
  logged : g.changeLog = compress g.recorded
  represents : Represents enc (applyEach g.recorded store) g.graph g.gcInfo
  kept : Local g.graph

namespace Mirrored
variable {enc : Encoding L R K V} {store : StoreState K V} {g : Graph L R K V}

section
variable (mirrored : Mirrored enc store g)
include mirrored

theorem record (represents : Represents enc (updateStore [u] (applyEach g.recorded store)) graph info) (kept : Local graph) :
    Mirrored enc store { g.record u with graph := graph, gcInfo := info } where
  logged := by
    rw [Graph.record, compress_snoc, mirrored.logged]
  represents := by
    rw [Graph.record, applyEach_snoc]
    exact represents
  kept := kept

theorem insertMany (kvs : List (R × List (Rel L R))) (near : ∀ r ρ, Listed kvs r ρ → ρ.near = r) :
    Mirrored enc store { g.record (.insertMany (enc.entries kvs)) with graph := Multimap.insertMany kvs g.graph } := by
  apply mirrored.record (mirrored.represents.insertMany kvs)
  intro r ρ held
  exact (holds_insertMany.mp held).elim (mirrored.kept r ρ) (near r ρ)

theorem deleteValues (kvs : List (R × List (Rel L R))) :
    Mirrored enc store { g.record (.deleteValues (enc.entries kvs)) with graph := Multimap.deleteValues kvs g.graph } := by
  apply mirrored.record (mirrored.represents.deleteValues kvs)
  intro r ρ held
  exact mirrored.kept r ρ (holds_deleteValues.mp held).1

theorem deleteKeys (rs : List R) :
    Mirrored enc store { g.record (.deleteKeys (rs.map enc.encodeUniversalResource)) with
      graph := Multimap.deleteKeys rs g.graph } := by
  apply mirrored.record (mirrored.represents.deleteKeys rs)
  intro r ρ held
  exact mirrored.kept r ρ (holds_deleteKeys.mp held).1

theorem modifyGCInfo (f : GraphGCInfo R → GraphGCInfo R) : Mirrored enc store (g.modifyGCInfo enc f) :=
  mirrored.record (mirrored.represents.setMetaInfo _) mirrored.kept

end

omit [LinearOrder L] [LinearOrder R] in
theorem listed_pair :
    Listed [(x, [first]), (y, [second])] r ρ ↔ r = x ∧ ρ = first ∨ r = y ∧ ρ = second := by
  simp [Listed, eq_comm]

theorem unlink_eq (graph : SetMap R (Rel L R)) (src dest : R) (rel inverse : Rel L R) :
    (graph.adjust (OrderedSet.delete inverse) dest).adjust (OrderedSet.delete rel) src =
      Multimap.deleteValues [(src, [rel]), (dest, [inverse])] graph := by
  have reversed : (graph.adjust (OrderedSet.delete inverse) dest).adjust (OrderedSet.delete rel) src =
      Multimap.deleteValues [(dest, [inverse]), (src, [rel])] graph := rfl
  rw [reversed]
  apply deleteValues_congr
  intro r ρ
  rw [listed_pair, listed_pair, or_comm]

theorem deleteEdge (mirrored : Mirrored enc store g) (e : Edge L R) : Mirrored enc store (g.deleteEdge enc e) := by
  unfold Graph.deleteEdge Graph.incrementGC Graph.modifySinceGC
  apply Mirrored.modifyGCInfo
  split
  next src rel dest _ _ _ =>
    simp only
    rw [unlink_eq]
    exact mirrored.deleteValues [(src, [rel]), (dest, [rel.invert])]
  next => exact mirrored

theorem compose_eq {α : Type} (fs : List (α → α)) (x : α) :
    fs.foldl (fun done next => done ∘ next) id x = fs.foldr (fun f y => f y) x := by
  have general (done : α → α) : fs.foldl (fun done next => done ∘ next) done x = done (fs.foldr (fun f y => f y) x) := by
    induction fs generalizing done with
    | nil => rfl
    | cons f fs ih => exact ih (done ∘ f)
  exact general id

private theorem compose_preserves {α : Type} {property : α → Prop} {fs : List (α → α)} (x : α) (initial : property x)
    (preserves : ∀ f ∈ fs, ∀ y, property y → property (f y)) : property (fs.foldl (fun done next => done ∘ next) id x) := by
  rw [compose_eq]
  induction fs with
  | nil => exact initial
  | cons f fs ih =>
    apply preserves f mem_cons_self
    exact ih fun other member => preserves other (mem_cons_of_mem _ member)

theorem disconnectAllFrom (mirrored : Mirrored enc store g) (schema : Schema T L R) (x : R) (r : L) (b : T) :
    Mirrored enc store (g.disconnectAllFrom enc schema x r b) := by
  apply compose_preserves g mirrored
  intro f member y kept
  obtain ⟨e, _, rfl⟩ := mem_map.mp member
  exact kept.deleteEdge e

theorem disconnectAllTo (mirrored : Mirrored enc store g) (schema : Schema T L R) (a : T) (r : L) (y : R) :
    Mirrored enc store (g.disconnectAllTo enc schema a r y) := by
  apply compose_preserves g mirrored
  intro f member y kept
  obtain ⟨e, _, rfl⟩ := mem_map.mp member
  exact kept.deleteEdge e

theorem link_eq (graph : SetMap R (Rel L R)) (x y : R) (outRel inRel : Rel L R) :
    (graph.insertWith OrderedSet.union y (.fromList [inRel])).insertWith OrderedSet.union x (.fromList [outRel]) =
      Multimap.insertMany [(x, [outRel]), (y, [inRel])] graph := by
  apply ext_holds
  · intro r
    simp [has_insertWith, has_insertMany, or_assoc, or_comm]
  · intro r ρ
    simp [holds_insertWith_union, holds_insertMany, listed_pair, or_assoc, or_comm]

theorem connectUnbounded (mirrored : Mirrored enc store g) (x : R) (r : L) (y : R) :
    Mirrored enc store (g.connectUnbounded enc x r y) := by
  unfold Graph.connectUnbounded
  simp only
  rw [link_eq]
  apply mirrored.insertMany [(x, [⟨.Out, r, x, y⟩]), (y, [⟨.In, r, x, y⟩])]
  intro s ρ listed
  obtain ⟨rfl, rfl⟩ | ⟨rfl, rfl⟩ := listed_pair.mp listed
  · rfl
  · rfl

theorem connect (mirrored : Mirrored enc store g) (schema : Schema T L R) (x : R) (r : L) (y : R) :
    Mirrored enc store (g.connect enc schema x r y) := by
  unfold Graph.connect
  cases schema.cardinalityFrom r (schema.typeOf x) (schema.typeOf y) with
  | AtMostOne =>
    have cleared := mirrored.disconnectAllTo schema (schema.typeOf x) r y
    cases schema.cardinalityTo r (schema.typeOf x) (schema.typeOf y) with
    | AtMostOne => exact (cleared.disconnectAllFrom schema x r (schema.typeOf y)).connectUnbounded x r y
    | Unbounded => exact cleared.connectUnbounded x r y
  | Unbounded =>
    cases schema.cardinalityTo r (schema.typeOf x) (schema.typeOf y) with
    | AtMostOne => exact (mirrored.disconnectAllFrom schema x r (schema.typeOf y)).connectUnbounded x r y
    | Unbounded => exact mirrored.connectUnbounded x r y

theorem unhook_eq (rels : List (Rel L R)) (graph : SetMap R (Rel L R)) :
    rels.foldr (fun rel m => m.adjust (OrderedSet.delete (Graph.unhook rel).2) (Graph.unhook rel).1) graph =
      Multimap.deleteValues (rels.map fun rel => ((Graph.unhook rel).1, [(Graph.unhook rel).2])) graph := by
  rw [← foldl_reverse]
  have reversed : rels.reverse.foldl (fun m rel => m.adjust (OrderedSet.delete (Graph.unhook rel).2) (Graph.unhook rel).1) graph =
      Multimap.deleteValues (rels.reverse.map fun rel => ((Graph.unhook rel).1, [(Graph.unhook rel).2])) graph := by
    rw [Multimap.deleteValues, foldl_map]
    rfl
  rw [reversed]
  apply deleteValues_congr
  intro r ρ
  simp only [Listed, mem_map, mem_reverse]

theorem removeResource (mirrored : Mirrored enc store g) (r : R) : Mirrored enc store (g.removeResource enc r) := by
  unfold Graph.removeResource
  split
  next => exact mirrored
  next res found =>
    simp only [compose_eq, foldr_map, unhook_eq]
    have unhooked := mirrored.deleteValues ((g.lookupRes r).elements.map fun rel =>
      ((Graph.unhook rel).1, [(Graph.unhook rel).2]))
    have deleted := unhooked.deleteKeys [res]
    simp only [Encoding.entries, map_map] at deleted
    exact deleted

theorem compose_deletes (rs : List R) (graph : SetMap R (Rel L R)) :
    (rs.map fun r => OrderedMap.delete r).foldl (fun done next => next ∘ done) id graph = Multimap.deleteKeys rs graph := by
  have general (done : SetMap R (Rel L R) → SetMap R (Rel L R)) :
      (rs.map fun r => OrderedMap.delete r).foldl (fun done next => next ∘ done) done graph =
        Multimap.deleteKeys rs (done graph) := by
    induction rs generalizing done with
    | nil => rfl
    | cons r rs ih => exact ih (OrderedMap.delete r ∘ done)
  exact general id

theorem garbageCollect (mirrored : Mirrored enc store g) (initGrey : OrderedSet R) :
    Mirrored enc store (g.garbageCollect enc initGrey) := by
  unfold Graph.garbageCollect
  simp only [compose_deletes]
  exact mirrored.deleteKeys _

end Mirrored
end Halon
