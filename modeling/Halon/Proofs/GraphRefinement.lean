import Halon.Proofs.GraphMerge

/-! The graph refines the store. A graph read from a store, edited, and read again
after its change log was applied is the edited graph, unless the change log brings
back a relation of a resource that was removed and added again. -/

namespace Halon
open Library SetMap Multimap List OrderedMap
variable {T L R K V : Type} [DecidableEq T] [LinearOrder L] [LinearOrder R] [LinearOrder K] [LinearOrder V]

/-- Every key is a resource, every value under it a relation with the resource at its own end, and the roots are resources. -/
structure WellFormed (enc : Encoding L R K V) (store : StoreState K V) : Prop where
  keys : ∀ k, Has store.2 k → ∃ r, enc.encodeUniversalResource r = k
  values : ∀ k v, Holds store.2 k v → ∃ ρ, enc.encodeUniversalResource ρ.near = k ∧ enc.encodeUniversalRelation ρ = v
  roots : ∀ k ∈ store.1.miRootNodes, ∃ r, enc.encodeUniversalResource r = k

def Graph.read (enc : Encoding L R K V) (store : StoreState K V) : Option (Graph L R K V) :=
  buildGraph enc (store.1, toList store.2)

def Graph.written (g : Graph L R K V) (store : StoreState K V) : StoreState K V :=
  updateStore (fromChangeLog g.changeLog) store

namespace Represents
variable {enc : Encoding L R K V} {store other : StoreState K V} {graph graph' : SetMap R (Rel L R)}
  {info info' : GraphGCInfo R}

theorem has_iff (represents : Represents enc store graph info) :
    Has store.2 (enc.encodeUniversalResource r) ↔ Has graph r := by
  rw [represents.keys]
  constructor
  · intro found
    obtain ⟨s, same, has⟩ := found
    exact enc.resource_injective same ▸ has
  · exact fun has => ⟨r, rfl, has⟩

theorem holds_iff (represents : Represents enc store graph info) :
    Holds store.2 (enc.encodeUniversalResource r) (enc.encodeUniversalRelation ρ) ↔ Holds graph r ρ := by
  rw [represents.values]
  constructor
  · intro found
    obtain ⟨s, σ, same, equal, held⟩ := found
    rw [enc.resource_injective same, enc.relation_injective equal] at held
    exact held
  · exact fun held => ⟨r, ρ, rfl, rfl, held⟩

theorem graph_unique (first : Represents enc store graph info) (second : Represents enc store graph' info') :
    graph = graph' ∧ info = info' := by
  constructor
  · apply ext_holds
    · exact fun r => first.has_iff.symm.trans second.has_iff
    · exact fun r ρ => first.holds_iff.symm.trans second.holds_iff
  · have same := first.info.symm.trans second.info
    obtain ⟨_, _, _⟩ := info
    obtain ⟨_, _, _⟩ := info'
    simp only [Graph.metaInfo, MetaInfo.mk.injEq] at same
    obtain ⟨rfl, rfl, encoded⟩ := same
    rw [map_injective_iff.mpr (fun _ _ => enc.resource_injective) encoded]

theorem store_unique (first : Represents enc store graph info) (second : Represents enc other graph info) : store = other := by
  apply Prod.ext
  · exact first.info.trans second.info.symm
  · apply ext_holds
    · exact fun k => (first.keys k).trans (second.keys k).symm
    · exact fun k v => (first.values k v).trans (second.values k v).symm

theorem wellFormed (represents : Represents enc store graph info) (kept : Local graph) : WellFormed enc store where
  keys k has := by
    obtain ⟨r, encoded, _⟩ := (represents.keys k).mp has
    exact ⟨r, encoded⟩
  values k v held := by
    obtain ⟨r, ρ, encoded, same, inside⟩ := (represents.values k v).mp held
    exact ⟨ρ, kept r ρ inside ▸ encoded, same⟩
  roots k listed := by
    rw [represents.info] at listed
    obtain ⟨r, _, encoded⟩ := mem_map.mp listed
    exact ⟨r, encoded⟩

end Represents

private theorem mapM_decoded {α β γ : Type} {encode : α → β} {decode : β → Option γ} {value : α → γ}
    (decoded : ∀ x, decode (encode x) = some (value x)) (xs : List α) : (xs.map encode).mapM decode = some (xs.map value) := by
  induction xs with
  | nil => rfl
  | cons x xs ih => simp [mapM_cons, decoded, ih]

private theorem encoded_list {α β : Type} {encode : α → β} {ys : List β} (encoded : ∀ y ∈ ys, ∃ x, encode x = y) :
    ∃ xs : List α, ys = xs.map encode := by
  induction ys with
  | nil => exact ⟨[], rfl⟩
  | cons y ys ih =>
    obtain ⟨x, rfl⟩ := encoded y mem_cons_self
    obtain ⟨xs, rfl⟩ := ih fun other member => encoded other (mem_cons_of_mem _ member)
    exact ⟨x :: xs, rfl⟩

omit [LinearOrder K] [LinearOrder V] in
private theorem decodeEntry_encoded (enc : Encoding L R K V) (entry : R × List (Rel L R)) :
    Graph.decodeEntry enc (enc.encodeUniversalResource entry.1, entry.2.map enc.encodeUniversalRelation) =
      some (entry.1, OrderedSet.fromList entry.2) := by
  simp [Graph.decodeEntry, enc.decode_resource, mapM_decoded enc.decode_relation]

variable {kvs : List (R × List (Rel L R))}

private theorem has_decoded {r : R} :
    Has (.fromList (kvs.map fun entry => (entry.1, OrderedSet.fromList entry.2))) r ↔ r ∈ kvs.map Prod.fst := by
  rw [Has, mem_keys_fromList, map_map]
  rfl

private theorem holds_decoded (distinct : (kvs.map Prod.fst).Nodup) :
    Holds (.fromList (kvs.map fun entry => (entry.1, OrderedSet.fromList entry.2))) r ρ ↔ Listed kvs r ρ := by
  have once : ((kvs.map fun entry => (entry.1, OrderedSet.fromList entry.2)).map Prod.fst).Nodup := by
    rw [map_map]
    exact distinct
  constructor
  · intro held
    obtain ⟨set, found, inside⟩ := held
    obtain ⟨entry, member, same⟩ := mem_map.mp ((mem_fromList once).mp (lookup_eq_some.mp found))
    cases same
    exact ⟨entry, member, rfl, OrderedSet.mem_fromList.mp inside⟩
  · intro listed
    obtain ⟨entry, member, rfl, inside⟩ := listed
    refine ⟨.fromList entry.2, ?_, OrderedSet.mem_fromList.mpr inside⟩
    exact lookup_eq_some.mpr ((mem_fromList once).mpr (mem_map_of_mem member))

namespace WellFormed
variable {enc : Encoding L R K V} {store : StoreState K V}

omit [LinearOrder L] [LinearOrder R] in
private theorem entries (wellFormed : WellFormed enc store) : ∃ kvs, toList store.2 = enc.entries kvs := by
  apply encoded_list
  intro entry member
  obtain ⟨r, encoded⟩ := wellFormed.keys entry.1 (mem_keys_toList.mp (mem_map_of_mem member))
  have values (v : V) (inside : v ∈ entry.2) : ∃ ρ, enc.encodeUniversalRelation ρ = v := by
    obtain ⟨ρ, _, same⟩ := wellFormed.values entry.1 v (listed_toList.mp ⟨entry, member, rfl, inside⟩)
    exact ⟨ρ, same⟩
  obtain ⟨ρs, same⟩ := encoded_list values
  exact ⟨(r, ρs), Prod.ext encoded same.symm⟩

theorem read (wellFormed : WellFormed enc store) : ∃ g, Graph.read enc store = some g ∧ Mirrored enc store g ∧
    g.recorded = [] := by
  obtain ⟨kvs, listed⟩ := wellFormed.entries
  obtain ⟨roots, rooted⟩ := encoded_list wellFormed.roots
  let graph : SetMap R (Rel L R) := .fromList (kvs.map fun entry => (entry.1, OrderedSet.fromList entry.2))
  have built : Graph.read enc store = some ⟨emptyChangeLog, graph, ⟨store.1.miSinceGC, store.1.miGCThreshold, roots⟩, []⟩ := by
    rw [Graph.read, Graph.buildGraph, listed, Encoding.entries, mapM_decoded (decodeEntry_encoded enc), rooted,
      mapM_decoded enc.decode_resource]
    simp [graph]
  have distinct : (kvs.map Prod.fst).Nodup := by
    have ascending : ((toList store.2).map Prod.fst).Nodup := by
      rw [toList, map_map]
      exact pairwise_map.mpr (store.2.ordered.imp fun below => below.ne)
    rw [listed, Encoding.entries, map_map] at ascending
    apply List.Nodup.of_map enc.encodeUniversalResource
    rw [map_map]
    exact ascending
  have represents : Represents enc store graph ⟨store.1.miSinceGC, store.1.miGCThreshold, roots⟩ := by
    constructor
    · intro k
      simp only [graph, has_decoded, ← enc.mem_keys_entries, ← listed, mem_keys_toList]
    · intro k v
      simp only [graph, holds_decoded distinct, ← enc.listed_entries, ← listed, listed_toList]
    · rw [Graph.metaInfo, ← rooted]
  have kept : Local graph := by
    intro r ρ held
    obtain ⟨σ, encoded, same⟩ := wellFormed.values _ _ (represents.holds_iff.mpr held)
    rw [← enc.relation_injective same]
    exact enc.resource_injective encoded
  exact ⟨_, built, ⟨rfl, represents, kept⟩, rfl⟩

end WellFormed

section
variable {enc : Encoding L R K V} {store : StoreState K V} {g : Graph L R K V} (schema : Schema T L R)

theorem Mirrored.perform (mirrored : Mirrored enc store g) (op : Operation T L R) :
    Mirrored enc store (g.perform enc schema op) := by
  cases op with
  | connect x r y => exact mirrored.connect schema x r y
  | disconnect x r y => exact mirrored.deleteEdge ⟨x, r, y⟩
  | disconnectAllFrom x r b => exact mirrored.disconnectAllFrom schema x r b
  | disconnectAllTo a r y => exact mirrored.disconnectAllTo schema a r y
  | removeResource x => exact mirrored.removeResource x
  | mergeResources f xs => exact mirrored.mergeResources schema f xs
  | garbageCollect initGrey => exact mirrored.garbageCollect initGrey
  | garbageCollectRoot =>
    have collected := mirrored.garbageCollect (.fromList g.gcInfo.grRootNodes)
    exact collected.modifyGCInfo fun info => { info with grSinceGC := 0 }
  | addRootNode x => exact mirrored.modifyGCInfo fun info => { info with grRootNodes := x :: info.grRootNodes }
  | removeRootNode x => exact mirrored.modifyGCInfo fun info => { info with grRootNodes := info.grRootNodes.erase x }
  | modifySinceGC f => exact mirrored.modifyGCInfo fun info => { info with grSinceGC := f info.grSinceGC }
  | modifyGCThreshold f => exact mirrored.modifyGCInfo fun info => { info with grGCThreshold := f info.grGCThreshold }

theorem Mirrored.performAll (mirrored : Mirrored enc store g) (ops : List (Operation T L R)) :
    Mirrored enc store (ops.foldl (Graph.perform enc schema) g) := by
  induction ops generalizing g with
  | nil => exact mirrored
  | cons op ops ih => exact ih (mirrored.perform schema op)

omit [LinearOrder L] [LinearOrder R] in
theorem wellFormed_empty (enc : Encoding L R K V) : WellFormed enc (defaultMetaInfo, .empty) where
  keys k has := absurd has (not_has_empty k)
  values k v held := absurd held (not_holds_empty k v)
  roots _ listed := absurd listed not_mem_nil

theorem Mirrored.written_wellFormed (mirrored : Mirrored enc store g) (wellFormed : WellFormed enc store) :
    WellFormed enc (g.written store) := by
  have mirror := mirrored.represents.wellFormed mirrored.kept
  rw [Graph.written, mirrored.logged]
  constructor
  · intro k has
    exact mirror.keys k ((has_compressed g.recorded store k).mp has)
  · intro k v held
    rcases (holds_compressed g.recorded store k v).mp held with mirrored | restored
    · exact mirror.values k v mirrored
    · exact wellFormed.values k v restored.1
  · rw [update_fromChangeLog, ← compress_meta]
    exact mirror.roots

/-- Every store that graphs are written to, starting from an empty one, is well formed. -/
theorem WellFormed.edited (wellFormed : WellFormed enc store) (ops : List (Operation T L R))
    (found : Graph.read enc store = some g) : WellFormed enc ((ops.foldl (Graph.perform enc schema) g).written store) := by
  obtain ⟨_, read, mirrored, _⟩ := wellFormed.read
  cases found.symm.trans read
  exact (mirrored.performAll schema ops).written_wellFormed wellFormed

end

/-- The graph read back is the edited one exactly when the recorded updates bring no relation of the store back. -/
theorem reread_iff (enc : Encoding L R K V) (schema : Schema T L R) (store : StoreState K V)
    (wellFormed : WellFormed enc store) (ops : List (Operation T L R)) :
    ∃ g, Graph.read enc store = some g ∧
      (((Graph.read enc ((ops.foldl (Graph.perform enc schema) g).written store)).map fun back => (back.graph, back.gcInfo)) =
          some ((ops.foldl (Graph.perform enc schema) g).graph, (ops.foldl (Graph.perform enc schema) g).gcInfo) ↔
        ∀ k v, ¬ Restored store.2 (ops.foldl (Graph.perform enc schema) g).recorded k v) := by
  obtain ⟨g, found, initial, _⟩ := wellFormed.read
  refine ⟨g, found, ?_⟩
  have mirrored := initial.performAll schema ops
  generalize ops.foldl (Graph.perform enc schema) g = edited at mirrored ⊢
  obtain ⟨_, reread, returned, fresh⟩ := (mirrored.written_wellFormed wellFormed).read
  have represents := returned.represents
  rw [fresh] at represents
  rw [reread, Option.map_some, Option.some.injEq, Prod.mk.injEq]
  constructor
  · intro same k v restored
    rw [same.1, same.2] at represents
    have written := represents.store_unique mirrored.represents
    apply restored_absent edited.recorded store restored
    rw [← written]
    rw [applyEach, foldl_nil, Graph.written, mirrored.logged]
    exact (holds_compressed edited.recorded store k v).mpr (.inr restored)
  · intro faithful
    have written : edited.written store = applyEach edited.recorded store := by
      rw [Graph.written, mirrored.logged]
      exact compress_eq faithful
    rw [written] at represents
    exact represents.graph_unique mirrored.represents

def plainEncoding : Encoding Nat Nat Nat (Rel Nat Nat) := ⟨id, id, some, some, fun _ => rfl, fun _ => rfl⟩

def plainSchema : Schema Unit Nat Nat := ⟨fun _ => (), fun _ _ _ => .Unbounded, fun _ _ _ => .Unbounded⟩

def linkedStore : MetaInfo Nat × Multimap Nat (Rel Nat Nat) :=
  (defaultMetaInfo, .fromList [(1, .fromList [⟨.Out, 0, 1, 2⟩]), (2, .fromList [⟨.In, 0, 1, 2⟩])])

theorem linkedStore_wellFormed : WellFormed plainEncoding linkedStore := by
  have found : Graph.read plainEncoding (defaultMetaInfo, .empty) = some ⟨emptyChangeLog, .empty, ⟨0, 100, []⟩, []⟩ := rfl
  have edited := (wellFormed_empty plainEncoding).edited plainSchema [.connect 1 0 2] found
  have same : linkedStore = (([.connect 1 0 2] : List (Operation Unit Nat Nat)).foldl (Graph.perform plainEncoding plainSchema)
      ⟨emptyChangeLog, .empty, ⟨0, 100, []⟩, []⟩).written (defaultMetaInfo, .empty) := by
    decide
  rw [same]
  exact edited

/-- Resource 1 is removed and related to resource 3: its relation to resource 2 is read back. -/
theorem relation_restored : ¬ ∀ (enc : Encoding Nat Nat Nat (Rel Nat Nat)) (schema : Schema Unit Nat Nat)
    (store : MetaInfo Nat × Multimap Nat (Rel Nat Nat)), WellFormed enc store → ∀ (ops : List (Operation Unit Nat Nat)) g,
      Graph.read enc store = some g →
        ((Graph.read enc ((ops.foldl (Graph.perform enc schema) g).written store)).map fun back => (back.graph, back.gcInfo)) =
          some ((ops.foldl (Graph.perform enc schema) g).graph, (ops.foldl (Graph.perform enc schema) g).gcInfo) := by
  intro refines
  have same := refines plainEncoding plainSchema linkedStore linkedStore_wellFormed [.removeResource 1, .connect 1 0 3]
    ⟨emptyChangeLog, linkedStore.2, ⟨0, 100, []⟩, []⟩ rfl
  exact absurd same (by decide)

theorem reread_linked : WellFormed plainEncoding linkedStore ∧ ∃ g, Graph.read plainEncoding linkedStore = some g ∧
    (((Graph.read plainEncoding (([.removeResource 2].foldl (Graph.perform plainEncoding plainSchema) g).written linkedStore)).map
          fun back => (back.graph, back.gcInfo)) =
        some (([.removeResource 2].foldl (Graph.perform plainEncoding plainSchema) g).graph,
          ([.removeResource 2].foldl (Graph.perform plainEncoding plainSchema) g).gcInfo) ↔
      ∀ k v, ¬ Restored linkedStore.2 ([.removeResource 2].foldl (Graph.perform plainEncoding plainSchema) g).recorded k v) :=
  ⟨linkedStore_wellFormed, reread_iff plainEncoding plainSchema linkedStore linkedStore_wellFormed [.removeResource 2]⟩

end Halon
