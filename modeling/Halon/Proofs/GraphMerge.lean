import Halon.Proofs.GraphOperations

/-! Merging resources. The edit in memory drops a neighbour that has no relation
left and the recorded updates do not; the relations of the merged resource bring
every such neighbour back, so both end in the same graph. -/

namespace Halon
open Library SetMap Multimap OrderedSet List
variable {T L R K V : Type} [DecidableEq T] [LinearOrder L] [LinearOrder R] [LinearOrder K] [LinearOrder V]

namespace Graph

theorem lookup_mkAdjustements
    (action : OrderedSet (Rel L R) → Option (OrderedSet (Rel L R)) → Option (OrderedSet (Rel L R)))
    (m z : SetMap R (Rel L R)) (k : R) :
    (mkAdjustements action m z).lookup k = ((m.lookup k).map fun v => action v (z.lookup k)).getD (z.lookup k) :=
  OrderedMap.lookup_alterEach action m z k

variable {m z : SetMap R (Rel L R)} {k : R} {ρ : Rel L R}

theorem holds_removed : Holds (mkAdjustements removeNodes m z) k ρ ↔ Holds z k ρ ∧ ¬ Holds m k ρ := by
  simp only [Holds, lookup_mkAdjustements]
  cases m.lookup k with
  | none => simp
  | some v =>
    cases z.lookup k with
    | none => simp [removeNodes]
    | some w =>
      by_cases none : w.difference v = .empty
      · simpa [removeNodes, none] using difference_eq_empty.mp none ρ
      · simp [removeNodes, none]

theorem has_removed : Has (mkAdjustements removeNodes m z) k ↔ Has z k ∧ (Has m k → ∃ ρ, Holds z k ρ ∧ ¬ Holds m k ρ) := by
  simp only [has_iff, Holds, lookup_mkAdjustements]
  cases m.lookup k with
  | none => simp
  | some v =>
    cases z.lookup k with
    | none => simp [removeNodes]
    | some w =>
      by_cases none : w.difference v = .empty
      · simpa [removeNodes, none] using difference_eq_empty.mp none
      · have left := difference_eq_empty.not.mp none
        simpa [removeNodes, none] using left

theorem holds_inserted : Holds (mkAdjustements insertNodes m z) k ρ ↔ Holds z k ρ ∨ Holds m k ρ := by
  simp only [Holds, lookup_mkAdjustements]
  cases m.lookup k <;> cases z.lookup k <;> simp [insertNodes, or_comm]

theorem has_inserted : Has (mkAdjustements insertNodes m z) k ↔ Has z k ∨ Has m k := by
  simp only [has_iff, lookup_mkAdjustements]
  cases m.lookup k <;> cases z.lookup k <;> simp [insertNodes]

variable {rels : OrderedSet (Rel L R)}

private theorem mem_atEnds :
    entry ∈ atEnds ρ ↔ entry = (ρ.near, .fromList [ρ]) ∨ entry = (ρ.far, .fromList [ρ.invert]) := by
  obtain ⟨_ | _, _, _, _⟩ := ρ
  · exact mem_pair.trans or_comm
  · exact mem_pair

theorem has_mkUpdateMap : Has (mkUpdateMap rels) k ↔ ∃ ρ ∈ rels, k = ρ.near ∨ k = ρ.far := by
  rw [mkUpdateMap, has_fromListWith]
  simp only [mem_flatMap, mem_atEnds]
  constructor
  · intro found
    obtain ⟨_, ⟨σ, member, rfl | rfl⟩, rfl⟩ := found
    · exact ⟨σ, member, .inl rfl⟩
    · exact ⟨σ, member, .inr rfl⟩
  · intro found
    obtain ⟨σ, member, rfl | rfl⟩ := found
    · exact ⟨_, ⟨σ, member, .inl rfl⟩, rfl⟩
    · exact ⟨_, ⟨σ, member, .inr rfl⟩, rfl⟩

theorem holds_mkUpdateMap : Holds (mkUpdateMap rels) k ρ ↔ ∃ σ ∈ rels, (ρ = σ ∨ ρ = σ.invert) ∧ ρ.near = k := by
  rw [mkUpdateMap, holds_fromListWith]
  simp only [mem_flatMap, mem_atEnds]
  constructor
  · intro found
    obtain ⟨_, ⟨σ, member, rfl | rfl⟩, rfl, inside⟩ := found
    · obtain rfl := mem_singleton.mp (mem_fromList.mp inside)
      exact ⟨ρ, member, .inl rfl, rfl⟩
    · obtain rfl := mem_singleton.mp (mem_fromList.mp inside)
      exact ⟨σ, member, .inr rfl, σ.near_invert⟩
  · intro found
    obtain ⟨σ, member, rfl | rfl, rfl⟩ := found
    · exact ⟨_, ⟨ρ, member, .inl rfl⟩, rfl, mem_fromList.mpr mem_cons_self⟩
    · exact ⟨_, ⟨σ, member, .inr rfl⟩, σ.near_invert.symm, mem_fromList.mpr mem_cons_self⟩

omit [LinearOrder K] [LinearOrder V] in
theorem encodeMap_eq (enc : Encoding L R K V) (m : SetMap R (Rel L R)) : encodeMap enc m = enc.entries (Multimap.toList m) := by
  rw [encodeMap, Encoding.entries, Multimap.toList, map_map]
  rfl

theorem mem_oldRels {xs : List R} : ρ ∈ (xs.filterMap z.lookup).foldl OrderedSet.union .empty ↔ ∃ x ∈ xs, Holds z x ρ := by
  rw [mem_unions]
  constructor
  · intro found
    obtain ⟨set, listed, inside⟩ := found
    obtain ⟨x, member, stored⟩ := mem_filterMap.mp listed
    exact ⟨x, member, set, stored, inside⟩
  · intro found
    obtain ⟨x, member, set, stored, inside⟩ := found
    exact ⟨set, mem_filterMap.mpr ⟨x, member, stored⟩, inside⟩

variable {xs : List R}

private theorem has_blank : Has (.fromList (xs.map fun x => (x, .empty)) : SetMap R (Rel L R)) k ↔ k ∈ xs := by
  rw [Has, OrderedMap.mem_keys_fromList, map_map]
  simp

private theorem not_holds_blank : ¬ Holds (.fromList (xs.map fun x => (x, .empty)) : SetMap R (Rel L R)) k ρ := by
  intro held
  obtain ⟨set, found, inside⟩ := held
  have listed := OrderedMap.mem_of_mem_fromList (OrderedMap.lookup_eq_some.mp found)
  obtain ⟨_, _, same⟩ := mem_map.mp listed
  cases same
  exact not_mem_empty ρ inside

theorem has_updates : Has (OrderedMap.unionWith OrderedSet.union (.fromList (xs.map fun x => (x, .empty))) (mkUpdateMap rels)) k ↔
    k ∈ xs ∨ ∃ ρ ∈ rels, k = ρ.near ∨ k = ρ.far := by
  rw [has_unionWith, has_blank, has_mkUpdateMap]

theorem holds_updates :
    Holds (OrderedMap.unionWith OrderedSet.union (.fromList (xs.map fun x => (x, .empty))) (mkUpdateMap rels)) k ρ ↔
      ∃ σ ∈ rels, (ρ = σ ∨ ρ = σ.invert) ∧ ρ.near = k := by
  rw [holds_unionWith, or_iff_right not_holds_blank, holds_mkUpdateMap]

omit [LinearOrder L] [LinearOrder R] in
theorem far_updateLocalEnd (schema : Schema T L R) (x : R) (ρ : Rel L R) : (updateLocalEnd schema x ρ).far = ρ.far := by
  obtain ⟨_ | _, _, source, target⟩ := ρ
  · by_cases same : schema.typeOf x = schema.typeOf target <;> simp [updateLocalEnd, same, Rel.far]
  · by_cases same : schema.typeOf x = schema.typeOf source <;> simp [updateLocalEnd, same, Rel.far]

omit [LinearOrder L] [LinearOrder R] in
theorem near_updateLocalEnd {schema : Schema T L R} {x : R} (typed : schema.typeOf x = schema.typeOf ρ.near) :
    (updateLocalEnd schema x ρ).near = x := by
  obtain ⟨_ | _, _, _, _⟩ := ρ
  · exact congrArg Rel.near (if_pos typed)
  · exact congrArg Rel.near (if_pos typed)

omit [LinearOrder L] in
theorem doesNotMakeSelfLink_iff {newX : R} : doesNotMakeSelfLink newX xs ρ ↔ ρ.far ∉ newX :: xs := by
  obtain ⟨_ | _, _, _, _⟩ := ρ
  · exact decide_eq_true_iff
  · exact decide_eq_true_iff

/-- Both edits of a merge agree. The relations taken over lead to every neighbour outside the merged resources. -/
theorem merge_eq (kept : Local z) (schema : Schema T L R) (newX : R) (xs : List R) :
    let oldRels := (xs.filterMap z.lookup).foldl OrderedSet.union .empty
    let newRels := (oldRels.map (updateLocalEnd schema newX)).filter (doesNotMakeSelfLink newX xs)
    let del := OrderedMap.unionWith OrderedSet.union (.fromList (xs.map fun x => (x, .empty))) (mkUpdateMap oldRels)
    let ins := OrderedMap.unionWith OrderedSet.union (.fromList ([newX].map fun x => (x, .empty))) (mkUpdateMap newRels)
    mkAdjustements insertNodes ins (mkAdjustements removeNodes del z) =
      Multimap.insertMany (Multimap.toList ins) (Multimap.deleteKeys xs (Multimap.deleteValues (Multimap.toList del) z)) := by
  intro oldRels newRels del ins
  have merged {k : R} {ρ : Rel L R} (member : k ∈ xs) (held : Holds z k ρ) : Holds del k ρ :=
    holds_updates.mpr ⟨ρ, mem_oldRels.mpr ⟨k, member, held⟩, .inl rfl, kept k ρ held⟩
  have neighbour {k : R} (outside : k ∉ xs) (has : Has del k) : Has ins k := by
    obtain ⟨ρ, old, near | far⟩ := (has_updates.mp has).resolve_left outside
    · obtain ⟨x, member, held⟩ := mem_oldRels.mp old
      rw [near, kept x ρ held] at outside
      exact absurd member outside
    · by_cases new : k = newX
      · exact has_updates.mpr (.inl (mem_singleton.mpr new))
      · have linked : updateLocalEnd schema newX ρ ∈ newRels := by
          apply mem_filter.mpr
          refine ⟨mem_map.mpr ⟨ρ, old, rfl⟩, doesNotMakeSelfLink_iff.mpr ?_⟩
          rw [far_updateLocalEnd, ← far, mem_cons, not_or]
          exact ⟨new, outside⟩
        exact has_updates.mpr (.inr ⟨_, linked, .inr ((far_updateLocalEnd schema newX ρ).trans far.symm).symm⟩)
  apply ext_holds
  · intro k
    rw [has_inserted, has_removed, has_insertMany, has_deleteKeys, has_deleteValues, mem_keys_toList]
    constructor
    · intro found
      rcases found with ⟨has, left⟩ | inserted
      · refine .inl ⟨has, fun member => ?_⟩
        obtain ⟨ρ, held, unlisted⟩ := left (has_updates.mpr (.inl member))
        exact unlisted (merged member held)
      · exact .inr inserted
    · intro found
      rcases found with ⟨has, outside⟩ | inserted
      · by_cases changed : Has del k
        · exact .inr (neighbour outside changed)
        · exact .inl ⟨has, fun listed => absurd listed changed⟩
      · exact .inr inserted
  · intro k ρ
    rw [holds_inserted, holds_removed, holds_insertMany, holds_deleteKeys, holds_deleteValues, listed_toList, listed_toList]
    have outside : Holds z k ρ ∧ ¬ Holds del k ρ → k ∉ xs := fun left member => left.2 (merged member left.1)
    rw [and_iff_left_of_imp outside]

end Graph

theorem Mirrored.mergeResources {enc : Encoding L R K V} {store : StoreState K V} {g : Graph L R K V}
    (mirrored : Mirrored enc store g) (schema : Schema T L R) (f : List R → R) (xs : List R) :
    Mirrored enc store (g.mergeResources enc schema f xs) := by
  unfold Graph.mergeResources
  split
  next => exact mirrored
  next =>
    have edited := Graph.merge_eq mirrored.kept schema (f xs) xs
    simp only [map_cons, map_nil] at edited
    simp only [edited, Graph.encodeMap_eq]
    refine ((mirrored.deleteValues _).deleteKeys xs).insertMany _ ?_
    intro r ρ listed
    have held := listed_toList.mp listed
    rw [← map_singleton (f := fun x => (x, OrderedSet.empty)), Graph.holds_updates] at held
    obtain ⟨_, _, _, near⟩ := held
    exact near

end Halon
