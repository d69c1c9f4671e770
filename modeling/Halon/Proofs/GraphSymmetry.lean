import Halon.Proofs.GraphRefinement
import Halon.Proofs.GraphConnected

/-! Graphs that keep every edge at both its ends. What merging and collecting leave of such a graph:
which resources, and which edges between them. -/

namespace Halon
open Library SetMap Multimap OrderedSet
variable {T L R K V : Type} [DecidableEq T] [LinearOrder L] [LinearOrder R] [LinearOrder K] [LinearOrder V]
variable {enc : Encoding L R K V} {schema : Schema T L R} {g : Graph L R K V} {links : Links L R}

/-- A relation is kept at its own end, and its inverse at the other one. -/
def Graph.Symmetric (g : Graph L R K V) : Prop := ∀ k ρ, Holds g.graph k ρ → ρ.near = k ∧ Holds g.graph ρ.far ρ.invert

omit [DecidableEq T]

theorem Depicts.symmetric (depicts : Depicts g.graph links) : g.Symmetric := by
  intro k ρ held
  obtain ⟨near, linked⟩ := (depicts k ρ).mp held
  exact ⟨near, (depicts _ _).mpr ⟨ρ.near_invert, Rel.linkedIn_invert.mpr linked⟩⟩

def linkedGraph : Graph Nat Nat Nat (Rel Nat Nat) := (Graph.emptyGraph ⟨0, 100, []⟩).connectUnbounded plainEncoding 1 0 3

theorem linkedGraph_symmetric : linkedGraph.Symmetric :=
  Depicts.symmetric (Depicts.connectUnbounded (g := Graph.emptyGraph ⟨0, 100, []⟩) Depicts.empty 1 0 3)

namespace Graph

theorem Symmetric.depicts (symmetric : g.Symmetric) : Depicts g.graph fun a s c => g.isConnected a s c = true := by
  intro k ρ
  change _ ↔ ρ.near = k ∧ g.isConnected ρ.source ρ.relation ρ.target = true
  rw [isConnected_holds]
  obtain ⟨_ | _, s, a, c⟩ := ρ
  · constructor
    · exact symmetric k _
    · intro ⟨near, held⟩
      have other := (symmetric a _ held).2
      rw [← near]
      exact other
  · constructor
    · intro held
      obtain ⟨near, _⟩ := symmetric k _ held
      rw [← near] at held
      exact ⟨near, held⟩
    · intro ⟨near, held⟩
      rw [← near]
      exact held

end Graph

namespace Links
variable {newX : R} {xs : List R} {x y z : R} {r : L}

omit [LinearOrder L]

theorem merged_from (away : y ∉ newX :: xs) : links.merged newX xs newX r y ↔ links newX r y ∨ ∃ x ∈ xs, links x r y := by
  obtain ⟨other, outside⟩ := not_or.mp (fun either => away (List.mem_cons.mpr either))
  constructor
  · intro linked
    rcases linked with ⟨kept, _⟩ | ⟨_, _, taken⟩ | ⟨same, _⟩
    · exact .inl kept
    · exact .inr taken
    · exact absurd same other
  · intro linked
    by_cases inside : newX ∈ xs
    · refine .inr (.inl ⟨rfl, away, ?_⟩)
      exact linked.elim (fun own => ⟨newX, inside, own⟩) id
    · exact linked.imp (fun own => ⟨own, inside, outside⟩) fun taken => .inl ⟨rfl, away, taken⟩

theorem merged_to (away : y ∉ newX :: xs) : links.merged newX xs y r newX ↔ links y r newX ∨ ∃ x ∈ xs, links y r x := by
  obtain ⟨other, outside⟩ := not_or.mp (fun either => away (List.mem_cons.mpr either))
  constructor
  · intro linked
    rcases linked with ⟨kept, _⟩ | ⟨same, _⟩ | ⟨_, _, taken⟩
    · exact .inl kept
    · exact absurd same other
    · exact .inr taken
  · intro linked
    by_cases inside : newX ∈ xs
    · refine .inr (.inr ⟨rfl, away, ?_⟩)
      exact linked.elim (fun own => ⟨newX, inside, own⟩) id
    · exact linked.imp (fun own => ⟨own, outside, inside⟩) fun taken => .inr ⟨rfl, away, taken⟩

omit [LinearOrder R] in
theorem not_merged (inside : x ∈ xs) (other : y ∈ newX :: xs) : ¬ links.merged newX xs x r y ∧ ¬ links.merged newX xs y r x := by
  constructor
  · intro linked
    rcases linked with ⟨_, outside, _⟩ | ⟨_, away, _⟩ | ⟨_, away, _⟩
    · exact outside inside
    · exact away other
    · exact away (List.mem_cons_of_mem _ inside)
  · intro linked
    rcases linked with ⟨_, _, outside⟩ | ⟨_, away, _⟩ | ⟨_, away, _⟩
    · exact outside inside
    · exact away (List.mem_cons_of_mem _ inside)
    · exact away other

omit [LinearOrder R] in
theorem merged_itself : links.merged newX xs newX r newX ↔ links newX r newX ∧ newX ∉ xs := by
  simp [merged]

omit [LinearOrder R] in
theorem merged_others (first : y ∉ newX :: xs) (second : z ∉ newX :: xs) : links.merged newX xs y r z ↔ links y r z := by
  rw [List.mem_cons, not_or] at first second
  simp [merged, first, second]

end Links

namespace Graph

section Merge
variable [DecidableEq T] {f : List R → R} {xs : List R}

theorem has_mergeResources (symmetric : g.Symmetric) (some : xs ≠ []) (typed : ∀ x ∈ xs, schema.typeOf (f xs) = schema.typeOf x) :
    Has (g.mergeResources enc schema f xs).graph k ↔ k = f xs ∨ Has g.graph k ∧ k ∉ xs := by
  have depicts := symmetric.depicts
  have edited := merge_eq (fun k ρ held => (symmetric k ρ held).1) schema (f xs) xs
  simp only [List.map_cons, List.map_nil] at edited
  unfold mergeResources
  rw [if_neg some]
  simp only [edited]
  rw [has_insertMany, has_deleteKeys, has_deleteValues, mem_keys_toList,
    ← List.map_singleton (f := fun x => (x, OrderedSet.empty)),
    has_updates, List.mem_singleton]
  constructor
  · intro found
    rcases found with kept | new | ⟨ρ, member, ends⟩
    · exact .inr kept
    · exact .inl new
    · -- a relation that was taken over leads from the new resource to one that was there
      obtain ⟨moved, away⟩ := mem_filter.mp member
      obtain ⟨σ, old, rfl⟩ := mem_map.mp moved
      obtain ⟨inside, linked⟩ := depicts.mem_oldRels.mp old
      rw [doesNotMakeSelfLink_iff, far_updateLocalEnd, List.mem_cons, not_or] at away
      rw [near_updateLocalEnd (typed _ inside), far_updateLocalEnd] at ends
      refine ends.imp_right fun far => ?_
      have held := (symmetric _ σ ((depicts _ _).mpr ⟨rfl, linked⟩)).2
      rw [far]
      exact ⟨held.has, away.2⟩
  · intro found
    rcases found with new | kept
    · exact .inr (.inl new)
    · exact .inl kept

/-- What becomes of a graph when resources are merged into one. An edge from this one to itself is
there only if it was before, and the resource is not one of those that were merged. -/
structure MergesInto (g : Graph L R K V) (newX : R) (xs : List R) (g' : Graph L R K V) : Prop where
  gone : ∀ x ∈ xs, x ≠ newX → x ∉ g'.graph.keys
  merged : newX ∈ g'.graph.keys
  outgoing : ∀ r y, y ∉ newX :: xs →
    (g'.isConnected newX r y = true ↔ g.isConnected newX r y = true ∨ ∃ x ∈ xs, g.isConnected x r y = true)
  incoming : ∀ r y, y ∉ newX :: xs →
    (g'.isConnected y r newX = true ↔ g.isConnected y r newX = true ∨ ∃ x ∈ xs, g.isConnected y r x = true)
  between : ∀ r, ∀ x ∈ xs, ∀ y ∈ newX :: xs, g'.isConnected x r y = false ∧ g'.isConnected y r x = false
  itself : ∀ r, g'.isConnected newX r newX = true ↔ g.isConnected newX r newX = true ∧ newX ∉ xs
  others : ∀ r y z, y ∉ newX :: xs → z ∉ newX :: xs → (g'.isConnected y r z = true ↔ g.isConnected y r z = true)
  remain : ∀ y, y ∉ newX :: xs → (y ∈ g'.graph.keys ↔ y ∈ g.graph.keys)

/-- Merging resources of one type keeps both ends of every edge, and does what it is for. -/
theorem merge_exact (symmetric : g.Symmetric) (some : xs ≠ []) (typed : ∀ x ∈ xs, schema.typeOf (f xs) = schema.typeOf x) :
    (g.mergeResources enc schema f xs).Symmetric ∧ g.MergesInto (f xs) xs (g.mergeResources enc schema f xs) := by
  have depicts : Depicts (g.mergeResources enc schema f xs).graph _ := symmetric.depicts.mergeResources f xs typed
  have has (k : R) : Has (g.mergeResources enc schema f xs).graph k ↔ _ := has_mergeResources symmetric some typed
  have joins (x : R) (r : L) (y : R) := isConnected_iff (x := x) (r := r) (y := y) depicts
  refine ⟨depicts.symmetric, ?_, (has _).mpr (.inl rfl), ?_, ?_, ?_, ?_, ?_, ?_⟩
  · intro x inside other kept
    exact ((has x).mp kept).elim other fun left => left.2 inside
  · intro r y away
    exact (joins _ r y).trans (Links.merged_from away)
  · intro r y away
    exact (joins y r _).trans (Links.merged_to away)
  · intro r x inside y other
    obtain ⟨first, second⟩ := Links.not_merged (r := r) inside other
    exact ⟨Bool.not_eq_true _ ▸ mt (joins x r y).mp first, Bool.not_eq_true _ ▸ mt (joins y r x).mp second⟩
  · intro r
    exact (joins _ r _).trans Links.merged_itself
  · intro r y z first second
    exact (joins y r z).trans (Links.merged_others first second)
  · intro y away
    obtain ⟨other, outside⟩ := not_or.mp (fun either => away (List.mem_cons.mpr either))
    exact (has y).trans ((or_iff_right other).trans (and_iff_left outside))

theorem merge_exact_linked :
    (linkedGraph.mergeResources plainEncoding plainSchema (fun _ => 2) [1, 2]).isConnected 2 0 3 = true ∧
      1 ∉ (linkedGraph.mergeResources plainEncoding plainSchema (fun _ => 2) [1, 2]).graph.keys := by
  have merged : linkedGraph.MergesInto 2 [1, 2] (linkedGraph.mergeResources plainEncoding plainSchema (fun _ => 2) [1, 2]) :=
    (merge_exact (f := fun _ => 2) linkedGraph_symmetric (List.cons_ne_nil 1 [2]) fun _ _ => rfl).2
  have linked : linkedGraph.isConnected 1 0 3 = true := by decide
  exact ⟨(merged.outgoing 0 3 (by decide)).mpr (.inr ⟨1, List.mem_cons_self, linked⟩),
    merged.gone 1 List.mem_cons_self (by decide)⟩

end Merge

section Collect

/-- There is an edge between the resources, in either direction. -/
def Joined (g : Graph L R K V) (x y : R) : Prop := ∃ r, g.isConnected x r y = true ∨ g.isConnected y r x = true

/-- A path of edges, each followed in either direction, leads from a root to the resource. -/
def Reached (g : Graph L R K V) (roots : OrderedSet R) (k : R) : Prop := ∃ root ∈ roots, Relation.ReflTransGen g.Joined root k

variable {roots : OrderedSet R}

theorem Reached.joined (reached : g.Reached roots x) (joined : g.Joined x y) : g.Reached roots y := by
  obtain ⟨root, member, path⟩ := reached
  exact ⟨root, member, path.tail joined⟩

private theorem reached_of_go (symmetric : g.Symmetric) {keys : List R}
    (white_or_reached : ∀ k ∈ keys, k ∈ white ∨ g.Reached roots k) (reached : ∀ k ∈ grey, g.Reached roots k) :
    ∀ k ∈ keys, k ∈ garbageCollect.go g.graph white grey ∨ g.Reached roots k := by
  fun_induction garbageCollect.go g.graph white grey with
  | case1 => exact white_or_reached
  | case2 white grey _ ih =>
    have next : ∀ k ∈ nextGrey g.graph white grey, g.Reached roots k := by
      intro k member
      obtain ⟨_, before, inside, near⟩ := mem_nextGrey.mp member
      exact (reached before inside).joined ((mem_neighbours symmetric.depicts).mp near)
    apply ih _ next
    intro k listed
    rcases white_or_reached k listed with inside | done
    · by_cases grey : k ∈ nextGrey g.graph white grey
      · exact .inr (next k grey)
      · exact .inl (mem_difference.mpr ⟨inside, grey⟩)
    · exact .inr done

theorem Reached.not_garbage (symmetric : g.Symmetric) (reached : g.Reached roots k) : k ∉ garbage g.graph roots := by
  obtain ⟨_, member, path⟩ := reached
  induction path with
  | refl => exact not_mem_garbage member
  | tail _ joined ih =>
    obtain ⟨s, forth | back⟩ := joined
    · exact mt (symmetric.depicts.garbage_iff roots forth).mpr ih
    · exact mt (symmetric.depicts.garbage_iff roots back).mp ih

theorem mem_garbage_iff (symmetric : g.Symmetric) :
    k ∈ garbage g.graph roots ↔ k ∈ g.graph.keys ∧ ¬ g.Reached roots k := by
  constructor
  · intro left
    refine ⟨mem_fromList.mp (mem_difference.mp (mem_of_go left)).1, ?_⟩
    exact fun reached => reached.not_garbage symmetric left
  · intro ⟨listed, unreached⟩
    have initial : ∀ k ∈ g.graph.keys, k ∈ (OrderedSet.fromList g.graph.keys).difference roots ∨ g.Reached roots k := by
      intro k listed
      by_cases root : k ∈ roots
      · exact .inr ⟨k, root, .refl⟩
      · exact .inl (mem_difference.mpr ⟨mem_fromList.mpr listed, root⟩)
    exact (reached_of_go symmetric initial (fun k root => ⟨k, root, .refl⟩) k listed).resolve_right unreached

variable (enc) in
theorem graph_garbageCollect (g : Graph L R K V) (roots : OrderedSet R) :
    (g.garbageCollect enc roots).graph = Multimap.deleteKeys (garbage g.graph roots).elements g.graph :=
  Mirrored.compose_deletes _ _

theorem mem_keys_garbageCollect (symmetric : g.Symmetric) :
    k ∈ (g.garbageCollect enc roots).graph.keys ↔ k ∈ g.graph.keys ∧ g.Reached roots k := by
  rw [graph_garbageCollect]
  refine has_deleteKeys.trans (and_congr_right fun listed => ?_)
  rw [← mem_def, mem_garbage_iff symmetric, not_and_not_right]
  exact ⟨fun reached => reached listed, fun reached _ => reached⟩

theorem Reached.kept (symmetric : g.Symmetric) (reached : g.Reached roots k) : (g.garbageCollect enc roots).Reached roots k := by
  obtain ⟨root, member, path⟩ := reached
  have depicts : Depicts (g.garbageCollect enc roots).graph _ := symmetric.depicts.garbageCollect roots
  refine ⟨root, member, ?_⟩
  induction path with
  | refl => exact .refl
  | @tail x y before joined ih =>
    refine ih.tail ?_
    have first : g.Reached roots x := ⟨root, member, before⟩
    obtain ⟨s, forth | back⟩ := joined
    · exact ⟨s, .inl ((isConnected_iff depicts).mpr ⟨forth, first.not_garbage symmetric⟩)⟩
    · have second : g.Reached roots y := first.joined ⟨s, .inr back⟩
      exact ⟨s, .inr ((isConnected_iff depicts).mpr ⟨back, second.not_garbage symmetric⟩)⟩

theorem garbage_garbageCollect (symmetric : g.Symmetric) : garbage (g.garbageCollect enc roots).graph roots = .empty := by
  have depicts : Depicts (g.garbageCollect enc roots).graph _ := symmetric.depicts.garbageCollect roots
  apply ext_mem
  intro k
  refine iff_of_false ?_ (not_mem_empty k)
  rw [mem_garbage_iff depicts.symmetric, mem_keys_garbageCollect symmetric]
  intro ⟨kept, unreached⟩
  exact unreached (kept.2.kept symmetric)

/-- Collecting leaves the resources that a path leads to from a root, each with all its edges. A second
collection changes nothing, in the graph or in what is to be sent to the store. -/
theorem collect_exact (symmetric : g.Symmetric) (roots : OrderedSet R) :
    (∀ k, k ∈ (g.garbageCollect enc roots).graph.keys ↔ k ∈ g.graph.keys ∧
    ∃ root ∈ roots, Relation.ReflTransGen g.Joined root k) ∧
      (∀ k ∈ (g.garbageCollect enc roots).graph.keys, (g.garbageCollect enc roots).graph.lookup k = g.graph.lookup k) ∧
      ((g.garbageCollect enc roots).garbageCollect enc roots).graph = (g.garbageCollect enc roots).graph ∧
      ((g.garbageCollect enc roots).garbageCollect enc roots).changeLog = (g.garbageCollect enc roots).changeLog ∧
      ((g.garbageCollect enc roots).garbageCollect enc roots).recorded =
      (g.garbageCollect enc roots).recorded ++ [.deleteKeys []] := by
  have none : garbage (g.garbageCollect enc roots).graph roots = .empty := garbage_garbageCollect symmetric
  have listed : ((garbage (g.garbageCollect enc roots).graph roots).elements.map enc.encodeUniversalResource) = [] := by
    rw [none]
    rfl
  refine ⟨fun k => mem_keys_garbageCollect symmetric, ?_, ?_, ?_, ?_⟩
  · intro k kept
    rw [graph_garbageCollect] at kept ⊢
    rw [lookup_deleteKeys, if_neg (has_deleteKeys.mp kept).2]
  · rw [graph_garbageCollect, none]
    rfl
  · change updateChangeLog
      (.deleteKeys ((garbage (g.garbageCollect enc roots).graph roots).elements.map enc.encodeUniversalResource)) _ = _
    rw [listed]
    rfl
  · change _ ++ [StoreUpdate.deleteKeys
      ((garbage (g.garbageCollect enc roots).graph roots).elements.map enc.encodeUniversalResource)] = _
    rw [listed]

theorem collect_exact_linked : 1 ∈ (linkedGraph.garbageCollect plainEncoding (.fromList [3])).graph.keys := by
  have collected : 1 ∈ (linkedGraph.garbageCollect plainEncoding (.fromList [3])).graph.keys ↔ _ :=
    (collect_exact linkedGraph_symmetric (.fromList [3])).1 1
  have joined : linkedGraph.Joined 3 1 := ⟨0, .inr (by decide)⟩
  exact collected.mpr ⟨by decide, 3, by decide, .single joined⟩

end Collect
end Graph
end Halon
