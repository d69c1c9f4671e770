import Halon.Proofs.GraphMerge

/-! The graph as a relation. An edge is kept at both its ends or at neither, so the
maps of relations depict a set of links, and every operation edits that set. -/

namespace Halon
open Library SetMap Multimap OrderedSet Halon.Graph
variable {T L R K V : Type}

abbrev Links (L R : Type) := R → L → R → Prop

def Rel.LinkedIn (links : Links L R) (ρ : Rel L R) : Prop := links ρ.source ρ.relation ρ.target

def Rel.Joins (ρ : Rel L R) (x : R) (r : L) (y : R) : Prop := ρ.source = x ∧ ρ.relation = r ∧ ρ.target = y

namespace Rel

theorem near_cases (ρ : Rel L R) : ρ.near = ρ.source ∨ ρ.near = ρ.target := by
  obtain ⟨_ | _, _, _, _⟩ := ρ
  · exact .inr rfl
  · exact .inl rfl

theorem invert_invert (ρ : Rel L R) : ρ.invert.invert = ρ := by
  obtain ⟨_ | _, _, _, _⟩ := ρ <;> rfl

theorem far_invert (ρ : Rel L R) : ρ.invert.far = ρ.near := by
  obtain ⟨_ | _, _, _, _⟩ := ρ <;> rfl

theorem ends_iff (ρ : Rel L R) (property : R → Prop) :
    property ρ.near ∧ property ρ.far ↔ property ρ.source ∧ property ρ.target := by
  obtain ⟨_ | _, _, _, _⟩ := ρ
  · exact and_comm
  · exact Iff.rfl

theorem linkedIn_invert {ρ : Rel L R} : ρ.invert.LinkedIn links ↔ ρ.LinkedIn links := by
  obtain ⟨_ | _, _, _, _⟩ := ρ <;> rfl

theorem joins_iff {ρ : Rel L R} : ρ.Joins x r y ↔ ρ = ⟨.Out, r, x, y⟩ ∨ ρ = ⟨.In, r, x, y⟩ := by
  obtain ⟨_ | _, _, _, _⟩ := ρ
  · simp [Joins, and_left_comm]
  · simp [Joins, and_left_comm]

end Rel

variable [LinearOrder L] [LinearOrder R]

namespace Graph
variable [LinearOrder K] [LinearOrder V] {g : Graph L R K V} {x : R} {ρ : Rel L R}

theorem graph_incrementGC (enc : Encoding L R K V) (g : Graph L R K V) : (incrementGC enc g).graph = g.graph := rfl

omit [LinearOrder L] [LinearOrder R] in
theorem unhook_invert (ρ : Rel L R) : unhook ρ.invert = (ρ.near, ρ) := by
  obtain ⟨_ | _, _, _, _⟩ := ρ <;> rfl

theorem queryRes_of_has (has : Has g.graph x) : g.queryRes x = some x := if_pos has

theorem mem_lookupRes : ρ ∈ g.lookupRes x ↔ Holds g.graph x ρ := by
  unfold lookupRes
  by_cases has : Has g.graph x
  · obtain ⟨set, found⟩ := has_iff.mp has
    simp [queryRes_of_has has, found, Holds]
  · have missing : g.queryRes x = none := if_neg has
    simp only [missing, Option.bind_none, Option.getD_none, not_mem_empty, false_iff]
    exact fun held => has held.has

end Graph

/-- The relations kept are those of the links, each at its own end. -/
def Depicts (graph : SetMap R (Rel L R)) (links : Links L R) : Prop :=
  ∀ k ρ, Holds graph k ρ ↔ ρ.near = k ∧ ρ.LinkedIn links

namespace Depicts
variable {graph : SetMap R (Rel L R)} {links others : Links L R}

theorem congr (depicts : Depicts graph links) (same : ∀ a s c, links a s c ↔ others a s c) : Depicts graph others := by
  intro k ρ
  rw [depicts k ρ]
  exact and_congr_right fun _ => same _ _ _

theorem holds_out (depicts : Depicts graph links) : Holds graph x ⟨.Out, r, x, y⟩ ↔ links x r y := by
  rw [depicts]
  exact and_iff_right rfl

theorem holds_in (depicts : Depicts graph links) : Holds graph y ⟨.In, r, x, y⟩ ↔ links x r y := by
  rw [depicts]
  exact and_iff_right rfl

theorem empty : Depicts (.empty : SetMap R (Rel L R)) fun _ _ _ => False := by
  intro k ρ
  simp [Rel.LinkedIn]

/-- The links are those of the graph: no other set is depicted by it. -/
theorem unique (depicts : Depicts graph links) (also : Depicts graph others) : links = others := by
  funext a s c
  exact propext (depicts.holds_out.symm.trans also.holds_out)

theorem deleteValues (depicts : Depicts graph links)
    (listed : ∀ k ρ, ρ.near = k → ρ.LinkedIn links → (Listed kvs k ρ ↔ ρ.LinkedIn gone)) :
    Depicts (Multimap.deleteValues kvs graph) fun a s c => links a s c ∧ ¬ gone a s c := by
  intro k ρ
  rw [holds_deleteValues, depicts, and_assoc]
  refine and_congr_right fun near => and_congr_right fun linked => ?_
  rw [listed k ρ near linked]
  rfl

theorem deleteKeys (depicts : Depicts graph links) (closed : ∀ a s c, links a s c → (a ∈ rs ↔ c ∈ rs)) :
    Depicts (Multimap.deleteKeys rs graph) fun a s c => links a s c ∧ a ∉ rs := by
  intro k ρ
  rw [holds_deleteKeys, depicts, and_assoc]
  refine and_congr_right fun near => and_congr_right fun linked => not_congr ?_
  rcases ρ.near_cases with source | target
  · rw [← near, source]
  · rw [← near, target]
    exact (closed _ _ _ linked).symm

variable [DecidableEq T] [LinearOrder K] [LinearOrder V] {enc : Encoding L R K V} {g : Graph L R K V} {schema : Schema T L R}

omit [LinearOrder L] [LinearOrder R] in
private theorem listed_edge {ρ : Rel L R} (near : ρ.near = k) :
    Listed [(x, [⟨.Out, r, x, y⟩]), (y, [⟨.In, r, x, y⟩])] k ρ ↔ ρ.Joins x r y := by
  rw [Mirrored.listed_pair, Rel.joins_iff, ← near]
  constructor
  · exact Or.imp And.right And.right
  · exact Or.imp (fun out => ⟨congrArg Rel.near out, out⟩) fun into => ⟨congrArg Rel.near into, into⟩

omit [DecidableEq T] in
theorem deleteEdge (depicts : Depicts g.graph links) (e : Edge L R) :
    Depicts (g.deleteEdge enc e).graph fun a s c => links a s c ∧ ¬ (a = e.edgeSrc ∧ s = e.edgeRelation ∧ c = e.edgeDst) := by
  unfold Graph.deleteEdge
  rw [graph_incrementGC]
  split
  next foundSrc foundRel foundDest =>
    obtain ⟨_, ⟨⟩⟩ := Option.ite_none_right_eq_some.mp foundSrc
    obtain ⟨_, ⟨⟩⟩ := Option.ite_none_right_eq_some.mp foundRel
    obtain ⟨_, ⟨⟩⟩ := Option.ite_none_right_eq_some.mp foundDest
    simp only [Mirrored.unlink_eq]
    exact depicts.deleteValues fun k ρ near _ => listed_edge near
  next missing =>
    -- an edge that is there is found at both ends
    apply depicts.congr
    intro a s c
    refine ⟨fun linked => ⟨linked, ?_⟩, And.left⟩
    rintro ⟨rfl, rfl, rfl⟩
    have out := depicts.holds_out.mpr linked
    refine missing _ ⟨.Out, e.edgeRelation, e.edgeSrc, e.edgeDst⟩ _ (queryRes_of_has out.has) ?_
      (queryRes_of_has (depicts.holds_in.mpr linked).has)
    exact if_pos (mem_filter.mpr ⟨mem_lookupRes.mpr out, rfl⟩)

omit [DecidableEq T] in
private theorem deleteEdges (depicts : Depicts g.graph links) (es : List (Edge L R)) :
    Depicts ((es.map (Graph.deleteEdge enc)).foldl (fun done next => done ∘ next) id g).graph
      fun a s c => links a s c ∧ ⟨a, s, c⟩ ∉ es := by
  rw [Mirrored.compose_eq, List.foldr_map]
  induction es with
  | nil => exact depicts.congr fun a s c => by simp
  | cons e es ih =>
    apply (ih.deleteEdge e).congr
    intro a s c
    obtain ⟨x, r, y⟩ := e
    simp only [List.mem_cons, Edge.mk.injEq, not_or]
    exact and_assoc.trans (and_congr_right fun _ => and_comm)

theorem mem_edgesFromSrc (depicts : Depicts g.graph links) :
    e ∈ Graph.edgesFromSrc schema x r b g ↔
      links e.edgeSrc e.edgeRelation e.edgeDst ∧ e.edgeSrc = x ∧ e.edgeRelation = r ∧ schema.typeOf e.edgeDst = b := by
  unfold Graph.edgesFromSrc Graph.decodeRel
  simp only [List.mem_filterMap, ← mem_def, mem_filter, mem_lookupRes, Option.ite_none_right_eq_some]
  constructor
  · rintro ⟨⟨_ | _, s, a, c⟩, ⟨held, out⟩, ⟨_, rfl, rfl⟩, ⟨⟩⟩
    · cases out
    · obtain ⟨rfl, linked⟩ := (depicts _ _).mp held
      exact ⟨linked, rfl, rfl, rfl⟩
  · obtain ⟨a, s, c⟩ := e
    rintro ⟨linked, rfl, rfl, rfl⟩
    exact ⟨⟨.Out, s, a, c⟩, ⟨depicts.holds_out.mpr linked, rfl⟩, ⟨rfl, rfl, rfl⟩, rfl⟩

theorem mem_edgesToDst (depicts : Depicts g.graph links) :
    e ∈ Graph.edgesToDst schema a r y g ↔
      links e.edgeSrc e.edgeRelation e.edgeDst ∧ schema.typeOf e.edgeSrc = a ∧ e.edgeRelation = r ∧ e.edgeDst = y := by
  unfold Graph.edgesToDst Graph.decodeRel
  simp only [List.mem_filterMap, ← mem_def, mem_filter, mem_lookupRes, Option.ite_none_right_eq_some]
  constructor
  · rintro ⟨⟨_ | _, s, x, c⟩, ⟨held, into⟩, ⟨rfl, rfl, _⟩, ⟨⟩⟩
    · obtain ⟨rfl, linked⟩ := (depicts _ _).mp held
      exact ⟨linked, rfl, rfl, rfl⟩
    · cases into
  · obtain ⟨x, s, c⟩ := e
    rintro ⟨linked, rfl, rfl, rfl⟩
    exact ⟨⟨.In, s, x, c⟩, ⟨depicts.holds_in.mpr linked, rfl⟩, ⟨rfl, rfl, rfl⟩, rfl⟩

theorem disconnectAllFrom (depicts : Depicts g.graph links) (x : R) (r : L) (b : T) :
    Depicts (g.disconnectAllFrom enc schema x r b).graph
      fun a s c => links a s c ∧ ¬ (a = x ∧ s = r ∧ schema.typeOf c = b) := by
  apply (depicts.deleteEdges _).congr
  intro a s c
  rw [depicts.mem_edgesFromSrc]
  exact and_congr_right fun linked => not_congr (and_iff_right linked)

theorem disconnectAllTo (depicts : Depicts g.graph links) (b : T) (r : L) (y : R) :
    Depicts (g.disconnectAllTo enc schema b r y).graph
      fun a s c => links a s c ∧ ¬ (schema.typeOf a = b ∧ s = r ∧ c = y) := by
  apply (depicts.deleteEdges _).congr
  intro a s c
  rw [depicts.mem_edgesToDst]
  exact and_congr_right fun linked => not_congr (and_iff_right linked)

omit [DecidableEq T] in
theorem connectUnbounded (depicts : Depicts g.graph links) (x : R) (r : L) (y : R) :
    Depicts (g.connectUnbounded enc x r y).graph fun a s c => (a = x ∧ s = r ∧ c = y) ∨ links a s c := by
  intro k ρ
  simp only [Graph.connectUnbounded, Mirrored.link_eq]
  rw [holds_insertMany, depicts]
  constructor
  · rintro (⟨near, linked⟩ | listed)
    · exact ⟨near, .inr linked⟩
    · have near : ρ.near = k := by
        obtain ⟨rfl, rfl⟩ | ⟨rfl, rfl⟩ := Mirrored.listed_pair.mp listed <;> rfl
      exact ⟨near, .inl ((listed_edge near).mp listed)⟩
  · rintro ⟨near, joins | linked⟩
    · exact .inr ((listed_edge near).mpr joins)
    · exact .inl ⟨near, linked⟩

end Depicts

/-- A link that cannot stand beside the new one: it leaves the same resource for another of the same type where the
source may have one partner, or reaches the same resource where the target may. -/
def Competes (schema : Schema T L R) (x : R) (r : L) (y : R) : Links L R := fun a s c =>
  s = r ∧
    (a = x ∧ schema.typeOf c = schema.typeOf y ∧ schema.cardinalityTo r (schema.typeOf x) (schema.typeOf y) = .AtMostOne ∨
      c = y ∧ schema.typeOf a = schema.typeOf x ∧ schema.cardinalityFrom r (schema.typeOf x) (schema.typeOf y) = .AtMostOne)

namespace Depicts
variable [DecidableEq T] [LinearOrder K] [LinearOrder V] {enc : Encoding L R K V} {g : Graph L R K V} {schema : Schema T L R}
  {links : Links L R}

theorem connect (depicts : Depicts g.graph links) (x : R) (r : L) (y : R) :
    Depicts (g.connect enc schema x r y).graph
      fun a s c => (a = x ∧ s = r ∧ c = y) ∨ links a s c ∧ ¬ Competes schema x r y a s c := by
  unfold Graph.connect
  cases sources : schema.cardinalityFrom r (schema.typeOf x) (schema.typeOf y) with
  | AtMostOne =>
    have cleared : Depicts (g.disconnectAllTo enc schema (schema.typeOf x) r y).graph _ := depicts.disconnectAllTo _ r y
    cases targets : schema.cardinalityTo r (schema.typeOf x) (schema.typeOf y) with
    | AtMostOne =>
      apply ((cleared.disconnectAllFrom x r (schema.typeOf y)).connectUnbounded x r y).congr
      intro a s c
      simp only [Competes, sources, targets]
      grind
    | Unbounded =>
      apply (cleared.connectUnbounded x r y).congr
      intro a s c
      simp only [Competes, sources, targets]
      grind
  | Unbounded =>
    cases targets : schema.cardinalityTo r (schema.typeOf x) (schema.typeOf y) with
    | AtMostOne =>
      apply ((depicts.disconnectAllFrom x r (schema.typeOf y)).connectUnbounded x r y).congr
      intro a s c
      simp only [Competes, sources, targets]
      grind
    | Unbounded =>
      apply (depicts.connectUnbounded x r y).congr
      intro a s c
      simp [Competes, sources, targets]

omit [DecidableEq T] in
private theorem mem_unhooked (depicts : Depicts g.graph links) (near : ρ.near = k) (linked : ρ.LinkedIn links) :
    Listed ((g.lookupRes x).elements.map fun rel => ((Graph.unhook rel).1, [(Graph.unhook rel).2])) k ρ ↔ ρ.far = x := by
  simp only [Listed, List.mem_map, ← mem_def, mem_lookupRes]
  constructor
  · rintro ⟨_, ⟨σ, held, rfl⟩, _, inside⟩
    obtain rfl := List.mem_singleton.mp inside
    obtain ⟨rfl, _⟩ := (depicts _ _).mp held
    exact σ.far_invert
  · intro far
    refine ⟨_, ⟨ρ.invert, (depicts _ _).mpr ⟨ρ.near_invert.trans far, Rel.linkedIn_invert.mpr linked⟩, rfl⟩, ?_, ?_⟩
    · rw [unhook_invert, near]
    · rw [unhook_invert]
      exact List.mem_singleton_self ρ

omit [DecidableEq T] in
theorem removeResource (depicts : Depicts g.graph links) (x : R) :
    Depicts (g.removeResource enc x).graph fun a s c => links a s c ∧ a ≠ x ∧ c ≠ x := by
  unfold Graph.removeResource
  split
  next missing =>
    have absent : ¬ Has g.graph x := fun has => Option.some_ne_none _ ((queryRes_of_has has).symm.trans missing)
    apply depicts.congr
    intro a s c
    refine ⟨fun linked => ⟨linked, ?_, ?_⟩, And.left⟩
    · rintro rfl
      exact absent (depicts.holds_out.mpr linked).has
    · rintro rfl
      exact absent (depicts.holds_in.mpr linked).has
  next found =>
    obtain ⟨_, ⟨⟩⟩ := Option.ite_none_right_eq_some.mp found
    simp only [Mirrored.compose_eq, List.foldr_map, Mirrored.unhook_eq]
    intro k ρ
    change Holds (Multimap.deleteKeys [x] _) k ρ ↔ _
    rw [holds_deleteKeys, holds_deleteValues, depicts, List.mem_singleton]
    constructor
    · rintro ⟨⟨⟨near, linked⟩, unlisted⟩, other⟩
      rw [depicts.mem_unhooked near linked] at unlisted
      rw [← near] at other
      exact ⟨near, linked, (ρ.ends_iff (· ≠ x)).mp ⟨other, unlisted⟩⟩
    · rintro ⟨near, linked, apart⟩
      obtain ⟨other, away⟩ := (ρ.ends_iff (· ≠ x)).mpr apart
      refine ⟨⟨⟨near, linked⟩, fun listed => away ((depicts.mem_unhooked near linked).mp listed)⟩, ?_⟩
      rw [← near]
      exact other

end Depicts

namespace Graph
variable {graph : SetMap R (Rel L R)} {white grey : OrderedSet R}

/-- Nothing white is a neighbour of what is neither white nor grey. -/
def Closed (graph : SetMap R (Rel L R)) (white grey : OrderedSet R) : Prop :=
  ∀ k, k ∉ white → k ∉ grey → ∀ n ∈ neighbours graph k, n ∉ white

theorem mem_nextGrey : n ∈ nextGrey graph white grey ↔ n ∈ white ∧ ∃ k ∈ grey, n ∈ neighbours graph k := by
  unfold nextGrey
  rw [mem_intersection, mem_unions]
  simp [mem_def]

theorem Closed.next (closed : Closed graph white grey) :
    Closed graph (white.difference (nextGrey graph white grey)) (nextGrey graph white grey) := by
  intro k unwhite ungrey n near inside
  obtain ⟨before, unreached⟩ := mem_difference.mp inside
  have outside : k ∉ white := fun member => unwhite (mem_difference.mpr ⟨member, ungrey⟩)
  by_cases member : k ∈ grey
  · exact unreached (mem_nextGrey.mpr ⟨before, k, member, near⟩)
  · exact closed k outside member n near before

theorem Closed.go (closed : Closed graph white grey) : Closed graph (garbageCollect.go graph white grey) .empty := by
  fun_induction garbageCollect.go graph white grey with
  | case1 => exact closed
  | case2 _ grey _ ih => exact ih closed.next

omit [LinearOrder L] [LinearOrder R] in
theorem far_eq (ρ : Rel L R) : (if ρ.isOut then ρ.target else ρ.source) = ρ.far := by
  obtain ⟨_ | _, _, _, _⟩ := ρ <;> rfl

theorem mem_neighbours (depicts : Depicts graph links) :
    n ∈ neighbours graph k ↔ ∃ s, links k s n ∨ links n s k := by
  have kept : n ∈ neighbours graph k ↔ ∃ ρ, Holds graph k ρ ∧ ρ.far = n := by
    simp only [neighbours, far_eq, Holds]
    cases graph.lookup k with
    | none | some => simp
  rw [kept]
  constructor
  · rintro ⟨⟨_ | _, s, a, c⟩, held, rfl⟩
    · obtain ⟨rfl, linked⟩ := (depicts _ _).mp held
      exact ⟨s, .inr linked⟩
    · obtain ⟨rfl, linked⟩ := (depicts _ _).mp held
      exact ⟨s, .inl linked⟩
  · rintro ⟨s, linked | linked⟩
    · exact ⟨_, depicts.holds_out.mpr linked, rfl⟩
    · exact ⟨_, depicts.holds_in.mpr linked, rfl⟩

def garbage (graph : SetMap R (Rel L R)) (initGrey : OrderedSet R) : OrderedSet R :=
  garbageCollect.go graph ((OrderedSet.fromList graph.keys).difference initGrey) initGrey

theorem closed_garbage (depicts : Depicts graph links) (initGrey : OrderedSet R) :
    Closed graph (garbage graph initGrey) .empty := by
  apply Closed.go
  intro k unwhite ungrey n near
  obtain ⟨s, linked | linked⟩ := (mem_neighbours depicts).mp near
  · have has : k ∈ graph.keys := (depicts.holds_out.mpr linked).has
    exact absurd (mem_difference.mpr ⟨mem_fromList.mpr has, ungrey⟩) unwhite
  · have has : k ∈ graph.keys := (depicts.holds_in.mpr linked).has
    exact absurd (mem_difference.mpr ⟨mem_fromList.mpr has, ungrey⟩) unwhite

end Graph

namespace Depicts
variable [DecidableEq T] [LinearOrder K] [LinearOrder V] {enc : Encoding L R K V} {g : Graph L R K V} {schema : Schema T L R}
  {links : Links L R}

omit [DecidableEq T] in
theorem garbage_iff (depicts : Depicts g.graph links) (initGrey : OrderedSet R) (linked : links a s c) :
    a ∈ Graph.garbage g.graph initGrey ↔ c ∈ Graph.garbage g.graph initGrey := by
  have closed := closed_garbage depicts initGrey
  constructor
  · intro white
    by_contra unwhite
    exact closed c unwhite (not_mem_empty c) a ((mem_neighbours depicts).mpr ⟨s, .inr linked⟩) white
  · intro white
    by_contra unwhite
    exact closed a unwhite (not_mem_empty a) c ((mem_neighbours depicts).mpr ⟨s, .inl linked⟩) white

omit [DecidableEq T] in
theorem garbageCollect (depicts : Depicts g.graph links) (initGrey : OrderedSet R) :
    Depicts (g.garbageCollect enc initGrey).graph fun a s c => links a s c ∧ a ∉ (Graph.garbage g.graph initGrey).elements := by
  unfold Graph.garbageCollect
  simp only [Mirrored.compose_deletes]
  exact depicts.deleteKeys fun a s c linked => depicts.garbage_iff initGrey linked

end Depicts

/-- The links after resources were merged into one, which takes over those to the others. -/
def Links.merged (links : Links L R) (newX : R) (xs : List R) : Links L R := fun a s c =>
  links a s c ∧ a ∉ xs ∧ c ∉ xs ∨
    a = newX ∧ c ∉ newX :: xs ∧ (∃ x ∈ xs, links x s c) ∨
    c = newX ∧ a ∉ newX :: xs ∧ ∃ x ∈ xs, links a s x

namespace Depicts
variable [DecidableEq T] [LinearOrder K] [LinearOrder V] {enc : Encoding L R K V} {g : Graph L R K V} {schema : Schema T L R}
  {links : Links L R}

omit [DecidableEq T] in
theorem mem_oldRels (depicts : Depicts g.graph links) {xs : List R} :
    σ ∈ (xs.filterMap g.graph.lookup).foldl OrderedSet.union .empty ↔ σ.near ∈ xs ∧ σ.LinkedIn links := by
  rw [Graph.mem_oldRels]
  constructor
  · rintro ⟨x, member, held⟩
    obtain ⟨rfl, linked⟩ := (depicts _ _).mp held
    exact ⟨member, linked⟩
  · rintro ⟨member, linked⟩
    exact ⟨_, member, (depicts _ _).mpr ⟨rfl, linked⟩⟩

omit [DecidableEq T] in
private theorem joins_oldRels (depicts : Depicts g.graph links) {xs : List R} :
    (∃ σ ∈ (xs.filterMap g.graph.lookup).foldl OrderedSet.union .empty, ρ = σ ∨ ρ = σ.invert) ↔
      ρ.LinkedIn links ∧ ¬ (ρ.source ∉ xs ∧ ρ.target ∉ xs) := by
  simp only [depicts.mem_oldRels, ← ρ.ends_iff (· ∉ xs), not_and_or, not_not]
  constructor
  · rintro ⟨σ, ⟨member, linked⟩, rfl | rfl⟩
    · exact ⟨linked, .inl member⟩
    · exact ⟨Rel.linkedIn_invert.mpr linked, .inr (σ.far_invert.symm ▸ member)⟩
  · rintro ⟨linked, near | far⟩
    · exact ⟨ρ, ⟨near, linked⟩, .inl rfl⟩
    · exact ⟨ρ.invert, ⟨ρ.near_invert.symm ▸ far, Rel.linkedIn_invert.mpr linked⟩, .inr ρ.invert_invert.symm⟩

private theorem joins_newRels (depicts : Depicts g.graph links)
    (typed : ∀ x ∈ xs, schema.typeOf newX = schema.typeOf x) :
    (∃ σ ∈ ((((xs.filterMap g.graph.lookup).foldl OrderedSet.union .empty).map (Graph.updateLocalEnd schema newX)).filter
        (Graph.doesNotMakeSelfLink newX xs)), ρ = σ ∨ ρ = σ.invert) ↔
      ρ.source = newX ∧ ρ.target ∉ newX :: xs ∧ (∃ x ∈ xs, links x ρ.relation ρ.target) ∨
        ρ.target = newX ∧ ρ.source ∉ newX :: xs ∧ ∃ x ∈ xs, links ρ.source ρ.relation x := by
  simp only [mem_filter, mem_map, depicts.mem_oldRels, doesNotMakeSelfLink_iff]
  constructor
  · rintro ⟨_, ⟨⟨⟨_ | _, s, a, c⟩, ⟨member, linked⟩, rfl⟩, away⟩, either⟩
    · have moved : Graph.updateLocalEnd schema newX ⟨.In, s, a, c⟩ = ⟨.In, s, a, newX⟩ := if_pos (typed _ member)
      rw [moved] at either away
      obtain rfl | rfl := either
      · exact .inr ⟨rfl, away, c, member, linked⟩
      · exact .inr ⟨rfl, away, c, member, linked⟩
    · have moved : Graph.updateLocalEnd schema newX ⟨.Out, s, a, c⟩ = ⟨.Out, s, newX, c⟩ := if_pos (typed _ member)
      rw [moved] at either away
      obtain rfl | rfl := either
      · exact .inl ⟨rfl, away, a, member, linked⟩
      · exact .inl ⟨rfl, away, a, member, linked⟩
  · rintro (⟨rfl, away, x, member, linked⟩ | ⟨rfl, away, x, member, linked⟩)
    · refine ⟨⟨.Out, ρ.relation, ρ.source, ρ.target⟩, ⟨⟨⟨.Out, ρ.relation, x, ρ.target⟩, ⟨member, linked⟩, ?_⟩, away⟩, ?_⟩
      · exact if_pos (typed x member)
      · obtain ⟨_ | _, _, _, _⟩ := ρ
        · exact .inr rfl
        · exact .inl rfl
    · refine ⟨⟨.In, ρ.relation, ρ.source, ρ.target⟩, ⟨⟨⟨.In, ρ.relation, ρ.source, x⟩, ⟨member, linked⟩, ?_⟩, away⟩, ?_⟩
      · exact if_pos (typed x member)
      · obtain ⟨_ | _, _, _, _⟩ := ρ
        · exact .inl rfl
        · exact .inr rfl

theorem mergeResources (depicts : Depicts g.graph links) (f : List R → R) (xs : List R)
    (typed : ∀ x ∈ xs, schema.typeOf (f xs) = schema.typeOf x) :
    Depicts (g.mergeResources enc schema f xs).graph (links.merged (f xs) xs) := by
  unfold Graph.mergeResources
  split
  next none =>
    subst none
    exact depicts.congr fun a s c => by simp [Links.merged]
  next =>
    intro k ρ
    have blank : [(f xs, (.empty : OrderedSet (Rel L R)))] = [f xs].map fun x => (x, .empty) := rfl
    simp only [blank, holds_inserted, holds_removed, holds_updates, ← and_assoc, exists_and_right,
      depicts.joins_oldRels, depicts.joins_newRels typed, depicts k ρ]
    by_cases near : ρ.near = k
    · simp only [near, true_and, and_true, and_assoc, Rel.LinkedIn, Links.merged]
      refine or_congr_left (and_congr_right fun linked => ?_)
      rw [and_iff_right linked, not_not]
    · simp only [near, false_and, and_false, or_self]

end Depicts
end Halon
