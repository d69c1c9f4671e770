import Halon.Library.Runs
import Halon.Proofs.GraphLinks
import Mathlib.Data.Fintype.Basic

/-! Cardinalities. Connecting makes room for the new edge and everything else but
a merge only takes edges away; a merge gives the edges of several resources to one. -/

namespace Halon
open Library SetMap List
variable {T L R K V : Type}

/-- Where a relation allows one partner, a resource has one target of each type. -/
def OnePartner (typeOf : R → T) (single : L → T → T → Prop) (links : Links L R) : Prop :=
  ∀ x r y z, links x r y → links x r z → typeOf y = typeOf z → single r (typeOf x) (typeOf y) → y = z

/-- The targets that a merged resource would have among the others: those of the resources merged into it, and its own. -/
def LeadsTo (links : Links L R) (newX : R) (xs : List R) (r : L) (y : R) : Prop :=
  y ∉ xs ∧ ∃ x ∈ newX :: xs, links x r y ∧ (y = newX → x = newX)

/-- The resources to be merged agree on their partner, wherever the merged resource may have one. -/
def AgreeOnPartner (typeOf : R → T) (single : L → T → T → Prop) (links : Links L R) (newX : R) (xs : List R) : Prop :=
  ∀ r y z, LeadsTo links newX xs r y → LeadsTo links newX xs r z → typeOf y = typeOf z → single r (typeOf newX) (typeOf y) → y = z

def Links.flip (links : Links L R) : Links L R := fun c s a => links a s c

namespace OnePartner
variable {typeOf : R → T} {single : L → T → T → Prop} {links others : Links L R}

theorem subset (one : OnePartner typeOf single links) (fewer : ∀ a s c, others a s c → links a s c) :
    OnePartner typeOf single others := by
  intro x r y z first second same allowed
  exact one x r y z (fewer _ _ _ first) (fewer _ _ _ second) same allowed

theorem add (one : OnePartner typeOf single links) {x : R} {r : L} {y : R} {gone : Links L R}
    (clears : ∀ c, typeOf c = typeOf y → single r (typeOf x) (typeOf y) → gone x r c) :
    OnePartner typeOf single fun a s c => (a = x ∧ s = r ∧ c = y) ∨ links a s c ∧ ¬ gone a s c := by
  intro a s c d first second same allowed
  rcases first with ⟨rfl, rfl, rfl⟩ | ⟨held, stays⟩
  · rcases second with ⟨_, _, rfl⟩ | ⟨_, stays⟩
    · rfl
    · exact absurd (clears d same.symm allowed) stays
  · rcases second with ⟨rfl, rfl, rfl⟩ | ⟨also, _⟩
    · exact absurd (clears c same (same ▸ allowed)) stays
    · exact one a s c d held also same allowed

end OnePartner

section
variable {typeOf : R → T} {single : L → T → T → Prop} {links : Links L R} {newX : R} {xs : List R}

theorem Links.flip_merged : links.flip.merged newX xs = (links.merged newX xs).flip := by
  funext c s a
  apply propext
  constructor
  · rintro (⟨held, outside, apart⟩ | into | out)
    · exact .inl ⟨held, apart, outside⟩
    · exact .inr (.inr into)
    · exact .inr (.inl out)
  · rintro (⟨held, outside, apart⟩ | out | into)
    · exact .inl ⟨held, apart, outside⟩
    · exact .inr (.inr out)
    · exact .inr (.inl into)

theorem leadsTo_iff : LeadsTo links newX xs r y ↔ links.merged newX xs newX r y := by
  constructor
  · rintro ⟨outside, x, member, held, own⟩
    rcases mem_cons.mp member with rfl | merged
    · by_cases inside : x ∈ xs
      · refine .inr (.inl ⟨rfl, ?_, x, inside, held⟩)
        intro listed
        rcases mem_cons.mp listed with rfl | among
        · exact outside inside
        · exact outside among
      · exact .inl ⟨held, inside, outside⟩
    · refine .inr (.inl ⟨rfl, ?_, x, merged, held⟩)
      intro listed
      rcases mem_cons.mp listed with same | among
      · exact outside (same ▸ own same ▸ merged)
      · exact outside among
  · rintro (⟨held, inside, outside⟩ | ⟨_, away, x, merged, held⟩ | ⟨rfl, away, _⟩)
    · exact ⟨outside, newX, mem_cons_self, held, fun _ => rfl⟩
    · refine ⟨not_mem_of_not_mem_cons away, x, mem_cons_of_mem _ merged, held, ?_⟩
      exact fun same => absurd same (ne_of_not_mem_cons away)
    · exact absurd mem_cons_self away

theorem onePartner_merged (one : OnePartner typeOf single links) (typed : ∀ x ∈ xs, typeOf newX = typeOf x) :
    OnePartner typeOf single (links.merged newX xs) ↔ AgreeOnPartner typeOf single links newX xs := by
  constructor
  · intro merged r y z first second
    exact merged newX r y z (leadsTo_iff.mp first) (leadsTo_iff.mp second)
  · intro agree a s c d first second same allowed
    by_cases new : a = newX
    · subst new
      exact agree s c d (leadsTo_iff.mpr first) (leadsTo_iff.mpr second) same allowed
    · rcases first with ⟨held, _, outside⟩ | ⟨own, _⟩ | ⟨rfl, _, x, member, held⟩
      · rcases second with ⟨also, _, _⟩ | ⟨own, _⟩ | ⟨rfl, _, x, member, also⟩
        · exact one a s c d held also same allowed
        · exact absurd own new
        · have partner := one a s c x held also (same.trans (typed x member)) allowed
          exact absurd (partner ▸ member) outside
      · exact absurd own new
      · rcases second with ⟨also, _, outside⟩ | ⟨own, _⟩ | ⟨rfl, _, _⟩
        · have partner := one a s x d held also ((typed x member).symm.trans same) (typed x member ▸ allowed)
          exact absurd (partner ▸ member) outside
        · exact absurd own new
        · rfl

end

namespace Schema

def OneTarget (schema : Schema T L R) (r : L) (a b : T) : Prop := schema.cardinalityTo r a b = .AtMostOne

def OneSource (schema : Schema T L R) (r : L) (b a : T) : Prop := schema.cardinalityFrom r a b = .AtMostOne

end Schema

variable [DecidableEq T] [LinearOrder L] [LinearOrder R] [LinearOrder K] [LinearOrder V]

def outgoing (graph : SetMap R (Rel L R)) : Links L R := fun x r y => Holds graph x ⟨.Out, r, x, y⟩

def incoming (graph : SetMap R (Rel L R)) : Links L R := fun y r x => Holds graph y ⟨.In, r, x, y⟩

/-- No resource has more edges of a relation than the relation allows at that side. -/
structure Cardinal (schema : Schema T L R) (graph : SetMap R (Rel L R)) : Prop where
  targets : OnePartner schema.typeOf schema.OneTarget (outgoing graph)
  sources : OnePartner schema.typeOf schema.OneSource (incoming graph)

/-- Resources are merged into one of their type. -/
def Operation.WellTyped (schema : Schema T L R) : Operation T L R → Prop
  | .mergeResources f xs => ∀ x ∈ xs, schema.typeOf (f xs) = schema.typeOf x
  | _ => True

/-- The resources of a merge agree on every partner of which the merged resource may have one. -/
def Operation.Compatible (schema : Schema T L R) (graph : SetMap R (Rel L R)) : Operation T L R → Prop
  | .mergeResources f xs =>
    AgreeOnPartner schema.typeOf schema.OneTarget (outgoing graph) (f xs) xs ∧
      AgreeOnPartner schema.typeOf schema.OneSource (incoming graph) (f xs) xs
  | _ => True

namespace Depicts
variable {graph after : SetMap R (Rel L R)} {links others : Links L R} {schema : Schema T L R}

theorem outgoing_eq (depicts : Depicts graph links) : outgoing graph = links := by
  funext x r y
  exact propext depicts.holds_out

theorem incoming_eq (depicts : Depicts graph links) : incoming graph = links.flip := by
  funext x r y
  exact propext depicts.holds_in

omit [DecidableEq T] in
theorem cardinal_iff (depicts : Depicts graph links) :
    Cardinal schema graph ↔
      OnePartner schema.typeOf schema.OneTarget links ∧ OnePartner schema.typeOf schema.OneSource links.flip := by
  rw [← depicts.incoming_eq, ← depicts.outgoing_eq]
  exact ⟨fun cardinal => ⟨cardinal.targets, cardinal.sources⟩, fun both => ⟨both.1, both.2⟩⟩

omit [DecidableEq T] in
theorem cardinal_subset (depicts : Depicts graph links) (cardinal : Cardinal schema graph) (edited : Depicts after others)
    (fewer : ∀ a s c, others a s c → links a s c) : Cardinal schema after := by
  obtain ⟨targets, sources⟩ := depicts.cardinal_iff.mp cardinal
  exact edited.cardinal_iff.mpr ⟨targets.subset fewer, sources.subset fun c s a => fewer a s c⟩

variable {enc : Encoding L R K V} {g : Graph L R K V}

theorem cardinal_connect (depicts : Depicts g.graph links) (cardinal : Cardinal schema g.graph) (x : R) (r : L) (y : R) :
    Cardinal schema (g.connect enc schema x r y).graph := by
  obtain ⟨targets, sources⟩ := depicts.cardinal_iff.mp cardinal
  apply (depicts.connect x r y).cardinal_iff.mpr
  constructor
  · apply targets.add
    exact fun c typed single => ⟨rfl, .inl ⟨rfl, typed, single⟩⟩
  · have flipped : Links.flip (fun a s c => (a = x ∧ s = r ∧ c = y) ∨ links a s c ∧ ¬ Competes schema x r y a s c) =
        fun c s a => (c = y ∧ s = r ∧ a = x) ∨ links.flip c s a ∧ ¬ (Competes schema x r y).flip c s a := by
      funext c s a
      simp only [Links.flip, and_comm, and_assoc, and_left_comm]
    rw [flipped]
    apply sources.add
    exact fun a typed single => ⟨rfl, .inr ⟨rfl, typed, single⟩⟩

/-- A merge keeps the cardinalities exactly when the merged resources agree. -/
theorem cardinal_merge_iff (depicts : Depicts g.graph links) (cardinal : Cardinal schema g.graph) (f : List R → R) (xs : List R)
    (typed : (Operation.mergeResources f xs).WellTyped schema) :
    Cardinal schema (g.mergeResources enc schema f xs).graph ↔ (Operation.mergeResources f xs).Compatible schema g.graph := by
  obtain ⟨targets, sources⟩ := depicts.cardinal_iff.mp cardinal
  rw [(depicts.mergeResources f xs typed).cardinal_iff, ← Links.flip_merged, onePartner_merged targets typed,
    onePartner_merged sources typed, Operation.Compatible, depicts.outgoing_eq, depicts.incoming_eq]

end Depicts

namespace Graph
variable (enc : Encoding L R K V) (schema : Schema T L R) {g : Graph L R K V}

/-- The relations are those of a set of edges, kept at both ends, and within the cardinalities. -/
structure Sound (g : Graph L R K V) : Prop where
  depicts : ∃ links, Depicts g.graph links
  cardinal : Cardinal schema g.graph

variable {enc schema}

omit [DecidableEq T] in
theorem Sound.fewer {after : Graph L R K V} (sound : Sound schema g) {others : Links L R} (edited : Depicts after.graph others)
    (fewer : ∀ a s c, others a s c → outgoing g.graph a s c) : Sound schema after := by
  obtain ⟨⟨_, depicts⟩, cardinal⟩ := sound
  rw [depicts.outgoing_eq] at fewer
  exact ⟨⟨others, edited⟩, depicts.cardinal_subset cardinal edited fewer⟩

theorem Sound.perform (sound : Sound schema g) (op : Operation T L R) (typed : op.WellTyped schema)
    (compatible : op.Compatible schema g.graph) : Sound schema (g.perform enc schema op) := by
  obtain ⟨links, depicts⟩ := sound.depicts
  have held {a : R} {s : L} {c : R} (linked : links a s c) : outgoing g.graph a s c := depicts.holds_out.mpr linked
  cases op with
  | connect x r y => exact ⟨⟨_, depicts.connect x r y⟩, depicts.cardinal_connect sound.cardinal x r y⟩
  | disconnect x r y => exact sound.fewer (depicts.deleteEdge ⟨x, r, y⟩) fun _ _ _ kept => held kept.1
  | disconnectAllFrom x r b => exact sound.fewer (depicts.disconnectAllFrom x r b) fun _ _ _ kept => held kept.1
  | disconnectAllTo a r y => exact sound.fewer (depicts.disconnectAllTo a r y) fun _ _ _ kept => held kept.1
  | removeResource x => exact sound.fewer (depicts.removeResource x) fun _ _ _ kept => held kept.1
  | mergeResources f xs =>
    exact ⟨⟨_, depicts.mergeResources f xs typed⟩, (depicts.cardinal_merge_iff sound.cardinal f xs typed).mpr compatible⟩
  | garbageCollect initGrey => exact sound.fewer (depicts.garbageCollect initGrey) fun _ _ _ kept => held kept.1
  | garbageCollectRoot =>
    have collected : Depicts (g.garbageCollect enc (.fromList g.gcInfo.grRootNodes)).graph _ := depicts.garbageCollect _
    have counted : Depicts (g.garbageCollectRoot enc).graph _ := collected
    exact sound.fewer counted fun _ _ _ kept => held kept.1
  | addRootNode | removeRootNode | modifySinceGC | modifyGCThreshold => exact ⟨⟨links, depicts⟩, sound.cardinal⟩

omit [DecidableEq T] in
theorem sound_empty (info : GraphGCInfo R) : Sound schema (emptyGraph info : Graph L R K V) where
  depicts := ⟨_, Depicts.empty⟩
  cardinal := Depicts.empty.cardinal_iff.mpr ⟨fun _ _ _ _ held => held.elim, fun _ _ _ _ held => held.elim⟩

theorem Sound.connect_removes (sound : Sound schema g) (held : Holds g.graph k ρ)
    (removed : ¬ Holds (g.connect enc schema x r y).graph k ρ) :
    ¬ ρ.Joins x r y ∧ Competes schema x r y ρ.source ρ.relation ρ.target := by
  obtain ⟨_, depicts⟩ := sound.depicts
  obtain ⟨near, linked⟩ := (depicts k ρ).mp held
  rw [depicts.connect x r y k ρ] at removed
  constructor
  · exact fun joins => removed ⟨near, .inl joins⟩
  · by_contra stays
    exact removed ⟨near, .inr ⟨linked, stays⟩⟩

/-- When merged resources agree, the cardinalities hold in every graph that is built from the empty one, and
connecting two resources takes away only edges that cannot stand beside the new one. -/
theorem cardinality_kept {info : GraphGCInfo R} {g : Graph L R K V}
    (run : Run (fun g op => some (g.perform enc schema op)) (fun g op => op.WellTyped schema ∧ op.Compatible schema g.graph)
      (emptyGraph info) g) :
    Cardinal schema g.graph ∧
      ∀ x r y k ρ, Holds g.graph k ρ → ¬ Holds (g.connect enc schema x r y).graph k ρ →
        ¬ ρ.Joins x r y ∧ Competes schema x r y ρ.source ρ.relation ρ.target := by
  have sound : Sound schema g := by
    apply run.invariant (sound_empty info)
    intro before op after sound permitted moves
    cases moves
    exact sound.perform op permitted.1 permitted.2
  exact ⟨sound.cardinal, fun x r y k ρ => sound.connect_removes⟩

theorem depicts_perform (depicts : ∃ links, Depicts g.graph links) (op : Operation T L R) (typed : op.WellTyped schema) :
    ∃ links, Depicts (g.perform enc schema op).graph links := by
  obtain ⟨links, depicts⟩ := depicts
  cases op with
  | connect x r y => exact ⟨_, depicts.connect x r y⟩
  | disconnect x r y => exact ⟨_, depicts.deleteEdge ⟨x, r, y⟩⟩
  | disconnectAllFrom x r b => exact ⟨_, depicts.disconnectAllFrom x r b⟩
  | disconnectAllTo a r y => exact ⟨_, depicts.disconnectAllTo a r y⟩
  | removeResource x => exact ⟨_, depicts.removeResource x⟩
  | mergeResources f xs => exact ⟨_, depicts.mergeResources f xs typed⟩
  | garbageCollect initGrey => exact ⟨_, depicts.garbageCollect initGrey⟩
  | garbageCollectRoot =>
    have collected : Depicts (g.garbageCollect enc (.fromList g.gcInfo.grRootNodes)).graph _ := depicts.garbageCollect _
    exact ⟨_, collected⟩
  | addRootNode | removeRootNode | modifySinceGC | modifyGCThreshold => exact ⟨links, depicts⟩

/-- In every graph that is built from the empty one, an edge is kept at both its ends or at neither, and no relation names a
resource that is not in the graph. -/
theorem edges_kept_at_both_ends {info : GraphGCInfo R} {g : Graph L R K V}
    (run : Run (fun g op => some (g.perform enc schema op)) (fun _ op => op.WellTyped schema) (emptyGraph info) g) :
    (∀ r a b, Holds g.graph a ⟨.Out, r, a, b⟩ ↔ Holds g.graph b ⟨.In, r, a, b⟩) ∧
      ∀ k ρ, Holds g.graph k ρ → ρ.source ∈ g.graph.keys ∧ ρ.target ∈ g.graph.keys := by
  obtain ⟨links, depicts⟩ : ∃ links, Depicts g.graph links := by
    apply run.invariant
    · exact ⟨_, Depicts.empty⟩
    · intro before op after kept typed moves
      cases moves
      exact depicts_perform kept op typed
  refine ⟨fun r a b => depicts.holds_out.trans depicts.holds_in.symm, ?_⟩
  intro k ρ held
  obtain ⟨_, linked⟩ := (depicts k ρ).mp held
  exact ⟨(depicts.holds_out.mpr linked).has, (depicts.holds_in.mpr linked).has⟩

namespace Example

/-- Four resources of one type and a relation to at most one of them. -/
def exclusive : Schema Unit (Fin 1) (Fin 4) := ⟨fun _ => (), fun _ _ _ => .Unbounded, fun _ _ _ => .AtMostOne⟩

def encoding : Encoding (Fin 1) (Fin 4) (Fin 4) (Rel (Fin 1) (Fin 4)) := ⟨id, id, some, some, fun _ => rfl, fun _ => rfl⟩

def start : Graph (Fin 1) (Fin 4) (Fin 4) (Rel (Fin 1) (Fin 4)) := emptyGraph ⟨0, 100, []⟩

def merge : Operation Unit (Fin 1) (Fin 4) := .mergeResources (fun _ => 0) [0, 1]

def after (ops : List (Operation Unit (Fin 1) (Fin 4))) : Graph (Fin 1) (Fin 4) (Fin 4) (Rel (Fin 1) (Fin 4)) :=
  ops.foldl (Graph.perform encoding exclusive) start

end Example
open Example

/-- Two resources that are joined to each other and to others are merged. -/
theorem edges_kept_at_both_ends_merged : 0 ∈ (after [.connect 0 0 2, .connect 3 0 1, merge]).graph.keys ∧
    (Holds (after [.connect 0 0 2, .connect 3 0 1, merge]).graph 0 ⟨.Out, 0, 0, 2⟩ ↔
      Holds (after [.connect 0 0 2, .connect 3 0 1, merge]).graph 2 ⟨.In, 0, 0, 2⟩) := by
  have run : Run (fun g op => some (g.perform encoding exclusive op)) (fun _ op => op.WellTyped exclusive) start
      (after [.connect 0 0 2, .connect 3 0 1, merge]) :=
    .step merge (.step (.connect 3 0 1) (.step (.connect 0 0 2) .refl trivial rfl) trivial rfl) (fun _ _ => rfl) rfl
  have kept := edges_kept_at_both_ends run
  have held : Holds (after [.connect 0 0 2, .connect 3 0 1, merge]).graph 0 ⟨.Out, 0, 0, 2⟩ := by decide
  exact ⟨(kept.2 0 _ held).1, kept.1 0 0 2⟩

/-- The first two resources have one partner between them when they are merged. -/
theorem cardinality_kept_merged : Cardinal exclusive (after [.connect 0 0 2, .connect 0 0 3, merge]).graph := by
  have agree : merge.Compatible exclusive (after [.connect 0 0 2, .connect 0 0 3]).graph := by
    have only : ∀ r y, LeadsTo (outgoing (after [.connect 0 0 2, .connect 0 0 3]).graph) 0 [0, 1] r y → y = 3 := by
      unfold LeadsTo outgoing
      decide
    constructor
    · exact fun r y z first second _ _ => (only r y first).trans (only r z second).symm
    · intro r y z _ _ _ single
      cases single
  have run : Run (fun g op => some (g.perform encoding exclusive op))
      (fun g op => op.WellTyped exclusive ∧ op.Compatible exclusive g.graph) start (after [.connect 0 0 2, .connect 0 0 3]) :=
    .step (.connect 0 0 3) (.step (.connect 0 0 2) .refl ⟨trivial, trivial⟩ rfl) ⟨trivial, trivial⟩ rfl
  exact (cardinality_kept (run.step merge ⟨fun _ _ => rfl, agree⟩ rfl)).1

/-- Two resources with a partner each are merged into one with two partners. -/
theorem cardinality_broken :
    ¬ ∀ g, Run (fun g op => some (g.perform encoding exclusive op)) (fun _ op => op.WellTyped exclusive) start g →
      Cardinal exclusive g.graph := by
  intro kept
  have run : Run (fun g op => some (g.perform encoding exclusive op)) (fun _ op => op.WellTyped exclusive) start
      (after [.connect 0 0 2, .connect 1 0 3, merge]) :=
    .step merge (.step (.connect 1 0 3) (.step (.connect 0 0 2) .refl trivial rfl) trivial rfl) (fun _ _ => rfl) rfl
  have first : outgoing (after [.connect 0 0 2, .connect 1 0 3, merge]).graph 0 0 2 := by
    unfold outgoing
    decide
  have second : outgoing (after [.connect 0 0 2, .connect 1 0 3, merge]).graph 0 0 3 := by
    unfold outgoing
    decide
  exact absurd ((kept _ run).targets 0 0 2 3 first second rfl rfl) (by decide)

end Graph
end Halon
