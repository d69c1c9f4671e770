import Halon.Proofs.GraphLinks

/-! What a resource is connected to. The lists are determined by the links of the
graph, so an edit leaves those alone whose links it leaves alone. -/

namespace Halon
open Library SetMap OrderedSet
variable {T L R K V : Type} [DecidableEq T] [LinearOrder L] [LinearOrder R] [LinearOrder K] [LinearOrder V]
variable {enc : Encoding L R K V} {schema : Schema T L R} {g g' : Graph L R K V} {links links' : Links L R} {x y : R}
    {r : L} {a b : T}

private theorem filter_once {α β : Type} (xs : List α) (p q : α → Bool) (t : β → Bool) (f : α → β) :
    ((xs.filter p).filterMap fun x => if q x then some (f x) else none).filter t =
      (xs.filter fun x => p x ∧ q x ∧ t (f x)).map f := by
  induction xs with
  | nil => rfl
  | cons x xs ih =>
    cases held : p x <;> cases wanted : q x <;> cases typed : t (f x) <;> simp [held, wanted, typed, ih]

namespace Graph

theorem connectedTo_eq : g.connectedTo schema x r b =
    ((g.lookupRes x).filter fun rel => rel.isOut ∧ rel.relation = r ∧ schema.typeOf rel.target = b).elements.map Rel.target := by
  have once := filter_once (g.lookupRes x).elements Rel.isOut (fun rel => rel.relation = r)
    (fun y => schema.typeOf y = b) Rel.target
  simp only [decide_eq_true_eq] at once
  exact once

theorem connectedFrom_eq : g.connectedFrom schema r a y =
    ((g.lookupRes y).filter fun rel => rel.isIn ∧ rel.relation = r ∧ schema.typeOf rel.source = a).elements.map Rel.source := by
  have once := filter_once (g.lookupRes y).elements Rel.isIn (fun rel => rel.relation = r)
    (fun x => schema.typeOf x = a) Rel.source
  simp only [decide_eq_true_eq] at once
  exact once

section
variable (depicts : Depicts g.graph links)
include depicts

theorem mem_outgoing :
    ρ ∈ (g.lookupRes x).filter (fun rel => rel.isOut ∧ rel.relation = r ∧ schema.typeOf rel.target = b) ↔
      ∃ y, ρ = ⟨.Out, r, x, y⟩ ∧ links x r y ∧ schema.typeOf y = b := by
  simp only [mem_filter, mem_lookupRes, depicts x, decide_eq_true_eq]
  constructor
  · rintro ⟨⟨near, linked⟩, out, rfl, typed⟩
    obtain ⟨_ | _, s, c, d⟩ := ρ
    · cases out
    · cases near
      exact ⟨d, rfl, linked, typed⟩
  · rintro ⟨y, rfl, linked, typed⟩
    exact ⟨⟨rfl, linked⟩, rfl, rfl, typed⟩

theorem mem_incoming :
    ρ ∈ (g.lookupRes y).filter (fun rel => rel.isIn ∧ rel.relation = r ∧ schema.typeOf rel.source = a) ↔
      ∃ x, ρ = ⟨.In, r, x, y⟩ ∧ links x r y ∧ schema.typeOf x = a := by
  simp only [mem_filter, mem_lookupRes, depicts y, decide_eq_true_eq]
  constructor
  · rintro ⟨⟨near, linked⟩, into, rfl, typed⟩
    obtain ⟨_ | _, s, c, d⟩ := ρ
    · cases near
      exact ⟨c, rfl, linked, typed⟩
    · cases into
  · rintro ⟨x, rfl, linked, typed⟩
    exact ⟨⟨rfl, linked⟩, rfl, rfl, typed⟩

theorem mem_connectedTo : y ∈ g.connectedTo schema x r b ↔ links x r y ∧ schema.typeOf y = b := by
  rw [connectedTo_eq]
  simp only [List.mem_map, ← mem_def, mem_outgoing depicts]
  grind

theorem mem_connectedFrom : x ∈ g.connectedFrom schema r a y ↔ links x r y ∧ schema.typeOf x = a := by
  rw [connectedFrom_eq]
  simp only [List.mem_map, ← mem_def, mem_incoming depicts]
  grind

theorem connectedTo_congr (depicts' : Depicts g'.graph links') (same : ∀ y, schema.typeOf y = b → (links x r y ↔ links' x r y)) :
    g.connectedTo schema x r b = g'.connectedTo schema x r b := by
  rw [connectedTo_eq, connectedTo_eq]
  congr 2
  apply ext_mem
  intro ρ
  rw [mem_outgoing depicts, mem_outgoing depicts']
  exact exists_congr fun y => and_congr_right fun _ => and_congr_left (same y)

theorem connectedFrom_congr (depicts' : Depicts g'.graph links')
    (same : ∀ x, schema.typeOf x = a → (links x r y ↔ links' x r y)) :
    g.connectedFrom schema r a y = g'.connectedFrom schema r a y := by
  rw [connectedFrom_eq, connectedFrom_eq]
  congr 2
  apply ext_mem
  intro ρ
  rw [mem_incoming depicts, mem_incoming depicts']
  exact exists_congr fun x => and_congr_right fun _ => and_congr_left (same x)

theorem nodup_connectedTo : (g.connectedTo schema x r b).Nodup := by
  rw [connectedTo_eq]
  apply List.Nodup.map_on
  · intro ρ first σ second same
    obtain ⟨_, rfl, _⟩ := (mem_outgoing depicts).mp (mem_def.mpr first)
    obtain ⟨_, rfl, _⟩ := (mem_outgoing depicts).mp (mem_def.mpr second)
    cases same
    rfl
  · exact (OrderedSet.ordered _).imp fun below => below.ne

theorem connectedTo_single (linked : links x r y) (only : ∀ z, links x r z → schema.typeOf z = schema.typeOf y → z = y) :
    g.connectedTo schema x r (schema.typeOf y) = [y] := by
  have member : y ∈ g.connectedTo schema x r (schema.typeOf y) := (mem_connectedTo depicts).mpr ⟨linked, rfl⟩
  have all : ∀ z ∈ g.connectedTo schema x r (schema.typeOf y), z = y := by
    intro z found
    obtain ⟨also, typed⟩ := (mem_connectedTo depicts).mp found
    exact only z also typed
  have once : (g.connectedTo schema x r (schema.typeOf y)).Nodup := nodup_connectedTo depicts
  match found : g.connectedTo schema x r (schema.typeOf y) with
  | [] =>
    rw [found] at member
    cases member
  | [z] => rw [all z (found ▸ List.mem_cons_self)]
  | z :: w :: rest =>
    rw [found] at all once
    have same : z = w := (all z List.mem_cons_self).trans (all w (List.mem_cons_of_mem _ List.mem_cons_self)).symm
    exact absurd (same ▸ List.mem_cons_self) (List.nodup_cons.mp once).1

end

theorem isConnected_holds : g.isConnected x r y = true ↔ Holds g.graph x ⟨.Out, r, x, y⟩ := by
  rw [← mem_lookupRes]
  simp only [isConnected, memberEdge, queryRel, mem_filter, Option.isSome_ite]
  simp [Rel.isOut]

theorem isConnected_iff (depicts : Depicts g.graph links) : g.isConnected x r y = true ↔ links x r y :=
  isConnected_holds.trans depicts.holds_out

section Garbage
variable {graph : SetMap R (Rel L R)} {white grey : OrderedSet R}

theorem mem_of_go (left : k ∈ garbageCollect.go graph white grey) : k ∈ white := by
  fun_induction garbageCollect.go graph white grey with
  | case1 => exact left
  | case2 _ grey _ ih => exact (mem_difference.mp (ih left)).1

theorem not_mem_garbage (root : k ∈ grey) : k ∉ garbage graph grey :=
  fun left => (mem_difference.mp (mem_of_go left)).2 root

end Garbage

section Roots

/-! No edit of the edges touches the root nodes. -/

def roots (g : Graph L R K V) : List R := g.gcInfo.grRootNodes

theorem roots_deleteEdge (e : Edge L R) : (g.deleteEdge enc e).roots = g.roots := by
  unfold deleteEdge
  split <;> rfl

theorem roots_disconnect : (g.disconnect enc x r y).roots = g.roots := roots_deleteEdge _

private theorem roots_deleteEdges (es : List (Edge L R)) :
    ((es.map (deleteEdge enc)).foldl (fun done next => done ∘ next) id g).roots = g.roots := by
  rw [Mirrored.compose_eq]
  induction es with
  | nil => rfl
  | cons e es ih => exact (roots_deleteEdge e).trans ih

theorem roots_disconnectAllFrom : (g.disconnectAllFrom enc schema x r b).roots = g.roots := roots_deleteEdges _

theorem roots_disconnectAllTo : (g.disconnectAllTo enc schema a r y).roots = g.roots := roots_deleteEdges _

theorem roots_connectUnbounded : (g.connectUnbounded enc x r y).roots = g.roots := rfl

theorem roots_connect : (g.connect enc schema x r y).roots = g.roots := by
  unfold connect
  cases schema.cardinalityFrom r (schema.typeOf x) (schema.typeOf y) with
  | AtMostOne =>
    cases schema.cardinalityTo r (schema.typeOf x) (schema.typeOf y) with
    | AtMostOne =>
      simp only [connectUnique, Function.comp_apply]
      rw [roots_connectUnbounded, roots_disconnectAllFrom, roots_disconnectAllTo]
    | Unbounded =>
      simp only [connectUniqueTo, Function.comp_apply]
      rw [roots_connectUnbounded, roots_disconnectAllTo]
  | Unbounded =>
    cases schema.cardinalityTo r (schema.typeOf x) (schema.typeOf y) with
    | AtMostOne =>
      simp only [connectUniqueFrom, Function.comp_apply]
      rw [roots_connectUnbounded, roots_disconnectAllFrom]
    | Unbounded => exact roots_connectUnbounded

theorem roots_removeResource : (g.removeResource enc x).roots = g.roots := by
  unfold removeResource
  split <;> rfl

theorem roots_sync : (g.sync enc).2.roots = g.roots := by
  change (runGCIfThresholdMet enc g).roots = _
  unfold runGCIfThresholdMet
  split <;> rfl

end Roots
end Graph

omit [DecidableEq T] in
variable (enc) in
theorem Depicts.sync (depicts : Depicts g.graph links) :
    ∃ gone : R → Prop, Depicts (g.sync enc).2.graph (fun a s c => links a s c ∧ ¬ gone a) ∧
      (∀ a s c, links a s c → (gone a ↔ gone c)) ∧ ∀ k ∈ g.roots, ¬ gone k := by
  change ∃ gone : R → Prop, Depicts (g.runGCIfThresholdMet enc).graph _ ∧ _
  unfold Graph.runGCIfThresholdMet
  split
  next =>
    let grey := OrderedSet.fromList g.gcInfo.grRootNodes
    have collected : Depicts (g.garbageCollect enc grey).graph _ := depicts.garbageCollect grey
    refine ⟨fun k => k ∈ Graph.garbage g.graph grey, collected, fun _ _ _ => depicts.garbage_iff grey, ?_⟩
    intro k root
    exact Graph.not_mem_garbage (mem_fromList.mpr root)
  next =>
    exact ⟨fun _ => False, depicts.congr fun _ _ _ => by simp, fun _ _ _ _ => Iff.rfl, fun _ _ => not_false⟩

end Halon
