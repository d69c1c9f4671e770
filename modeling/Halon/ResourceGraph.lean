import Halon.Multimap
import Mathlib.Data.Prod.Lex

/-! The resource graph: edits of the graph in memory, each with the update of the
multimap that it records. A relation is a singleton type in the source, so it is
named by its type; resources of all types are the elements of one type `R`. -/

namespace Halon
open Library

inductive Direction where
  | In
  | Out
deriving DecidableEq, Repr

/-- An edge as it is kept at one of its ends: at the target when incoming, at the source when outgoing. -/
structure Rel (L R : Type) where
  direction : Direction
  relation : L
  source : R
  target : R
deriving Repr

namespace Rel
variable {L R : Type}

def isOut (rel : Rel L R) : Bool := rel.direction = .Out

def isIn (rel : Rel L R) : Bool := rel.direction = .In

def invert (rel : Rel L R) : Rel L R :=
  match rel.direction with
  | .In => { rel with direction := .Out }
  | .Out => { rel with direction := .In }

instance [LinearOrder L] [LinearOrder R] : LinearOrder (Rel L R) :=
  LinearOrder.lift' (fun rel => toLex (rel.isOut, toLex (rel.relation, toLex (rel.source, rel.target)))) (by
    intro first second same
    obtain ⟨direction, _, _, _⟩ := first
    obtain ⟨other, _, _, _⟩ := second
    simp only [EmbeddingLike.apply_eq_iff_eq, Prod.mk.injEq] at same
    obtain ⟨towards, rfl, rfl, rfl⟩ := same
    cases direction <;> cases other <;> first | rfl | cases towards)

end Rel

structure Edge (L R : Type) where
  edgeSrc : R
  edgeRelation : L
  edgeDst : R

inductive Cardinality where
  | AtMostOne
  | Unbounded
deriving DecidableEq, Repr

/-- The types of resources, and for a relation between two types how many partners a resource may have at each side. -/
structure Schema (T L R : Type) where
  typeOf : R → T
  cardinalityFrom : L → T → T → Cardinality
  cardinalityTo : L → T → T → Cardinality

/-- Encodings to the store's keys and values. Decoding fails on what is not an encoding. -/
structure Encoding (L R K V : Type) where
  encodeUniversalResource : R → K
  encodeUniversalRelation : Rel L R → V
  decodeUniversalResource : K → Option R
  decodeUniversalRelation : V → Option (Rel L R)
  decode_resource : ∀ res, decodeUniversalResource (encodeUniversalResource res) = some res
  decode_relation : ∀ rel, decodeUniversalRelation (encodeUniversalRelation rel) = some rel

structure GraphGCInfo (R : Type) where
  grSinceGC : Int
  grGCThreshold : Int
  grRootNodes : List R
deriving DecidableEq, Repr

/-- The graph with the changes since the store was read. The updates recorded so
far are kept besides the change log they were merged into, and read by no operation. -/
structure Graph (L R K V : Type) [LinearOrder L] [LinearOrder R] [LinearOrder K] [LinearOrder V] where
  changeLog : ChangeLog K V
  graph : SetMap R (Rel L R)
  gcInfo : GraphGCInfo R
  recorded : List (StoreUpdate K V)

variable {T L R K V : Type} [DecidableEq T] [LinearOrder L] [LinearOrder R] [LinearOrder K] [LinearOrder V]

namespace Graph

def emptyGraph (info : GraphGCInfo R) : Graph L R K V := ⟨emptyChangeLog, .empty, info, []⟩

def record (u : StoreUpdate K V) (g : Graph L R K V) : Graph L R K V :=
  { g with changeLog := updateChangeLog u g.changeLog, recorded := g.recorded ++ [u] }

def queryRes (r : R) (g : Graph L R K V) : Option R := if r ∈ g.graph.keys then some r else none

def lookupRes (r : R) (g : Graph L R K V) : OrderedSet (Rel L R) := ((g.queryRes r).bind g.graph.lookup).getD .empty

/-- The edge as the given end keeps it, if it is in the set. -/
def queryRel (e : Edge L R) (direction : Direction) (hs : OrderedSet (Rel L R)) : Option (Rel L R) :=
  let rel : Rel L R := ⟨direction, e.edgeRelation, e.edgeSrc, e.edgeDst⟩
  if rel ∈ hs then some rel else none

def memberEdge (e : Edge L R) (g : Graph L R K V) : Bool :=
  (queryRel e .Out ((g.lookupRes e.edgeSrc).filter Rel.isOut)).isSome

def isConnected (x : R) (r : L) (y : R) (g : Graph L R K V) : Bool := g.memberEdge ⟨x, r, y⟩

variable (enc : Encoding L R K V)

def metaInfo (info : GraphGCInfo R) : MetaInfo K :=
  ⟨info.grSinceGC, info.grGCThreshold, info.grRootNodes.map enc.encodeUniversalResource⟩

def modifyGCInfo (f : GraphGCInfo R → GraphGCInfo R) (g : Graph L R K V) : Graph L R K V :=
  { g.record (.setMetaInfo (metaInfo enc (f g.gcInfo))) with gcInfo := f g.gcInfo }

def modifySinceGC (f : Int → Int) : Graph L R K V → Graph L R K V :=
  modifyGCInfo enc fun info => { info with grSinceGC := f info.grSinceGC }

def setSinceGC (i : Int) : Graph L R K V → Graph L R K V := modifySinceGC enc fun _ => i

def incrementGC : Graph L R K V → Graph L R K V := modifySinceGC enc (· + 1)

def modifyRootNodes (f : List R → List R) : Graph L R K V → Graph L R K V :=
  modifyGCInfo enc fun info => { info with grRootNodes := f info.grRootNodes }

def addRootNode (res : R) : Graph L R K V → Graph L R K V := modifyRootNodes enc (res :: ·)

def removeRootNode (res : R) : Graph L R K V → Graph L R K V := modifyRootNodes enc fun roots => roots.erase res

def modifyGCThreshold (f : Int → Int) : Graph L R K V → Graph L R K V :=
  modifyGCInfo enc fun info => { info with grGCThreshold := f info.grGCThreshold }

/-- Delete an edge at both ends. The counter goes up even when the edge is not there. -/
def deleteEdge (e : Edge L R) (g : Graph L R K V) : Graph L R K V :=
  incrementGC enc <|
    match g.queryRes e.edgeSrc, queryRel e .Out ((g.lookupRes e.edgeSrc).filter Rel.isOut), g.queryRes e.edgeDst with
    | some src, some rel, some dest =>
      let g' := g.record (.deleteValues
        [(enc.encodeUniversalResource src, [enc.encodeUniversalRelation rel]),
          (enc.encodeUniversalResource dest, [enc.encodeUniversalRelation rel.invert])])
      { g' with graph := (g.graph.adjust (OrderedSet.delete rel.invert) dest).adjust (OrderedSet.delete rel) src }
    | _, _, _ => g

def disconnect (x : R) (r : L) (y : R) : Graph L R K V → Graph L R K V := deleteEdge enc ⟨x, r, y⟩

variable (schema : Schema T L R)

/-- The edge of a relation kept at either end, when relation and types are those asked for. -/
def decodeRel (a : T) (r : L) (b : T) (rel : Rel L R) : Option (Edge L R) :=
  if schema.typeOf rel.source = a ∧ rel.relation = r ∧ schema.typeOf rel.target = b then
    some ⟨rel.source, rel.relation, rel.target⟩
  else none

def edgesFromSrc (x : R) (r : L) (b : T) (g : Graph L R K V) : List (Edge L R) :=
  ((g.lookupRes x).filter Rel.isOut).elements.filterMap (decodeRel schema (schema.typeOf x) r b)

def edgesToDst (a : T) (r : L) (y : R) (g : Graph L R K V) : List (Edge L R) :=
  ((g.lookupRes y).filter Rel.isIn).elements.filterMap (decodeRel schema a r (schema.typeOf y))

def disconnectAllFrom (x : R) (r : L) (b : T) (g : Graph L R K V) : Graph L R K V :=
  ((edgesFromSrc schema x r b g).map (deleteEdge enc)).foldl (fun done next => done ∘ next) id g

def disconnectAllTo (a : T) (r : L) (y : R) (g : Graph L R K V) : Graph L R K V :=
  ((edgesToDst schema a r y g).map (deleteEdge enc)).foldl (fun done next => done ∘ next) id g

/-- Where the other end keeps a relation of the resource, and how. -/
def unhook (rel : Rel L R) : R × Rel L R := (if rel.isIn then rel.source else rel.target, rel.invert)

def removeResource (r : R) (g : Graph L R K V) : Graph L R K V :=
  match g.queryRes r with
  | none => g
  | some res =>
    let rels := (g.lookupRes r).elements
    let unhookG (rel : Rel L R) (m : SetMap R (Rel L R)) := m.adjust (OrderedSet.delete (unhook rel).2) (unhook rel).1
    let unhookCL (rel : Rel L R) :=
      (enc.encodeUniversalResource (unhook rel).1, [enc.encodeUniversalRelation (unhook rel).2])
    let g' := (g.record (.deleteValues (rels.map unhookCL))).record (.deleteKeys [enc.encodeUniversalResource res])
    { g' with graph := ((rels.map unhookG).foldl (fun done next => done ∘ next) id g.graph).delete res }

def connectUnbounded (x : R) (r : L) (y : R) (g : Graph L R K V) : Graph L R K V :=
  let outRel : Rel L R := ⟨.Out, r, x, y⟩
  let inRel : Rel L R := ⟨.In, r, x, y⟩
  let g' := g.record (.insertMany
    [(enc.encodeUniversalResource x, [enc.encodeUniversalRelation outRel]),
      (enc.encodeUniversalResource y, [enc.encodeUniversalRelation inRel])])
  let linked := (g.graph.insertWith OrderedSet.union y (.fromList [inRel])).insertWith OrderedSet.union x (.fromList [outRel])
  { g' with graph := linked }

def connectUnique (x : R) (r : L) (y : R) : Graph L R K V → Graph L R K V :=
  connectUnbounded enc x r y ∘ disconnectAllFrom enc schema x r (schema.typeOf y) ∘
    disconnectAllTo enc schema (schema.typeOf x) r y

def connectUniqueFrom (x : R) (r : L) (y : R) : Graph L R K V → Graph L R K V :=
  connectUnbounded enc x r y ∘ disconnectAllFrom enc schema x r (schema.typeOf y)

def connectUniqueTo (x : R) (r : L) (y : R) : Graph L R K V → Graph L R K V :=
  connectUnbounded enc x r y ∘ disconnectAllTo enc schema (schema.typeOf x) r y

def connect (x : R) (r : L) (y : R) : Graph L R K V → Graph L R K V :=
  match schema.cardinalityFrom r (schema.typeOf x) (schema.typeOf y),
    schema.cardinalityTo r (schema.typeOf x) (schema.typeOf y) with
  | .AtMostOne, .AtMostOne => connectUnique enc schema x r y
  | .AtMostOne, .Unbounded => connectUniqueTo enc schema x r y
  | .Unbounded, .AtMostOne => connectUniqueFrom enc schema x r y
  | .Unbounded, .Unbounded => connectUnbounded enc x r y

def anyConnectedTo (x : R) (r : L) (g : Graph L R K V) : List R :=
  ((g.lookupRes x).filter Rel.isOut).elements.filterMap fun rel => if rel.relation = r then some rel.target else none

def anyConnectedFrom (r : L) (y : R) (g : Graph L R K V) : List R :=
  ((g.lookupRes y).filter Rel.isIn).elements.filterMap fun rel => if rel.relation = r then some rel.source else none

def connectedTo (x : R) (r : L) (b : T) (g : Graph L R K V) : List R :=
  (g.anyConnectedTo x r).filter fun y => schema.typeOf y = b

def connectedToOne (x : R) (r : L) (b : T) (g : Graph L R K V) : Option R := (connectedTo schema x r b g).head?

def connectedFrom (r : L) (a : T) (y : R) (g : Graph L R K V) : List R :=
  (g.anyConnectedFrom r y).filter fun x => schema.typeOf x = a

def connectedFromOne (r : L) (a : T) (y : R) (g : Graph L R K V) : Option R := (connectedFrom schema r a y g).head?

/-- Put the resource at the relation's own end, if the types agree. -/
def updateLocalEnd (x : R) (rel : Rel L R) : Rel L R :=
  match rel.direction with
  | .In => if schema.typeOf x = schema.typeOf rel.target then { rel with target := x } else rel
  | .Out => if schema.typeOf x = schema.typeOf rel.source then { rel with source := x } else rel

def doesNotMakeSelfLink (newX : R) (xs : List R) (rel : Rel L R) : Bool :=
  match rel.direction with
  | .In => rel.source ∉ newX :: xs
  | .Out => rel.target ∉ newX :: xs

def atEnds (rel : Rel L R) : List (R × OrderedSet (Rel L R)) :=
  match rel.direction with
  | .In => [(rel.source, .fromList [rel.invert]), (rel.target, .fromList [rel])]
  | .Out => [(rel.source, .fromList [rel]), (rel.target, .fromList [rel.invert])]

def mkUpdateMap (rels : OrderedSet (Rel L R)) : SetMap R (Rel L R) :=
  .fromListWith OrderedSet.union (rels.elements.flatMap atEnds)

/-- The update map as the argument of a store update. -/
def encodeMap (m : SetMap R (Rel L R)) : List (K × List V) :=
  m.entries.map fun entry =>
    (enc.encodeUniversalResource entry.1, entry.2.elements.map enc.encodeUniversalRelation)

def mkAdjustements (action : OrderedSet (Rel L R) → Option (OrderedSet (Rel L R)) → Option (OrderedSet (Rel L R)))
    (m : SetMap R (Rel L R)) (z : SetMap R (Rel L R)) : SetMap R (Rel L R) :=
  m.entries.foldl (fun g' entry => g'.alter (action entry.2) entry.1) z

/-- A resource that has no relation left is dropped. -/
def removeNodes (v : OrderedSet (Rel L R)) : Option (OrderedSet (Rel L R)) → Option (OrderedSet (Rel L R))
  | none => none
  | some w => if w.difference v = .empty then none else some (w.difference v)

def insertNodes (v : OrderedSet (Rel L R)) (w : Option (OrderedSet (Rel L R))) : Option (OrderedSet (Rel L R)) :=
  some (v.union (w.getD .empty))

/-- Merge resources of one type into one, which takes over their relations to others. -/
def mergeResources (f : List R → R) (xs : List R) (g : Graph L R K V) : Graph L R K V :=
  if xs = [] then g
  else
    let newX := f xs
    let oldRels := (xs.filterMap g.graph.lookup).foldl OrderedSet.union .empty
    let newRels := (oldRels.map (updateLocalEnd schema newX)).filter (doesNotMakeSelfLink newX xs)
    let deleteValuesMap := OrderedMap.unionWith OrderedSet.union (.fromList (xs.map fun x => (x, .empty))) (mkUpdateMap oldRels)
    let insertValuesMap := OrderedMap.unionWith OrderedSet.union (.fromList [(newX, .empty)]) (mkUpdateMap newRels)
    let g' := ((g.record (.deleteValues (encodeMap enc deleteValuesMap))).record
      (.deleteKeys (xs.map enc.encodeUniversalResource))).record (.insertMany (encodeMap enc insertValuesMap))
    { g' with graph := mkAdjustements insertNodes insertValuesMap (mkAdjustements removeNodes deleteValuesMap g.graph) }

def neighbours (graph : SetMap R (Rel L R)) (res : R) : OrderedSet R :=
  ((graph.lookup res).map (OrderedSet.map fun rel => if rel.isOut then rel.target else rel.source)).getD .empty

def nextGrey (graph : SetMap R (Rel L R)) (white grey : OrderedSet R) : OrderedSet R :=
  white.intersection ((grey.elements.map (neighbours graph)).foldl OrderedSet.union .empty)

/-- What is left white when no grey resource is left. -/
def garbageCollect.go (graph : SetMap R (Rel L R)) (white grey : OrderedSet R) : OrderedSet R :=
  if grey = .empty then white
  else go graph (white.difference (nextGrey graph white grey)) (nextGrey graph white grey)
termination_by (white.elements.length, grey.elements.length)
decreasing_by
  rename_i someGrey
  cases found : (nextGrey graph white grey).elements with
  | nil =>
    rw [OrderedSet.eq_empty_iff.mpr found, OrderedSet.length_difference_empty]
    apply Prod.Lex.right
    exact List.length_pos_iff.mpr fun none => someGrey (OrderedSet.eq_empty_iff.mpr none)
  | cons x rest =>
    have reached : x ∈ nextGrey graph white grey := by
      rw [OrderedSet.mem_def, found]
      exact List.mem_cons_self
    exact Prod.Lex.left _ _ (OrderedSet.length_difference_lt (OrderedSet.mem_intersection.mp reached).1 reached)

/-- Remove the resources that cannot be reached from the given ones along relations in either direction. -/
def garbageCollect (initGrey : OrderedSet R) (g : Graph L R K V) : Graph L R K V :=
  let whiteList := (garbageCollect.go g.graph ((OrderedSet.fromList g.graph.keys).difference initGrey) initGrey).elements
  let adjustments := whiteList.map fun res => OrderedMap.delete res
  { g.record (.deleteKeys (whiteList.map enc.encodeUniversalResource)) with
    graph := adjustments.foldl (fun done next => next ∘ done) id g.graph }

def garbageCollectRoot (g : Graph L R K V) : Graph L R K V :=
  setSinceGC enc 0 (garbageCollect enc (.fromList g.gcInfo.grRootNodes) g)

def takeChangeLog (g : Graph L R K V) : ChangeLog K V × Graph L R K V :=
  (g.changeLog, { g with changeLog := emptyChangeLog, recorded := [] })

def shouldGC (g : Graph L R K V) : Bool := g.gcInfo.grGCThreshold > 0 && g.gcInfo.grSinceGC ≥ g.gcInfo.grGCThreshold

def runGCIfThresholdMet (g : Graph L R K V) : Graph L R K V := if g.shouldGC then garbageCollectRoot enc g else g

def sync (g : Graph L R K V) : List (StoreUpdate K V) × Graph L R K V :=
  let (cl, g') := (runGCIfThresholdMet enc g).takeChangeLog
  (fromChangeLog cl, g')

def getResourcesOfType (a : T) (g : Graph L R K V) : List R := g.graph.keys.filter fun res => schema.typeOf res = a

end Graph

inductive Operation (T L R : Type) [LinearOrder R] where
  | connect (x : R) (r : L) (y : R)
  | disconnect (x : R) (r : L) (y : R)
  | disconnectAllFrom (x : R) (r : L) (b : T)
  | disconnectAllTo (a : T) (r : L) (y : R)
  | removeResource (x : R)
  | mergeResources (f : List R → R) (xs : List R)
  | garbageCollect (initGrey : OrderedSet R)
  | garbageCollectRoot
  | addRootNode (x : R)
  | removeRootNode (x : R)
  | modifySinceGC (f : Int → Int)
  | modifyGCThreshold (f : Int → Int)

namespace Graph
variable (enc : Encoding L R K V) (schema : Schema T L R)

def perform (g : Graph L R K V) : Operation T L R → Graph L R K V
  | .connect x r y => connect enc schema x r y g
  | .disconnect x r y => disconnect enc x r y g
  | .disconnectAllFrom x r b => disconnectAllFrom enc schema x r b g
  | .disconnectAllTo a r y => disconnectAllTo enc schema a r y g
  | .removeResource x => removeResource enc x g
  | .mergeResources f xs => mergeResources enc schema f xs g
  | .garbageCollect initGrey => garbageCollect enc initGrey g
  | .garbageCollectRoot => garbageCollectRoot enc g
  | .addRootNode x => addRootNode enc x g
  | .removeRootNode x => removeRootNode enc x g
  | .modifySinceGC f => modifySinceGC enc f g
  | .modifyGCThreshold f => modifyGCThreshold enc f g

def decodeEntry (entry : K × List V) : Option (R × OrderedSet (Rel L R)) := do
  let res ← enc.decodeUniversalResource entry.1
  let rels ← entry.2.mapM enc.decodeUniversalRelation
  pure (res, OrderedSet.fromList rels)

def buildGraph (store : MetaInfo K × List (K × List V)) : Option (Graph L R K V) := do
  let entries ← store.2.mapM (decodeEntry enc)
  let roots ← store.1.miRootNodes.mapM enc.decodeUniversalResource
  pure ⟨emptyChangeLog, .fromList entries, ⟨store.1.miSinceGC, store.1.miGCThreshold, roots⟩, []⟩

end Graph
end Halon
