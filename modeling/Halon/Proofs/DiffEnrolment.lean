import Halon.Proofs.DiffRefinement

/-! Changes of state begin an epoch of their own. Its state diff is registered, the states
are set, and the processes that are online are to be told. -/

namespace Halon.Mero
open Library Board Halon.Graph
variable {K V : Type} [LinearOrder K] [LinearOrder V] {enc : Encoding Relation Resource K V}
variable {exempt : StateDiff → ConfObj → Prop} {b b' : Board} {d : StateDiff} {p : ConfObj} {a c : Resource}
    {s : Relation} {e n : Nat}

theorem eq_epochId (type : a.typeOf = .EpochId) : ∃ n, a = .epochId n := by
  cases a with
  | epochId n => exact ⟨n, rfl⟩
  | conf object => cases object <;> cases type
  | state state => cases state <;> cases type
  | _ => cases type

section Competition

/-! What the three new edges of a registration take the place of. -/

theorem competes_epoch : Competes schema .cluster .Has (.epochId n) a s c ↔
    s = .Has ∧ (a = .cluster ∧ c.typeOf = .EpochId ∨ c = .epochId n ∧ a.typeOf = .Cluster) := by
  simp [Competes, schema, cardinality, Resource.typeOf]

theorem competes_index : Competes schema (.stateDiffIndex e) .Is (.stateDiff d) a s c ↔
    s = .Is ∧ (a = .stateDiffIndex e ∧ c.typeOf = .StateDiff ∨ c = .stateDiff d ∧ a.typeOf = .StateDiffIndex) := by
  simp [Competes, schema, cardinality, Resource.typeOf]

theorem competes_owner : Competes schema (.rc n) .Has (.stateDiff d) a s c ↔ s = .Has ∧ c = .stateDiff d ∧ a.typeOf = .RC := by
  simp [Competes, schema, cardinality, Resource.typeOf]

end Competition

def enrolled (links : Links Relation Resource) (d : StateDiff) (rc : Nat) : Links Relation Resource := fun a s c =>
  (a = .rc rc ∧ s = .Has ∧ c = .stateDiff d) ∨
    ((a = .stateDiffIndex d.stateEpoch ∧ s = .Is ∧ c = .stateDiff d) ∨
      ((a = .cluster ∧ s = .Has ∧ c = .epochId (d.stateEpoch + 1)) ∨
        links a s c ∧ ¬ (s = .Has ∧ (a = .cluster ∧ c.typeOf = .EpochId ∨ c = .epochId (d.stateEpoch + 1) ∧
          a.typeOf = .Cluster))) ∧
      ¬ (s = .Is ∧ (a = .stateDiffIndex d.stateEpoch ∧ c.typeOf = .StateDiff ∨ c = .stateDiff d ∧ a.typeOf = .StateDiffIndex))) ∧
    ¬ (s = .Has ∧ c = .stateDiff d ∧ a.typeOf = .RC)

theorem depicts_enrolled {rg : RG K V} {links} (depicts : Depicts rg.graph links) (d : StateDiff) (rc : Nat) :
    Depicts (((rg.connect enc schema .cluster .Has (.epochId (d.stateEpoch + 1))).connect enc schema
    (.stateDiffIndex d.stateEpoch) .Is
      (.stateDiff d)).connect enc schema (.rc rc) .Has (.stateDiff d)).graph (enrolled links d rc) := by
  apply (((depicts.connect _ _ _).connect _ _ _).connect _ _ _).congr
  intro a s c
  rw [competes_epoch, competes_index, competes_owner]
  rfl

/-- The state diff is on the board, joined to the cluster, and nobody has answered. -/
structure Board.Seated (b : Board) (d : StateDiff) : Prop where
  owned : ∃ n, b.links .cluster .Has (.rc n) ∧ b.links (.rc n) .Has (.stateDiff d)
  registered : b.Registered d
  silent : ∀ p, ¬ b.Delivered d p ∧ ¬ b.Failed d p

namespace Board

theorem change_enrolled (orderly : b.Orderly) (fresh : ∀ e, b.Passed e → e < d.stateEpoch) (rc : Nat) :
    Change exempt b ⟨enrolled b.links d rc, b.published⟩ := by
  have unused {e : Nat} {x : StateDiff} (indexed : b.Indexed e x) : e ≠ d.stateEpoch ∧ x ≠ d := by
    have before := fresh e (orderly.passed indexed)
    have named := orderly.named indexed
    refine ⟨by omega, ?_⟩
    rintro rfl
    omega
  refine .enrol d fresh ?_ ?_ ?_ ?_
  · intro n
    simp [enrolled, Resource.typeOf]
  · intro e x
    simp only [enrolled, reduceCtorEq, false_and, and_false, not_false_eq_true, and_true, true_and, false_or,
      Resource.stateDiffIndex.injEq,
      Resource.stateDiff.injEq, Resource.typeOf, or_false]
    constructor
    · rintro (new | ⟨earlier, _⟩)
      · exact .inr new
      · exact .inl earlier
    · rintro (earlier | new)
      · obtain ⟨otherEpoch, otherDiff⟩ := unused earlier
        exact .inr ⟨earlier, not_or.mpr ⟨otherEpoch, otherDiff⟩⟩
      · exact .inl new
  · intro n x held
    simp only [enrolled, reduceCtorEq, false_and, and_false, not_false_eq_true, and_true, true_and, false_or,
      Resource.stateDiff.injEq,
      Resource.typeOf, or_false] at held
    rcases held with ⟨_, same⟩ | ⟨earlier, _⟩
    · exact .inr same
    · exact .inl earlier
  · intro x s c
    simp [enrolled, Resource.typeOf]

theorem seated_enrolled (orderly : b.Orderly) (fresh : ∀ e, b.Passed e → e < d.stateEpoch)
    (current : b.links .cluster .Has (.rc rc)) : Seated ⟨enrolled b.links d rc, b.published⟩ d := by
  have unlinked {s : Relation} {c : Resource} : ¬ b.links (.stateDiff d) s c :=
    fun linked => Nat.lt_irrefl _ (fresh _ (orderly.known linked))
  refine ⟨⟨rc, ?_, .inl ⟨rfl, rfl, rfl⟩⟩, ?_, ?_⟩
  · simpa [enrolled, Resource.typeOf] using current
  · simp [Registered, Indexed, enrolled]
  · intro p
    simp [Delivered, Failed, enrolled, Resource.typeOf, unlinked]

end Board

namespace LoopState
variable {ls ls' : LoopState K V}

theorem Shows.lt_currentEpoch (shown : ls.Shows b) (orderly : b.Orderly) (passed : b.Passed e) : e < ls.getCurrentEpoch := by
  obtain ⟨n, current, less⟩ := passed
  have single : Graph.connectedTo schema .cluster .Has .EpochId ls.lsGraph = [.epochId n] := by
    apply connectedTo_single shown.depicts current
    intro z linked type
    obtain ⟨m, rfl⟩ := eq_epochId type
    rw [orderly.oneEpoch linked current]
  unfold getCurrentEpoch Graph.connectedToOne
  rw [single]
  exact less

theorem rc?_eq_some {x : Resource} : x.rc? = some n ↔ x = .rc n := by
  cases x <;> simp [Resource.rc?]

theorem linked_of_getCurrentRC {links} (depicts : Depicts ls.lsGraph.graph links)
    (found : ls.getCurrentRC = .ok n) : links .cluster .Has (.rc n) := by
  unfold getCurrentRC at found
  split at found
  next rc current =>
    cases found
    obtain ⟨connected, _⟩ := Option.filter_eq_some_iff.mp current
    obtain ⟨x, first, version⟩ := Option.bind_eq_some_iff.mp connected
    obtain rfl := rc?_eq_some.mp version
    exact ((mem_connectedTo depicts).mp (List.mem_of_mem_head? first)).1
  next => cases found

theorem mkStateDiff_ok (done : ls.mkStateDiff enc f msg onCommit = .ok (d, ls')) :
    d.stateEpoch = ls.getCurrentEpoch ∧ ∃ rc rg, (ls.updateEpoch enc).2.getCurrentRC = .ok rc ∧
      f (((ls.updateEpoch enc).2.lsGraph.connect enc schema (.stateDiffIndex d.stateEpoch) .Is (.stateDiff d)).connect enc schema
        (.rc rc) .Has (.stateDiff d)) = .ok rg ∧ ls' = ⟨rg, ls.performed⟩ := by
  obtain ⟨rc, current, done⟩ := bind_ok done
  obtain ⟨rg, updated, done⟩ := bind_ok done
  obtain ⟨rfl, rfl⟩ := Prod.mk.inj (Except.ok.inj done)
  refine ⟨rfl, rc, rg, current, updated, ?_⟩
  dsimp only [modifyGraph]

variable (exempt) in
theorem Shows.mkStateDiff (shown : ls.Shows b) (orderly : b.Orderly) (gentle : f.Restates)
    (done : ls.mkStateDiff enc f msg onCommit = .ok (d, ls')) :
    ∃ b', ls'.Shows b' ∧ Changes exempt b b' ∧ b'.Seated d := by
  obtain ⟨epoch, rc, rg, current, updated, rfl⟩ := mkStateDiff_ok done
  have fresh : ∀ e, b.Passed e → e < d.stateEpoch := fun e passed => epoch ▸ shown.lt_currentEpoch orderly passed
  have begun : (ls.updateEpoch enc).2.lsGraph = ls.lsGraph.connect enc schema .cluster .Has (.epochId (d.stateEpoch + 1)) := by
    rw [epoch]
    rfl
  have opened : Depicts (ls.lsGraph.connect enc schema .cluster .Has (.epochId (d.stateEpoch + 1))).graph _ :=
    shown.depicts.connect _ _ _
  have owner : b.links .cluster .Has (.rc rc) := by
    rw [← begun] at opened
    have linked := linked_of_getCurrentRC opened current
    rw [competes_epoch] at linked
    simpa [Resource.typeOf] using linked
  rw [begun] at updated
  obtain ⟨links, restated, same⟩ := (gentle updated).depicts _ (depicts_enrolled shown.depicts d rc)
  have enrolment : Change exempt b ⟨enrolled b.links d rc, b.published⟩ := change_enrolled orderly fresh rc
  have seated := seated_enrolled orderly fresh owner
  refine ⟨⟨links, b.published⟩, ⟨restated, shown.published, ?_⟩,
    (Relation.ReflTransGen.single enrolment).tail (.restate same), ?_⟩
  · change _ ∈ rg.roots
    rw [(gentle updated).roots, roots_connect, roots_connect, roots_connect]
    exact shown.root
  · obtain ⟨⟨n, joined, held⟩, registered, silent⟩ := seated
    refine ⟨⟨n, (same .cluster _ _ nofun).mpr joined, (same (.rc n) _ _ nofun).mpr held⟩,
      (same (.stateDiffIndex _) _ _ nofun).mpr registered, ?_⟩
    intro p
    exact ⟨mt (same (.stateDiff d) _ _ nofun).mp (silent p).1, mt (same (.stateDiff d) _ _ nofun).mp (silent p).2⟩

variable (enc exempt) in
theorem Shows.shouldDeliver (shown : ls.Shows b) (seated : b.Seated d) (p : ConfObj) :
    ∃ b', (ls.modifyGraph (Graph.connect enc schema (.stateDiff d) .ShouldDeliverTo (.conf p))).Shows b' ∧ Change exempt b b' ∧
      b'.Seated d := by
  obtain ⟨⟨n, joined, held⟩, registered, silent⟩ := seated
  have added : Depicts (ls.lsGraph.connect enc schema (.stateDiff d) .ShouldDeliverTo (.conf p)).graph _ :=
    depicts_add shown.depicts rfl
  refine ⟨⟨_, b.published⟩, ⟨added, shown.published, ?_⟩, .assign d p registered (silent p) fun _ _ _ => Iff.rfl,
    ⟨n, .inr joined, .inr held⟩, .inr registered, ?_⟩
  · change _ ∈ (Graph.connect enc schema _ _ _ _).roots
    rw [roots_connect]
    exact shown.root
  · intro q
    simpa [Delivered, Failed] using silent q

variable (enc exempt) in
theorem Shows.notifyNode (shown : ls.Shows b) (seated : b.Seated d) (notes : List Note) (entry : NodeId × List ConfObj) :
    ∃ b', (ls.notifyNode enc d notes entry).Shows b' ∧ Changes exempt b b' ∧ b'.Seated d := by
  obtain ⟨nid, recipients⟩ := entry
  have assigned : ∃ b', (ls.modifyGraph fun rg =>
      recipients.foldl (fun rg p => rg.connect enc schema (.stateDiff d) .ShouldDeliverTo (.conf p)) rg).Shows b' ∧
        Changes exempt b b' ∧ b'.Seated d := by
    induction recipients generalizing ls b with
    | nil => exact ⟨b, shown, .refl, seated⟩
    | cons p rest ih =>
      obtain ⟨_, shown', change, seated'⟩ := shown.shouldDeliver enc exempt seated p
      obtain ⟨last, shown'', further, seated''⟩ := ih shown' seated'
      exact ⟨last, shown'', further.head change, seated''⟩
  obtain ⟨middle, shown', changes, ⟨n, joined, held⟩, registered, silent⟩ := assigned
  have silently : (ls.notifyNode enc d notes (nid, recipients)).published = middle.published :=
    (published_performNotification _ _).trans shown'.published
  obtain ⟨gone, synced, closed, kept⟩ := shown'.registerSyncGraph _ silently
  have owner : ¬ gone (.rc n) := mt (closed _ _ _ joined).mpr kept
  have here : ¬ gone (.stateDiff d) := mt (closed _ _ _ held).mpr owner
  refine ⟨_, synced, changes.tail (.collect gone closed kept), ⟨n, ⟨joined, kept⟩, held, owner⟩,
    ⟨registered, mt (closed _ _ _ registered).mp here⟩, ?_⟩
  exact fun q => ⟨fun delivered => (silent q).1 delivered.1, fun failed => (silent q).2 failed.1⟩

variable (enc exempt) in
theorem Shows.notifyNodes (shown : ls.Shows b) (seated : b.Seated d) (notes : List Note) (nodes : List (NodeId × List ConfObj)) :
    ∃ b', (nodes.foldl (LoopState.notifyNode enc d notes) ls).Shows b' ∧ Changes exempt b b' := by
  induction nodes generalizing ls b with
  | nil => exact ⟨b, shown, .refl⟩
  | cons entry _ ih =>
    obtain ⟨_, shown', changes, seated'⟩ := shown.notifyNode enc exempt seated notes entry
    obtain ⟨last, shown'', further⟩ := ih shown' seated'
    exact ⟨last, shown'', changes.trans further⟩

theorem Shows.notifyMeroAsync (shown : ls.Shows b) (orderly : b.Orderly) (seated : b.Seated d)
    (done : ls.notifyMeroAsync enc d notes = .ok ls') : Leads exempt b ls' := by
  obtain ⟨middle, shown', changes⟩ := shown.notifyNodes enc exempt seated notes ls.lsGraph.getNotificationNodes
  simp only [LoopState.notifyMeroAsync] at done
  split at done
  · obtain ⟨last, completed, further, _⟩ := shown'.tryCompleteStateDiff exempt (changes.orderly orderly) done
    exact ⟨last, completed, changes.trans further⟩
  · cases done
    refine ⟨middle, ⟨shown'.depicts, ?_, shown'.root⟩, changes⟩
    rw [← shown'.published]
    simp [LoopState.published]

theorem Shows.announceStateChanges (shown : ls.Shows b) (orderly : b.Orderly)
    (done : ls.announceStateChanges enc encodeP rounds ss = .ok ls') : Leads exempt b ls' := by
  obtain ⟨⟨_, _⟩, created, done⟩ := bind_ok done
  obtain ⟨⟨d, _⟩, made, done⟩ := bind_ok done
  obtain ⟨b', shown', enrolment, seated⟩ := shown.mkStateDiff exempt orderly (restates_createDeferredStateChanges created) made
  obtain ⟨last, shown'', further⟩ : Leads exempt b' ls' := shown'.notifyMeroAsync (enrolment.orderly orderly) seated done
  exact ⟨last, shown'', enrolment.trans further⟩

end LoopState
end Halon.Mero
