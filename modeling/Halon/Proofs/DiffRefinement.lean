import Halon.Proofs.CascadeLinks
import Halon.Proofs.DiffBoard

/-! The state of the coordinator shows a board. Handling a message makes changes on the
board, one after another, and leaves a state that shows the last. -/

namespace Halon.Mero
open Library Board List Halon.Graph
variable {K V : Type} [LinearOrder K] [LinearOrder V] {enc : Encoding Relation Resource K V} {rg : RG K V}
variable {links : Links Relation Resource} {exempt : StateDiff → ConfObj → Prop} {b : Board} {d : StateDiff}
    {p : ConfObj} {r : Relation}

theorem depicts_add (depicts : Depicts rg.graph links) (free : cardinality r x.typeOf y.typeOf = (.Unbounded, .Unbounded)) :
    Depicts (rg.connect enc schema x r y).graph fun a s c => (a = x ∧ s = r ∧ c = y) ∨ links a s c := by
  apply (depicts.connect x r y).congr
  intro a s c
  have targets : schema.cardinalityTo r (schema.typeOf x) (schema.typeOf y) = .Unbounded := congrArg Prod.snd free
  have sources : schema.cardinalityFrom r (schema.typeOf x) (schema.typeOf y) = .Unbounded := congrArg Prod.fst free
  simp only [Competes, targets, sources, reduceCtorEq, and_false, or_false, not_false_eq_true, and_true]

namespace RG

theorem mem_processes (depicts : Depicts rg.graph links) :
    p ∈ rg.processes d r ↔ links (.stateDiff d) r (.conf p) ∧ p.typeOf = .Process := by
  simp only [processes, mem_filterMap, conf?_eq_some, exists_eq_right, Graph.mem_connectedTo depicts]
  rfl

theorem nodup_processes (depicts : Depicts rg.graph links) : (rg.processes d r).Nodup := by
  apply (Graph.nodup_connectedTo depicts).filterMap
  intro s t y first second
  rw [conf?_eq_some.mp first, conf?_eq_some.mp second]

end RG

structure Board.Retains (b b' : Board) : Prop where
  registered : ∀ {x}, b'.Registered x → b.Registered x
  delivered : ∀ {x q}, b'.Delivered x q → b.Delivered x q

theorem Board.Retains.trans (first : b.Retains b') (second : b'.Retains b'') : b.Retains b'' :=
  ⟨fun held => first.registered (second.registered held), fun held => first.delivered (second.delivered held)⟩

/-- Nobody has answered: a state diff that is still registered awaits the same processes. -/
structure Board.Stays (b b' : Board) : Prop extends b.Retains b' where
  awaited : ∀ {x q}, b'.Registered x → (b'.Awaited x q ↔ b.Awaited x q)

/-- A process has answered for a state diff, and for no other that is still registered. -/
structure Board.Hears (b : Board) (d : StateDiff) (p : ConfObj) (b' : Board) : Prop where
  heard : ¬ b'.Awaited d p
  registered : ∀ {x}, b'.Registered x → b.Registered x
  others : ∀ {x}, x ≠ d → b'.Registered x → (b'.Awaited x p ↔ b.Awaited x p)

/-- A process has answered for some state diffs, and for no other that is still registered. -/
structure Board.HearsAll (b : Board) (diffs : List StateDiff) (p : ConfObj) (b' : Board) : Prop where
  heard : ∀ x ∈ diffs, ¬ b'.Awaited x p
  registered : ∀ {x}, b'.Registered x → b.Registered x
  others : ∀ {x}, x ∉ diffs → b'.Registered x → (b'.Awaited x p ↔ b.Awaited x p)

theorem Board.Hears.stays (hears : b.Hears d p b') (stays : b'.Stays b'') (orderly : b''.Orderly) : b.Hears d p b'' := by
  refine ⟨?_, fun held => hears.registered (stays.registered held), ?_⟩
  · intro waits
    exact hears.heard ((stays.awaited (orderly.awaited waits).1).mp waits)
  · intro x other held
    exact (stays.awaited held).trans (hears.others other (stays.registered held))

namespace LoopState
variable {ls ls' : LoopState K V}

structure Shows (ls : LoopState K V) (b : Board) : Prop where
  depicts : Depicts ls.lsGraph.graph b.links
  published : ls.published = b.published
  root : .cluster ∈ ls.lsGraph.roots

/-- The changes made so far leave a state that shows the board. -/
def Leads (exempt : StateDiff → ConfObj → Prop) (b : Board) (ls : LoopState K V) : Prop := ∃ b', ls.Shows b' ∧ Changes exempt b b'

variable (exempt) in
theorem Shows.moveToDelivered (shown : ls.Shows b) (known : b.Passed d.stateEpoch) (undelivered : ¬ b.Delivered d p) :
    ∃ b', (ls.moveToDelivered enc d p).Shows b' ∧ Change exempt b b' ∧ b.Hears d p b' := by
  have unsent : Depicts (ls.lsGraph.disconnect enc (.stateDiff d) .ShouldDeliverTo (.conf p)).graph _ :=
    shown.depicts.deleteEdge _
  have cleared : Depicts ((ls.lsGraph.disconnect enc (.stateDiff d) .ShouldDeliverTo (.conf p)).disconnect enc (.stateDiff d)
      .DeliveryFailedTo (.conf p)).graph _ := unsent.deleteEdge _
  have moved : Depicts (ls.moveToDelivered enc d p).lsGraph.graph _ :=
    depicts_add (r := .DeliveredTo) cleared (x := .stateDiff d) (y := .conf p) rfl
  refine ⟨⟨_, b.published⟩, ⟨moved, shown.published, ?_⟩, .answer d p known ?_ ?_ (.inl ⟨undelivered, ?_, ?_⟩), ?_, ?_, ?_⟩
  · change _ ∈ (Graph.connect enc schema _ _ _ _).roots
    rw [roots_connect, roots_disconnect, roots_disconnect]
    exact shown.root
  · intro a s c apart
    grind
  · simp [Awaited]
  · simp [Delivered]
  · simp [Failed]
  · simp [Awaited]
  · intro x held
    simpa [Registered, Indexed] using held
  · intro x other _
    simp [Awaited, other]

variable (enc exempt p) in
theorem Shows.moveToFailed (shown : ls.Shows b) (known : b.Passed d.stateEpoch)
    (consistent : (b.Registered d → ¬ b.Delivered d p) ∨ exempt d p) :
    ∃ b', (ls.moveToFailed enc d p).Shows b' ∧ Change exempt b b' ∧ b.Retains b' ∧ b'.Failed d p ∧
      (b.Delivered d p → b'.Delivered d p) ∧ (b.Registered d → b'.Registered d) := by
  have unsent : Depicts (ls.lsGraph.disconnect enc (.stateDiff d) .ShouldDeliverTo (.conf p)).graph _ :=
    shown.depicts.deleteEdge _
  have moved : Depicts (ls.moveToFailed enc d p).lsGraph.graph _ :=
    depicts_add (r := .DeliveryFailedTo) unsent (x := .stateDiff d) (y := .conf p) rfl
  refine ⟨⟨_, b.published⟩, ⟨moved, shown.published, ?_⟩, .answer d p known ?_ ?_ (.inr ⟨?_, ?_, consistent⟩),
    ⟨?_, ?_⟩, ?_, ?_, ?_⟩
  · change _ ∈ (Graph.connect enc schema _ _ _ _).roots
    rw [roots_connect, roots_disconnect]
    exact shown.root
  · intro a s c apart
    grind
  · simp [Awaited]
  · simp [Failed]
  · simp [Delivered]
  · intro x held
    simpa [Registered, Indexed] using held
  · intro x q held
    simpa [Delivered] using held
  · simp [Failed]
  · simp [Delivered]
  · simp [Registered, Indexed]

theorem Shows.registerSyncGraph (shown : ls.Shows b) (callback : Effect) {published}
    (announced : (ls.registerSyncGraph enc callback).published = published) :
    ∃ gone : Resource → Prop, (ls.registerSyncGraph enc callback).Shows ⟨fun a s c => b.links a s c ∧ ¬ gone a, published⟩ ∧
      (∀ a s c, b.links a s c → (gone a ↔ gone c)) ∧ ¬ gone .cluster := by
  obtain ⟨gone, synced, closed, rooted⟩ := shown.depicts.sync enc
  refine ⟨gone, ⟨synced, announced, ?_⟩, closed, rooted _ shown.root⟩
  change _ ∈ (ls.lsGraph.sync enc).2.roots
  rw [roots_sync]
  exact shown.root

theorem published_promulgate (n : Notified) : (ls.registerSyncGraph enc (.promulgate n)).published = ls.published ++ [n] := by
  simp only [published, LoopState.registerSyncGraph, filterMap_append, filterMap_cons, filterMap_nil]

theorem published_performNotification (nid : NodeId) (message : NotificationMessage) :
    (ls.registerSyncGraph enc (.performNotification nid message)).published = ls.published := by
  simp only [published, LoopState.registerSyncGraph, filterMap_append, filterMap_cons, filterMap_nil, append_nil]

theorem Shows.forceCompleteStateDiff (shown : ls.Shows b) (registered : b.Registered d) :
    ∃ b', (ls.forceCompleteStateDiff enc d).Shows b' ∧ Changes exempt b b' ∧ b.Stays b' := by
  let n : Notified := ⟨d.stateEpoch, d.stateDiffMsg, ls.lsGraph.processes d .DeliveredTo,
    ls.lsGraph.processes d .DeliveryFailedTo,
    ls.lsGraph.processes d .ShouldDeliverTo⟩
  have lists : b.Lists d n :=
    ⟨rfl, ⟨RG.nodup_processes shown.depicts, RG.nodup_processes shown.depicts, RG.nodup_processes shown.depicts⟩,
    fun _ => RG.mem_processes shown.depicts, fun _ => RG.mem_processes shown.depicts, fun _ => RG.mem_processes shown.depicts⟩
  have removed : (ls.modifyGraph (Graph.removeResource enc (.stateDiff d))).Shows
      ⟨fun a s c => b.links a s c ∧ a ≠ .stateDiff d ∧ c ≠ .stateDiff d, b.published⟩ := by
    refine ⟨shown.depicts.removeResource _, shown.published, ?_⟩
    change _ ∈ (Graph.removeResource enc _ _).roots
    rw [roots_removeResource]
    exact shown.root
  have announced : (ls.forceCompleteStateDiff enc d).published = b.published ++ [n] :=
    (published_promulgate n).trans (congrArg (· ++ [n]) removed.published)
  obtain ⟨gone, synced, closed, kept⟩ := removed.registerSyncGraph (.promulgate n) announced
  have collected : Change exempt ⟨fun a s c => b.links a s c ∧ a ≠ .stateDiff d ∧ c ≠ .stateDiff d, b.published ++ [n]⟩ _ :=
    .collect gone (fun a s c linked => closed a s c linked) kept
  refine ⟨_, synced, (Relation.ReflTransGen.single (.announce d n registered lists)).tail collected, ⟨?_, ?_⟩, ?_⟩
  · exact fun held => held.1.1
  · exact fun held => held.1.1
  · intro x q held
    obtain ⟨⟨indexed, _, other⟩, here⟩ := held
    have stays : ¬ gone (.stateDiff x) := mt (closed _ _ _ ⟨indexed, nofun, other⟩).mpr here
    exact ⟨fun waits => waits.1.1, fun waits => ⟨⟨waits, other, nofun⟩, stays⟩⟩

theorem tryCompleteStateDiff_ok (done : ls.tryCompleteStateDiff enc d = .ok ls') :
    ls' = ls ∨ (∃ rc, ls.lsGraph.isConnected (.rc rc) .Has (.stateDiff d) = true) ∧ ls' = ls.forceCompleteStateDiff enc d := by
  obtain ⟨rc, _, done⟩ := bind_ok done
  cases done
  split
  next complete => exact .inr ⟨⟨rc, complete.1⟩, rfl⟩
  next => exact .inl rfl

variable (exempt) in
theorem Shows.tryCompleteStateDiff (shown : ls.Shows b) (orderly : b.Orderly) (done : ls.tryCompleteStateDiff enc d = .ok ls') :
    ∃ b', ls'.Shows b' ∧ Changes exempt b b' ∧ b.Stays b' := by
  rcases tryCompleteStateDiff_ok done with rfl | ⟨⟨rc, owned⟩, rfl⟩
  · exact ⟨b, shown, .refl, ⟨id, id⟩, fun _ => Iff.rfl⟩
  · exact shown.forceCompleteStateDiff (orderly.owned ((isConnected_iff shown.depicts).mp owned))

section Reads

theorem stateDiff?_eq_some {x : Resource} : x.stateDiff? = some d ↔ x = .stateDiff d := by
  cases x <;> simp [Resource.stateDiff?]

theorem Shows.indexed (shown : ls.Shows b) (found : ls.getStateDiffByEpoch e = some d) : b.Indexed e d := by
  obtain ⟨x, first, diff⟩ := Option.bind_eq_some_iff.mp found
  obtain rfl := stateDiff?_eq_some.mp diff
  exact ((mem_connectedTo shown.depicts).mp (mem_of_mem_head? first)).1

theorem Shows.indexed_of_mem (shown : ls.Shows b) (member : d ∈ ls.getStateDiffsByEpoch e) : ∃ e', b.Indexed e' d := by
  induction e with
  | zero => exact ⟨0, shown.indexed (Option.mem_toList.mp member)⟩
  | succ e ih =>
    unfold getStateDiffsByEpoch at member
    split at member
    next => cases member
    next found =>
      rcases mem_cons.mp member with rfl | earlier
      · exact ⟨_, shown.indexed found⟩
      · exact ih earlier

end Reads

variable (exempt) in
theorem Shows.markDelivered (shown : ls.Shows b) (orderly : b.Orderly) (known : b.Passed d.stateEpoch)
    (done : ls.markDelivered enc p d = .ok ls') : ∃ b', ls'.Shows b' ∧ Changes exempt b b' ∧ b.Hears d p b' := by
  simp only [LoopState.markDelivered] at done
  split at done
  next delivered =>
    cases done
    rw [isConnected_iff shown.depicts] at delivered
    refine ⟨b, shown, .refl, ?_, id, fun _ _ => Iff.rfl⟩
    exact fun waits => (orderly.awaited waits).2.1 delivered
  next undelivered =>
    rw [isConnected_iff shown.depicts] at undelivered
    obtain ⟨middle, moved, change, hears⟩ := shown.moveToDelivered exempt known undelivered
    split at done
    · have inOrder := change.orderly orderly
      obtain ⟨last, completed, further, stays⟩ := moved.tryCompleteStateDiff exempt inOrder done
      exact ⟨last, completed, further.head change, hears.stays stays (further.orderly inOrder)⟩
    · cases done
      exact ⟨middle, moved, .single change, hears⟩

variable (exempt) in
theorem Shows.markNotificationDelivered (shown : ls.Shows b) (orderly : b.Orderly)
    (done : ls.markNotificationDelivered enc d p = .ok ls') :
    ∃ b', ls'.Shows b' ∧ Changes exempt b b' ∧ b.HearsAll (ls.getStateDiffsByEpoch d.stateEpoch) p b' := by
  -- The state diffs that the loop has left behind are not awaited, and the others are as they were.
  let diffs := ls.getStateDiffsByEpoch d.stateEpoch
  let kept (rest : List StateDiff) (ls : LoopState K V) : Prop :=
    ∃ b', ls.Shows b' ∧ Changes exempt b b' ∧ (∀ x ∈ rest, x ∈ diffs ∧ b'.Passed x.stateEpoch) ∧
      (∀ x ∈ diffs, x ∉ rest → ¬ b'.Awaited x p) ∧ (∀ {x}, b'.Registered x → b.Registered x) ∧
      ∀ {x}, x ∉ diffs → b'.Registered x → (b'.Awaited x p ↔ b.Awaited x p)
  have initial : kept diffs ls := by
    refine ⟨b, shown, .refl, ?_, fun x inside outside => absurd inside outside, id, fun _ _ => Iff.rfl⟩
    intro x member
    obtain ⟨e, indexed⟩ := shown.indexed_of_mem member
    exact ⟨member, orderly.named indexed ▸ orderly.passed indexed⟩
  obtain ⟨b', shown', changes, _, heard, registered, others⟩ : kept [] ls' := by
    refine foldlM_invariant initial ?_ done
    rintro x rest ls ls' ⟨b', shown', changes, known, heard, registered, others⟩ marked
    obtain ⟨inside, passed⟩ := known x mem_cons_self
    obtain ⟨last, shown'', further, hears⟩ := shown'.markDelivered exempt (changes.orderly orderly) passed marked
    have inOrder := further.orderly (changes.orderly orderly)
    refine ⟨last, shown'', changes.trans further, ?_, ?_, fun held => registered (hears.registered held), ?_⟩
    · intro y member
      obtain ⟨listed, before⟩ := known y (mem_cons_of_mem _ member)
      exact ⟨listed, further.passed before⟩
    · intro y listed behind waits
      by_cases same : y = x
      · exact hears.heard (same ▸ waits)
      · have before := (hears.others same (inOrder.awaited waits).1).mp waits
        exact heard y listed (not_mem_cons_of_ne_of_not_mem same behind) before
    · intro y outside held
      have other : y ≠ x := fun same => outside (same ▸ inside)
      exact (hears.others other held).trans (others outside (hears.registered held))
  exact ⟨b', shown', changes, fun x inside => heard x inside not_mem_nil, registered, others⟩

section
variable (shown : ls.Shows b) (orderly : b.Orderly)
include shown orderly

/-- A reported failure. The process may have been reached already only if it is exempt. -/
theorem Shows.markNotificationFailed (registered : b.Registered d) (consistent : ¬ b.Delivered d p ∨ exempt d p)
    (done : ls.markNotificationFailed enc d p = .ok ls') : Leads exempt b ls' := by
  simp only [LoopState.markNotificationFailed] at done
  split at done
  · cases done
    exact ⟨b, shown, .refl⟩
  · obtain ⟨middle, moved, change, _⟩ := shown.moveToFailed enc exempt p (orderly.passed registered)
      (consistent.imp_left fun undelivered _ => undelivered)
    split at done
    · obtain ⟨last, completed, further, _⟩ := moved.tryCompleteStateDiff exempt (change.orderly orderly) done
      exact ⟨last, completed, further.head change⟩
    · cases done
      exact ⟨middle, moved, .single change⟩

theorem Shows.failNotificationsTo (done : ls.failNotificationsTo enc p = .ok ls') : Leads exempt b ls' := by
  -- What was awaited when the loop began was not delivered, and no step of the loop delivers anything.
  let kept (rest : List StateDiff) (ls : LoopState K V) : Prop :=
    ∃ b', ls.Shows b' ∧ Changes exempt b b' ∧ ∀ x ∈ rest, b'.Passed x.stateEpoch ∧ (b'.Registered x → ¬ b'.Delivered x p)
  have initial : kept ((Graph.connectedFrom schema .ShouldDeliverTo .StateDiff (.conf p) ls.lsGraph).filterMap
    Resource.stateDiff?) ls := by
    refine ⟨b, shown, .refl, ?_⟩
    intro x member
    obtain ⟨y, listed, diff⟩ := mem_filterMap.mp member
    obtain rfl := stateDiff?_eq_some.mp diff
    have waits : b.Awaited x p := ((mem_connectedFrom shown.depicts).mp listed).1
    obtain ⟨registered, undelivered, _⟩ := orderly.awaited waits
    exact ⟨orderly.passed registered, fun _ => undelivered⟩
  obtain ⟨b', shown', changes, _⟩ : kept [] ls' := by
    refine foldlM_invariant initial ?_ done
    rintro x rest ls ls' ⟨b', shown', changes, each⟩ completed
    obtain ⟨known, undelivered⟩ := each x mem_cons_self
    obtain ⟨_, moved, change, retains, _⟩ := shown'.moveToFailed enc exempt p known (.inl undelivered)
    obtain ⟨last, shown'', further, stays⟩ :=
      moved.tryCompleteStateDiff exempt (change.orderly (changes.orderly orderly)) completed
    refine ⟨last, shown'', (changes.tail change).trans further, ?_⟩
    intro y member
    obtain ⟨known', undelivered'⟩ := each y (mem_cons_of_mem _ member)
    have both := retains.trans stays.toRetains
    exact ⟨Changes.passed (further.head change) known', fun held delivered =>
      undelivered' (both.registered held) (both.delivered delivered)⟩
  exact ⟨b', shown', changes⟩

theorem Shows.failNotificationsOnNode (done : ls.failNotificationsOnNode enc node = .ok ls') : Leads exempt b ls' := by
  let kept (_ : List ConfObj) (ls : LoopState K V) : Prop := Leads exempt b ls
  have initial (ps : List ConfObj) : kept ps ls := ⟨b, shown, .refl⟩
  refine foldlM_invariant (initial _) ?_ done
  rintro p rest ls ls' ⟨b', shown', changes⟩ failed
  obtain ⟨last, shown'', further⟩ : Leads exempt b' ls' := shown'.failNotificationsTo (changes.orderly orderly) failed
  exact ⟨last, shown'', changes.trans further⟩

theorem Shows.serviceEnded (done : ls.serviceEnded enc node svc = .ok ls') : Leads exempt b ls' := by
  cases svc with
  | m0d => exact shown.failNotificationsOnNode orderly done
  | other =>
    cases done
    exact ⟨b, shown, .refl⟩

theorem Shows.ruleNotificationTimeoutReached (epoch : Nat) : Leads exempt b (ls.ruleNotificationTimeoutReached enc epoch) := by
  unfold LoopState.ruleNotificationTimeoutReached
  split
  next => exact ⟨b, shown, .refl⟩
  next found =>
    obtain ⟨last, completed, further, _⟩ := shown.forceCompleteStateDiff (orderly.registered (shown.indexed found))
    exact ⟨last, completed, further⟩

end

theorem reported_ok (shown : ls.Shows b) (orderly : b.Orderly) (done : reported mark epoch fid ls = .ok ls') :
    ls' = ls ∨ ∃ d p, ls.getStateDiffByEpoch epoch = some d ∧ ls.lsGraph.lookupConfObjByFid .Process fid = some p ∧
    b.Registered d ∧
      mark d p ls = .ok ls' := by
  unfold reported at done
  split at done
  next =>
    cases done
    exact .inl rfl
  next d found =>
    split at done
    next =>
      cases done
      exact .inl rfl
    next p known => exact .inr ⟨d, p, found, known, orderly.registered (shown.indexed found), done⟩

end LoopState
end Halon.Mero
