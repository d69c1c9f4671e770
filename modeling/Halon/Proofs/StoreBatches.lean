import Halon.MultimapProcess

/-! Applying updates in batches. The values of the store do not depend on how the
updates are batched. The metadata does: of several `SetMetaInfo` in a batch the
first counts, and of several batches with one the last. -/

namespace Halon
open Library List

variable {K V : Type} {xs ys us : List (StoreUpdate K V)}

def firstMeta (us : List (StoreUpdate K V)) : Option (MetaInfo K) := (us.filterMap StoreUpdate.metaInfo).head?

theorem firstMeta_append : firstMeta (xs ++ ys) = (firstMeta xs).or (firstMeta ys) := by
  unfold firstMeta
  rw [filterMap_append, List.head?_append]

def Uniform (us : List (StoreUpdate K V)) : Prop :=
  ∀ mi ∈ us.filterMap StoreUpdate.metaInfo, ∀ mi' ∈ us.filterMap StoreUpdate.metaInfo, mi = mi'

instance [DecidableEq K] : Decidable (Uniform us) :=
  inferInstanceAs (Decidable (∀ _ ∈ _, ∀ _ ∈ _, _ = _))

theorem Uniform.left (uniform : Uniform (xs ++ ys)) : Uniform xs := by
  intro mi first mi' second
  rw [Uniform, filterMap_append] at uniform
  exact uniform mi (mem_append_left _ first) mi' (mem_append_left _ second)

theorem Uniform.right (uniform : Uniform (xs ++ ys)) : Uniform ys := by
  intro mi first mi' second
  rw [Uniform, filterMap_append] at uniform
  exact uniform mi (mem_append_right _ first) mi' (mem_append_right _ second)

variable [LinearOrder K] [LinearOrder V] {store : StoreState K V}

theorem updateStore_eq : updateStore us store =
    ((firstMeta us).getD store.1, us.foldl (fun mm u => applyUpdate u mm) store.2) := rfl

theorem updateStore_append : updateStore (xs ++ ys) store = updateStore ys (updateStore xs store) ↔
    ∀ mi ∈ firstMeta xs, ∀ mi' ∈ firstMeta ys, mi = mi' := by
  simp only [updateStore_eq, foldl_append, firstMeta_append, Prod.mk.injEq, and_true]
  cases firstMeta xs with
  | none => simp
  | some =>
    cases firstMeta ys with
    | none | some => simp

theorem Uniform.updateStore_append (uniform : Uniform (xs ++ ys)) :
    updateStore (xs ++ ys) store = updateStore ys (updateStore xs store) := by
  refine Halon.updateStore_append.mpr ?_
  intro mi first mi' second
  rw [Uniform, filterMap_append] at uniform
  exact uniform mi (mem_append_left _ (mem_of_head? first)) mi' (mem_append_right _ (mem_of_head? second))

def applyRequests (requests : List (UpdateRequest K V)) (store : StoreState K V) : StoreState K V :=
  requests.foldl (fun store request => updateStore request.updates store) store

theorem applyRequests_append (first second : List (UpdateRequest K V)) :
    applyRequests (first ++ second) store = applyRequests second (applyRequests first store) := foldl_append

theorem applyRequests_flatten (uniform : Uniform (requests.map UpdateRequest.updates).flatten) :
    applyRequests requests store = updateStore (requests.map UpdateRequest.updates).flatten store := by
  induction requests generalizing store with
  | nil => rfl
  | cons _ rest ih =>
    rw [map_cons, flatten_cons] at uniform ⊢
    rw [uniform.updateStore_append]
    exact ih uniform.right

namespace MultimapProcess
variable {size : StoreUpdate K V → Nat} {p p' : MultimapProcess K V}

/-- The requests that the process has read and not finished, in the order of their arrival. -/
def Phase.taken : Phase K V → List (UpdateRequest K V)
  | .waiting => []
  | .reading acc | .replicating _ acc => acc.reverse

/-- The store when some requests are finished: what they make of it one by one, with those updates applied
to it that are submitted already. -/
def Phase.Reached (finished store : StoreState K V) : Phase K V → Prop
  | .waiting | .reading _ => store = finished
  | .replicating rs acc => Uniform (acc.reverse.map UpdateRequest.updates).flatten ∧
      ∃ submitted, submitted ++ rs = (acc.reverse.map UpdateRequest.updates).flatten ∧ store = updateStore submitted finished

structure Accounts (initial : StoreState K V) (handled : List (UpdateRequest K V)) (p : MultimapProcess K V) : Prop where
  arrived : p.arrived = handled ++ p.phase.taken ++ p.wchan
  store : p.phase.Reached (applyRequests handled initial) p.store

/-- The requests that are replicated together do not set different metadata. -/
def Agreeing (p : MultimapProcess K V) : Action K V → Prop
  | .replicate => Uniform (p.phase.taken.map UpdateRequest.updates).flatten
  | _ => True

instance (p : MultimapProcess K V) : (action : Action K V) → Decidable (p.Agreeing action)
  | .replicate => inferInstanceAs (Decidable (Uniform (p.phase.taken.map UpdateRequest.updates).flatten))
  | .write _ | .read | .submit => isTrue trivial

theorem submit_accounts (accounts : p.Accounts initial handled) (moves : step size p .submit = some p') :
    ∃ handled', p'.Accounts initial handled' := by
  obtain ⟨arrived, reached⟩ := accounts
  unfold step at moves
  dsimp only at moves
  split at moves
  next rs acc replicating =>
    rw [replicating] at arrived reached
    obtain ⟨uniform, submitted, together, stored⟩ := reached
    have picked : (pickBatch size rs).1 ++ (pickBatch size rs).2 = rs := takeBatch_append rs
    rw [← picked, ← append_assoc] at together
    have applied : updateStore (pickBatch size rs).1 p.store =
        updateStore (submitted ++ (pickBatch size rs).1) (applyRequests handled initial) := by
      have whole : Uniform (submitted ++ (pickBatch size rs).1 ++ (pickBatch size rs).2) := together ▸ uniform
      rw [stored, whole.left.updateStore_append]
    split at moves
    next last =>
      cases moves
      rw [isEmpty_iff.mp last, append_nil] at together
      refine ⟨handled ++ acc.reverse, ?_, ?_⟩
      · change p.arrived = handled ++ acc.reverse ++ [] ++ p.wchan
        rw [arrived, append_nil]
        rfl
      · change updateStore (pickBatch size rs).1 p.store = applyRequests (handled ++ acc.reverse) initial
        rw [applied, together, applyRequests_append, applyRequests_flatten uniform]
    next =>
      cases moves
      exact ⟨handled, arrived, uniform, submitted ++ (pickBatch size rs).1, together, applied⟩
  next => cases moves

theorem step_accounts
    (accounts : p.Accounts initial handled) (agreeing : p.Agreeing action) (moves : step size p action = some p') :
    ∃ handled', p'.Accounts initial handled' := by
  cases action with
  | write =>
    cases moves
    refine ⟨handled, ?_, accounts.store⟩
    rw [accounts.arrived, append_assoc]
  | read =>
    obtain ⟨arrived, reached⟩ := accounts
    unfold step at moves
    dsimp only at moves
    split at moves
    next request rest waiting pending =>
      cases moves
      rw [waiting] at arrived reached
      refine ⟨handled, ?_, reached⟩
      change p.arrived = handled ++ [request] ++ rest
      rw [arrived, pending]
      simp [Phase.taken]
    next acc request rest reading pending =>
      cases moves
      rw [reading] at arrived reached
      refine ⟨handled, ?_, reached⟩
      change p.arrived = handled ++ (request :: acc).reverse ++ rest
      rw [arrived, pending]
      simp [Phase.taken]
    next => cases moves
  | replicate =>
    obtain ⟨arrived, reached⟩ := accounts
    unfold step at moves
    dsimp only at moves
    split at moves
    next reading empty =>
      cases moves
      rw [Agreeing, reading] at agreeing
      rw [reading] at arrived reached
      refine ⟨handled, arrived, agreeing, [], ?_, reached⟩
      rw [nil_append, map_reverse]
    next => cases moves
  | submit => exact submit_accounts accounts moves

theorem run_accounts (run : Run (step size) Agreeing (start store) p) : ∃ handled, p.Accounts store handled := by
  apply run.invariant
  · exact ⟨[], rfl, rfl⟩
  · intro before action after accounts agreeing moves
    obtain ⟨_, accounts⟩ := accounts
    exact step_accounts accounts agreeing moves

/-- Two lists of updates have the same effect together and one after the other if and only if they do not both set
metadata that is different. When requests that are replicated together do not set different metadata, the store is
always what the requests that the process finished make of it one by one, in the order of their arrival. -/
theorem batching_transparent : (∀ (xs ys : List (StoreUpdate K V)) (store : StoreState K V),
      updateStore (xs ++ ys) store = updateStore ys (updateStore xs store) ↔
        ∀ mi ∈ firstMeta xs, ∀ mi' ∈ firstMeta ys, mi = mi') ∧
    ∀ (size : StoreUpdate K V → Nat) (store : StoreState K V) (p : MultimapProcess K V),
      Run (step size) Agreeing (start store) p → p.phase = .waiting →
        ∃ handled, p.arrived = handled ++ p.wchan ∧ p.store = applyRequests handled store := by
  refine ⟨fun _ _ _ => updateStore_append, ?_⟩
  intro size store p run waiting
  obtain ⟨handled, arrived, reached⟩ := run_accounts run
  rw [waiting] at arrived reached
  refine ⟨handled, ?_, reached⟩
  rw [arrived]
  simp [Phase.taken]

namespace Example

def setting (n : Int) : StoreUpdate Nat Nat := .setMetaInfo ⟨n, 100, []⟩

def blank : MetaInfo Nat × Multimap Nat Nat := (defaultMetaInfo, .empty)

def together (first second : StoreUpdate Nat Nat) : List (Action Nat Nat) :=
  [.write ⟨[first], 0⟩, .write ⟨[second], 1⟩, .read, .read, .replicate, .submit]

end Example

open Example in
theorem batching_transparent_twice : ∃ p : MultimapProcess Nat Nat, Run (step fun _ => 1) Agreeing (start blank) p ∧
    p.wchan = [] ∧ p.store.1 = ⟨3, 100, []⟩ ∧ ∃ handled, p.arrived = handled ++ p.wchan ∧
    p.store = applyRequests handled blank := by
  obtain ⟨p, run, waiting, empty, set⟩ : ∃ p : MultimapProcess Nat Nat, Run (step fun _ => 1) Agreeing (start blank) p ∧
      p.phase = .waiting ∧ p.wchan = [] ∧ p.store.1 = ⟨3, 100, []⟩ :=
    exists_run (together (.insertMany [(1, [7])]) (setting 3)) (by decide)
  exact ⟨p, run, empty, set, batching_transparent.2 _ blank p run waiting⟩

open Example in
/-- Of two requests that set metadata, the first one counts when they are replicated together. -/
theorem batching_keeps_first : ¬ ((∀ (xs ys : List (StoreUpdate Nat Nat)) (store : MetaInfo Nat × Multimap Nat Nat),
      updateStore (xs ++ ys) store = updateStore ys (updateStore xs store)) ∨
    ∀ (size : StoreUpdate Nat Nat → Nat) (store : MetaInfo Nat × Multimap Nat Nat) (p : MultimapProcess Nat Nat),
      Run (step size) (fun _ _ => True) (start store) p → p.phase = .waiting →
        ∃ handled, p.arrived = handled ++ p.wchan ∧ p.store = applyRequests handled store) := by
  rintro (law | transparent)
  · exact absurd (law [setting 1] [setting 2] blank) (by decide)
  · obtain ⟨p, run, waiting, empty, different⟩ : ∃ p : MultimapProcess Nat Nat, Run (step fun _ => 1) (fun _ _ => True)
        (start blank) p ∧ p.phase = .waiting ∧ p.wchan = [] ∧ p.store ≠ applyRequests p.arrived blank :=
      exists_run (together (setting 1) (setting 2)) (by decide)
    obtain ⟨_, arrived, stored⟩ := transparent _ blank p run waiting
    rw [empty, append_nil] at arrived
    exact different (arrived ▸ stored)

end MultimapProcess
end Halon
