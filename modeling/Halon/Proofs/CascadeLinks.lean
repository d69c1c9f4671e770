import Halon.Library.Traversal
import Halon.Proofs.MeroGraph

/-! Changes of state leave the links of all other resources than configuration objects
alone, whatever follows from them. -/

namespace Halon.Mero
open Library List
variable {K V : Type} [LinearOrder K] [LinearOrder V] {enc : Encoding Relation Resource K V} {rg rg' rg'' : RG K V}

/-- The second graph differs in links that leave configuration objects at most. -/
structure Restated (rg rg' : RG K V) : Prop where
  depicts : ∀ links, Depicts rg.graph links → ∃ links', Depicts rg'.graph links' ∧
    ∀ a s c, (∀ o, a ≠ .conf o) → (links' a s c ↔ links a s c)
  roots : rg'.roots = rg.roots

namespace Restated

theorem refl (rg : RG K V) : Restated rg rg := ⟨fun links depicts => ⟨links, depicts, fun _ _ _ _ => Iff.rfl⟩, rfl⟩

theorem trans (first : Restated rg rg') (second : Restated rg' rg'') : Restated rg rg'' := by
  refine ⟨?_, second.roots.trans first.roots⟩
  intro links depicts
  obtain ⟨middle, shown, same⟩ := first.depicts links depicts
  obtain ⟨last, shown', same'⟩ := second.depicts middle shown
  exact ⟨last, shown', fun a s c other => (same' a s c other).trans (same a s c other)⟩

theorem connect (z : ConfObj) (r : Relation) (y : Resource)
    (free : (cardinality r (Resource.conf z).typeOf y.typeOf).1 = .Unbounded) :
    Restated rg (rg.connect enc schema (.conf z) r y) := by
  refine ⟨?_, Graph.roots_connect⟩
  intro links depicts
  refine ⟨_, depicts.connect (.conf z) r y, ?_⟩
  intro a s c other
  have sources : schema.cardinalityFrom r (schema.typeOf (.conf z)) (schema.typeOf y) = .Unbounded := free
  simp only [Competes, sources, other z, false_and, false_or, reduceCtorEq, and_false, not_false_eq_true, and_true]

theorem setState (x : ConfObj) (st : ObjectState) : Restated rg (rg.setState enc x st) := by
  rcases rg.setState_eq x st with same | ⟨z, set⟩
  · rw [same]
    exact refl rg
  · rw [set]
    exact connect z .Is (.state st) (congrArg Prod.fst (RG.state_single z st))

theorem setFailureVector (pool : ConfObj) (v : List Fid) : Restated rg (rg.setFailureVector enc pool v) :=
  connect pool .Has (.diskFailureVector v) (by cases pool <;> rfl)

theorem foldl {α : Type} {f} (each : ∀ rg x, Restated rg (f rg x)) (xs : List α) (rg : RG K V) :
    Restated rg (xs.foldl f rg) := by
  induction xs generalizing rg with
  | nil => exact refl rg
  | cons x xs ih => exact (each rg x).trans (ih _)

theorem setStates (changes : List AnyStateChange) (rg : RG K V) : Restated rg (setStates enc changes rg) := by
  apply foldl
  intro rg change
  exact setState change.object change.new

theorem updateDiskFailure
    (default : ∀ pool rg, Restated rg (df pool rg)) (updated : RG.updateDiskFailure enc df f disk rg = .ok rg') :
    Restated rg rg' := by
  obtain ⟨_, _, updated⟩ := bind_ok updated
  cases updated
  apply foldl
  intro rg pool
  unfold RG.updateDiskFailure.apply
  split
  next => exact default pool rg
  next =>
    split
    next => exact refl rg
    next => exact setFailureVector _ _

end Restated

def GraphUpdate.Restates (f : GraphUpdate K V) : Prop := ∀ {rg rg'}, f rg = .ok rg' → Restated rg rg'

namespace GraphUpdate
variable {f g : GraphUpdate K V}

theorem restates_ok : Restates (Except.ok : GraphUpdate K V) := by
  intro rg rg' done
  cases done
  exact .refl rg

theorem Restates.andThen (first : f.Restates) (second : g.Restates) : (f.andThen g).Restates := by
  intro rg rg' done
  obtain ⟨_, middle, last⟩ := bind_ok done
  exact (first middle).trans (second last)

end GraphUpdate

/-- Triggers of the rule leave links of other resources alone. -/
def StateCascadeRule.Gentle : StateCascadeRule K V → Prop
  | .rule _ _ _ _ _ => True
  | .trigger _ _ _ fg => ∀ x, (fg x).Restates

def StateCascadeRule.Triggers (holds : GraphUpdate K V → Prop) : StateCascadeRule K V → Prop
  | .rule _ _ _ _ _ => True
  | .trigger _ _ _ fg => ∀ x, holds (fg x)

open StateCascadeRule in
theorem triggers_rules {holds : GraphUpdate K V → Prop} (adds : (diskAddToFailureVector enc).Triggers holds)
    (removes : (diskRemoveFromFailureVector enc).Triggers holds) : ∀ rule ∈ stateCascadeRules enc, rule.Triggers holds := by
  unfold stateCascadeRules enclosureCascadeControllerRules iosFailsController
  simp only [cons_append, nil_append, forall_mem_cons]
  exact ⟨trivial, trivial, trivial, trivial, trivial, trivial, trivial, adds, removes, trivial, trivial, trivial,
    trivial, trivial,
    trivial, trivial, trivial, nofun⟩

theorem gentle_rules : ∀ rule ∈ stateCascadeRules enc, rule.Gentle := by
  have restates : ∀ rule ∈ stateCascadeRules enc, rule.Triggers GraphUpdate.Restates := by
    apply triggers_rules
    · exact fun x rg rg' done => Restated.updateDiskFailure (fun pool rg => .setFailureVector pool _) done
    · exact fun x rg rg' done => Restated.updateDiskFailure (fun _ rg => .refl rg) done
  intro rule member
  have triggers := restates rule member
  cases rule <;> exact triggers

section
variable {holds : GraphUpdate K V → Prop} {topFids : List Fid} {rounds : Nat}

theorem triggers_applyCascadeRule (triggers : rule.Triggers holds)
    (applied : applyCascadeRule rg topFids change rule = .ok result) :
    ∀ f ∈ result.1, holds f := by
  cases rule with
  | rule =>
    simp only [applyCascadeRule] at applied
    split at applied
    · obtain ⟨_, _, applied⟩ := bind_ok applied
      cases applied
      nofun
    · cases applied
      nofun
  | trigger =>
    simp only [applyCascadeRule] at applied
    split at applied
    · cases applied
      intro f triggered
      cases triggered
      exact triggers change.object
    · cases applied
      nofun

theorem holds_foldl (compose : ∀ f g, holds f → holds g → holds (f.andThen g)) {fs : List (GraphUpdate K V)}
    (first : holds f) (each : ∀ g ∈ fs, holds g) : holds (fs.foldl GraphUpdate.andThen f) := by
  induction fs generalizing f with
  | nil => exact first
  | cons g fs ih =>
    exact ih (compose f g first (each g mem_cons_self)) fun other member => each other (mem_cons_of_mem _ member)

theorem holds_go (compose : ∀ f g, holds f → holds g → holds (f.andThen g))
    (triggers : ∀ rule ∈ stateCascadeRules enc, rule.Triggers holds) (before : holds old_f)
    (done : cascadeStateChange.go enc rg topFids rounds new_cgs acc old_f = .ok result) :
    holds result.1 := by
  induction rounds generalizing new_cgs acc old_f with
  | zero =>
    unfold cascadeStateChange.go at done
    split at done
    · cases done
      exact before
    · cases done
  | succ _ ih =>
    unfold cascadeStateChange.go at done
    split at done
    · cases done
      exact before
    · obtain ⟨_, applied, rest⟩ := bind_ok done
      refine ih (holds_foldl compose before ?_) rest
      intro f member
      obtain ⟨_, inside, found⟩ := mem_filterMap.mp member
      obtain ⟨_, listed, applied⟩ := mem_of_mapM applied inside
      obtain ⟨_, _, listed⟩ := mem_flatMap.mp listed
      obtain ⟨_, known, rfl⟩ := mem_map.mp listed
      exact triggers_applyCascadeRule (triggers _ known) applied f found

theorem created_update (nothing : holds .ok) (compose : ∀ f g, holds f → holds g → holds (f.andThen g))
    (triggers : ∀ rule ∈ stateCascadeRules enc, rule.Triggers holds)
    (created : createDeferredStateChanges enc rounds sets rg = .ok (wrns, changes)) :
    ∃ triggered, holds triggered ∧ ∀ rg', changes.update rg' = triggered (setStates enc changes.changes.reverse rg') := by
  obtain ⟨cascades, all, created⟩ := bind_ok created
  cases created
  refine ⟨(cascades.map Prod.fst).foldl GraphUpdate.andThen .ok, holds_foldl compose nothing ?_, fun rg' => ?_⟩
  · intro f member
    obtain ⟨_, inside, rfl⟩ := mem_map.mp member
    obtain ⟨_, _, cascaded⟩ := mem_of_mapM all inside
    exact holds_go compose triggers nothing cascaded
  · rw [reverse_reverse]

end

theorem restates_createDeferredStateChanges
    (created : createDeferredStateChanges enc rounds sets rg = .ok (wrns, changes)) : changes.update.Restates := by
  have triggers : ∀ rule ∈ stateCascadeRules enc, rule.Triggers GraphUpdate.Restates := by
    intro rule member
    have gentle := gentle_rules rule member
    cases rule <;> exact gentle
  have compose (f g : GraphUpdate K V) (first : f.Restates) (second : g.Restates) : (f.andThen g).Restates := first.andThen second
  obtain ⟨_, restates, same⟩ := created_update (@GraphUpdate.restates_ok K V _ _) @compose triggers created
  intro rg' rg'' updated
  rw [same] at updated
  exact (Restated.setStates _ rg').trans (restates updated)

end Halon.Mero
