import Mathlib.Data.List.Nodup
import Mathlib.Data.List.Pairwise
import Mathlib.Data.Set.Basic

/-! Spreading from a start, round by round. An element is left out when one with its key is
known from a round before; elements of the same round are not compared with each other. -/

namespace Halon.Library
open List

variable {α κ : Type} (next : α → List α) (key : α → κ) (start : α)

/-- What is new in a round and what is known after it. -/
def spread : Nat → Set α × Set α
  | 0 => ({start}, {start})
  | k + 1 =>
    let found := { x | (∃ y ∈ (spread k).1, x ∈ next y) ∧ ∀ z ∈ (spread k).2, key x ≠ key z }
    (found, found ∪ (spread k).2)

def Reached (x : α) : Prop := ∃ k, x ∈ (spread next key start k).1

/-- Two elements that are both new after a round and have the same key. -/
def Clash (k : Nat) (x x' : α) : Prop := (∀ z ∈ (spread next key start k).2, key x ≠ key z) ∧ key x = key x'

/-- No round finds a key twice, neither from one element nor from two. -/
structure Unmet : Prop where
  one : ∀ k, ∀ y ∈ (spread next key start k).1, (next y).Pairwise fun x x' => ¬ Clash next key start k x x'
  two : ∀ k, ∀ y ∈ (spread next key start k).1, ∀ y' ∈ (spread next key start k).1, y ≠ y' →
    ∀ x ∈ next y, ∀ x' ∈ next y', ¬ Clash next key start k x x'

variable [DecidableEq κ]

/-- The same as lists, with every way to an element. -/
def layers : Nat → List α × List α
  | 0 => ([start], [start])
  | k + 1 =>
    let found := ((layers k).1.flatMap next).filter fun x => (layers k).2.all fun z => key x ≠ key z
    (found, found ++ (layers k).2)

variable {next key start}

theorem mem_layers (k : Nat) (x : α) :
    (x ∈ (layers next key start k).1 ↔ x ∈ (spread next key start k).1) ∧
      (x ∈ (layers next key start k).2 ↔ x ∈ (spread next key start k).2) := by
  induction k generalizing x with
  | zero => exact ⟨mem_singleton, mem_singleton⟩
  | succ k ih =>
    have found : x ∈ (layers next key start (k + 1)).1 ↔ x ∈ (spread next key start (k + 1)).1 := by
      simp only [layers, spread, mem_filter, mem_flatMap, all_eq_true, decide_eq_true_eq, Set.mem_ofPred_eq]
      simp only [fun y => (ih y).1, fun y => (ih y).2]
    refine ⟨found, ?_⟩
    simp only [layers, spread, mem_append, Set.mem_union]
    exact or_congr found (ih x).2

theorem found_fresh (found : x ∈ (layers next key start (k + 1)).1) (known : z ∈ (layers next key start k).2) :
    key x ≠ key z := of_decide_eq_true (all_eq_true.mp (mem_filter.mp found).2 z known)

theorem nodup_known (k : Nat) : ((layers next key start (k + 1)).2.map key).Nodup ↔
    ((layers next key start (k + 1)).1.map key).Nodup ∧ ((layers next key start k).2.map key).Nodup := by
  have split : (layers next key start (k + 1)).2 = (layers next key start (k + 1)).1 ++ (layers next key start k).2 := rfl
  rw [split, map_append, nodup_append]
  refine and_congr_right fun _ => and_iff_left ?_
  intro a found b known same
  obtain ⟨x, new, rfl⟩ := mem_map.mp found
  obtain ⟨z, old, rfl⟩ := mem_map.mp known
  exact found_fresh new old same

theorem nodup_found (distinct : (layers next key start k).1.Nodup) :
    ((layers next key start (k + 1)).1.map key).Nodup ↔
      (∀ y ∈ (spread next key start k).1, (next y).Pairwise fun x x' => ¬ Clash next key start k x x') ∧
      ∀ y ∈ (spread next key start k).1, ∀ y' ∈ (spread next key start k).1, y ≠ y' →
        ∀ x ∈ next y, ∀ x' ∈ next y', ¬ Clash next key start k x x' := by
  have known (z : α) : z ∈ (layers next key start k).2 ↔ z ∈ (spread next key start k).2 := (mem_layers k z).2
  have new (y : α) : y ∈ (layers next key start k).1 ↔ y ∈ (spread next key start k).1 := (mem_layers k y).1
  have clash (x x' : α) : ((layers next key start k).2.all (fun z => decide (key x ≠ key z)) = true →
      (layers next key start k).2.all (fun z => decide (key x' ≠ key z)) = true → key x ≠ key x') ↔
        ¬ Clash next key start k x x' := by
    simp only [all_eq_true, decide_eq_true_eq, known]
    refine ⟨fun apart ⟨fresh, same⟩ => ?_, fun apart fresh _ same => apart ⟨fresh, same⟩⟩
    exact apart fresh (same ▸ fresh) same
  have found : (layers next key start (k + 1)).1 =
      ((layers next key start k).1.flatMap next).filter fun x => (layers next key start k).2.all fun z => key x ≠ key z := rfl
  rw [List.Nodup, pairwise_map, found, pairwise_filter, pairwise_flatMap]
  simp only [clash, new]
  refine and_congr_right fun _ => ⟨fun pairs y here y' here' different => ?_, fun pairs => ?_⟩
  · have symmetric : Std.Symm fun y y' => ∀ x ∈ next y, ∀ x' ∈ next y', ¬ Clash next key start k x x' := by
      refine ⟨fun y y' apart x' member x member' met => apart x member' x' member ?_⟩
      exact ⟨fun z z_known => met.2 ▸ met.1 z z_known, met.2.symm⟩
    exact pairs.forall ((new y).mpr here) ((new y').mpr here') different
  · apply distinct.pairwise_of_forall_ne
    intro y here y' here'
    exact pairs y ((new y).mp here) y' ((new y').mp here')

/-- All keys are found once exactly if no two steps of a round meet. -/
theorem nodup_layers : (∀ k, ((layers next key start k).2.map key).Nodup) ↔ Unmet next key start := by
  constructor
  · intro known
    have found (k : Nat) := (nodup_known k).mp (known (k + 1))
    have each (k : Nat) : (layers next key start k).1.Nodup := by
      cases k with
      | zero => exact nodup_singleton start
      | succ k => exact (found k).1.of_map key
    exact ⟨fun k => ((nodup_found (each k)).mp (found k).1).1, fun k => ((nodup_found (each k)).mp (found k).1).2⟩
  · intro unmet
    have found (k : Nat) : ((layers next key start k).1.map key).Nodup := by
      induction k with
      | zero => exact nodup_singleton _
      | succ k ih => exact (nodup_found (ih.of_map key)).mpr ⟨unmet.one k, unmet.two k⟩
    intro k
    induction k with
    | zero => exact nodup_singleton _
    | succ k ih => exact (nodup_known k).mpr ⟨found (k + 1), ih⟩

theorem layers_stay (nothing : (layers next key start k).1 = []) (more : Nat) :
    layers next key start (k + more) = ([], (layers next key start k).2) := by
  induction more with
  | zero => exact Prod.ext nothing rfl
  | succ more ih =>
    rw [← Nat.add_assoc, layers, ih]
    rfl

theorem nodup_final (nothing : (layers next key start k).1 = []) :
    ((layers next key start k).2.map key).Nodup ↔ Unmet next key start := by
  rw [← nodup_layers]
  refine ⟨fun final j => ?_, fun all => all k⟩
  rcases Nat.le_total j k with before | after
  · obtain ⟨more, rfl⟩ := Nat.exists_eq_add_of_le before
    clear nothing before
    induction more with
    | zero => exact final
    | succ more ih => exact ih ((nodup_known (j + more)).mp final).2
  · obtain ⟨_, rfl⟩ := Nat.exists_eq_add_of_le after
    rw [layers_stay nothing]
    exact final

theorem mem_known (k : Nat) (x : α) : x ∈ (layers next key start k).2 ↔ ∃ j ≤ k, x ∈ (layers next key start j).1 := by
  induction k with
  | zero =>
    constructor
    · exact fun member => ⟨0, Nat.le_refl 0, member⟩
    · intro ⟨j, within, member⟩
      rwa [Nat.le_zero.mp within] at member
  | succ k ih =>
    refine mem_append.trans ?_
    rw [ih]
    constructor
    · intro either
      rcases either with new | ⟨j, within, member⟩
      · exact ⟨k + 1, Nat.le_refl _, new⟩
      · exact ⟨j, Nat.le_succ_of_le within, member⟩
    · intro ⟨j, within, member⟩
      rcases Nat.lt_or_eq_of_le within with before | rfl
      · exact .inr ⟨j, Nat.le_of_lt_succ before, member⟩
      · exact .inl member

theorem mem_final (nothing : (layers next key start k).1 = []) :
    x ∈ (layers next key start k).2 ↔ Reached next key start x := by
  rw [mem_known]
  constructor
  · intro ⟨j, _, member⟩
    exact ⟨j, (mem_layers j x).1.mp member⟩
  · intro ⟨j, member⟩
    have listed := (mem_layers j x).1.mpr member
    refine ⟨j, ?_, listed⟩
    apply Nat.le_of_not_lt
    intro after
    obtain ⟨_, rfl⟩ := Nat.exists_eq_add_of_le (Nat.le_of_lt after)
    rw [layers_stay nothing] at listed
    cases listed

end Halon.Library
