import Mathlib.Algebra.Order.Ring.Int
import Mathlib.Data.List.TakeDrop

/-! Cutting a list into batches of limited size. A batch has as many items as fit
in the limit, and at least one. -/

namespace Halon.Library
open List

variable {α : Type}

/-- Every item with the size of the items up to it. -/
def runningTotals (size : α → Nat) (total : Nat) : List α → List (Nat × α)
  | [] => []
  | x :: xs => (total + size x, x) :: runningTotals size (total + size x) xs

/-- The items that fit in the limit, or else the first one, and the items after them. -/
def takeBatch (size : α → Nat) (limit : Nat) (xs : List α) : List α × List α :=
  let fitting := (runningTotals size 0 xs).span fun entry => decide (entry.1 ≤ limit)
  let p := (fitting.1.map Prod.snd, fitting.2.map Prod.snd)
  if p.1.isEmpty then p.2.splitAt 1 else p

variable {size : α → Nat} {limit : Nat}

theorem runningTotals_items (total : Nat) (xs : List α) : (runningTotals size total xs).map Prod.snd = xs := by
  induction xs generalizing total with
  | nil => rfl
  | cons x xs ih => rw [runningTotals, map_cons, ih]

private theorem takeWhile_limit (total : Nat) (xs : List α) :
    let taken := ((runningTotals size total xs).takeWhile fun entry => decide (entry.1 ≤ limit)).map Prod.snd
    taken = [] ∨ total + (taken.map size).sum ≤ limit := by
  induction xs generalizing total with
  | nil => exact .inl rfl
  | cons x xs ih =>
    dsimp only [runningTotals] at ih ⊢
    by_cases fits : total + size x ≤ limit
    · right
      rw [takeWhile_cons_of_pos (by simpa using fits), map_cons, map_cons, sum_cons]
      rcases ih (total + size x) with empty | within
      · rw [empty]
        exact fits
      · dsimp only
        omega
    · left
      rw [takeWhile_cons_of_neg (by simpa using fits), map_nil]

theorem takeBatch_cases (size : α → Nat) (limit : Nat) (xs : List α) : takeBatch size limit xs = (xs.take 1, xs.drop 1) ∨
    (takeBatch size limit xs).1 ≠ [] ∧ (takeBatch size limit xs).1 ++ (takeBatch size limit xs).2 = xs ∧
      ((takeBatch size limit xs).1.map size).sum ≤ limit := by
  have parts := congrArg (List.map Prod.snd) (List.takeWhile_append_dropWhile (p := fun entry => decide (entry.1 ≤ limit))
    (l := runningTotals size 0 xs))
  rw [List.map_append, runningTotals_items] at parts
  unfold takeBatch
  rw [List.span_eq_takeWhile_dropWhile]
  dsimp only
  split
  next empty =>
    rw [List.isEmpty_iff.mp empty, List.nil_append] at parts
    rw [List.splitAt_eq, parts]
    exact .inl rfl
  next filled =>
    rw [List.isEmpty_iff] at filled
    have within := (takeWhile_limit 0 xs).resolve_left filled
    exact .inr ⟨filled, parts, by simpa using within⟩

theorem takeBatch_append (xs : List α) : (takeBatch size limit xs).1 ++ (takeBatch size limit xs).2 = xs := by
  rcases takeBatch_cases size limit xs with first | ⟨_, parts, _⟩
  · rw [first, take_append_drop]
  · exact parts

theorem takeBatch_limit (xs : List α) :
    ((takeBatch size limit xs).1.map size).sum ≤ limit ∨ (takeBatch size limit xs).1.length = 1 := by
  rcases takeBatch_cases size limit xs with first | ⟨_, _, within⟩
  · rw [first]
    cases xs with
    | nil => exact .inl (Nat.zero_le limit)
    | cons => exact .inr rfl
  · exact .inl within

theorem takeBatch_shorter (filled : xs ≠ []) : (takeBatch size limit xs).2.length < xs.length := by
  have positive := length_pos_iff.mpr filled
  rcases takeBatch_cases size limit xs with first | ⟨taken, parts, _⟩
  · rw [first, length_drop]
    omega
  · have lengths := congrArg List.length parts
    rw [length_append] at lengths
    have taken := length_pos_iff.mpr taken
    omega

def batchesOf (size : α → Nat) (limit : Nat) (xs : List α) : List (List α) :=
  if _ : xs = [] then [] else (takeBatch size limit xs).1 :: batchesOf size limit (takeBatch size limit xs).2
termination_by xs.length
decreasing_by exact takeBatch_shorter (by assumption)

theorem batchesOf_nil : batchesOf size limit [] = [] := by
  rw [batchesOf, dif_pos rfl]

theorem batchesOf_of_ne_nil (filled : xs ≠ []) :
    batchesOf size limit xs = (takeBatch size limit xs).1 :: batchesOf size limit (takeBatch size limit xs).2 := by
  rw [batchesOf, dif_neg filled]

theorem flatten_batchesOf (xs : List α) : (batchesOf size limit xs).flatten = xs := by
  by_cases filled : xs = []
  · rw [filled, batchesOf_nil, flatten_nil]
  · rw [batchesOf_of_ne_nil filled, flatten_cons, flatten_batchesOf, takeBatch_append]
termination_by xs.length
decreasing_by exact takeBatch_shorter filled

theorem batchesOf_limit (xs : List α) : ∀ batch ∈ batchesOf size limit xs, (batch.map size).sum ≤ limit ∨ batch.length = 1 := by
  by_cases filled : xs = []
  · rw [filled, batchesOf_nil]
    exact nofun
  · rw [batchesOf_of_ne_nil filled]
    intro batch member
    rcases mem_cons.mp member with rfl | member
    · exact takeBatch_limit xs
    · exact batchesOf_limit _ batch member
termination_by xs.length
decreasing_by exact takeBatch_shorter filled

end Halon.Library
