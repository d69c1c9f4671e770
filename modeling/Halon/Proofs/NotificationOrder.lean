import Halon.Mero.StateDiff

/-! The order of the notes of a notification. Comparing two fids compares where their types
stand in the list of types, and then the fids. -/

namespace Halon.Mero
open Library List

variable {ordering : List Nat} {f1 f2 f3 : Fid}

/-- Where the type of a fid is first listed; all types that are not listed stand behind. -/
def listedAt (ordering : List Nat) (f : Fid) : Nat := ordering.idxOf (fidToFidType f)

theorem mem_takeWhile_iff (listed : x ∈ ordering) :
    y ∈ ordering.takeWhile (· ≠ x) ↔ ordering.idxOf y < ordering.idxOf x := by
  induction ordering with
  | nil => cases listed
  | cons z zs ih =>
    by_cases stops : z = x
    · subst stops
      simp
    · have later : x ∈ zs := (mem_cons.mp listed).resolve_left (Ne.symm stops)
      rw [takeWhile_cons_of_pos (by simpa using stops), mem_cons, ih later, idxOf_cons_ne _ stops]
      by_cases here : z = y
      · subst here
        simp
      · rw [idxOf_cons_ne _ here, Nat.succ_lt_succ_iff]
        exact or_iff_right (Ne.symm here)

theorem listedAt_lt (listed : fidToFidType f1 ∈ ordering) (unlisted : fidToFidType f2 ∉ ordering) :
    listedAt ordering f1 < listedAt ordering f2 := by
  rw [listedAt, listedAt, idxOf_eq_length unlisted]
  exact idxOf_lt_length_of_mem listed

theorem sorter_eq (ordering : List Nat) (f1 f2 : Fid) :
    orderSet.sorter ordering f1 f2 = (compare (listedAt ordering f1) (listedAt ordering f2)).then (f1.compare f2) := by
  rw [orderSet.sorter]
  split
  next same => rw [listedAt, listedAt, same, Nat.compare_eq_eq.mpr rfl, Ordering.eq_then]
  next differ =>
    split
    next listed =>
      split
      next before =>
        have earlier : listedAt ordering f2 < listedAt ordering f1 := (mem_takeWhile_iff listed).mp before
        rw [Nat.compare_eq_gt.mpr earlier, Ordering.gt_then]
      next behind =>
        have apart : listedAt ordering f1 ≠ listedAt ordering f2 := fun equal => differ ((idxOf_inj listed).mp equal)
        have earlier : ¬ listedAt ordering f2 < listedAt ordering f1 :=
          fun before => behind ((mem_takeWhile_iff listed).mpr before)
        rw [Nat.compare_eq_lt.mpr (by omega), Ordering.lt_then]
    next unlisted =>
      split
      next listed => rw [Nat.compare_eq_gt.mpr (listedAt_lt listed unlisted), Ordering.gt_then]
      next neither =>
        rw [listedAt, listedAt, idxOf_eq_length unlisted, idxOf_eq_length neither, Nat.compare_eq_eq.mpr rfl, Ordering.eq_then]

theorem then_ne_gt {a b : Nat} : (compare a b).then o ≠ .gt ↔ a < b ∨ a = b ∧ o ≠ .gt := by
  rcases Nat.lt_trichotomy a b with below | rfl | above
  · simp [Nat.compare_eq_lt.mpr below, below]
  · simp
  · rw [Nat.compare_eq_gt.mpr above, Ordering.gt_then]
    simp only [ne_eq, not_true_eq_false, false_iff]
    omega

theorem compare_ne_gt {a b : Nat} : compare a b ≠ .gt ↔ a ≤ b := by
  rw [Ne, Nat.compare_eq_gt]
  omega

theorem sorter_ne_gt : orderSet.sorter ordering f1 f2 ≠ .gt ↔ listedAt ordering f1 < listedAt ordering f2 ∨
    listedAt ordering f1 = listedAt ordering f2 ∧ f1.compare f2 ≠ .gt := by
  rw [sorter_eq, then_ne_gt]

theorem Fid.compare_ne_gt : f1.compare f2 ≠ .gt ↔ f1.f_container < f2.f_container ∨ f1.f_container = f2.f_container ∧
    f1.f_key ≤ f2.f_key := by
  rw [Fid.compare, then_ne_gt, Halon.Mero.compare_ne_gt]

theorem sorter_trans (first : orderSet.sorter ordering f1 f2 ≠ .gt) (second : orderSet.sorter ordering f2 f3 ≠ .gt) :
    orderSet.sorter ordering f1 f3 ≠ .gt := by
  rw [sorter_ne_gt, Fid.compare_ne_gt] at first second ⊢
  omega

theorem sorter_total (ordering : List Nat) (f1 f2 : Fid) :
    orderSet.sorter ordering f1 f2 ≠ .gt ∨ orderSet.sorter ordering f2 f1 ≠ .gt := by
  rw [sorter_ne_gt, sorter_ne_gt, Fid.compare_ne_gt, Fid.compare_ne_gt]
  omega

theorem sorter_swap (ordering : List Nat) (f1 f2 : Fid) : orderSet.sorter ordering f2 f1 =
    (orderSet.sorter ordering f1 f2).swap := by
  rw [sorter_eq, sorter_eq, Ordering.swap_then, Nat.compare_swap, Fid.compare, Fid.compare, Ordering.swap_then, Nat.compare_swap,
    Nat.compare_swap]

theorem sorter_places (first : orderSet.sorter ordering f1 f2 ≠ .gt) : listedAt ordering f1 ≤ listedAt ordering f2 ∧
    (fidToFidType f2 ∈ ordering → fidToFidType f1 ∈ ordering) ∧ (fidToFidType f1 = fidToFidType f2 → f1.compare f2 ≠ .gt) := by
  have placed := sorter_ne_gt.mp first
  refine ⟨by omega, ?_, ?_⟩
  · intro listed
    by_contra unlisted
    have behind := listedAt_lt listed unlisted
    omega
  · intro same
    have equal : listedAt ordering f1 = listedAt ordering f2 := congrArg ordering.idxOf same
    exact (placed.resolve_left (by omega)).2

/-- Comparing is a total preorder, and the notes are sorted by the place of their types and then by fid. -/
theorem orderSet_sorted (ordering : List Nat) (nvec : List Note) :
    ((∀ f, orderSet.sorter ordering f f = .eq) ∧
      (∀ f1 f2, orderSet.sorter ordering f2 f1 = (orderSet.sorter ordering f1 f2).swap) ∧
      (∀ f1 f2, orderSet.sorter ordering f1 f2 ≠ .gt ∨ orderSet.sorter ordering f2 f1 ≠ .gt) ∧
      ∀ f1 f2 f3, orderSet.sorter ordering f1 f2 ≠ .gt → orderSet.sorter ordering f2 f3 ≠ .gt →
      orderSet.sorter ordering f1 f3 ≠ .gt) ∧
    (orderSet ordering nvec).Perm nvec ∧
    (orderSet ordering nvec).Pairwise fun first second =>
      ordering.idxOf (fidToFidType first.fid) ≤ ordering.idxOf (fidToFidType second.fid) ∧
      (fidToFidType second.fid ∈ ordering → fidToFidType first.fid ∈ ordering) ∧
      (fidToFidType first.fid = fidToFidType second.fid → first.fid.compare second.fid ≠ .gt) := by
  refine ⟨⟨?_, sorter_swap ordering, sorter_total ordering, fun _ _ _ => sorter_trans⟩, mergeSort_perm _ _, ?_⟩
  · intro f
    simp [sorter_eq, Fid.compare]
  · have sorted := @pairwise_mergeSort Note (fun first second => orderSet.sorter ordering first.fid second.fid ≠ .gt)
      (fun _ _ _ before after => decide_eq_true (sorter_trans (of_decide_eq_true before) (of_decide_eq_true after)))
      (fun a b => by simpa using sorter_total ordering a.fid b.fid) nvec
    exact sorted.imp fun placed => sorter_places (of_decide_eq_true placed)

end Halon.Mero
