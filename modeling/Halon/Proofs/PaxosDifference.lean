import Halon.Proofs.PaxosIntervals

/-! When the difference of two lists of intervals is their difference as sets. The source goes
through both lists, and goes on to the next interval to be subtracted only when this one
ends inside the interval at hand. -/

namespace Halon.Paxos
open List

section
variable {α : Type} [LinearOrder α]

def Overlap (x y : α × α) : Prop := x.1 < y.2 ∧ y.1 < x.2

/-- Behind the end of an interval to be subtracted there is something left of this one. -/
def EndsIn (x y : α × α) : Prop := x.1 < y.2 ∧ y.2 < x.2

/-- No interval to be subtracted is strictly inside another one, and each ends inside one if there
is still something to be subtracted behind it. -/
structure Clear (xs ys : List (α × α)) : Prop where
  whole : ∀ x ∈ xs, ∀ y ∈ ys, ¬ (x.1 < y.1 ∧ y.2 < x.2)
  passed : ys.Pairwise fun y later => (∃ x ∈ xs, Overlap x later) → ∃ x ∈ xs, EndsIn x y

/-- The result covers what the first intervals cover and the second do not. -/
def Subtracts (xs ys result : List (α × α)) : Prop := ∀ d, Covers result d ↔ Covers xs d ∧ ¬ Covers ys d

variable {x x' y y' : α} {xs ys xss yss front rest : List (α × α)}

/-- An interval that the first one to be subtracted does not end in, and the others do not meet, does not matter. -/
theorem clear_cons {x first} (separate : Separate (first :: yss)) (stuck : ¬ EndsIn x first)
    (apart : ∀ y ∈ yss, ¬ Overlap x y) : Clear (x :: xss) (first :: yss) ↔ Clear xss (first :: yss) := by
  have filled := separate.filled
  have unended : ∀ y ∈ first :: yss, ¬ EndsIn x y := by
    intro y member
    rcases mem_cons.mp member with rfl | later
    · exact stuck
    · intro ends
      exact apart y later ⟨ends.1, (filled y member).trans ends.2⟩
  have same (y : α × α) (member : y ∈ first :: yss) : (∃ x₁ ∈ x :: xss, EndsIn x₁ y) ↔ ∃ x₁ ∈ xss, EndsIn x₁ y := by
    rw [exists_mem_cons_iff, or_iff_right (unended y member)]
  have meets (y : α × α) (member : y ∈ yss) : (∃ x₁ ∈ x :: xss, Overlap x₁ y) ↔ ∃ x₁ ∈ xss, Overlap x₁ y := by
    rw [exists_mem_cons_iff, or_iff_right (apart y member)]
  have pairs : ((first :: yss).Pairwise fun y later => (∃ x₁ ∈ x :: xss, Overlap x₁ later) → ∃ x₁ ∈ x :: xss, EndsIn x₁ y) ↔
      (first :: yss).Pairwise fun y later => (∃ x₁ ∈ xss, Overlap x₁ later) → ∃ x₁ ∈ xss, EndsIn x₁ y := by
    rw [pairwise_cons, pairwise_cons]
    refine and_congr (forall₂_congr fun y member => ?_) (List.Pairwise.iff_of_mem fun {y later} member inside => ?_)
    · rw [meets y member, same first mem_cons_self]
    · rw [meets later inside, same y (mem_cons_of_mem _ member)]
  constructor
  · intro clear
    exact ⟨fun x₁ member => clear.whole x₁ (mem_cons_of_mem _ member), pairs.mp clear.passed⟩
  · intro clear
    refine ⟨?_, pairs.mpr clear.passed⟩
    intro x₁ member y inside
    rcases mem_cons.mp member with rfl | later
    · intro strictly
      exact unended y inside ⟨strictly.1.trans (filled y inside), strictly.2⟩
    · exact clear.whole x₁ later y inside

/-- The part of an interval before the end of the first one to be subtracted does not matter for the others. -/
theorem clear_shrink (left : Separate ((x, x') :: xss)) (right : Separate ((y, y') :: yss)) (starts : y ≤ x) (inside : x < y')
    (ends : y' < x') : Clear ((x, x') :: xss) ((y, y') :: yss) ↔ Clear ((y', x') :: xss) yss := by
  have above : ∀ later ∈ yss, y' < later.1 := (pairwise_cons.mp right.gaps).1
  have past (later : α × α) (member : later ∈ yss) : y' < later.2 :=
    (above later member).trans (right.filled later (mem_cons_of_mem _ member))
  have same (P : α × α → Prop) (equal : P (x, x') ↔ P (y', x')) :
      (∃ x₁ ∈ (x, x') :: xss, P x₁) ↔ ∃ x₁ ∈ (y', x') :: xss, P x₁ := by
    rw [exists_mem_cons_iff, exists_mem_cons_iff, equal]
  have meets (later : α × α) (member : later ∈ yss) :
      (∃ x₁ ∈ (x, x') :: xss, Overlap x₁ later) ↔ ∃ x₁ ∈ (y', x') :: xss, Overlap x₁ later := by
    apply same
    exact and_congr_left' (iff_of_true (inside.trans (past later member)) (past later member))
  have passes (later : α × α) (member : later ∈ yss) :
      (∃ x₁ ∈ (x, x') :: xss, EndsIn x₁ later) ↔ ∃ x₁ ∈ (y', x') :: xss, EndsIn x₁ later := by
    apply same
    exact and_congr_left' (iff_of_true (inside.trans (past later member)) (past later member))
  have pairs : (yss.Pairwise fun y later => (∃ x₁ ∈ (x, x') :: xss, Overlap x₁ later) → ∃ x₁ ∈ (x, x') :: xss, EndsIn x₁ y) ↔
      yss.Pairwise fun y later => (∃ x₁ ∈ (y', x') :: xss, Overlap x₁ later) → ∃ x₁ ∈ (y', x') :: xss, EndsIn x₁ y := by
    refine List.Pairwise.iff_of_mem fun {y later} member inside => ?_
    rw [meets later inside, passes y member]
  constructor
  · intro clear
    refine ⟨?_, pairs.mp (pairwise_cons.mp clear.passed).2⟩
    intro x₁ member later within
    rcases mem_cons.mp member with rfl | other
    · intro strictly
      exact clear.whole _ mem_cons_self later (mem_cons_of_mem _ within) ⟨inside.trans strictly.1, strictly.2⟩
    · exact clear.whole x₁ (mem_cons_of_mem _ other) later (mem_cons_of_mem _ within)
  · intro clear
    refine ⟨?_, pairwise_cons.mpr ⟨fun _ _ _ => ⟨_, mem_cons_self, inside, ends⟩, pairs.mpr clear.passed⟩⟩
    intro x₁ member later within strictly
    rcases mem_cons.mp member with rfl | other <;> rcases mem_cons.mp within with rfl | behind
    · exact absurd strictly.1 (not_lt.mpr starts)
    · exact clear.whole _ mem_cons_self later behind ⟨above later behind, strictly.2⟩
    · have far : x' < x₁.1 := (pairwise_cons.mp left.gaps).1 x₁ other
      exact absurd (far.trans strictly.1) (not_lt.mpr (starts.trans (inside.trans ends).le))
    · exact clear.whole x₁ (mem_cons_of_mem _ other) later behind strictly

theorem covers_append : Covers (xs ++ ys) d ↔ Covers xs d ∨ Covers ys d := by
  simp only [Covers, mem_append, or_and_right, exists_or]

theorem subtracts_cons {x} (separate : Separate (x :: xss)) (inside : ∀ d, Covers front d → x.1 ≤ d ∧ d < x.2)
    (later : ∀ d, Covers rest d → Covers xss d) : Subtracts (x :: xss) ys (front ++ rest) ↔
      (∀ d, x.1 ≤ d → d < x.2 → (Covers front d ↔ ¬ Covers ys d)) ∧ Subtracts xss ys rest := by
  have apart (d : α) (covers : Covers xss d) : ¬ (x.1 ≤ d ∧ d < x.2) := by
    obtain ⟨other, member, least, _⟩ := covers
    have gap : x.2 < other.1 := (pairwise_cons.mp separate.gaps).1 other member
    intro here
    exact absurd here.2 (not_lt.mpr (gap.le.trans least))
  simp only [Subtracts, covers_append, covers_cons]
  constructor
  · intro subtracts
    constructor
    · intro d starts ends
      have here := subtracts d
      have none : ¬ Covers xss d := fun covers => apart d covers ⟨starts, ends⟩
      have gone : ¬ Covers rest d := fun covers => none (later d covers)
      simpa only [gone, none, or_false, starts, ends, and_self, true_and] using here
    · intro d
      by_cases covers : Covers xss d
      · have there := subtracts d
        have outside := apart d covers
        have gone : ¬ Covers front d := fun covers => outside (inside d covers)
        simpa only [gone, outside, covers, false_or, true_and] using there
      · exact iff_of_false (fun found => covers (later d found)) fun found => covers found.1
  · intro ⟨first, others⟩ d
    by_cases here : x.1 ≤ d ∧ d < x.2
    · have none : ¬ Covers xss d := fun covers => apart d covers here
      have gone : ¬ Covers rest d := fun covers => none (later d covers)
      simpa only [gone, none, or_false, here, and_self, true_and] using first d here.1 here.2
    · have gone : ¬ Covers front d := fun covers => here (inside d covers)
      simpa only [gone, here, false_or] using others d

theorem subtracts_shrink (left : Separate ((x, x') :: xss)) (starts : y ≤ x) (inside : x < y') (ends : y' < x') :
    Subtracts ((x, x') :: xss) ((y, y') :: yss) rest ↔ Subtracts ((y', x') :: xss) yss rest := by
  refine forall_congr' fun d => iff_congr Iff.rfl ?_
  rw [covers_cons, covers_cons, covers_cons, not_or]
  constructor
  · intro ⟨held, outside, missing⟩
    refine ⟨held.imp_left fun here => ⟨?_, here.2⟩, missing⟩
    apply le_of_not_gt
    intro early
    exact outside ⟨starts.trans here.1, early⟩
  · intro ⟨held, missing⟩
    refine ⟨held.imp_left fun here => ⟨inside.le.trans here.1, here.2⟩, ?_, missing⟩
    intro within
    rcases held with here | ⟨other, member, least, _⟩
    · exact absurd within.2 (not_lt.mpr here.1)
    · have far : x' < other.1 := (pairwise_cons.mp left.gaps).1 other member
      exact absurd within.2 (not_lt.mpr (ends.le.trans (far.le.trans least)))

private theorem not_covers_before (separate : Separate ((y, y') :: yss)) (early : d < y) : ¬ Covers ((y, y') :: yss) d := by
  intro ⟨range, member, least, _⟩
  rcases mem_cons.mp member with rfl | later
  · exact absurd early (not_lt.mpr least)
  · have far : y' < range.1 := (pairwise_cons.mp separate.gaps).1 range later
    have filled : y < y' := separate.filled _ mem_cons_self
    exact absurd early (not_lt.mpr ((filled.trans far).le.trans least))

private theorem not_covers_end (separate : Separate ((y, y') :: yss)) : ¬ Covers ((y, y') :: yss) y' := by
  intro ⟨range, member, least, most⟩
  rcases mem_cons.mp member with rfl | later
  · exact absurd most (lt_irrefl _)
  · have far : y' < range.1 := (pairwise_cons.mp separate.gaps).1 range later
    exact absurd far (not_lt.mpr least)

private theorem cut_iff (separate : Separate ((y, y') :: yss)) (inside : x < y') :
    (∀ d, x ≤ d → d < x' → (Covers [(x, y)] d ↔ ¬ Covers ((y, y') :: yss) d)) ↔ x' ≤ y' := by
  have filled : y < y' := separate.filled _ mem_cons_self
  constructor
  · intro cut
    apply le_of_not_gt
    intro beyond
    obtain ⟨_, member, _, most⟩ := (cut y' inside.le beyond).mpr (not_covers_end separate)
    rw [mem_singleton.mp member] at most
    exact absurd filled (not_lt.mpr most.le)
  · intro ends d starts most
    by_cases early : d < y
    · exact iff_of_true ⟨_, mem_singleton_self _, starts, early⟩ (not_covers_before separate early)
    · refine iff_of_false ?_ (not_not.mpr ⟨_, mem_cons_self, not_lt.mp early, most.trans_le ends⟩)
      intro ⟨range, member, _, below⟩
      rw [mem_singleton.mp member] at below
      exact early below

private theorem kept_iff (filled : ∀ y ∈ ys, y.1 < y.2) (here : x < x') :
    (∀ d, x ≤ d → d < x' → (Covers [(x, x')] d ↔ ¬ Covers ys d)) ↔ ∀ y ∈ ys, ¬ Overlap (x, x') y := by
  constructor
  · intro kept y member overlap
    have most : max x y.1 < x' := max_lt here overlap.2
    have covers : Covers [(x, x')] (max x y.1) := ⟨_, mem_singleton_self _, le_max_left _ _, most⟩
    exact (kept _ (le_max_left _ _) most).mp covers ⟨y, member, le_max_right _ _, max_lt overlap.1 (filled y member)⟩
  · intro apart d starts most
    refine iff_of_true ⟨_, mem_singleton_self _, starts, most⟩ ?_
    intro ⟨y, member, least, below⟩
    exact apart y member ⟨starts.trans_lt below, least.trans_lt most⟩

private theorem clear_apart (left : Separate ((x, x') :: xss)) (right : Separate ((y, y') :: yss))
    (clear : Clear ((x, x') :: xss) ((y, y') :: yss))
    (none : ¬ Overlap (x, x') (y, y')) : ∀ other ∈ (y, y') :: yss, ¬ Overlap (x, x') other := by
  have filled : y < y' := right.filled _ mem_cons_self
  intro other member overlap
  rcases mem_cons.mp member with rfl | later
  · exact none overlap
  · have far : y' < other.1 := (pairwise_cons.mp right.gaps).1 other later
    have before : y < x' := (filled.trans far).trans overlap.2
    obtain ⟨x₁, inside, ends⟩ := (pairwise_cons.mp clear.passed).1 other later ⟨_, mem_cons_self, overlap⟩
    have least : x ≤ x₁.1 := by
      rcases mem_cons.mp inside with rfl | behind
      · exact le_refl _
      · have gap : x' < x₁.1 := (pairwise_cons.mp left.gaps).1 x₁ behind
        exact ((left.filled _ mem_cons_self).trans gap).le
    exact none ⟨least.trans_lt ends.1, before⟩

theorem clear_ends (right : Separate ((y, y') :: yss)) (ends : x' ≤ y') :
    Clear ((x, x') :: xss) ((y, y') :: yss) ↔ Clear xss ((y, y') :: yss) := by
  apply clear_cons right
  · exact fun stuck => absurd stuck.2 (not_lt.mpr ends)
  · intro other member meets
    have far : y' < other.1 := (pairwise_cons.mp right.gaps).1 other member
    exact absurd (ends.trans_lt far) (not_lt.mpr meets.2.le)

theorem subtracts_iff_clear (left : Separate xs) (right : Separate ys) : Subtracts xs ys (diffIntervals xs ys) ↔ Clear xs ys := by
  induction xs, ys using diffIntervals.induct with
  | case1 =>
    rw [diffIntervals]
    refine iff_of_true (fun d => ?_) ⟨by simp, .nil⟩
    exact (and_iff_left (not_covers_nil d)).symm
  | case2 ys nonempty =>
    rw [diffIntervals]
    · refine iff_of_true (fun d => iff_of_false (not_covers_nil d) fun held => not_covers_nil d held.1) ?_
      refine ⟨by simp, pairwise_of_forall fun _ _ meets => ?_⟩
      obtain ⟨_, member, _⟩ := meets
      exact absurd member not_mem_nil
    · exact nonempty
  | case3 x x' xss y y' yss overlap before ih =>
    rw [diffIntervals, if_pos overlap, if_pos before, ← singleton_append (l := diffIntervals xss _),
      subtracts_cons left, ih left.tail right, cut_iff right overlap.1]
    · constructor
      · rintro ⟨ends, clear⟩
        exact (clear_ends right ends).mpr clear
      · intro clear
        have ends : x' ≤ y' := not_lt.mp fun beyond => clear.whole _ mem_cons_self _ mem_cons_self ⟨before, beyond⟩
        exact ⟨ends, (clear_ends right ends).mp clear⟩
    · rintro d ⟨range, member, starts, most⟩
      rw [mem_singleton.mp member] at starts most
      exact ⟨starts, most.trans overlap.2⟩
    · exact fun d => covers_of_diffIntervals left.tail
  | case4 x x' xss y y' yss overlap inside ends ih =>
    have covered (d : α) (starts : x ≤ d) (most : d < x') : Covers [] d ↔ ¬ Covers ((y, y') :: yss) d :=
      iff_of_false (not_covers_nil d) (not_not.mpr ⟨_, mem_cons_self, (not_lt.mp inside).trans starts, most.trans_le ends⟩)
    rw [diffIntervals, if_pos overlap, if_neg inside, if_pos ends, ← nil_append (diffIntervals xss _), subtracts_cons left,
      ih left.tail right, and_iff_right covered]
    · exact (clear_ends right ends).symm
    · exact fun d covers => absurd covers (not_covers_nil d)
    · exact fun d => covers_of_diffIntervals left.tail
  | case5 x x' xss y y' yss overlap inside ends ih =>
    have shrunk : Separate ((y', x') :: xss) := .cons (not_le.mp ends) (pairwise_cons.mp left.gaps).1 left.tail
    rw [diffIntervals, if_pos overlap, if_neg inside, if_neg ends,
      subtracts_shrink left (not_lt.mp inside) overlap.1 (not_le.mp ends),
      ih shrunk right.tail, clear_shrink left right (not_lt.mp inside) overlap.1 (not_le.mp ends)]
  | case6 x x' xss y y' yss apart ih =>
    rw [diffIntervals, if_neg apart, ← singleton_append (l := diffIntervals xss _), subtracts_cons left, ih left.tail right,
      kept_iff right.filled (left.filled _ mem_cons_self)]
    · have same (none : ∀ other ∈ (y, y') :: yss, ¬ Overlap (x, x') other) :
          Clear ((x, x') :: xss) ((y, y') :: yss) ↔ Clear xss ((y, y') :: yss) :=
        clear_cons right (fun stuck => none _ mem_cons_self ⟨stuck.1, (right.filled _ mem_cons_self).trans stuck.2⟩)
          fun other member => none other (mem_cons_of_mem _ member)
      constructor
      · rintro ⟨alone, clear⟩
        exact (same alone).mpr clear
      · intro clear
        have none := clear_apart left right clear apart
        exact ⟨none, (same none).mp clear⟩
    · rintro d ⟨range, member, covers⟩
      rwa [mem_singleton.mp member] at covers
    · exact fun d => covers_of_diffIntervals left.tail

end

/-- The difference is exact if and only if no interval is to be cut in two, and every interval to be subtracted
ends inside another one as long as there is something to be subtracted behind it. It is separate in any case. -/
theorem difference_exact_iff {α : Type} [LinearOrder α] {xs ys : List (α × α)} (left : Separate xs) (right : Separate ys) :
    Separate (diffIntervals xs ys) ∧
      ((∀ d, Covers (diffIntervals xs ys) d ↔ Covers xs d ∧ ¬ Covers ys d) ↔
        (∀ x ∈ xs, ∀ y ∈ ys, ¬ (x.1 < y.1 ∧ y.2 < x.2)) ∧
          ys.Pairwise fun y later => (∃ x ∈ xs, x.1 < later.2 ∧ later.1 < x.2) → ∃ x ∈ xs, x.1 < y.2 ∧ y.2 < x.2) := by
  refine ⟨diffIntervals_separate ys left, (subtracts_iff_clear left right).trans ?_⟩
  exact ⟨fun clear => ⟨clear.whole, clear.passed⟩, fun ⟨whole, passed⟩ => ⟨whole, passed⟩⟩

/-- Two intervals, the end of the first and the start of the second taken away. -/
theorem difference_exact_overlapping : diffIntervals [(1, 3), (5, 9)] [(2, 6)] = [(1, 2), (6, 9)] ∧
    ∀ d, Covers [(1, 2), (6, 9)] d ↔ Covers [(1, 3), (5, 9)] d ∧ ¬ Covers [(2, 6)] d := by
  have computed : diffIntervals [(1, 3), (5, 9)] [(2, 6)] = [(1, 2), (6, 9)] := by simp [diffIntervals]
  have left : Separate [(1, 3), (5, 9)] := ⟨by decide, by decide⟩
  have right : Separate [(2, 6)] := ⟨by decide, by decide⟩
  refine ⟨computed, ?_⟩
  rw [← computed]
  exact (difference_exact_iff left right).2.mpr ⟨by decide, pairwise_singleton _ _⟩

/-- From the interval of 0 to 9 without 3, what is behind the 3 is missing. From that of 5 to 7 without 0 and
without 6, the 6 is still there. -/
theorem difference_inexact :
    (Separate [(0, 10)] ∧ Separate [(3, 4)] ∧ diffIntervals [(0, 10)] [(3, 4)] = [(0, 3)] ∧
      Covers [(0, 10)] 5 ∧ ¬ Covers [(3, 4)] 5 ∧ ¬ Covers (diffIntervals [(0, 10)] [(3, 4)]) 5) ∧
    Separate [(5, 8)] ∧ Separate [(0, 1), (6, 7)] ∧ diffIntervals [(5, 8)] [(0, 1), (6, 7)] = [(5, 8)] ∧
      Covers [(0, 1), (6, 7)] 6 ∧ Covers (diffIntervals [(5, 8)] [(0, 1), (6, 7)]) 6 := by
  have cut : diffIntervals [(0, 10)] [(3, 4)] = [(0, 3)] := by simp [diffIntervals]
  have kept : diffIntervals [(5, 8)] [(0, 1), (6, 7)] = [(5, 8)] := by simp [diffIntervals]
  rw [cut, kept]
  refine ⟨⟨⟨by decide, by decide⟩, ⟨by decide, by decide⟩, rfl, ?_⟩, ⟨by decide, by decide⟩, ⟨by decide, by decide⟩, rfl, ?_⟩
  · simp [Covers]
  · simp [Covers]

end Halon.Paxos
