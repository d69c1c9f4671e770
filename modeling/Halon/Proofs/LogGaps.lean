import Halon.Log.Replica
import Mathlib.Data.List.Sort

/-! The decrees that a log misses, and the queries for them. -/

namespace Halon.Log
open Library OrderedMap List

variable {A S : Type} {x x' n : Int} {xs : List Int}

def between (x x' : Int) : List Int := (List.range (x' - x - 1).toNat).map fun k => x + 1 + k

theorem between_eq (x x' : Int) : between x x' = (List.range (x' - x - 1).toNat).map fun k : Nat => x + 1 + (k : Int) := by
  simp [between, ← List.map_eq_flatMap]

theorem mem_between : n ∈ between x x' ↔ x < n ∧ n < x' := by
  rw [between_eq, mem_map]
  constructor
  · intro listed
    obtain ⟨k, below, rfl⟩ := listed
    have less := mem_range.mp below
    omega
  · intro inside
    exact ⟨(n - x - 1).toNat, mem_range.mpr (by omega), by omega⟩

theorem between_ascending (x x' : Int) : (between x x').Pairwise (· < ·) := by
  rw [between_eq, pairwise_map]
  apply pairwise_lt_range.imp
  intro a b less
  omega

theorem flatten_gaps : (gaps (x :: x' :: xs)).flatten = between x x' ++ (gaps (x' :: xs)).flatten := by
  rw [gaps]
  split
  next none => rw [between, none, nil_append]
  next => rfl

theorem gaps_spec (ascending : (x :: xs).Pairwise (· < ·)) : (gaps (x :: xs)).flatten.Pairwise (· < ·) ∧
    ∀ n, n ∈ (gaps (x :: xs)).flatten ↔ x < n ∧ (∃ k ∈ xs, n < k) ∧ n ∉ xs := by
  induction xs generalizing x with
  | nil => simp [gaps]
  | cons x' xs ih =>
    obtain ⟨first, rest⟩ := pairwise_cons.mp ascending
    obtain ⟨sorted, members⟩ := ih rest
    have step := first x' mem_cons_self
    have later := (pairwise_cons.mp rest).1
    rw [flatten_gaps]
    refine ⟨pairwise_append.mpr ⟨between_ascending x x', sorted, ?_⟩, fun n => ?_⟩
    · intro a inside b after
      exact (mem_between.mp inside).2.trans ((members b).mp after).1
    · simp only [mem_append, mem_between, members, mem_cons, exists_eq_or_imp, not_or]
      constructor
      · intro missing
        rcases missing with ⟨above, below⟩ | ⟨above, ⟨k, member, below⟩, absent⟩
        · exact ⟨above, .inl below, below.ne, fun member => absurd (later n member) below.not_gt⟩
        · exact ⟨step.trans above, .inr ⟨k, member, below⟩, above.ne', absent⟩
      · intro missing
        obtain ⟨above, bounded, other, absent⟩ := missing
        by_cases below : n < x'
        · exact .inl ⟨above, below⟩
        · exact .inr ⟨lt_of_le_of_ne (not_lt.mp below) (Ne.symm other), bounded.resolve_left below, absent⟩

theorem le_getLast (some : xs ≠ []) (ascending : xs.Pairwise (· < ·)) (member : n ∈ xs) : n ≤ xs.getLast some := by
  rw [← dropLast_append_getLast some] at ascending member
  rcases mem_append.mp member with earlier | last
  · exact ((pairwise_append.mp ascending).2.2 n earlier _ (mem_singleton_self _)).le
  · exact (mem_singleton.mp last).le

/-- An ascending list and its gaps are the numbers from its first to its last. -/
theorem sort_gaps (some : xs ≠ []) (ascending : xs.Pairwise (· < ·)) :
    (xs ++ (gaps xs).flatten).mergeSort = between (xs.head some - 1) (xs.getLast some + 1) := by
  obtain ⟨x, xs, rfl⟩ := exists_cons_of_ne_nil some
  obtain ⟨sorted, members⟩ := gaps_spec ascending
  have top {n : Int} (member : n ∈ x :: xs) := le_getLast some ascending member
  have first := (pairwise_cons.mp ascending).1
  have last := getLast_mem some
  have permuted : (x :: xs ++ (gaps (x :: xs)).flatten).Perm (between (x - 1) ((x :: xs).getLast some + 1)) := by
    refine (perm_ext_iff_of_nodup ?_ ((between_ascending _ _).imp ne_of_lt)).mpr fun n => ?_
    · refine nodup_append'.mpr ⟨ascending.imp ne_of_lt, sorted.imp ne_of_lt, ?_⟩
      intro n member missing
      obtain ⟨above, _, absent⟩ := (members n).mp missing
      exact (mem_cons.mp member).elim above.ne' absent
    · rw [mem_append, members, mem_between]
      constructor
      · intro listed
        rcases listed with member | ⟨above, ⟨k, member, below⟩, _⟩
        · have high := top member
          have low : x ≤ n := (mem_cons.mp member).elim ge_of_eq fun later => (first n later).le
          omega
        · have high := top (mem_cons_of_mem x member)
          omega
      · intro inside
        by_cases member : n ∈ x :: xs
        · exact .inl member
        · obtain ⟨other, absent⟩ := not_or.mp (mt mem_cons.mpr member)
          have below : n < (x :: xs).getLast some := lt_of_le_of_ne (by omega) fun same => member (same ▸ last)
          exact .inr ⟨by omega, ⟨_, (mem_cons.mp last).resolve_left (by omega), below⟩, absent⟩
  apply ((mergeSort_perm _ _).trans permuted).eq_of_pairwise _ (pairwise_mergeSort' _ _) ((between_ascending _ _).imp le_of_lt)
  intro a b _ _ below above
  exact le_antisymm below above

theorem mem_keys_above {log : OrderedMap Int (Value A)} : k ∈ (log.above pw).keys ↔ k ∈ log.keys ∧ pw < k := by
  simp [OrderedMap.mem_keys, above]

/-- Every peer gets one query for each decree from the watermark on that the log misses below its last, and no other. -/
theorem missing_queried {log : OrderedMap Int (Value A)} (peers : replicas.Nodup) :
    ((queryMissingFrom here w replicas log : List (Nat × Message A S)).Nodup ∧
      ∀ sent : Nat × Message A S, sent ∈ queryMissingFrom here w replicas log ↔ ∃ ρ ∈ replicas, ∃ n, sent = (ρ, .Query here n) ∧
        w ≤ n ∧ (∃ k ∈ log.keys, n < k) ∧ n ∉ log.keys) ∧
    ∀ xs (some : xs ≠ []), xs.Pairwise (· < ·) →
      (xs ++ (gaps xs).flatten).mergeSort = between (xs.head some - 1) (xs.getLast some + 1) := by
  have ascending : ((w - 1) :: (log.above (w - 1)).keys).Pairwise (· < ·) :=
    pairwise_cons.mpr ⟨fun k member => (mem_keys_above.mp member).2, pairwise_map.mpr (log.above (w - 1)).ordered⟩
  obtain ⟨sorted, members⟩ := gaps_spec ascending
  have missing (n : Int) : n ∈ (gaps ((w - 1) :: (log.above (w - 1)).keys)).flatten ↔
      w ≤ n ∧ (∃ k ∈ log.keys, n < k) ∧ n ∉ log.keys := by
    simp only [members, mem_keys_above, not_and]
    constructor
    · intro inside
      obtain ⟨above, ⟨k, member, below⟩, absent⟩ := inside
      exact ⟨by omega, ⟨k, member.1, below⟩, fun member => absent member above⟩
    · intro inside
      obtain ⟨above, ⟨k, member, below⟩, absent⟩ := inside
      exact ⟨by omega, ⟨k, ⟨member, by omega⟩, below⟩, fun member _ => absent member⟩
  refine ⟨⟨nodup_flatMap.mpr ⟨fun n _ => ?_, sorted.imp ?_⟩, fun sent => ?_⟩, fun xs some => sort_gaps some⟩
  · exact peers.map fun ρ ρ' same => (Prod.mk.inj same).1
  · intro n n' less
    simp [Function.onFun, List.Disjoint, less.ne']
  · simp only [queryMissingFrom, mem_flatMap, mem_map, missing]
    constructor
    · intro queried
      obtain ⟨n, absent, ρ, member, rfl⟩ := queried
      exact ⟨ρ, member, n, rfl, absent⟩
    · intro queried
      obtain ⟨ρ, member, n, rfl, absent⟩ := queried
      exact ⟨n, absent, ρ, member, rfl⟩

theorem missing_queried_gap : (1, .Query 0 3) ∈
    (queryMissingFrom 0 1 [1, 2] (.fromList [(2, .Values [7]), (4, .Values [8])]) : List (Nat × Message Nat Nat)) :=
  ((missing_queried (by decide)).1.2 _).mpr ⟨1, by decide, 3, rfl, by decide, ⟨4, by decide, by decide⟩, by decide⟩

end Halon.Log
