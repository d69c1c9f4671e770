import Halon.Library.OrderedMap

/-! Finite sets in ascending order, and maps to such sets. What such a map stands
for is which keys it has and which values it holds for them; the operations are
described in these terms. -/

namespace Halon.Library
open List

universe u v

structure OrderedSet (α : Type u) [LT α] where
  elements : List α
  ordered : elements.Pairwise (· < ·)

namespace OrderedSet
variable {α : Type u} [LinearOrder α]

instance : DecidableEq (OrderedSet α) := fun left right =>
  decidable_of_iff (left.elements = right.elements) ⟨fun same => by cases left; cases right; cases same; rfl, congrArg elements⟩

instance : Membership α (OrderedSet α) := ⟨fun set x => x ∈ set.elements⟩

instance (x : α) (set : OrderedSet α) : Decidable (x ∈ set) := inferInstanceAs (Decidable (x ∈ set.elements))

variable {set left right : OrderedSet α} {x y : α} {xs : List α}

theorem mem_def : x ∈ set ↔ x ∈ set.elements := Iff.rfl

def empty : OrderedSet α := ⟨[], .nil⟩

def filter (keep : α → Bool) (set : OrderedSet α) : OrderedSet α := ⟨set.elements.filter keep, set.ordered.filter keep⟩

def insert (x : α) (set : OrderedSet α) : OrderedSet α where
  elements := set.elements.filter (fun y => decide (y < x)) ++ x :: set.elements.filter (fun y => decide (x < y))
  ordered := by
    refine pairwise_append.mpr ⟨set.ordered.filter _, pairwise_cons.mpr ⟨?_, set.ordered.filter _⟩, ?_⟩
    · intro y member
      exact of_decide_eq_true (mem_filter.mp member).2
    · intro y below z rest
      have lower : y < x := of_decide_eq_true (mem_filter.mp below).2
      cases rest with
      | head => exact lower
      | tail _ above => exact lower.trans (of_decide_eq_true (mem_filter.mp above).2)

def delete (x : α) (set : OrderedSet α) : OrderedSet α := set.filter fun y => decide (y ≠ x)

def insertAll (xs : List α) (set : OrderedSet α) : OrderedSet α := xs.foldl (fun set x => set.insert x) set

def deleteAll (xs : List α) (set : OrderedSet α) : OrderedSet α := xs.foldl (fun set x => set.delete x) set

def fromList (xs : List α) : OrderedSet α := empty.insertAll xs

def union (left right : OrderedSet α) : OrderedSet α := left.insertAll right.elements

def difference (left right : OrderedSet α) : OrderedSet α := left.filter fun x => decide (x ∉ right)

def intersection (left right : OrderedSet α) : OrderedSet α := left.filter fun x => decide (x ∈ right)

def map {β : Type v} [LinearOrder β] (f : α → β) (set : OrderedSet α) : OrderedSet β := fromList (set.elements.map f)

@[simp] theorem not_mem_empty (x : α) : x ∉ (empty : OrderedSet α) := not_mem_nil

@[simp] theorem mem_filter : x ∈ set.filter keep ↔ x ∈ set ∧ keep x :=
  List.mem_filter

@[simp] theorem mem_insert : y ∈ set.insert x ↔ y = x ∨ y ∈ set := by
  simp only [mem_def, insert, List.mem_append, List.mem_cons, List.mem_filter, decide_eq_true_eq]
  constructor
  · intro member
    rcases member with below | same | above
    · exact .inr below.1
    · exact .inl same
    · exact .inr above.1
  · intro member
    rcases lt_trichotomy y x with below | same | above
    · exact .inl ⟨member.resolve_left below.ne, below⟩
    · exact .inr (.inl same)
    · exact .inr (.inr ⟨member.resolve_left above.ne', above⟩)

@[simp] theorem mem_delete : y ∈ set.delete x ↔ y ∈ set ∧ y ≠ x := by
  rw [delete, mem_filter, decide_eq_true_eq]

@[simp] theorem mem_insertAll : y ∈ set.insertAll xs ↔ y ∈ xs ∨ y ∈ set := by
  induction xs generalizing set with
  | nil => simp [insertAll]
  | cons x xs ih =>
    rw [insertAll, foldl_cons, ← insertAll, ih, mem_insert, mem_cons]
    exact or_left_comm.trans or_assoc.symm

@[simp] theorem mem_deleteAll : y ∈ set.deleteAll xs ↔ y ∈ set ∧ y ∉ xs := by
  induction xs generalizing set with
  | nil => simp [deleteAll]
  | cons x xs ih => rw [deleteAll, foldl_cons, ← deleteAll, ih, mem_delete, mem_cons, not_or, and_assoc]

@[simp] theorem mem_fromList : y ∈ fromList xs ↔ y ∈ xs := by
  simp [fromList]

@[simp] theorem mem_union : x ∈ left.union right ↔ x ∈ left ∨ x ∈ right := by
  rw [union, mem_insertAll, or_comm, ← mem_def]

@[simp] theorem mem_difference : x ∈ left.difference right ↔ x ∈ left ∧ x ∉ right := by
  rw [difference, mem_filter, decide_eq_true_eq]

@[simp] theorem mem_intersection : x ∈ left.intersection right ↔ x ∈ left ∧ x ∈ right := by
  rw [intersection, mem_filter, decide_eq_true_eq]

@[simp] theorem mem_map {β : Type v} [LinearOrder β] {f : α → β} {y} : y ∈ set.map f ↔ ∃ x ∈ set, f x = y := by
  rw [map, mem_fromList, List.mem_map]
  rfl

theorem mem_unions {sets : List (OrderedSet α)} : x ∈ sets.foldl union empty ↔ ∃ set ∈ sets, x ∈ set := by
  have general (done : OrderedSet α) : x ∈ sets.foldl union done ↔ x ∈ done ∨ ∃ set ∈ sets, x ∈ set := by
    induction sets generalizing done with
    | nil => simp
    | cons set sets ih => simp [ih, or_assoc]
  rw [general]
  exact or_iff_right (not_mem_empty x)

theorem ext_mem (same : ∀ x, x ∈ left ↔ x ∈ right) : left = right := by
  have sorted := ext_ascending lt_asymm left.ordered right.ordered same
  cases left
  cases right
  cases sorted
  rfl

theorem difference_eq_empty : left.difference right = .empty ↔ ∀ x ∈ left, x ∈ right := by
  constructor
  · intro none x member
    by_contra outside
    exact not_mem_empty x (none ▸ mem_difference.mpr ⟨member, outside⟩)
  · intro covered
    apply ext_mem
    intro x
    simpa using covered x

theorem eq_empty_iff : set = empty ↔ set.elements = [] := by
  constructor
  · exact fun same => same ▸ rfl
  · intro none
    apply ext_mem
    intro x
    rw [mem_def, none]
    rfl

theorem length_difference_lt (inside : x ∈ left) (removed : x ∈ right) :
    (left.difference right).elements.length < left.elements.length := by
  apply length_filter_lt_length_iff_exists.mpr
  exact ⟨x, inside, by simpa using removed⟩

theorem length_difference_empty (set : OrderedSet α) : (set.difference empty).elements.length = set.elements.length := by
  congr 2
  apply ext_mem
  intro x
  simp

end OrderedSet

/-- Maps to sets. A key may be there with no value. -/
abbrev SetMap (K : Type u) (V : Type v) [LT K] [LT V] := OrderedMap K (OrderedSet V)

namespace SetMap
variable {K : Type u} {V : Type v} [LinearOrder K] [LinearOrder V]

def Has (map : SetMap K V) (key : K) : Prop := key ∈ map.keys

def Holds (map : SetMap K V) (key : K) (value : V) : Prop := ∃ set, map.lookup key = some set ∧ value ∈ set

variable {map left right : SetMap K V} {key : K} {value : V}

theorem holds_iff : map.Holds key value ↔ value ∈ (map.lookup key).getD .empty := by
  unfold Holds
  cases map.lookup key <;> simp

instance (map : SetMap K V) (key : K) (value : V) : Decidable (map.Holds key value) := decidable_of_iff' _ holds_iff

theorem has_iff : map.Has key ↔ ∃ set, map.lookup key = some set := by
  simp only [Has, OrderedMap.mem_keys, OrderedMap.lookup_eq_some]

theorem Holds.has (holds : map.Holds key value) : map.Has key := by
  obtain ⟨set, found, _⟩ := holds
  exact has_iff.mpr ⟨set, found⟩

theorem ext_holds (has : ∀ key, left.Has key ↔ right.Has key)
    (holds : ∀ key value, left.Holds key value ↔ right.Holds key value) :
    left = right := by
  apply OrderedMap.ext_lookup
  intro key
  have same := has key
  rw [has_iff, has_iff] at same
  cases found : left.lookup key with
  | none =>
    cases other : right.lookup key with
    | none => rfl
    | some set =>
      obtain ⟨_, absent⟩ := same.mpr ⟨set, other⟩
      exact absurd (found.symm.trans absent) nofun
  | some set =>
    obtain ⟨_, present⟩ := same.mp ⟨set, found⟩
    rw [present]
    congr 1
    apply OrderedSet.ext_mem
    intro value
    have agree := holds key value
    simp only [Holds, found, present, Option.some.injEq, exists_eq_left'] at agree
    exact agree

@[simp] theorem not_has_empty (key : K) : ¬ Has (.empty : SetMap K V) key := not_mem_nil

@[simp] theorem not_holds_empty (key : K) (value : V) : ¬ Holds (.empty : SetMap K V) key value := fun holds =>
  not_has_empty key holds.has

theorem has_insertWith {combine other set} :
    Has (map.insertWith combine key set) other ↔ Has map other ∨ other = key := by
  rw [Has, OrderedMap.insertWith, OrderedMap.mem_keys_insert, or_comm]
  rfl

theorem holds_insertWith_union {other set} :
    Holds (map.insertWith OrderedSet.union key set) other value ↔ Holds map other value ∨ other = key ∧ value ∈ set := by
  simp only [Holds, OrderedMap.lookup_insertWith]
  by_cases same : other = key
  · subst same
    cases map.lookup other with
    | none => simp
    | some => simp [or_comm]
  · simp [same]

theorem has_fromListWith {entries : List (K × OrderedSet V)} :
    Has (.fromListWith OrderedSet.union entries) key ↔ ∃ entry ∈ entries, entry.1 = key := by
  have general (map : SetMap K V) :
    Has (entries.foldl (fun map entry => map.insertWith OrderedSet.union entry.1 entry.2) map) key ↔
      Has map key ∨ ∃ entry ∈ entries, entry.1 = key := by
    induction entries generalizing map with
    | nil => simp
    | cons _ _ ih =>
      rw [foldl_cons, ih, has_insertWith, or_assoc, eq_comm (a := key)]
      simp
  rw [OrderedMap.fromListWith, general]
  exact or_iff_right (not_has_empty key)

theorem holds_fromListWith :
    Holds (.fromListWith OrderedSet.union entries) key value ↔ ∃ entry ∈ entries, entry.1 = key ∧ value ∈ entry.2 := by
  have general (map : SetMap K V) :
      Holds (entries.foldl (fun map entry => map.insertWith OrderedSet.union entry.1 entry.2) map) key value ↔
        Holds map key value ∨ ∃ entry ∈ entries, entry.1 = key ∧ value ∈ entry.2 := by
    induction entries generalizing map with
    | nil => simp
    | cons _ _ ih =>
      rw [foldl_cons, ih, holds_insertWith_union, or_assoc, eq_comm (a := key)]
      simp
  rw [OrderedMap.fromListWith, general]
  exact or_iff_right (not_holds_empty key value)

theorem has_unionWith : Has (left.unionWith OrderedSet.union right) key ↔ Has left key ∨ Has right key := by
  rw [has_iff, has_iff, has_iff, OrderedMap.lookup_unionWith]
  cases left.lookup key <;> cases right.lookup key <;> simp

theorem holds_unionWith : Holds (left.unionWith OrderedSet.union right) key value ↔
    Holds left key value ∨ Holds right key value := by
  simp only [Holds, OrderedMap.lookup_unionWith]
  cases left.lookup key <;> cases right.lookup key <;> simp

end SetMap
end Halon.Library
