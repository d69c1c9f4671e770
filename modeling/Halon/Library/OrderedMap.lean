import Mathlib.Order.Lattice
import Mathlib.Data.List.Nodup

/-! Finite maps in ascending key order. The order is part of the value, so two
maps with the same lookups are equal and enumerating one is deterministic. -/

namespace Halon.Library
open List

universe u v w

/-- Lists in ascending order with the same elements are equal. -/
theorem ext_ascending {α : Type u} {R : α → α → Prop} {xs ys : List α} (asymm : ∀ {a b}, R a b → ¬ R b a)
    (left : xs.Pairwise R) (right : ys.Pairwise R) (same : ∀ x, x ∈ xs ↔ x ∈ ys) : xs = ys := by
  have distinct {zs : List α} (ordered : zs.Pairwise R) : zs.Nodup := by
    apply ordered.imp
    rintro a _ below rfl
    exact asymm below below
  have permuted := (perm_ext_iff_of_nodup (distinct left) (distinct right)).mpr same
  exact permuted.eq_of_pairwise (fun _ _ _ _ below above => absurd above (asymm below)) left right

structure OrderedMap (K : Type u) (V : Type v) [LT K] where
  entries : List (K × V)
  ordered : entries.Pairwise (fun first second => first.1 < second.1)

namespace OrderedMap

variable {K : Type u} {V : Type v} [LinearOrder K]

instance [DecidableEq V] : DecidableEq (OrderedMap K V) := fun left right =>
  decidable_of_iff (left.entries = right.entries) ⟨fun same => by cases left; cases right; cases same; rfl, congrArg entries⟩

instance : Membership (K × V) (OrderedMap K V) := ⟨fun map entry => entry ∈ map.entries⟩

variable {map : OrderedMap K V} {entry : K × V} {key : K} {value : V} {entries : List (K × V)}

theorem mem_def : entry ∈ map ↔ entry ∈ map.entries := Iff.rfl

def empty : OrderedMap K V := ⟨[], .nil⟩

def lookup (map : OrderedMap K V) (key : K) : Option V := map.entries.lookup key

def keys (map : OrderedMap K V) : List K := map.entries.map Prod.fst

def filter (keep : K × V → Bool) (map : OrderedMap K V) : OrderedMap K V :=
  ⟨map.entries.filter keep, map.ordered.filter keep⟩

def insert (key : K) (value : V) (map : OrderedMap K V) : OrderedMap K V where
  entries := map.entries.filter (fun entry => decide (entry.1 < key)) ++
    (key, value) :: map.entries.filter (fun entry => decide (key < entry.1))
  ordered := by
    refine pairwise_append.mpr ⟨map.ordered.filter _, ?_, ?_⟩
    · refine pairwise_cons.mpr ⟨?_, map.ordered.filter _⟩
      intro entry member
      simpa using (mem_filter.mp member).2
    · intro first below second rest
      have lower : first.1 < key := by simpa using (mem_filter.mp below).2
      rcases mem_cons.mp rest with same | above
      · exact same ▸ lower
      · exact lower.trans (by simpa using (mem_filter.mp above).2)

@[simp] theorem not_mem_empty (entry : K × V) : entry ∉ (empty : OrderedMap K V) := not_mem_nil

@[simp] theorem mem_filter : entry ∈ map.filter keep ↔ entry ∈ map ∧ keep entry := List.mem_filter

@[simp] theorem mem_insert : entry ∈ map.insert key value ↔ entry = (key, value) ∨ entry ∈ map ∧ entry.1 ≠ key := by
  simp only [mem_def, insert, List.mem_append, List.mem_filter, List.mem_cons, decide_eq_true_eq]
  constructor
  · rintro (⟨member, below⟩ | same | ⟨member, above⟩)
    · exact .inr ⟨member, below.ne⟩
    · exact .inl same
    · exact .inr ⟨member, above.ne'⟩
  · rintro (same | ⟨member, different⟩)
    · exact .inr (.inl same)
    · rcases lt_or_gt_of_ne different with below | above
      · exact .inl ⟨member, below⟩
      · exact .inr (.inr ⟨member, above⟩)

private theorem lookup_entries (entries : List (K × V))
    (ordered : entries.Pairwise (fun first second => first.1 < second.1)) (key : K) (value : V) :
    entries.lookup key = some value ↔ (key, value) ∈ entries := by
  induction entries with
  | nil => simp
  | cons entry rest ih =>
    obtain ⟨least, remaining⟩ := pairwise_cons.mp ordered
    rw [lookup_cons, mem_cons]
    by_cases same : key = entry.1
    · subst same
      have absent : (entry.1, value) ∉ rest := fun member => (least _ member).false
      simp [absent, Prod.ext_iff, eq_comm]
    · have different : (key, value) ≠ entry := fun equal => same (congrArg Prod.fst equal)
      simp [beq_eq_false_iff_ne.mpr same, different, ih remaining]

theorem lookup_eq_some : map.lookup key = some value ↔ (key, value) ∈ map :=
  lookup_entries map.entries map.ordered key value

theorem lookup_eq_none : map.lookup key = none ↔ ∀ value, (key, value) ∉ map := by
  rw [Option.eq_none_iff_forall_ne_some]
  exact forall_congr' fun value => not_congr lookup_eq_some

theorem functional (first : (key, value) ∈ map) (second : (key, other) ∈ map) : value = other :=
  Option.some.inj ((lookup_eq_some.mpr first).symm.trans (lookup_eq_some.mpr second))

theorem mem_keys : key ∈ map.keys ↔ ∃ value, (key, value) ∈ map := by
  simp [keys, mem_def]

@[simp] theorem lookup_empty (key : K) : (empty : OrderedMap K V).lookup key = none := rfl

@[simp] theorem lookup_insert_self (key : K) (value : V) (map : OrderedMap K V) :
    (map.insert key value).lookup key = some value :=
  lookup_eq_some.mpr (mem_insert.mpr (.inl rfl))

@[simp] theorem lookup_insert_ne (value : V) (map : OrderedMap K V) (different : other ≠ key) :
    (map.insert key value).lookup other = map.lookup other := by
  ext found
  rw [lookup_eq_some, lookup_eq_some, mem_insert]
  constructor
  · rintro (same | ⟨member, _⟩)
    · exact absurd (congrArg Prod.fst same) different
    · exact member
  · exact fun member => .inr ⟨member, different⟩

theorem lookup_insert (key other : K) (value : V) (map : OrderedMap K V) :
    (map.insert key value).lookup other = if other = key then some value else map.lookup other := by
  split
  next same => rw [same, lookup_insert_self]
  next different => rw [lookup_insert_ne value map different]

theorem entries_nodup (map : OrderedMap K V) : map.entries.Nodup :=
  map.ordered.imp fun below equal => below.ne (congrArg Prod.fst equal)

variable {left right : OrderedMap K V} {W : Type w}

/-- Maps with the same entries are equal, since both list them in the order of the keys. -/
theorem ext_mem (members : ∀ entry, entry ∈ left ↔ entry ∈ right) : left = right := by
  have sorted := ext_ascending (fun below => below.asymm) left.ordered right.ordered members
  cases left
  cases right
  cases sorted
  rfl

theorem ext_lookup (same : ∀ key, left.lookup key = right.lookup key) : left = right := by
  apply ext_mem
  intro entry
  rw [← lookup_eq_some, ← lookup_eq_some, same]

/-- Inserting a list front to back: the last value given for a key stays. -/
def fromList (entries : List (K × V)) : OrderedMap K V :=
  entries.foldl (fun map entry => map.insert entry.1 entry.2) empty

/-- Inserting a list back to front: the first value given for a key stays. -/
def insertAll (entries : List (K × V)) (map : OrderedMap K V) : OrderedMap K V :=
  entries.foldr (fun entry map => map.insert entry.1 entry.2) map

def insertWith (combine : V → V → V) (key : K) (value : V) (map : OrderedMap K V) : OrderedMap K V :=
  map.insert key (((map.lookup key).map (combine value)).getD value)

/-- Values for the same key are combined, the later one first. -/
def fromListWith (combine : V → V → V) (entries : List (K × V)) : OrderedMap K V :=
  entries.foldl (fun map entry => map.insertWith combine entry.1 entry.2) empty

/-- Values of the left map come first in `combine`. -/
def unionWith (combine : V → V → V) (left right : OrderedMap K V) : OrderedMap K V :=
  right.entries.foldl (fun map entry => map.insertWith (fun new old => combine old new) entry.1 entry.2) left

def delete (key : K) (map : OrderedMap K V) : OrderedMap K V := map.filter fun entry => decide (entry.1 ≠ key)

def adjust (change : V → V) (key : K) (map : OrderedMap K V) : OrderedMap K V :=
  match map.lookup key with
  | none => map
  | some value => map.insert key (change value)

def alter (change : Option V → Option V) (key : K) (map : OrderedMap K V) : OrderedMap K V :=
  match change (map.lookup key) with
  | none => map.delete key
  | some value => map.insert key value

def mapValues {W : Type w} (change : V → W) (map : OrderedMap K V) : OrderedMap K W where
  entries := map.entries.map fun entry => (entry.1, change entry.2)
  ordered := pairwise_map.mpr map.ordered

def mapWithKey {W : Type w} (change : K → V → W) (map : OrderedMap K V) : OrderedMap K W where
  entries := map.entries.map fun entry => (entry.1, change entry.1 entry.2)
  ordered := pairwise_map.mpr map.ordered

def partition (keep : V → Bool) (map : OrderedMap K V) : OrderedMap K V × OrderedMap K V :=
  (map.filter fun entry => keep entry.2, map.filter fun entry => !keep entry.2)

def below (key : K) (map : OrderedMap K V) : OrderedMap K V := map.filter fun entry => decide (entry.1 < key)

def above (key : K) (map : OrderedMap K V) : OrderedMap K V := map.filter fun entry => decide (key < entry.1)

def lookupGT (key : K) (map : OrderedMap K V) : Option (K × V) := (map.above key).entries.head?

def splitLookup (key : K) (map : OrderedMap K V) : OrderedMap K V × Option V × OrderedMap K V :=
  (map.below key, map.lookup key, map.above key)

theorem lookupGT_eq_some :
    map.lookupGT key = some entry ↔ entry ∈ map ∧ key < entry.1 ∧ ∀ other ∈ map, key < other.1 → entry.1 ≤ other.1 := by
  have ordered := (map.above key).ordered
  have member (other : K × V) : other ∈ (map.above key).entries ↔ other ∈ map ∧ key < other.1 := by
    rw [← mem_def, above, mem_filter, decide_eq_true_eq]
  unfold lookupGT
  cases found : (map.above key).entries with
  | nil =>
    rw [found] at member
    constructor
    · exact nofun
    · intro least
      exact absurd ((member entry).mpr ⟨least.1, least.2.1⟩) not_mem_nil
  | cons first rest =>
    rw [found] at member ordered
    have least : ∀ other ∈ first :: rest, first.1 ≤ other.1 := by
      intro other inside
      rcases mem_cons.mp inside with rfl | later
      · exact le_refl _
      · exact ((pairwise_cons.mp ordered).1 other later).le
    have here := (member first).mp mem_cons_self
    rw [List.head?_cons, Option.some.injEq]
    constructor
    · rintro rfl
      exact ⟨here.1, here.2, fun other inside above => least other ((member other).mpr ⟨inside, above⟩)⟩
    · rintro ⟨inside, above, smallest⟩
      have same : first.1 = entry.1 := le_antisymm (least entry ((member entry).mpr ⟨inside, above⟩))
        (smallest first here.1 here.2)
      have stored : (entry.1, first.2) ∈ map := same ▸ here.1
      exact Prod.ext same (functional stored inside)

theorem lookup_filter_key (keep : K → Bool) (map : OrderedMap K V) (key : K) :
    (map.filter fun entry => keep entry.1).lookup key = if keep key then map.lookup key else none := by
  ext value
  rw [lookup_eq_some, mem_filter]
  split
  next kept => rw [lookup_eq_some]; simp [kept]
  next dropped => simp [dropped]

theorem lookup_filter (keep : V → Bool) (map : OrderedMap K V) (key : K) :
    (map.filter fun entry => keep entry.2).lookup key = (map.lookup key).filter keep := by
  ext value
  rw [lookup_eq_some, mem_filter, Option.filter_eq_some_iff, lookup_eq_some]

theorem lookup_mapWithKey (change : K → V → W) (map : OrderedMap K V) (key : K) :
    (map.mapWithKey change).lookup key = (map.lookup key).map (change key) := by
  ext value
  rw [lookup_eq_some, Option.map_eq_some_iff, mem_def]
  simp only [mapWithKey, mem_map, Prod.mk.injEq, lookup_eq_some]
  constructor
  · rintro ⟨entry, member, rfl, same⟩
    exact ⟨entry.2, member, same⟩
  · rintro ⟨old, member, same⟩
    exact ⟨(key, old), member, rfl, same⟩

theorem lookup_mapValues (change : V → W) (map : OrderedMap K V) (key : K) :
    (map.mapValues change).lookup key = (map.lookup key).map change :=
  lookup_mapWithKey (fun _ => change) map key

theorem lookup_delete (key other : K) (map : OrderedMap K V) :
    (map.delete key).lookup other = if other = key then none else map.lookup other := by
  rw [delete, lookup_filter_key fun other => decide (other ≠ key)]
  by_cases same : other = key
  · simp [same]
  · simp [same]

theorem entries_insert_perm (key : K) (value : V) (map : OrderedMap K V) :
    (map.insert key value).entries.Perm ((key, value) :: (map.delete key).entries) := by
  have gone : (key, value) ∉ (map.delete key).entries := by
    intro member
    exact of_decide_eq_true (mem_filter.mp member).2 rfl
  refine (perm_ext_iff_of_nodup (entries_nodup _) (nodup_cons.mpr ⟨gone, entries_nodup _⟩)).mpr fun entry => ?_
  rw [← mem_def, mem_insert, mem_cons, ← mem_def, delete, mem_filter, decide_eq_true_iff]

theorem entries_perm_of_lookup (found : map.lookup key = some value) :
    map.entries.Perm ((key, value) :: (map.delete key).entries) := by
  have same : map.insert key value = map := by
    apply ext_lookup
    intro other
    rw [lookup_insert]
    split
    next here => rw [here, found]
    next => rfl
  have permuted := entries_insert_perm key value map
  rw [same] at permuted
  exact permuted

theorem delete_eq_self (absent : map.lookup key = none) : map.delete key = map := by
  apply ext_lookup
  intro other
  rw [lookup_delete]
  split
  next here => rw [here, absent]
  next => rfl

theorem lookup_adjust (change : V → V) (key other : K) (map : OrderedMap K V) :
    (map.adjust change key).lookup other = if other = key then (map.lookup other).map change else map.lookup other := by
  unfold adjust
  split
  next absent =>
    split
    next same => rw [same, absent, Option.map_none]
    next => rfl
  next found =>
    rw [lookup_insert]
    split
    next same => rw [same, found, Option.map_some]
    next => rfl

theorem lookup_alter (change : Option V → Option V) (key other : K) (map : OrderedMap K V) :
    (map.alter change key).lookup other = if other = key then change (map.lookup other) else map.lookup other := by
  unfold alter
  split
  next gone =>
    rw [lookup_delete]
    split
    next same => rw [same, gone]
    next => rfl
  next kept =>
    rw [lookup_insert]
    split
    next same => rw [same, kept]
    next => rfl

theorem lookup_insertAll (entries : List (K × V)) (map : OrderedMap K V) (key : K) :
    (map.insertAll entries).lookup key = (entries.lookup key).or (map.lookup key) := by
  induction entries with
  | nil => rfl
  | cons entry rest ih =>
    rw [insertAll, foldr_cons, ← insertAll, lookup_insert, lookup_cons]
    by_cases same : key = entry.1
    · simp [same]
    · simp [same, beq_eq_false_iff_ne.mpr same, ih]

theorem mem_keys_insert : other ∈ (map.insert key value).keys ↔ other = key ∨ other ∈ map.keys := by
  simp only [mem_keys, ← lookup_eq_some, lookup_insert]
  by_cases same : other = key
  · simp [same]
  · simp [same]

theorem mem_keys_insertAll : key ∈ (map.insertAll entries).keys ↔ key ∈ entries.map Prod.fst ∨ key ∈ map.keys := by
  induction entries with
  | nil => simp [insertAll]
  | cons _ rest ih =>
    rw [insertAll, foldr_cons, ← insertAll, mem_keys_insert, ih, map_cons, mem_cons, or_assoc]

theorem lookup_insertWith (combine : V → V → V) (key other : K) (value : V) (map : OrderedMap K V) :
    (map.insertWith combine key value).lookup other =
      if other = key then some (((map.lookup key).map (combine value)).getD value) else map.lookup other :=
  lookup_insert ..

private theorem mem_insertEach (member : entry ∈ entries.foldl (fun map entry => map.insert entry.1 entry.2) map) :
    entry ∈ entries ∨ entry ∈ map := by
  induction entries generalizing map with
  | nil => exact .inr member
  | cons _ rest ih =>
    rcases ih member with later | before
    · exact .inl (mem_cons_of_mem _ later)
    · rcases mem_insert.mp before with rfl | ⟨old, _⟩
      · exact .inl mem_cons_self
      · exact .inr old

theorem mem_of_mem_fromList (member : entry ∈ fromList entries) : entry ∈ entries :=
  (mem_insertEach member).resolve_right (not_mem_empty entry)

theorem mem_keys_fromList : key ∈ (fromList entries).keys ↔ key ∈ entries.map Prod.fst := by
  have general (map : OrderedMap K V) : key ∈ (entries.foldl (fun map entry => map.insert entry.1 entry.2) map).keys ↔
      key ∈ entries.map Prod.fst ∨ key ∈ map.keys := by
    induction entries generalizing map with
    | nil => simp
    | cons _ rest ih => rw [foldl_cons, ih, mem_keys_insert, map_cons, mem_cons, or_left_comm, or_assoc]
  rw [fromList, general]
  exact or_iff_left not_mem_nil

theorem mem_fromList (distinct : (entries.map Prod.fst).Nodup) : entry ∈ fromList entries ↔ entry ∈ entries := by
  constructor
  · exact mem_of_mem_fromList
  · intro listed
    obtain ⟨_, member⟩ := mem_keys.mp (mem_keys_fromList.mpr (mem_map_of_mem listed))
    have same := inj_on_of_nodup_map distinct (mem_of_mem_fromList member) listed rfl
    exact same ▸ member

private theorem lookup_none_of_least {rest : List (K × V)} (least : ∀ other ∈ rest, entry.1 < other.1) :
    rest.lookup entry.1 = none := by
  rw [lookup_eq_none_iff]
  intro other member
  exact bne_iff_ne.mpr (least other member).ne

/-- On an ascending list every key occurs once, so `fromList` keeps all its entries. -/
theorem lookup_fromList (ascending : entries.Pairwise (fun first second => first.1 < second.1)) (key : K) :
    (fromList entries).lookup key = entries.lookup key := by
  have general : ∀ map : OrderedMap K V, (entries.foldl (fun map entry => map.insert entry.1 entry.2) map).lookup key =
      (entries.lookup key).or (map.lookup key) := by
    induction entries with
    | nil => exact fun map => rfl
    | cons entry rest ih =>
      obtain ⟨least, remaining⟩ := pairwise_cons.mp ascending
      intro map
      rw [foldl_cons, ih remaining, lookup_insert, lookup_cons]
      by_cases same : key = entry.1
      · simp [same, lookup_none_of_least least]
      · simp [same, beq_eq_false_iff_ne.mpr same]
  rw [fromList, general empty, lookup_empty, Option.or_none]

theorem lookup_unionWith (combine : V → V → V) (left right : OrderedMap K V) (key : K) :
    (left.unionWith combine right).lookup key = Option.merge combine (left.lookup key) (right.lookup key) := by
  have general : ∀ (entries : List (K × V)), entries.Pairwise (fun first second => first.1 < second.1) →
      ∀ map : OrderedMap K V,
        (entries.foldl (fun map entry => map.insertWith (fun new old => combine old new) entry.1 entry.2) map).lookup key =
          Option.merge combine (map.lookup key) (entries.lookup key) := by
    intro entries
    induction entries with
    | nil => exact fun _ map => (Option.merge_none_right ..).symm
    | cons entry rest ih =>
      intro ascending map
      obtain ⟨least, remaining⟩ := pairwise_cons.mp ascending
      rw [foldl_cons, ih remaining, lookup_insertWith, lookup_cons]
      by_cases same : key = entry.1
      · subst same
        simp only [lookup_none_of_least least, if_true, BEq.rfl]
        cases map.lookup entry.1 <;> rfl
      · simp [same, beq_eq_false_iff_ne.mpr same]
  exact general right.entries right.ordered left

theorem unionWith_empty (combine : V → V → V) (map : OrderedMap K V) : empty.unionWith combine map = map := by
  apply ext_lookup
  intro key
  rw [lookup_unionWith, lookup_empty, Option.merge_none_left]

theorem lookup_alterEach (change : W → Option V → Option V) (changes : OrderedMap K W) (map : OrderedMap K V) (key : K) :
    (changes.entries.foldl (fun map entry => map.alter (change entry.2) entry.1) map).lookup key =
      ((changes.lookup key).map fun value => change value (map.lookup key)).getD (map.lookup key) := by
  have general : ∀ (entries : List (K × W)), entries.Pairwise (fun first second => first.1 < second.1) →
      ∀ map : OrderedMap K V, (entries.foldl (fun map entry => map.alter (change entry.2) entry.1) map).lookup key =
        ((entries.lookup key).map fun value => change value (map.lookup key)).getD (map.lookup key) := by
    intro entries
    induction entries with
    | nil => exact fun _ _ => rfl
    | cons entry rest ih =>
      intro ascending map
      obtain ⟨least, remaining⟩ := pairwise_cons.mp ascending
      rw [foldl_cons, ih remaining, lookup_alter, lookup_cons]
      by_cases same : key = entry.1
      · subst same
        simp [lookup_none_of_least least]
      · simp [same, beq_eq_false_iff_ne.mpr same]
  exact general changes.entries changes.ordered map

end OrderedMap
end Halon.Library
