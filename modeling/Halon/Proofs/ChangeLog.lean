import Halon.Multimap
import Mathlib.Data.List.Induction

/-! Compression of updates. A change log agrees with the updates it was made from,
one after another, except for values that it brings back: a key that is deleted
and inserted again is no longer deleted, so the values it had in the store stay. -/

namespace Halon
open Library List OrderedMap OrderedSet
variable {K V : Type}

def Listed (kvs : List (K × List V)) (k : K) (v : V) : Prop := ∃ entry ∈ kvs, entry.1 = k ∧ v ∈ entry.2

theorem Listed.key {kvs : List (K × List V)} (listed : Listed kvs k v) : k ∈ kvs.map Prod.fst := by
  obtain ⟨_, member, rfl, _⟩ := listed
  exact mem_map_of_mem member

namespace StoreUpdate
variable (k : K) (v : V)

def inserts : StoreUpdate K V → Prop
  | .insertMany kvs => k ∈ kvs.map Prod.fst
  | _ => False

def deletes : StoreUpdate K V → Prop
  | .deleteKeys ks => k ∈ ks
  | _ => False

def mentions : StoreUpdate K V → Prop
  | .insertMany kvs | .deleteValues kvs => Listed kvs k v
  | _ => False

end StoreUpdate

def Gone (us : List (StoreUpdate K V)) (k : K) : Prop :=
  ∃ before ks after, us = before ++ .deleteKeys ks :: after ∧ k ∈ ks ∧ ∀ u ∈ after, ¬ u.inserts k

private theorem snoc_split {α : Type} {items before after : List α} {last item}
    (split : items ++ [last] = before ++ item :: after) :
    after = [] ∧ before = items ∧ item = last ∨ ∃ rest, after = rest ++ [last] ∧ items = before ++ item :: rest := by
  cases eq_nil_or_concat after with
  | inl none =>
    subst none
    obtain ⟨same, tail⟩ := append_inj' split rfl
    cases tail
    exact .inl ⟨rfl, same.symm, rfl⟩
  | inr some =>
    obtain ⟨rest, _, rfl⟩ := some
    rw [concat_eq_append, ← cons_append, ← append_assoc] at split
    obtain ⟨same, tail⟩ := append_inj' split rfl
    cases tail
    exact .inr ⟨rest, concat_eq_append, same⟩

theorem gone_snoc {us : List (StoreUpdate K V)} :
    Gone (us ++ [u]) k ↔ u.deletes k ∨ Gone us k ∧ ¬ u.inserts k := by
  constructor
  · intro gone
    obtain ⟨before, ks, _, split, member, quiet⟩ := gone
    cases snoc_split split with
    | inl last =>
      obtain ⟨_, _, rfl⟩ := last
      exact .inl member
    | inr earlier =>
      obtain ⟨rest, rfl, rfl⟩ := earlier
      exact .inr ⟨⟨before, ks, rest, rfl, member, fun other inside => quiet other (mem_append_left _ inside)⟩,
        quiet u (mem_append_right _ mem_cons_self)⟩
  · intro condition
    cases condition with
    | inl deletes =>
      cases u with
      | deleteKeys ks => exact ⟨us, ks, [], rfl, deletes, nofun⟩
      | insertMany _ | deleteValues _ | setMetaInfo _ => cases deletes
    | inr earlier =>
      obtain ⟨⟨before, ks, after, rfl, member, quiet⟩, last⟩ := earlier
      refine ⟨before, ks, after ++ [u], by simp, member, ?_⟩
      intro other inside
      cases mem_append.mp inside with
      | inl old => exact quiet other old
      | inr new => exact mem_singleton.mp new ▸ last

variable [LinearOrder K] [LinearOrder V]

namespace Multimap
open SetMap
variable {mm : Multimap K V} {k : K} {v : V}

variable {kvs : List (K × List V)}

theorem has_insertMany : Has (insertMany kvs mm) k ↔ Has mm k ∨ k ∈ kvs.map Prod.fst := by
  induction kvs generalizing mm with
  | nil => simp [insertMany]
  | cons entry kvs ih =>
    rw [insertMany, foldl_cons, ← insertMany, ih, map_cons, mem_cons]
    simp only [Has, OrderedMap.insertWith, mem_keys_insert]
    rw [or_comm (a := k = entry.1), or_assoc]

theorem holds_insertMany : Holds (insertMany kvs mm) k v ↔ Holds mm k v ∨ Listed kvs k v := by
  induction kvs generalizing mm with
  | nil => simp [insertMany, Listed]
  | cons entry kvs ih =>
    have first : Holds (mm.insertWith (fun _ set => set.insertAll entry.2) entry.1 (.fromList entry.2)) k v ↔
        Holds mm k v ∨ entry.1 = k ∧ v ∈ entry.2 := by
      simp only [Holds, lookup_insertWith]
      by_cases same : k = entry.1
      · subst same
        cases mm.lookup entry.1 with
        | none => simp
        | some => simp [or_comm]
      · simp [same, Ne.symm same]
    rw [insertMany, foldl_cons, ← insertMany, ih, first, or_assoc]
    simp [Listed]

theorem has_deleteValues : Has (deleteValues kvs mm) k ↔ Has mm k := by
  induction kvs generalizing mm with
  | nil => rfl
  | cons _ kvs ih =>
    rw [deleteValues, foldl_cons, ← deleteValues, ih, has_iff, has_iff, lookup_adjust]
    split
    next => cases mm.lookup k <;> simp
    next => rfl

theorem holds_deleteValues : Holds (deleteValues kvs mm) k v ↔ Holds mm k v ∧ ¬ Listed kvs k v := by
  induction kvs generalizing mm with
  | nil => simp [deleteValues, Listed]
  | cons entry kvs ih =>
    have first : Holds (mm.adjust (fun set => set.deleteAll entry.2) entry.1) k v ↔
        Holds mm k v ∧ ¬ (entry.1 = k ∧ v ∈ entry.2) := by
      simp only [Holds, lookup_adjust]
      by_cases same : k = entry.1
      · subst same
        cases mm.lookup entry.1 with
        | none | some => simp
      · simp [same, Ne.symm same]
    rw [deleteValues, foldl_cons, ← deleteValues, ih, first, and_assoc]
    simp [Listed, not_or]

theorem deleteValues_congr (same : ∀ k v, Listed kvs k v ↔ Listed others k v) (mm : Multimap K V) :
    deleteValues kvs mm = deleteValues others mm := by
  apply ext_holds
  · intro k
    rw [has_deleteValues, has_deleteValues]
  · intro k v
    rw [holds_deleteValues, holds_deleteValues, same]

theorem lookup_deleteKeys (ks : List K) (mm : Multimap K V) (k : K) :
    (deleteKeys ks mm).lookup k = if k ∈ ks then none else mm.lookup k := by
  induction ks generalizing mm with
  | nil => rfl
  | cons key ks ih =>
    rw [deleteKeys, foldl_cons, ← deleteKeys, ih, lookup_delete]
    by_cases same : k = key
    · simp [same]
    · simp [same]

theorem has_deleteKeys : Has (deleteKeys ks mm) k ↔ Has mm k ∧ k ∉ ks := by
  rw [has_iff, has_iff, lookup_deleteKeys]
  by_cases gone : k ∈ ks <;> simp [gone]

theorem holds_deleteKeys : Holds (deleteKeys ks mm) k v ↔ Holds mm k v ∧ k ∉ ks := by
  simp only [Holds, lookup_deleteKeys]
  by_cases gone : k ∈ ks <;> simp [gone]

theorem mem_keys_toList : k ∈ (toList mm).map Prod.fst ↔ Has mm k := by
  rw [toList, map_map]
  rfl

theorem listed_toList : Listed (toList mm) k v ↔ Holds mm k v := by
  constructor
  · intro listed
    obtain ⟨_, member, same, inside⟩ := listed
    obtain ⟨entry, stored, rfl⟩ := mem_map.mp member
    exact ⟨entry.2, lookup_eq_some.mpr (same ▸ stored), inside⟩
  · intro holds
    obtain ⟨set, found, inside⟩ := holds
    exact ⟨_, mem_map_of_mem (lookup_eq_some.mp found), rfl, inside⟩

end Multimap

/-- A value of the store whose key was deleted, was inserted again, was not deleted
since, and which was not mentioned by that insertion nor since. -/
def Restored (mm : Multimap K V) (us : List (StoreUpdate K V)) (k : K) (v : V) : Prop :=
  mm.Holds k v ∧ ∃ before kvs after, us = before ++ .insertMany kvs :: after ∧ Gone before k ∧ k ∈ kvs.map Prod.fst ∧
    (∀ u ∈ after, ¬ u.deletes k) ∧ ∀ u ∈ .insertMany kvs :: after, ¬ u.mentions k v

theorem restored_snoc {mm : Multimap K V} :
    Restored mm (us ++ [u]) k v ↔ ¬ u.deletes k ∧ ¬ u.mentions k v ∧
      (Restored mm us k v ∨ Gone us k ∧ u.inserts k ∧ mm.Holds k v) := by
  constructor
  · intro restored
    obtain ⟨held, before, kvs, _, split, gone, member, kept, silent⟩ := restored
    cases snoc_split split with
    | inl last =>
      obtain ⟨rfl, rfl, rfl⟩ := last
      exact ⟨id, silent _ mem_cons_self, .inr ⟨gone, member, held⟩⟩
    | inr earlier =>
      obtain ⟨rest, rfl, rfl⟩ := earlier
      have last : u ∈ rest ++ [u] := mem_append_right _ mem_cons_self
      refine ⟨kept u last, silent u (mem_cons_of_mem _ last), .inl ⟨held, before, kvs, rest, rfl, gone, member, ?_, ?_⟩⟩
      · exact fun other inside => kept other (mem_append_left _ inside)
      · exact fun other inside => silent other (mem_append_left [u] inside)
  · intro condition
    obtain ⟨kept, silent, earlier | now⟩ := condition
    · obtain ⟨held, before, kvs, after, rfl, gone, member, keeps, quiet⟩ := earlier
      refine ⟨held, before, kvs, after ++ [u], by simp, gone, member, ?_, ?_⟩
      · intro other inside
        cases mem_append.mp inside with
        | inl old => exact keeps other old
        | inr new => exact mem_singleton.mp new ▸ kept
      · intro other inside
        rw [← cons_append] at inside
        cases mem_append.mp inside with
        | inl old => exact quiet other old
        | inr new => exact mem_singleton.mp new ▸ silent
    · obtain ⟨gone, inserts, held⟩ := now
      cases u with
      | insertMany kvs =>
        refine ⟨held, us, kvs, [], rfl, gone, inserts, nofun, ?_⟩
        intro other inside
        exact mem_singleton.mp inside ▸ silent
      | deleteValues _ | deleteKeys _ | setMetaInfo _ => cases inserts

def compress (us : List (StoreUpdate K V)) : ChangeLog K V := us.foldl (fun log u => updateChangeLog u log) emptyChangeLog

def applyEach (us : List (StoreUpdate K V)) (store : StoreState K V) : StoreState K V :=
  us.foldl (fun store u => updateStore [u] store) store

theorem compress_snoc (us : List (StoreUpdate K V)) (u : StoreUpdate K V) :
    compress (us ++ [u]) = updateChangeLog u (compress us) := by
  rw [compress, foldl_append]
  rfl

theorem applyEach_snoc (us : List (StoreUpdate K V)) (u : StoreUpdate K V) (store : StoreState K V) :
    applyEach (us ++ [u]) store = updateStore [u] (applyEach us store) := by
  rw [applyEach, foldl_append]
  rfl

open SetMap Multimap

/-- How a change log relates to the store before the updates and to the store after them. -/
structure Compresses (mm : Multimap K V) (us : List (StoreUpdate K V)) (log : ChangeLog K V) (final : Multimap K V) : Prop where
  gone : ∀ k, k ∈ log.dks ↔ Gone us k
  inserted : ∀ k, Has log.is k → k ∉ log.dks
  removed : ∀ k, Has log.dvs k → k ∉ log.dks
  apart : ∀ k v, Holds log.is k v → ¬ Holds log.dvs k v
  restored : ∀ k v, Restored mm us k v → k ∉ log.dks ∧ ¬ Holds log.is k v ∧ ¬ Holds log.dvs k v
  has : ∀ k, Has final k ↔ k ∉ log.dks ∧ (Has mm k ∨ Has log.is k)
  holds : ∀ k v, Holds final k v ↔ k ∉ log.dks ∧
    (Holds log.is k v ∨ Holds mm k v ∧ ¬ Holds log.dvs k v ∧ ¬ Restored mm us k v)

variable {dks : OrderedSet K}

theorem mem_undeleted {ks : List K} : k ∈ ks.foldr (fun k dks => dks.delete k) dks ↔ k ∈ dks ∧ k ∉ ks := by
  induction ks with
  | nil => simp
  | cons key ks ih => rw [foldr_cons, mem_delete, ih, mem_cons, not_or, and_assoc, and_comm (a := k ∉ ks)]

theorem mem_deleted {ks : List K} : k ∈ ks.foldr (fun k dks => dks.insert k) dks ↔ k ∈ ks ∨ k ∈ dks := by
  induction ks with
  | nil => simp
  | cons key ks ih => rw [foldr_cons, OrderedSet.mem_insert, ih, mem_cons, or_assoc]

variable {mm final : Multimap K V} {us : List (StoreUpdate K V)} {log : ChangeLog K V}

section
variable (valid : Compresses mm us log final)
include valid

private theorem Compresses.forgotten (deleted : k ∈ log.dks) (v : V) : ¬ Holds log.is k v ∧ ¬ Holds log.dvs k v :=
  ⟨fun held => valid.inserted k held.has deleted, fun held => valid.removed k held.has deleted⟩

private theorem insertMany_compresses (kvs : List (K × List V)) :
    Compresses mm (us ++ [.insertMany kvs]) (updateChangeLog (.insertMany kvs) log) (insertMany kvs final) := by
  have again {k : K} {v : V} : Restored mm (us ++ [.insertMany kvs]) k v ↔ ¬ Listed kvs k v ∧
      (Restored mm us k v ∨ k ∈ log.dks ∧ k ∈ kvs.map Prod.fst ∧ Holds mm k v) := by
    rw [restored_snoc, valid.gone]
    exact and_iff_right not_false
  constructor
  · intro k
    simp only [updateChangeLog, mem_undeleted, gone_snoc, StoreUpdate.deletes, StoreUpdate.inserts, valid.gone, false_or]
  · intro k
    have inserted := valid.inserted k
    simp only [updateChangeLog, mem_undeleted, has_insertMany]
    tauto
  · intro k
    have removed := valid.removed k
    simp only [updateChangeLog, mem_undeleted, has_deleteValues]
    tauto
  · intro k v
    have apart := valid.apart k v
    simp only [updateChangeLog, holds_insertMany, holds_deleteValues]
    tauto
  · intro k v restored
    obtain ⟨_, earlier | now⟩ := again.mp restored
    · obtain ⟨_, _, _⟩ := valid.restored k v earlier
      simp only [updateChangeLog, holds_insertMany, holds_deleteValues, mem_undeleted]
      tauto
    · have forgotten := valid.forgotten now.1 v
      simp only [updateChangeLog, holds_insertMany, holds_deleteValues, mem_undeleted]
      tauto
  · intro k
    simp only [updateChangeLog, has_insertMany, mem_undeleted, valid.has]
    by_cases listed : k ∈ kvs.map Prod.fst
    · simp only [listed, or_true, not_true, and_false, not_false_eq_true, and_self]
    · simp only [listed, or_false, not_false_eq_true, and_true]
  · intro k v
    simp only [updateChangeLog, again, holds_insertMany, holds_deleteValues, mem_undeleted, valid.holds]
    by_cases listed : Listed kvs k v
    · simp [listed, listed.key]
    · by_cases deleted : k ∈ log.dks
      · simp only [listed, deleted, valid.forgotten deleted v]
        tauto
      · simp [listed, deleted]

private theorem deleteValues_compresses (kvs : List (K × List V)) :
    Compresses mm (us ++ [.deleteValues kvs]) (updateChangeLog (.deleteValues kvs) log) (deleteValues kvs final) := by
  have filtered {k : K} {v : V} :
      Listed (kvs.filter fun entry => decide (entry.1 ∉ log.dks)) k v ↔ Listed kvs k v ∧ k ∉ log.dks := by
    constructor
    · intro listed
      obtain ⟨entry, member, rfl, inside⟩ := listed
      obtain ⟨old, undeleted⟩ := mem_filter.mp member
      exact ⟨⟨entry, old, rfl, inside⟩, of_decide_eq_true undeleted⟩
    · intro condition
      obtain ⟨⟨entry, member, rfl, inside⟩, undeleted⟩ := condition
      exact ⟨entry, mem_filter.mpr ⟨member, decide_eq_true undeleted⟩, rfl, inside⟩
  have again {k : K} {v : V} : Restored mm (us ++ [.deleteValues kvs]) k v ↔ ¬ Listed kvs k v ∧ Restored mm us k v := by
    simp [restored_snoc, StoreUpdate.deletes, StoreUpdate.mentions, StoreUpdate.inserts]
  constructor
  · intro k
    simp only [updateChangeLog, gone_snoc, StoreUpdate.deletes, StoreUpdate.inserts, valid.gone, false_or, not_false_eq_true,
      and_true]
  · intro k
    simp only [updateChangeLog, has_deleteValues]
    exact valid.inserted k
  · intro k has
    cases has_insertMany.mp has with
    | inl old => exact valid.removed k old
    | inr new =>
      obtain ⟨_, member, rfl⟩ := mem_map.mp new
      exact of_decide_eq_true (mem_filter.mp member).2
  · intro k v
    have apart := valid.apart k v
    simp only [updateChangeLog, holds_insertMany, holds_deleteValues, filtered]
    tauto
  · intro k v restored
    obtain ⟨_, earlier⟩ := again.mp restored
    obtain ⟨_, _, _⟩ := valid.restored k v earlier
    simp only [updateChangeLog, holds_insertMany, holds_deleteValues, filtered]
    tauto
  · intro k
    simp only [updateChangeLog, has_deleteValues]
    exact valid.has k
  · intro k v
    simp only [updateChangeLog, again, holds_insertMany, holds_deleteValues, filtered, valid.holds]
    by_cases listed : Listed kvs k v
    · simp only [listed]
      tauto
    · simp [listed]

private theorem deleteKeys_compresses (ks : List K) :
    Compresses mm (us ++ [.deleteKeys ks]) (updateChangeLog (.deleteKeys ks) log) (deleteKeys ks final) := by
  have again {k : K} {v : V} : Restored mm (us ++ [.deleteKeys ks]) k v ↔ k ∉ ks ∧ Restored mm us k v := by
    simp [restored_snoc, StoreUpdate.deletes, StoreUpdate.mentions, StoreUpdate.inserts]
  constructor
  · intro k
    simp only [updateChangeLog, mem_deleted, gone_snoc, StoreUpdate.deletes, StoreUpdate.inserts, valid.gone,
      not_false_eq_true, and_true]
  · intro k
    have inserted := valid.inserted k
    simp only [updateChangeLog, has_deleteKeys, mem_deleted]
    tauto
  · intro k
    have removed := valid.removed k
    simp only [updateChangeLog, has_deleteKeys, mem_deleted]
    tauto
  · intro k v
    have apart := valid.apart k v
    simp only [updateChangeLog, holds_deleteKeys]
    tauto
  · intro k v restored
    obtain ⟨_, earlier⟩ := again.mp restored
    have before := valid.restored k v earlier
    simp only [updateChangeLog, holds_deleteKeys, mem_deleted]
    tauto
  · intro k
    have has := valid.has k
    simp only [updateChangeLog, has_deleteKeys, mem_deleted]
    tauto
  · intro k v
    simp only [updateChangeLog, again, holds_deleteKeys, mem_deleted, valid.holds]
    by_cases deleted : k ∈ ks
    · simp [deleted]
    · simp [deleted]

theorem update_compresses (u : StoreUpdate K V) : Compresses mm (us ++ [u]) (updateChangeLog u log) (applyUpdate u final) := by
  cases u with
  | insertMany kvs => exact insertMany_compresses valid kvs
  | deleteValues kvs => exact deleteValues_compresses valid kvs
  | deleteKeys ks => exact deleteKeys_compresses valid ks
  | setMetaInfo mi =>
    have again {k : K} {v : V} : Restored mm (us ++ [.setMetaInfo mi]) k v ↔ Restored mm us k v := by
      simp [restored_snoc, StoreUpdate.deletes, StoreUpdate.mentions, StoreUpdate.inserts]
    constructor
    · intro k
      simp only [updateChangeLog, gone_snoc, StoreUpdate.deletes, StoreUpdate.inserts, valid.gone, false_or,
        not_false_eq_true, and_true]
    · exact valid.inserted
    · exact valid.removed
    · exact valid.apart
    · exact fun k v restored => valid.restored k v (again.mp restored)
    · exact valid.has
    · intro k v
      rw [again]
      exact valid.holds k v

end

theorem compress_compresses (us : List (StoreUpdate K V)) (store : StoreState K V) :
    Compresses store.2 us (compress us) (applyEach us store).2 := by
  induction us using List.reverseRecOn with
  | nil =>
    have fresh (k : K) : ¬ Gone ([] : List (StoreUpdate K V)) k := by
      intro gone
      obtain ⟨_, ks, _, split, _⟩ := gone
      simp at split
    have unrestored (k : K) (v : V) : ¬ Restored store.2 [] k v := by
      intro restored
      obtain ⟨_, _, kvs, _, split, _⟩ := restored
      simp at split
    constructor
    · exact fun k => iff_of_false (not_mem_empty k) (fresh k)
    · exact fun k has => absurd has (not_has_empty k)
    · exact fun k has => absurd has (not_has_empty k)
    · exact fun k v held => absurd held (not_holds_empty k v)
    · exact fun k v restored => absurd restored (unrestored k v)
    · intro k
      simp [applyEach, compress, emptyChangeLog]
    · intro k v
      simp [applyEach, compress, emptyChangeLog, unrestored]
  | append_singleton us u ih =>
    rw [compress_snoc, applyEach_snoc]
    exact update_compresses ih u

/-- The invariants of a change log: no edge is both inserted and removed, and no deleted key has either. -/
structure Disjoint (log : ChangeLog K V) : Prop where
  edges : ∀ k v, Holds log.is k v → ¬ Holds log.dvs k v
  inserted : ∀ k ∈ log.is.keys, k ∉ log.dks
  removed : ∀ k ∈ log.dvs.keys, k ∉ log.dks

theorem change_log_disjoint (us : List (StoreUpdate K V)) :
    Disjoint (us.foldl (fun log u => updateChangeLog u log) emptyChangeLog) := by
  have valid := compress_compresses us (defaultMetaInfo, .empty)
  exact ⟨valid.apart, valid.inserted, valid.removed⟩

theorem compress_meta (us : List (StoreUpdate K V)) (store : StoreState K V) :
    (applyEach us store).1 = (compress us).mi.getD store.1 := by
  induction us using List.reverseRecOn with
  | nil => rfl
  | append_singleton us u ih =>
    rw [compress_snoc, applyEach_snoc]
    cases u with
    | setMetaInfo => rfl
    | insertMany _ | deleteValues _ | deleteKeys _ => exact ih

theorem update_fromChangeLog (log : ChangeLog K V) (store : StoreState K V) :
    updateStore (fromChangeLog log) store = (log.mi.getD store.1,
      deleteKeys log.dks.elements (deleteValues (toList log.dvs) (insertMany (toList log.is) store.2))) := by
  unfold updateStore fromChangeLog
  cases log.mi <;> rfl

theorem has_compressed (us : List (StoreUpdate K V)) (store : StoreState K V) (k : K) :
    Has (updateStore (fromChangeLog (compress us)) store).2 k ↔ Has (applyEach us store).2 k := by
  rw [update_fromChangeLog, has_deleteKeys, has_deleteValues, has_insertMany, mem_keys_toList,
    (compress_compresses us store).has, and_comm]
  rfl

theorem holds_compressed (us : List (StoreUpdate K V)) (store : StoreState K V) (k : K) (v : V) :
    Holds (updateStore (fromChangeLog (compress us)) store).2 k v ↔
      Holds (applyEach us store).2 k v ∨ Restored store.2 us k v := by
  have valid := compress_compresses us store
  rw [update_fromChangeLog, holds_deleteKeys, holds_deleteValues, holds_insertMany, listed_toList, listed_toList,
    valid.holds, ← OrderedSet.mem_def]
  constructor
  · intro held
    obtain ⟨⟨source, unremoved⟩, undeleted⟩ := held
    by_cases back : Restored store.2 us k v
    · exact .inr back
    · exact .inl ⟨undeleted, source.symm.imp_right fun stored => ⟨stored, unremoved, back⟩⟩
  · intro held
    rcases held with ⟨undeleted, set | stored⟩ | restored
    · exact ⟨⟨.inr set, valid.apart k v set⟩, undeleted⟩
    · exact ⟨⟨.inl stored.1, stored.2.1⟩, undeleted⟩
    · obtain ⟨undeleted, _, unremoved⟩ := valid.restored k v restored
      exact ⟨⟨.inl restored.1, unremoved⟩, undeleted⟩

theorem restored_absent (us : List (StoreUpdate K V)) (store : StoreState K V)
    (restored : Restored store.2 us k v) : ¬ Holds (applyEach us store).2 k v := by
  have valid := compress_compresses us store
  obtain ⟨_, unset, _⟩ := valid.restored k v restored
  rw [valid.holds]
  intro held
  exact held.2.elim unset fun stored => stored.2.2 restored

theorem compress_eq (faithful : ∀ k v, ¬ Restored store.2 us k v) :
    updateStore (fromChangeLog (compress us)) store = applyEach us store := by
  apply Prod.ext
  · rw [update_fromChangeLog]
    exact (compress_meta us store).symm
  · apply ext_holds
    · exact has_compressed us store
    · intro k v
      exact (holds_compressed us store k v).trans (or_iff_left (faithful k v))

/-- Compressing updates is faithful exactly when no value is brought back. -/
theorem compressed_iff (us : List (StoreUpdate K V)) (store : StoreState K V) :
    updateStore (fromChangeLog (us.foldl (fun log u => updateChangeLog u log) emptyChangeLog)) store =
      us.foldl (fun store u => updateStore [u] store) store ↔ ∀ k v, ¬ Restored store.2 us k v := by
  constructor
  · intro same k v restored
    apply restored_absent us store restored
    rw [applyEach, ← same]
    exact (holds_compressed us store k v).mpr (.inr restored)
  · exact compress_eq

def reinsertion : List (StoreUpdate Nat Nat) := [.deleteKeys [1], .insertMany [(1, [8])]]

theorem value_restored : ¬ ∀ (us : List (StoreUpdate Nat Nat)) (store : MetaInfo Nat × Multimap Nat Nat),
    updateStore (fromChangeLog (us.foldl (fun log u => updateChangeLog u log) emptyChangeLog)) store =
      us.foldl (fun store u => updateStore [u] store) store := by
  intro faithful
  have same := faithful reinsertion (defaultMetaInfo, .fromList [(1, .fromList [7])])
  exact absurd (congrArg (fun store => toList store.2) same) (by decide)

end Halon
