import Halon.Log.Persistence
import Mathlib.Data.List.Perm.Basic

/-! The log in memory against the persisted log. They agree when the operations on them have
ended, if no operation wrote over what another one did in the meantime. -/

namespace Halon.Log
open Library List OrderedMap Option

variable {A : Type} {ph : PersistenceHandle A} {ops rest : List (Operation A)} {op : Operation A}

namespace Operation

/-- An operation goes from its first access to its last one without another access between them. -/
inductive Alone : PersistenceHandle A → Operation A → PersistenceHandle A → Prop where
  | last {ph ph' : PersistenceHandle A} {op : Operation A} (taken : op.step ph = (ph', none)) : Alone ph op ph'
  | more {ph middle ph' : PersistenceHandle A} {op next : Operation A} (taken : op.step ph = (middle, some next))
      (others : Alone middle next ph') : Alone ph op ph'

theorem insertInLog_alone (n : Int) (v : Value A) (ph : PersistenceHandle A) :
    Alone ph (.insertInLog n v) (ph.insertInLog n v) :=
  .more rfl (.more rfl (.last rfl))

theorem trimTheLog_alone (w0 : Int) (ph : PersistenceHandle A) : Alone ph (.trimTheLog w0) (ph.trimTheLog w0) :=
  .more rfl (.more rfl (.last rfl))

def touches (k : Int) : Operation A → Bool
  | .inserted n _ | .modifying n _ _ => k = n
  | .splitting w0 _ | .trimmed w0 _ => k < w0
  | .insertInLog .. | .trimTheLog _ => false

def touchesBelow (w0 : Int) : Operation A → Bool
  | .inserted n _ | .modifying n _ _ => n < w0
  | .splitting .. | .trimmed .. => true
  | .insertInLog .. | .trimTheLog _ => false

theorem not_touches (below : k < w0) (clear : op.touchesBelow w0 = false) : op.touches k = false := by
  cases op with
  | inserted n v | modifying n v log =>
    have beyond : ¬ n < w0 := of_decide_eq_false clear
    exact decide_eq_false fun same => beyond (same ▸ below)
  | splitting w log | trimmed w log => cases clear
  | insertInLog n v | trimTheLog w => rfl

def Apart (first second : Operation A) : Prop := ∀ k, first.touches k = true → second.touches k = false

theorem Apart.symm (apart : Apart first second) : Apart second first := by
  intro k touched
  by_contra both
  rw [apart k (Bool.of_not_eq_false both)] at touched
  cases touched

/-- What the persisted log holds for an operation that has begun. -/
def Faithful (stored : OrderedMap Int (Value A)) : Operation A → Prop
  | .inserted n v | .modifying n v _ => stored.lookup n = some v
  | .splitting w0 log => ∀ k < w0, log.lookup k = stored.lookup k
  | .trimmed w0 _ => ∀ k < w0, stored.lookup k = none
  | .insertInLog .. | .trimTheLog _ => True

theorem Faithful.frame (faithful : op.Faithful stored)
    (same : ∀ k, op.touches k = true → stored'.lookup k = stored.lookup k) : op.Faithful stored' := by
  cases op with
  | inserted n v | modifying n v log => exact (same n (decide_eq_true rfl)).trans faithful
  | splitting =>
    intro k below
    exact (faithful k below).trans (same k (decide_eq_true below)).symm
  | trimmed =>
    intro k below
    exact (same k (decide_eq_true below)).trans (faithful k below)
  | insertInLog n v | trimTheLog w0 => trivial

/-- The next access of an operation does not undo what others do. An insertion begins only if no other operation
has begun with its entry, and a trim if none has begun with an entry that it removes. A log that was read is
written only if the log in memory is still the one that was read. -/
def Undisturbed (ph : PersistenceHandle A) (ops : List (Operation A)) : Operation A → Prop
  | .insertInLog n _ => ∀ op ∈ ops, op.touches n = false
  | .trimTheLog w0 => ∀ op ∈ ops, op.touchesBelow w0 = false
  | .modifying _ _ log | .trimmed _ log => ph.persistentLogCache = log
  | .inserted .. | .splitting .. => True

instance [DecidableEq A] (ph : PersistenceHandle A) (ops : List (Operation A)) :
    (op : Operation A) → Decidable (op.Undisturbed ph ops)
  | .insertInLog _ _ => inferInstanceAs (Decidable (∀ _ ∈ ops, _ = _))
  | .trimTheLog _ => inferInstanceAs (Decidable (∀ _ ∈ ops, _ = _))
  | .modifying _ _ log | .trimmed _ log => inferInstanceAs (Decidable (ph.persistentLogCache = log))
  | .inserted .. | .splitting .. => .isTrue trivial

theorem Undisturbed.perm (undisturbed : op.Undisturbed ph ops) (same : ops.Perm ops') :
    op.Undisturbed ph ops' := by
  cases op with
  | insertInLog | trimTheLog => exact fun other member => undisturbed other (same.mem_iff.mpr member)
  | modifying n v log | trimmed w0 log => exact undisturbed
  | inserted n v | splitting w0 log => trivial

end Operation

open Operation

/-- The two logs agree on the entries that no operation touches. -/
structure Coherent (ph : PersistenceHandle A) (ops : List (Operation A)) : Prop where
  apart : ops.Pairwise Apart
  untouched : ∀ k, (∀ op ∈ ops, op.touches k = false) → ph.persistentLogCache.lookup k = ph.persistentLogMap.lookup k
  faithful : ∀ op ∈ ops, op.Faithful ph.persistentLogMap

namespace Coherent

theorem perm (coherent : Coherent ph ops) (same : ops.Perm ops') : Coherent ph ops' :=
  ⟨coherent.apart.perm same Apart.symm,
    fun k clear => coherent.untouched k fun op member => clear op (same.mem_iff.mp member),
    fun op member => coherent.faithful op (same.mem_iff.mpr member)⟩

theorem add (coherent : Coherent ph ops) (idle : ∀ k, op.touches k = false) (faithful : op.Faithful ph.persistentLogMap) :
    Coherent ph (op :: ops) := by
  refine ⟨pairwise_cons.mpr ⟨fun other _ => Apart.symm fun k _ => idle k, coherent.apart⟩, fun k clear => ?_,
    forall_mem_cons.mpr ⟨faithful, coherent.faithful⟩⟩
  exact coherent.untouched k (forall_mem_cons.mp clear).2

theorem insertInLog (coherent : Coherent ph (.insertInLog n v :: rest))
    (undisturbed : ∀ op ∈ rest, op.touches n = false) : Coherent (ph.insertEntry n v) (.inserted n v :: rest) := by
  have others {k : Int} (different : k ≠ n) : (ph.persistentLogMap.insert n v).lookup k = ph.persistentLogMap.lookup k :=
    lookup_insert_ne v _ different
  refine ⟨pairwise_cons.mpr ⟨fun op member k touched => ?_, coherent.apart.of_cons⟩, ?_, ?_⟩
  · exact (of_decide_eq_true touched) ▸ undisturbed op member
  · intro k clear
    obtain ⟨apart, older⟩ := forall_mem_cons.mp clear
    exact (coherent.untouched k (forall_mem_cons.mpr ⟨rfl, older⟩)).trans (others (of_decide_eq_false apart)).symm
  · refine forall_mem_cons.mpr ⟨lookup_insert_self n v _, fun op member => ?_⟩
    refine (coherent.faithful op (mem_cons_of_mem _ member)).frame fun k touched => others fun same => ?_
    rw [same, undisturbed op member] at touched
    cases touched

theorem inserted (coherent : Coherent ph (.inserted n v :: rest)) :
    Coherent ph (.modifying n v ph.persistentLogCache :: rest) := by
  obtain ⟨stored, older⟩ := forall_mem_cons.mp coherent.faithful
  obtain ⟨disjoint, among⟩ := pairwise_cons.mp coherent.apart
  refine ⟨pairwise_cons.mpr ⟨disjoint, among⟩, fun k clear => ?_, forall_mem_cons.mpr ⟨stored, older⟩⟩
  obtain ⟨apart, others⟩ := forall_mem_cons.mp clear
  exact coherent.untouched k (forall_mem_cons.mpr ⟨apart, others⟩)

theorem modifying (coherent : Coherent ph (.modifying n v ph.persistentLogCache :: rest)) :
    Coherent { ph with persistentLogCache := ph.persistentLogCache.insert n v } rest := by
  obtain ⟨stored, faithful⟩ := forall_mem_cons.mp coherent.faithful
  refine ⟨coherent.apart.of_cons, fun k clear => ?_, faithful⟩
  by_cases same : k = n
  · subst same
    exact (lookup_insert_self k v _).trans stored.symm
  · have apart : (Operation.modifying n v ph.persistentLogCache).touches k = false := decide_eq_false same
    exact (lookup_insert_ne v _ same).trans (coherent.untouched k (forall_mem_cons.mpr ⟨apart, clear⟩))

theorem trimTheLog (coherent : Coherent ph (.trimTheLog w0 :: rest))
    (undisturbed : ∀ op ∈ rest, op.touchesBelow w0 = false) : Coherent ph (.splitting w0 ph.persistentLogCache :: rest) := by
  refine ⟨pairwise_cons.mpr ⟨fun op member k touched => ?_, coherent.apart.of_cons⟩, ?_, ?_⟩
  · exact not_touches (of_decide_eq_true touched) (undisturbed op member)
  · intro k clear
    exact coherent.untouched k (forall_mem_cons.mpr ⟨rfl, (forall_mem_cons.mp clear).2⟩)
  · refine forall_mem_cons.mpr ⟨fun k below => ?_, (forall_mem_cons.mp coherent.faithful).2⟩
    exact coherent.untouched k (forall_mem_cons.mpr ⟨rfl, fun op member => not_touches below (undisturbed op member)⟩)

/-- A trim removes all entries below its index, because the log that it has read holds all of them. -/
theorem lookup_trimEntries (read : ∀ k < w0, log.lookup k = ph.persistentLogMap.lookup k) (k : Int) :
    (ph.trimEntries w0 log).persistentLogMap.lookup k = if k < w0 then none else ph.persistentLogMap.lookup k := by
  have kept := OrderedMap.lookup_filter_key (fun n => decide (n ∉ (log.below (w0 - 1)).keys ++ [w0 - 1])) ph.persistentLogMap k
  refine kept.trans ?_
  split_ifs with outside below below
  · -- An index below `w0` that is not trimmed is not in the log that was read.
    rw [← read k below]
    refine OrderedMap.lookup_eq_none.mpr fun v member => of_decide_eq_true outside (mem_append.mpr ?_)
    rcases (Int.le_sub_one_of_lt below).lt_or_eq with lower | last
    · exact .inl (OrderedMap.mem_keys.mpr ⟨v, OrderedMap.mem_filter.mpr ⟨member, decide_eq_true lower⟩⟩)
    · exact .inr (mem_singleton.mpr last)
  · rfl
  · rfl
  · refine absurd (decide_eq_true (p := k ∉ _) fun member => below ?_) outside
    rcases mem_append.mp member with lower | last
    · obtain ⟨v, found⟩ := OrderedMap.mem_keys.mp lower
      have less : k < w0 - 1 := of_decide_eq_true (OrderedMap.mem_filter.mp found).2
      omega
    · have last := mem_singleton.mp last
      omega

theorem splitting (coherent : Coherent ph (.splitting w0 log :: rest)) :
    Coherent (ph.trimEntries w0 log) (.trimmed w0 log :: rest) := by
  obtain ⟨read, older⟩ := forall_mem_cons.mp coherent.faithful
  obtain ⟨disjoint, among⟩ := pairwise_cons.mp coherent.apart
  have trimmed := lookup_trimEntries read
  refine ⟨pairwise_cons.mpr ⟨disjoint, among⟩, ?_, ?_⟩
  · intro k clear
    obtain ⟨beyond, others⟩ := forall_mem_cons.mp clear
    rw [trimmed k, if_neg (of_decide_eq_false beyond)]
    exact coherent.untouched k (forall_mem_cons.mpr ⟨beyond, others⟩)
  · refine forall_mem_cons.mpr ⟨fun k below => (trimmed k).trans (if_pos below), fun op member => ?_⟩
    refine (older op member).frame fun k touched => (trimmed k).trans (if_neg fun below => ?_)
    rw [disjoint op member k (decide_eq_true below)] at touched
    cases touched

theorem trimmed (coherent : Coherent ph (.trimmed w0 ph.persistentLogCache :: rest)) :
    Coherent { ph with persistentLogCache := ph.persistentLogCache.above (w0 - 1) } rest := by
  obtain ⟨removed, faithful⟩ := forall_mem_cons.mp coherent.faithful
  refine ⟨coherent.apart.of_cons, fun k clear => ?_, faithful⟩
  have kept := lookup_filter_key (fun n => decide (w0 - 1 < n)) ph.persistentLogCache k
  refine kept.trans ?_
  split_ifs with above
  · have beyond : ¬ k < w0 := by
      have above := of_decide_eq_true above
      omega
    exact coherent.untouched k (forall_mem_cons.mpr ⟨decide_eq_false beyond, clear⟩)
  · have below : k < w0 := by
      have below := of_decide_eq_false (Bool.eq_false_iff.mpr above)
      omega
    exact (removed k below).symm

/-- Every access of an operation that is not disturbed keeps the logs coherent. -/
theorem advance (coherent : Coherent ph (op :: rest)) (undisturbed : op.Undisturbed ph (op :: rest)) :
    Coherent (op.step ph).1 ((op.step ph).2.toList ++ rest) := by
  cases op with
  | insertInLog => exact coherent.insertInLog (forall_mem_cons.mp undisturbed).2
  | inserted => exact coherent.inserted
  | modifying =>
    cases undisturbed
    exact coherent.modifying
  | trimTheLog => exact coherent.trimTheLog (forall_mem_cons.mp undisturbed).2
  | splitting => exact coherent.splitting
  | trimmed =>
    cases undisturbed
    exact coherent.trimmed

end Coherent

namespace Persistence

def inProgress (s : Persistence A) : List (Operation A) := s.own.toList ++ s.workers

/-- Whether a step keeps the two logs together. A replica starts again only if its persisted log is empty,
because the log in memory is then empty. -/
def Undisturbed (s : Persistence A) : Action A → Prop
  | .work k => ∀ op ∈ s.workers[k]?, op.Undisturbed s.handle s.inProgress
  | .go => ∀ op ∈ s.own, op.Undisturbed s.handle s.inProgress
  | .restart => s.handle.persistentLogMap.keys = []
  | _ => True

instance [DecidableEq A] (s : Persistence A) : (action : Action A) → Decidable (s.Undisturbed action)
  | .work k => inferInstanceAs (Decidable (∀ _ ∈ s.workers[k]?, _))
  | .go => inferInstanceAs (Decidable (∀ _ ∈ s.own, _))
  | .restart => inferInstanceAs (Decidable (s.handle.persistentLogMap.keys = []))
  | .submitTask .. | .insertInLog .. | .trimTheLog _ | .take => .isTrue trivial

variable {s s' : Persistence A} {action : Action A}

theorem work_eq (taken : s.step (.work k) = some s') : ∃ op, s.workers[k]? = some op ∧
    s' = { s with handle := (op.step s.handle).1, workers := s.workers.eraseIdx k ++ (op.step s.handle).2.toList } := by
  obtain ⟨op, found, same⟩ := bind_eq_some_iff.mp taken
  exact ⟨op, found, (Option.some.inj same).symm⟩

theorem step_coherent (taken : s.step action = some s') (undisturbed : s.Undisturbed action)
    (coherent : Coherent s.handle s.inProgress) : Coherent s'.handle s'.inProgress := by
  cases action with
  | submitTask =>
    obtain ⟨-, same⟩ := ite_none_right_eq_some.mp taken
    cases same
    exact coherent
  | insertInLog n v | trimTheLog w0 =>
    obtain ⟨free, same⟩ := ite_none_right_eq_some.mp taken
    cases same
    have working : s.inProgress = s.workers := by simp [inProgress, isNone_iff_eq_none.mp free]
    rw [working] at coherent
    exact coherent.add (fun _ => rfl) trivial
  | take =>
    simp only [step] at taken
    split at taken
    next => cases taken
    next n v queue _ =>
      obtain ⟨-, same⟩ := ite_none_right_eq_some.mp taken
      cases same
      have placed : (.insertInLog n v :: s.inProgress).Perm (s.own.toList ++ (s.workers ++ [.insertInLog n v])) := by
        rw [← append_assoc]
        exact (perm_append_singleton _ _).symm
      have added : Coherent s.handle (.insertInLog n v :: s.inProgress) := coherent.add (fun _ => rfl) trivial
      exact added.perm placed
  | work k =>
    obtain ⟨op, found, rfl⟩ := work_eq taken
    obtain ⟨inside, here⟩ := List.getElem?_eq_some_iff.mp found
    have taken_out : s.inProgress.Perm (op :: (s.own.toList ++ s.workers.eraseIdx k)) := by
      rw [← here]
      exact ((getElem_cons_eraseIdx_perm inside).symm.append_left _).trans perm_middle
    have advanced := (coherent.perm taken_out).advance ((undisturbed op found).perm taken_out)
    have put_back : ((op.step s.handle).2.toList ++ (s.own.toList ++ s.workers.eraseIdx k)).Perm
        (s.own.toList ++ (s.workers.eraseIdx k ++ (op.step s.handle).2.toList)) := by
      rw [← append_assoc s.own.toList]
      exact perm_append_comm
    exact advanced.perm put_back
  | go =>
    obtain ⟨op, found, taken⟩ := bind_eq_some_iff.mp taken
    cases taken
    have working : s.inProgress = op :: s.workers := by simp [inProgress, found]
    have now := undisturbed op found
    rw [working] at coherent now
    exact coherent.advance now
  | restart =>
    cases taken
    have nothing : s.handle.persistentLogMap = .empty := ext_lookup fun k => lookup_eq_none.mpr
      fun v member => not_mem_nil (undisturbed ▸ mem_keys.mpr ⟨v, member⟩)
    refine ⟨.nil, fun k _ => ?_, nofun⟩
    exact (congrArg (OrderedMap.lookup · k) nothing).symm

theorem run_coherent (run : Run step Undisturbed initial s) : Coherent s.handle s.inProgress :=
  run.invariant ⟨.nil, fun _ _ => rfl, nofun⟩
    fun _ _ _ coherent undisturbed taken => step_coherent taken undisturbed coherent

/-- When all operations that were taken up have ended, the persisted log is the log in memory. -/
theorem logs_agree (run : Run step Undisturbed initial s) (completed : s.inProgress = []) :
    s.handle.persistentLogMap = s.handle.persistentLogCache := by
  have coherent := run_coherent run
  refine ext_lookup fun k => (coherent.untouched k fun op member => ?_).symm
  rw [completed] at member
  cases member

namespace Example

def inserting : List (Action Nat) := [.submitTask 0 (.Values [7]), .submitTask 1 (.Values [8]), .take, .take, .work 0, .work 0]

/-- The two insertions end one after the other, and the first entry is trimmed. -/
def serial : List (Action Nat) :=
  inserting ++ [.work 1, .work 1, .work 0, .work 0, .trimTheLog 1, .go, .go, .go]

/-- Both insertions read the log in memory before one of them writes it. -/
def racing : List (Action Nat) := inserting ++ [.work 0, .work 0, .work 0, .work 0]

def restarting : List (Action Nat) := inserting ++ [.work 1, .work 1, .work 0, .work 0, .restart]

def logs (s : Persistence Nat) : List (Int × Value Nat) × List (Int × Value Nat) × Nat :=
  (s.handle.persistentLogMap.entries, s.handle.persistentLogCache.entries, s.inProgress.length + s.queue.length)

end Example

open Example in
theorem logs_agree_serial : ∃ s : Persistence Nat, Run step Undisturbed initial s ∧ s.inProgress = [] ∧
    s.handle.persistentLogMap.entries = [(1, .Values [8])] ∧ s.handle.persistentLogMap = s.handle.persistentLogCache := by
  obtain ⟨s, run, completed, stored⟩ : ∃ s : Persistence Nat, Run step Undisturbed initial s ∧ s.inProgress = [] ∧
      s.handle.persistentLogMap.entries = [(1, .Values [8])] := exists_run serial (by decide)
  exact ⟨s, run, completed, stored, logs_agree run completed⟩

open Example in
/-- One of two insertions that overlap is lost in memory, and a restart loses both. -/
theorem logs_differ : (∃ s : Persistence Nat, Run step (fun _ _ => True) initial s ∧
      logs s = ([(0, .Values [7]), (1, .Values [8])], [(1, .Values [8])], 0)) ∧
    ∃ s : Persistence Nat, Run step (fun _ _ => True) initial s ∧
      logs s = ([(0, .Values [7]), (1, .Values [8])], [], 0) :=
  ⟨exists_run racing (by decide), exists_run restarting (by decide)⟩

end Persistence
end Halon.Log
