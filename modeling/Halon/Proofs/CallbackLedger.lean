import Halon.Mero.Notification
import Mathlib.Data.Multiset.AddSub

/-! A ledger of notifications. Each one has either its callback or one action that was run for
the process that the link belonged to, as long as a link with a callback stays with its process. -/

namespace Halon.Mero
open List Function Nat

/-- For each link its process and the notifications that still have their callback. -/
@[ext] structure Ledger (Link Fid : Type) where
  process : Link → Option Fid
  stored : Link → Multiset (Notification Link)
  calls : Nat
  ran : List (Ran Link Fid)

namespace Ledger
variable {Link Fid : Type}

def answer (process : Link → Option Fid) (outcome : Outcome) (taken : List (Notification Link)) : List (Ran Link Fid) :=
  taken.filterMap fun notification =>
    (process notification.link).map fun fid => ⟨notification.call, some notification.link, outcome, fid⟩

variable {taken : List (Notification Link)} {n : Notification Link}

theorem mem_answer {process : Link → Option Fid} (member : r ∈ answer process outcome taken) :
    ∃ n ∈ taken, r.call = n.call ∧ r.link = some n.link ∧ process n.link = some r.fid := by
  obtain ⟨n, here, made⟩ := mem_filterMap.mp member
  obtain ⟨fid, found, rfl⟩ := Option.map_eq_some_iff.mp made
  exact ⟨n, here, rfl, rfl, found⟩

theorem mem_of_taken {l : Ledger Link Fid}
    (split : l.stored link = (taken : Multiset (Notification Link)) + rest) (member : n ∈ taken) : n ∈ l.stored link := by
  rw [split]
  exact Multiset.mem_add.mpr (.inl (Multiset.mem_coe.mpr member))

variable [DecidableEq Link]

def runs (ran : List (Ran Link Fid)) (n : Notification Link) : List (Ran Link Fid) :=
  ran.filter fun r => decide (r.call = n.call ∧ r.link = some n.link)

/-- What events do to the ledger. A link is given to another process, or to none, when it has no callback. -/
inductive Change (l : Ledger Link Fid) : Ledger Link Fid → Prop where
  | same : Change l l
  | reassign (link : Link) (fid : Option Fid) (idle : l.stored link = 0 ∨ l.process link = fid) :
      Change l { l with process := Function.update l.process link fid }
  | settle (link : Link) (outcome : Outcome) (taken : List (Notification Link)) (rest : Multiset (Notification Link))
      (split : l.stored link = (taken : Multiset (Notification Link)) + rest) :
      Change l { l with stored := Function.update l.stored link rest, ran := l.ran ++ answer l.process outcome taken }
  | notify (fids : List Fid) (unknown : ∀ fid ∈ fids, ∀ link, l.process link ≠ some fid) :
      Change l { l with
        stored := fun link => if (l.process link).isSome then ⟨l.calls, link⟩ ::ₘ l.stored link else l.stored link
        calls := l.calls + 1
        ran := l.ran ++ fids.map fun fid => ⟨l.calls, none, .fail, fid⟩ }

/-- Callbacks are stored with their link, and nothing is known of calls still to come. -/
structure Sound (l : Ledger Link Fid) : Prop where
  own : ∀ link, ∀ n ∈ l.stored link, n.link = link ∧ n.call < l.calls
  past : ∀ r ∈ l.ran, r.call < l.calls

/-- How a call stands that found the links with the given processes. -/
structure Accounted (process : Link → Option Fid) (call : Nat) (l : Ledger Link Fid) : Prop where
  made : call < l.calls
  waiting : ∀ link, ⟨call, link⟩ ∈ l.stored link → l.process link = process link ∧ (process link).isSome
  each : ∀ link, (l.stored link).count ⟨call, link⟩ + (runs l.ran ⟨call, link⟩).length = if (process link).isSome then 1 else 0
  named : ∀ r ∈ l.ran, r.call = call → (∃ link, r.link = some link ∧ process link = some r.fid) ∨
    r.link = none ∧ ∀ link, process link ≠ some r.fid

variable {l l' : Ledger Link Fid} {process : Link → Option Fid} {call : Nat}

theorem runs_answer (outcome : Outcome) (taken : List (Notification Link)) (known : n ∈ taken → (process n.link).isSome) :
    (runs (answer process outcome taken) n).length = taken.count n := by
  induction taken with
  | nil => rfl
  | cons first rest ih =>
    have rest := ih fun member => known (mem_cons_of_mem _ member)
    by_cases same : first = n
    · subst same
      obtain ⟨fid, found⟩ := Option.isSome_iff_exists.mp (known mem_cons_self)
      rw [count_cons_self, ← rest]
      simp [answer, runs, found]
    · rw [count_cons_of_ne same, ← rest]
      have other : ¬ (first.call = n.call ∧ some first.link = some n.link) := by
        intro equal
        apply same
        cases first
        cases n
        cases equal.1
        cases equal.2
        rfl
      cases found : process first.link with
      | none => simp [answer, found]
      | some => simp only [answer, filterMap_cons, found, Option.map_some, runs, filter_cons, decide_eq_true_eq, if_neg other]

theorem mem_of_update
    (split : l.stored link = (taken : Multiset (Notification Link)) + rest)
    (member : n ∈ Function.update l.stored link rest other) :
    n ∈ l.stored other := by
  by_cases here : other = link
  · subst here
    rw [update_self] at member
    rw [split]
    exact Multiset.mem_add.mpr (.inr member)
  · rwa [update_of_ne here] at member

theorem Change.sound (change : Change l l') (sound : l.Sound) : l'.Sound := by
  cases change with
  | same => exact sound
  | reassign => exact ⟨sound.own, sound.past⟩
  | settle link _ _ rest split =>
    refine ⟨fun other n member => sound.own other n (mem_of_update split member), fun r member => ?_⟩
    rcases mem_append.mp member with earlier | new
    · exact sound.past r earlier
    · obtain ⟨n, here, same, -, -⟩ := mem_answer new
      rw [same]
      exact (sound.own link n (mem_of_taken split here)).2
  | notify =>
    refine ⟨fun link n member => ?_, fun r member => ?_⟩
    · dsimp only at member
      split at member
      next =>
        rcases Multiset.mem_cons.mp member with rfl | earlier
        · exact ⟨rfl, lt_succ_self _⟩
        · exact ⟨(sound.own link n earlier).1, lt_succ_of_lt (sound.own link n earlier).2⟩
      next => exact ⟨(sound.own link n member).1, lt_succ_of_lt (sound.own link n member).2⟩
    · rcases mem_append.mp member with earlier | new
      · exact lt_succ_of_lt (sound.past r earlier)
      · obtain ⟨fid, -, rfl⟩ := mem_map.mp new
        exact lt_succ_self _

theorem runs_append (first second : List (Ran Link Fid)) (n : Notification Link) :
    (runs (first ++ second) n).length = (runs first n).length + (runs second n).length := by
  rw [runs, filter_append, length_append]
  rfl

theorem runs_eq_nil {ran : List (Ran Link Fid)} (other : ∀ r ∈ ran, r.call = n.call → r.link ≠ some n.link) :
    runs ran n = [] := by
  apply filter_eq_nil_iff.mpr
  intro r member same
  obtain ⟨call, link⟩ := of_decide_eq_true same
  exact other r member call link

theorem Change.accounted (change : Change l l') (sound : l.Sound) (accounted : l.Accounted process call) :
    l'.Accounted process call := by
  cases change with
  | same => exact accounted
  | reassign link fid idle =>
    refine ⟨accounted.made, fun other member => ?_, accounted.each, accounted.named⟩
    obtain ⟨same, known⟩ := accounted.waiting other member
    refine ⟨?_, known⟩
    change Function.update l.process link fid other = process other
    by_cases here : other = link
    · subst here
      have busy : l.stored other ≠ 0 := fun none => Multiset.notMem_zero _ (none ▸ member)
      rw [update_self, ← idle.resolve_left busy, same]
    · rw [update_of_ne here, same]
  | settle link outcome taken rest split =>
    have elsewhere (other : Link) (different : other ≠ link) : taken.count ⟨call, other⟩ = 0 := by
      apply count_eq_zero.mpr
      intro member
      exact different (sound.own link _ (mem_of_taken split member)).1
    refine ⟨accounted.made, fun other member => accounted.waiting other (mem_of_update split member), fun other =>
      ?_, fun r member => ?_⟩
    · have known (member : ⟨call, other⟩ ∈ taken) : (l.process other).isSome := by
        have here := sound.own link _ (mem_of_taken split member)
        obtain rfl : other = link := here.1
        obtain ⟨same, known⟩ := accounted.waiting other (mem_of_taken split member)
        rw [same]
        exact known
      have before := accounted.each other
      dsimp only
      rw [runs_append, runs_answer outcome taken known]
      by_cases here : other = link
      · subst here
        rw [split, Multiset.count_add, Multiset.coe_count] at before
        rw [update_self]
        omega
      · rw [update_of_ne here, elsewhere other here]
        omega
    · intro same
      rcases mem_append.mp member with earlier | new
      · exact accounted.named r earlier same
      · obtain ⟨n, here, ofCall, ofLink, found⟩ := mem_answer new
        have stored := mem_of_taken split here
        obtain ⟨ofOwn, -⟩ := sound.own link n stored
        obtain rfl : n = ⟨call, link⟩ := by
          cases n
          cases ofOwn
          cases ofCall.symm.trans same
          rfl
        refine .inl ⟨link, ofLink, ?_⟩
        rw [← (accounted.waiting link stored).1]
        exact found
  | notify fids =>
    have other (link : Link) : (⟨call, link⟩ : Notification Link) ≠ ⟨l.calls, link⟩ := by
      intro equal
      exact Nat.ne_of_lt accounted.made (congrArg Notification.call equal)
    refine ⟨Nat.lt_succ_of_lt accounted.made, fun link member => ?_, fun link => ?_, fun r member same => ?_⟩
    · apply accounted.waiting link
      dsimp only at member
      split at member
      next => exact (Multiset.mem_cons.mp member).resolve_left (other link)
      next => exact member
    · have before := accounted.each link
      have nothing : runs (fids.map fun fid => (⟨l.calls, none, .fail, fid⟩ : Ran Link Fid)) ⟨call, link⟩ = [] := by
        apply runs_eq_nil
        intro r member same
        obtain ⟨fid, -, rfl⟩ := mem_map.mp member
        exact nofun
      dsimp only
      rw [runs_append, nothing]
      split
      next => rwa [Multiset.count_cons_of_ne (other link)]
      next => exact before
    · rcases mem_append.mp member with earlier | new
      · exact accounted.named r earlier same
      · obtain ⟨fid, -, rfl⟩ := mem_map.mp new
        exact absurd same.symm (Nat.ne_of_lt accounted.made)

theorem accounted_notify {fids : List Fid} (sound : l.Sound) (unknown : ∀ fid ∈ fids, ∀ link, l.process link ≠ some fid) :
    Accounted l.process l.calls { l with
      stored := fun link => if (l.process link).isSome then ⟨l.calls, link⟩ ::ₘ l.stored link else l.stored link
      calls := l.calls + 1
      ran := l.ran ++ fids.map fun fid => ⟨l.calls, none, .fail, fid⟩ } := by
  have new (link : Link) : ⟨l.calls, link⟩ ∉ l.stored link := fun member => Nat.lt_irrefl _ (sound.own link _ member).2
  refine ⟨Nat.lt_succ_self _, fun link member => ⟨rfl, ?_⟩, fun link => ?_, fun r member same => ?_⟩
  · dsimp only at member
    split at member
    next known => exact known
    next => exact absurd member (new link)
  · have nothing : runs (l.ran ++ fids.map fun fid => (⟨l.calls, none, .fail, fid⟩ : Ran Link Fid)) ⟨l.calls, link⟩ = [] := by
      apply runs_eq_nil
      intro r member same
      rcases mem_append.mp member with earlier | new
      · exact absurd same (Nat.ne_of_lt (sound.past r earlier))
      · obtain ⟨fid, -, rfl⟩ := mem_map.mp new
        exact nofun
    dsimp only
    rw [nothing]
    split
    next => rw [Multiset.count_cons_self, Multiset.count_eq_zero_of_notMem (new link)]; rfl
    next => rw [Multiset.count_eq_zero_of_notMem (new link)]; rfl
  · rcases mem_append.mp member with earlier | last
    · exact absurd same (Nat.ne_of_lt (sound.past r earlier))
    · obtain ⟨fid, listed, rfl⟩ := mem_map.mp last
      exact .inr ⟨rfl, unknown fid listed⟩

end Ledger
end Halon.Mero
