import Halon.Proofs.CepRuns

/-! What a timeout does in the normal engine. The machines that it wakes are those of
the rules with an event that is due; the time that it records depends on whether there is one. -/

namespace Halon.Cep
open Library Stateful List OrderedMap
variable {app : Application}

namespace Machine

abbrev Event := Int × Int × RuleKey

private theorem least_of_rest (events : List Event) (first : Event) :
    ∃ least, events.foldl (fun least entry =>
        match least with
        | none => some entry
        | some least => if entry.2.1 < least.2.1 then some entry else some least) (some first) = some least ∧
      least ∈ first :: events ∧ ∀ entry ∈ first :: events, least.2.1 ≤ entry.2.1 := by
  induction events generalizing first with
  | nil =>
    refine ⟨first, rfl, mem_singleton_self first, ?_⟩
    intro entry member
    rw [mem_singleton.mp member]
  | cons next _ ih =>
    rw [foldl_cons]
    by_cases earlier : next.2.1 < first.2.1
    · obtain ⟨least, found, member, minimal⟩ := ih next
      refine ⟨least, by simpa only [if_pos earlier] using found, mem_cons_of_mem _ member, ?_⟩
      intro entry inside
      rcases mem_cons.mp inside with rfl | inside
      · exact (minimal next mem_cons_self).trans earlier.le
      · exact minimal entry inside
    · obtain ⟨least, found, member, minimal⟩ := ih first
      refine ⟨least, by simpa only [if_neg earlier] using found, ?_, ?_⟩
      · rcases mem_cons.mp member with rfl | member
        · exact mem_cons_self
        · exact mem_cons_of_mem _ (mem_cons_of_mem _ member)
      · intro entry inside
        rcases mem_cons.mp inside with rfl | inside
        · exact minimal _ mem_cons_self
        · rcases mem_cons.mp inside with rfl | inside
          · exact (minimal first mem_cons_self).trans (not_lt.mp earlier)
          · exact minimal entry (mem_cons_of_mem _ inside)

theorem findMin_cases (events : OrderedMap Int (Int × RuleKey)) : findMin events = none ∧ events.entries = [] ∨
    ∃ least, findMin events = some least ∧ least ∈ events ∧ ∀ entry ∈ events, least.2.1 ≤ entry.2.1 := by
  simp only [mem_def]
  unfold findMin
  cases events.entries with
  | nil => exact .inl ⟨rfl, rfl⟩
  | cons first rest => exact .inr (least_of_rest rest first)

def Due (st : Machine app) (ts : Int) (key : RuleKey) : Prop :=
  ∃ event ∈ st.machEvents.entries, event.2.1 ≤ ts ∧ event.2.2 = key

instance (st : Machine app) (ts : Int) (key : RuleKey) : Decidable (st.Due ts key) :=
  inferInstanceAs (Decidable (∃ _ ∈ _, _))

structure Handled (st : Machine app) (removed : List Event) (nst : Machine app) : Prop where
  events : st.machEvents.entries.Perm (removed ++ nst.machEvents.entries)
  running : ∃ woken, woken.Perm (st.machSuspendedSM.filter fun d => d.key ∈ removed.map fun event => event.2.2) ∧
    nst.machRunningSM = st.machRunningSM ++ woken
  suspended : nst.machSuspendedSM = st.machSuspendedSM.filter fun d => d.key ∉ removed.map fun event => event.2.2

variable {st nst : Machine app} {removed : List Event} {ts : Int}

private theorem filter_or_perm {α : Type} (p q : α → Prop) [DecidablePred p] [DecidablePred q] (items : List α) :
    (items.filter (fun item => p item) ++ (items.filter fun item => ¬ p item).filter fun item => q item).Perm
      (items.filter fun item => p item ∨ q item) := by
  have parts := filter_append_perm (fun item => decide (p item)) (items.filter fun item => p item ∨ q item)
  rw [filter_filter, filter_filter] at parts
  refine List.Perm.trans (.of_eq ?_) parts
  rw [filter_filter]
  congr 1
  · apply filter_congr
    intro item _
    by_cases first : p item <;> simp [first]
  · apply filter_congr
    intro item _
    by_cases first : p item <;> simp [first]

theorem Handled.next (handled : st.Handled removed nst) (member : event ∈ nst.machEvents) (state : Machine app)
    (running : state.machRunningSM = nst.machRunningSM ++ nst.machSuspendedSM.filter fun d => event.2.2 = d.key)
    (suspended : state.machSuspendedSM = nst.machSuspendedSM.filter fun d => event.2.2 ≠ d.key)
    (events : state.machEvents = nst.machEvents.delete event.1) : st.Handled (removed ++ [event]) state := by
  obtain ⟨woken, same, before⟩ := handled.running
  constructor
  · have taken := entries_perm_of_lookup (lookup_eq_some.mpr member)
    rw [append_assoc, events]
    exact handled.events.trans (taken.append_left removed)
  · refine ⟨woken ++ nst.machSuspendedSM.filter fun d => event.2.2 = d.key, ?_, ?_⟩
    · have parts := filter_or_perm (fun d : SMData app => d.key ∈ removed.map fun event => event.2.2) (fun d => event.2.2 = d.key)
        st.machSuspendedSM
      rw [handled.suspended]
      refine (same.append_right _).trans (parts.trans (.of_eq (filter_congr ?_)))
      intro d _
      simp only [map_append, map_cons, map_nil, mem_append, mem_singleton, eq_comm]
    · rw [running, before, append_assoc]
  · rw [suspended, handled.suspended, filter_filter]
    apply filter_congr
    intro d _
    simp only [map_append, map_cons, map_nil, mem_append, mem_singleton, not_or, ne_eq, Bool.decide_and,
      eq_comm, Bool.and_comm]

/-- The events that were handled are all due, and no other one is. -/
structure Awakens (st : Machine app) (ts : Int) (count : Nat) (nst : Machine app) : Prop where
  events : ∀ event, event ∈ nst.machEvents ↔ event ∈ st.machEvents ∧ ts < event.2.1
  running : ∃ woken, woken.Perm (st.machSuspendedSM.filter fun d => st.Due ts d.key) ∧
    nst.machRunningSM = st.machRunningSM ++ woken
  suspended : nst.machSuspendedSM = st.machSuspendedSM.filter fun d => ¬ st.Due ts d.key
  machines : (nst.machRunningSM ++ nst.machSuspendedSM).Perm (st.machRunningSM ++ st.machSuspendedSM)
  count : count = (st.machEvents.entries.filter fun event => event.2.1 ≤ ts).length

/-- What a timeout is for: besides waking the machines it sets the time. -/
structure Processes (st : Machine app) (ts : Int) (count : Nat) (nst : Machine app) : Prop where
  awakens : st.Awakens ts count nst
  timestamp : nst.machTimestamp = ts

theorem Handled.awakens (handled : st.Handled removed nst) (past : ∀ event ∈ removed, event.2.1 ≤ ts)
    (future : ∀ event ∈ nst.machEvents, ts < event.2.1) : st.Awakens ts removed.length nst := by
  obtain ⟨woken, same, running⟩ := handled.running
  have due (key : RuleKey) : key ∈ removed.map (fun event => event.2.2) ↔ st.Due ts key := by
    rw [mem_map]
    constructor
    · intro ⟨event, member, named⟩
      exact ⟨event, handled.events.mem_iff.mpr (mem_append_left _ member), past event member, named⟩
    · intro ⟨event, member, early, named⟩
      rcases mem_append.mp (handled.events.mem_iff.mp member) with inside | left
      · exact ⟨event, inside, named⟩
      · exact absurd early (not_le.mpr (future event left))
  simp only [due] at same
  have suspended := handled.suspended
  simp only [due] at suspended
  refine ⟨?_, ⟨woken, same, running⟩, suspended, ?_, ?_⟩
  · intro event
    constructor
    · intro member
      exact ⟨handled.events.mem_iff.mpr (mem_append_right _ member), future event member⟩
    · intro ⟨member, late⟩
      rcases mem_append.mp (handled.events.mem_iff.mp member) with inside | left
      · exact absurd late (not_lt.mpr (past event inside))
      · exact left
  · rw [running, suspended, append_assoc]
    refine List.Perm.append_left _ ((same.append_right _).trans ?_)
    simpa only [decide_not] using filter_append_perm (fun d : SMData app => decide (st.Due ts d.key)) st.machSuspendedSM
  · have all : removed.filter (fun event => event.2.1 ≤ ts) = removed := by
      apply filter_eq_self.mpr
      intro event member
      exact decide_eq_true (past event member)
    have none : nst.machEvents.entries.filter (fun event => event.2.1 ≤ ts) = [] := by
      apply filter_eq_nil_iff.mpr
      intro event member
      simpa only [decide_eq_true_eq, not_le] using future event member
    have counted := (handled.events.filter fun event => event.2.1 ≤ ts).length_eq
    rw [filter_append, all, none, append_nil] at counted
    exact counted.symm

private theorem wake_handles {left} (handled : st.Handled removed nst) (past : ∀ event ∈ removed, event.2.1 ≤ ts)
    (enough : nst.machEvents.entries.length < left) :
    ∃ more, (wake st ts left removed.length nst).1 = (removed ++ more).length ∧
      st.Handled (removed ++ more) (wake st ts left removed.length nst).2 ∧ (∀ event ∈ removed ++ more, event.2.1 ≤ ts) ∧
      (∀ event ∈ (wake st ts left removed.length nst).2.machEvents, ts < event.2.1) ∧
      (wake st ts left removed.length nst).2.machTimestamp = if more = [] then nst.machTimestamp else st.machTimestamp := by
  induction left generalizing removed nst with
  | zero => exact absurd enough (Nat.not_lt_zero _)
  | succ left ih =>
    unfold wake
    rcases findMin_cases nst.machEvents with ⟨missing, empty⟩ | ⟨⟨psqKey, t', key⟩, found, member, minimal⟩
    · rw [missing]
      refine ⟨[], by rw [append_nil], by rwa [append_nil], by rwa [append_nil], ?_, rfl⟩
      intro event inside
      rw [mem_def, empty] at inside
      exact absurd inside not_mem_nil
    · simp only [found]
      split
      next later =>
        refine ⟨[], by rw [append_nil], by rwa [append_nil], by rwa [append_nil], ?_, rfl⟩
        intro event inside
        exact later.trans_le (minimal event inside)
      next now =>
        have early : t' ≤ ts := not_lt.mp now
        have next := handled.next member { st with
          machRunningSM := nst.machRunningSM ++ nst.machSuspendedSM.filter (fun d => key = d.key),
          machSuspendedSM := nst.machSuspendedSM.filter (fun d => key ≠ d.key), machEvents :=
            nst.machEvents.delete psqKey } rfl rfl rfl
        have fewer := (entries_perm_of_lookup (lookup_eq_some.mpr member)).length_eq
        rw [length_cons] at fewer
        have extended : ∀ event ∈ removed ++ [(psqKey, t', key)], event.2.1 ≤ ts := by
          intro event inside
          rcases mem_append.mp inside with before | last
          · exact past event before
          · rw [mem_singleton.mp last]
            exact early
        obtain ⟨more, count, rest⟩ := ih next extended (by simp only; omega)
        rw [length_append, length_singleton] at count rest
        rw [append_assoc, singleton_append] at count rest
        refine ⟨(psqKey, t', key) :: more, count, rest.1, rest.2.1, rest.2.2.1, ?_⟩
        rw [if_neg (cons_ne_nil _ _), rest.2.2.2]
        exact ite_self _

theorem timeoutArrived_awakens (st : Machine app) (ts : Int) :
    st.Awakens ts (st.timeoutArrived ts).1 (st.timeoutArrived ts).2 ∧
      (st.timeoutArrived ts).2.machTimestamp = if ∀ event ∈ st.machEvents.entries,
      ts < event.2.1 then ts else st.machTimestamp := by
  have initial : st.Handled [] { st with machTimestamp := ts } :=
    ⟨.refl _, ⟨[], by simp, (append_nil _).symm⟩, by simp⟩
  obtain ⟨removed, count, handled, past, future, time⟩ := wake_handles initial (nofun)
    (Nat.lt_succ_self _)
  rw [nil_append] at count handled past
  have awakens := handled.awakens past future
  rw [← count] at awakens
  refine ⟨awakens, time.trans ?_⟩
  have nothing : removed = [] ↔ ∀ event ∈ st.machEvents.entries, ts < event.2.1 := by
    rw [← length_eq_zero_iff, ← count, awakens.count, length_eq_zero_iff, filter_eq_nil_iff]
    simp only [decide_eq_true_eq, not_le]
  simp only [nothing]

end Machine

/-- A timeout always wakes the machines that it should. It also sets the time if and only if
no event is due or the time is recorded already. -/
theorem timeout_processed_iff (fuel : Nat) (ts : Int) (st : Machine app) (w : app.World) :
    ∃ count nst, (Engine.stepForward fuel (.TimeoutArrived ts) (.cepCruise st)).outcome w =
    (.ok (.awaken count, .cepCruise nst), w) ∧
      st.Awakens ts count nst ∧
      (st.Processes ts count nst ↔ (∀ event ∈ st.machEvents.entries, ts < event.2.1) ∨ st.machTimestamp = ts) := by
  obtain ⟨awakens, time⟩ := st.timeoutArrived_awakens ts
  refine ⟨(st.timeoutArrived ts).1, (st.timeoutArrived ts).2, rfl, awakens, ?_⟩
  have processes : st.Processes ts (st.timeoutArrived ts).1 (st.timeoutArrived ts).2 ↔
    (st.timeoutArrived ts).2.machTimestamp = ts :=
    ⟨fun processed => processed.timestamp, fun timestamp => ⟨awakens, timestamp⟩⟩
  rw [processes, time]
  split
  next future => exact ⟨fun _ => .inl future, fun _ => rfl⟩
  next due => exact ⟨.inr, fun either => either.resolve_left due⟩

open ForkExample in
def delayed : List (Declare plain) :=
  [.DefineRule "delayed" ⟨.OnTimeJump (.Absolute 5) ⟨"start", .DirectCall (.ret ())⟩, [], (), []⟩]

/-- At the time 6 its machine is woken, but the engine's time is still 0. -/
theorem timeout_keeps_time : ∃ st nst, (Engine.cepEngine () delayed).step ⟨.Tick, (), 9⟩ = some (.cepCruise st) ∧
    (Engine.stepForward 9 (.TimeoutArrived 6) (.cepCruise st)).outcome () = (.ok (.awaken 1, .cepCruise nst), ()) ∧
    nst.machRunningSM.length = 1 ∧ nst.machTimestamp = 0 ∧ ¬ st.Processes 6 1 nst := by
  refine ⟨_, _, rfl, rfl, rfl, rfl, ?_⟩
  intro processed
  exact absurd processed.timestamp (by decide)

namespace Time

def Forward : Time → Prop
  | .Absolute _ => True
  | .Relative r => 0 ≤ r

/-- Where the order matters there is no delay, or the points in time are the right way round. -/
def Agrees : Time → Time → Time → Prop
  | .Relative a, .Absolute b, .Absolute c => a = 0 ∨ c ≤ b
  | .Absolute a, .Relative b, .Absolute c => b = 0 ∨ a = c
  | .Absolute a, .Absolute b, .Relative c => c = 0 ∨ a ≤ b
  | _, _, _ => True

theorem append_zero (t : Time) : t.append (.Relative 0) = t := by
  cases t <;> simp [append, toSecs]

theorem zero_append (t : Time) : append (.Relative 0) t = t := by
  cases t <;> simp [append, toSecs]

theorem append_assoc_iff (first : Forward a) (second : Forward b) (third : Forward c) :
    (a.append b).append c = a.append (b.append c) ↔ Agrees a b c := by
  -- Only with two points in time and a delay do a sum and a maximum meet.
  cases a <;> cases b <;> cases c <;> simp only [append, Agrees, Forward, toSecs, Absolute.injEq, Relative.injEq,
    iff_true] at * <;>
    omega

end Time

def Jump.time : Jump α → Time
  | .NormalJump _ => .Relative 0
  | .OnTimeJump t _ => t

theorem time_jumpBaseOn (x : Jump α) (y : Jump β) : (jumpBaseOn x y).time = x.time.append y.time := by
  cases x with
  | NormalJump => exact (Time.zero_append _).symm
  | OnTimeJump t =>
    cases y with
    | NormalJump => exact (Time.append_zero t).symm
    | OnTimeJump => rfl

theorem time_timeout (dt : Int) (x : Jump PhaseHandle) : (timeout dt x).time = x.time.append (.Relative dt) := by
  cases x <;> rfl

/-- No delay is neutral. Times, and jumps with them, can be combined in either order iff they agree. -/
theorem times_combine_iff (a b c : Time) (x y z : Jump PhaseHandle) (dt : Int) :
    (.append (.Relative 0) a = a ∧ a.append (.Relative 0) = a) ∧
    (a.Forward → b.Forward → c.Forward → ((a.append b).append c = a.append (b.append c) ↔ a.Agrees b c)) ∧
    (x.time.Forward → y.time.Forward → z.time.Forward → 0 ≤ dt →
      ((jumpBaseOn (jumpBaseOn x y) z).time = (jumpBaseOn x (jumpBaseOn y z)).time ↔ x.time.Agrees y.time z.time) ∧
      ((timeout dt (jumpBaseOn x y)).time = (jumpBaseOn x (timeout dt y)).time ↔ x.time.Agrees y.time (.Relative dt))) := by
  refine ⟨⟨a.zero_append, a.append_zero⟩, Time.append_assoc_iff, ?_⟩
  intro first second third later
  simp only [time_jumpBaseOn, time_timeout]
  exact ⟨Time.append_assoc_iff first second third, Time.append_assoc_iff first second later⟩

/-- A delay after the later of two points in time is not the later of one and the delayed other. -/
theorem timeout_regrouped :
    timeout 3 (jumpBaseOn (.OnTimeJump (.Absolute 5000000000) "") (.OnTimeJump (.Absolute 0) "")) =
      .OnTimeJump (.Absolute 8000000000) "" ∧
    jumpBaseOn (.OnTimeJump (.Absolute 5000000000) "") (timeout 3 (.OnTimeJump (.Absolute 0) "")) =
      .OnTimeJump (.Absolute 5000000000) "" := by
  decide

end Halon.Cep
