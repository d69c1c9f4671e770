import Halon.Library.Runs
import Halon.Mero.Endpoint
import Mathlib.Data.List.Nodup

/-! When the interface is terminated. The count of users is right as long as no interface is
terminated while it is above zero; but the check of the count and the termination are two
operations, and a call that comes between them is not seen. -/

namespace Halon.Mero
open Library List Option

namespace Call

/-- The reference that the call has taken, as it stands without what the call is about to add. -/
def held : Call → Option EndpointRef
  | .initializing ref | .failed ref | .initialized ref _ | .left ref | .finalizeNow ref | .finalizeLater ref |
      .finalizing ref => some ref
  | .finalized => some emptyEndpointRef
  | _ => none

def uses : Call → Option Nat
  | .body niRef | .leave niRef => some niRef
  | _ => none

end Call

structure Desk where
  ref : EndpointRef
  users : List Nat
  initialised : Nat
  terminated : List Nat

namespace Desk

variable (checked : EndpointRef → Prop) (d : Desk) in
/-- What calls do with the reference. A termination follows on a check. -/
inductive Change : Desk → Prop where
  | same : Change d
  | make (none : d.ref.erNIRef = none) :
      Change { d with ref := ⟨some d.initialised, 0, false, some d.initialised⟩, initialised := d.initialised + 1 }
  | enter {earlier later : List Nat} {niRef : Nat} (here : d.ref.erNIRef = some niRef) (users : d.users = earlier ++ later) :
      Change { d with ref := { d.ref with erRefCount := d.ref.erRefCount + 1 }, users := earlier ++ niRef :: later }
  | leave {earlier later : List Nat} {niRef : Nat} (users : d.users = earlier ++ niRef :: later) :
      Change { d with ref := { d.ref with erRefCount := max 0 (d.ref.erRefCount - 1) }, users := earlier ++ later }
  | want : Change { d with ref := { d.ref with erWantsFinalize := true } }
  | terminate (passed : checked d.ref) :
      Change { d with ref := emptyEndpointRef, terminated := d.terminated ++ d.ref.erFinalizationBarriers.toList }

/-- Interfaces are terminated once, and the reference is to one that is not. -/
structure Owned (d : Desk) : Prop where
  barriers : d.ref.erFinalizationBarriers = d.ref.erNIRef
  current : ∀ niRef ∈ d.ref.erNIRef, niRef < d.initialised ∧ niRef ∉ d.terminated
  past : ∀ niRef ∈ d.terminated, niRef < d.initialised
  once : d.terminated.Nodup

/-- The count is that of the users, and all of them use the interface of the reference. -/
structure Counted (d : Desk) : Prop where
  count : d.ref.erRefCount = d.users.length
  alike : ∀ niRef ∈ d.users, d.ref.erNIRef = some niRef

variable {checked : EndpointRef → Prop} {d d' : Desk}

theorem Change.owned (change : Change checked d d') (owned : d.Owned) : d'.Owned := by
  cases change with
  | same => exact owned
  | make =>
    refine ⟨rfl, ?_, fun niRef member => Nat.lt_succ_of_lt (owned.past niRef member), owned.once⟩
    intro niRef here
    obtain rfl : d.initialised = niRef := some.inj here
    exact ⟨Nat.lt_succ_self _, fun member => Nat.lt_irrefl _ (owned.past _ member)⟩
  | enter | leave | want => exact { owned with }
  | terminate =>
    have fresh : ∀ niRef ∈ d.ref.erFinalizationBarriers.toList, niRef < d.initialised ∧ niRef ∉ d.terminated := by
      intro niRef member
      rw [owned.barriers, mem_toList] at member
      exact owned.current niRef member
    have single : d.ref.erFinalizationBarriers.toList.Nodup := by
      cases d.ref.erFinalizationBarriers with
      | none => exact nodup_nil
      | some niRef => exact nodup_singleton niRef
    refine ⟨rfl, nofun, ?_, ?_⟩
    · intro niRef member
      rcases mem_append.mp member with earlier | last
      · exact owned.past niRef earlier
      · exact (fresh niRef last).1
    · refine nodup_append.mpr ⟨owned.once, single, ?_⟩
      rintro niRef earlier _ last rfl
      exact (fresh niRef last).2 earlier

theorem Change.counted (change : Change (·.erRefCount ≤ 0) d d') (counted : d.Counted) : d'.Counted := by
  have count := counted.count
  cases change with
  | same => exact counted
  | make none =>
    have nobody : d.users = [] := by
      apply eq_nil_iff_forall_not_mem.mpr
      intro niRef member
      have here := counted.alike niRef member
      rw [none] at here
      cases here
    rw [nobody]
    exact ⟨rfl, nofun⟩
  | @enter earlier later _ here users =>
    rw [users, length_append] at count
    constructor
    · simp only [length_append, length_cons]
      omega
    · intro other member
      rw [mem_append, mem_cons] at member
      rcases member with earlier | rfl | later
      · exact counted.alike other (users ▸ mem_append_left _ earlier)
      · exact here
      · exact counted.alike other (users ▸ mem_append_right _ later)
  | @leave earlier later _ users =>
    rw [users, length_append, length_cons] at count
    constructor
    · simp only [length_append]
      omega
    · intro other member
      apply counted.alike
      rw [users]
      rcases mem_append.mp member with earlier | later
      · exact mem_append_left _ earlier
      · exact mem_append_right _ (mem_cons_of_mem _ later)
  | want => exact ⟨counted.count, counted.alike⟩
  | terminate =>
    have nobody : d.users = [] := eq_nil_of_length_eq_zero (by omega)
    rw [nobody]
    exact ⟨rfl, nofun⟩

end Desk

namespace NotificationInterface
variable {checked : EndpointRef → Prop} {s s' : NotificationInterface} {d : Desk} {index : Nat} {call : Call}

/-- The reference is in one place, and the calls that passed the check have taken a reference that meets it. -/
structure Shows (checked : EndpointRef → Prop) (s : NotificationInterface) (d : Desk) : Prop where
  refs : s.globalEndpointRef.toList ++ s.calls.filterMap Call.held = [d.ref]
  users : s.calls.filterMap Call.uses = d.users
  initialised : s.initialised = d.initialised
  terminated : s.terminated = d.terminated
  chosen : ∀ ref niRef, .initialized ref niRef ∈ s.calls → ref.erNIRef = some niRef
  passed : ∀ ref, .finalizing ref ∈ s.calls → checked ref

/-- Whoever terminates finds the check still true of the reference that it takes. -/
def Rechecked (checked : EndpointRef → Prop) (s : NotificationInterface) : NIAction → Prop
  | .withNI => True
  | .proceed index _ => s.calls[index]? = some .finalizeInternal → ∀ ref ∈ s.globalEndpointRef, checked ref

theorem calls_split (found : s.calls[index]? = some call) :
    ∃ earlier later, s.calls = earlier ++ call :: later ∧ ∀ next, s.calls.set index next = earlier ++ next :: later := by
  obtain ⟨inside, rfl⟩ := List.getElem?_eq_some_iff.mp found
  refine ⟨s.calls.take index, s.calls.drop (index + 1), ?_, fun next => ?_⟩
  · rw [getElem_cons_drop, take_append_drop]
  · rw [set_eq_take_append_cons_drop, if_pos inside]

theorem filterMap_split {β : Type} (f : Call → Option β) (earlier later : List Call) :
    (earlier ++ call :: later).filterMap f = earlier.filterMap f ++ ((f call).toList ++ later.filterMap f) := by
  rw [filterMap_append, filterMap_cons]
  cases f call <;> rfl

/-- A call that goes on is the only one that may then hold the reference. -/
def Alone (s : NotificationInterface) (index : Nat) : Prop :=
  ∀ next, (s.calls.set index next).filterMap Call.held = next.held.toList

variable {next : Call} {ref : EndpointRef}

theorem Alone.refs {place : Option EndpointRef} (alone : s.Alone index) (refs : place.toList ++ next.held.toList = [ref]) :
    place.toList ++ (s.calls.set index next).filterMap Call.held = [ref] := by
  rw [alone next]
  exact refs

theorem Shows.goOn (shown : s.Shows checked d) (calls : s'.calls = s.calls.set index next)
    (refs : s'.globalEndpointRef.toList ++ (s.calls.set index next).filterMap Call.held = [d'.ref])
    (users : (s.calls.set index next).filterMap Call.uses = d'.users)
    (counts : s'.initialised = d'.initialised ∧ s'.terminated = d'.terminated)
    (chosen : ∀ ref niRef, next = .initialized ref niRef → ref.erNIRef = some niRef)
    (passed : ∀ ref, next = .finalizing ref → checked ref) :
    s'.Shows checked d' := by
  refine ⟨?_, ?_, counts.1, counts.2, ?_, ?_⟩
  · rw [calls]
    exact refs
  · rw [calls]
    exact users
  · intro ref niRef member
    rw [calls] at member
    rcases mem_or_eq_of_mem_set member with earlier | now
    · exact shown.chosen ref niRef earlier
    · exact chosen ref niRef now.symm
  · intro ref member
    rw [calls] at member
    rcases mem_or_eq_of_mem_set member with earlier | now
    · exact shown.passed ref earlier
    · exact passed ref now.symm

theorem filterMap_same {β : Type} {f : Call → Option β} (found : s.calls[index]? = some call) (same : f next = f call) :
    (s.calls.set index next).filterMap f = s.calls.filterMap f := by
  obtain ⟨_, _, split, replaced⟩ := calls_split found
  rw [replaced, split, filterMap_split, filterMap_split, same]

theorem takeMVar_iff {next : EndpointRef → Call} (moved : s.takeMVar index next = some s') :
    ∃ ref, s.globalEndpointRef = some ref ∧ s' = { s.goOn index (next ref) with globalEndpointRef := none } := by
  obtain ⟨ref, free, rfl⟩ := map_eq_some_iff.mp moved
  exact ⟨ref, free, rfl⟩

theorem putMVar_iff (moved : s.putMVar index ref next = some s') :
    s' = { s.goOn index next with globalEndpointRef := some ref } := by
  unfold putMVar at moved
  cases place : s.globalEndpointRef with
  | none =>
    rw [place] at moved
    exact (some.inj moved).symm
  | some =>
    rw [place] at moved
    cases moved

section
variable (shown : s.Shows checked d) (found : s.calls[index]? = some call)
include shown found

theorem Shows.holder (held : call.held = some ref) : s.globalEndpointRef = none ∧ ref = d.ref ∧ s.Alone index := by
  obtain ⟨_, later, split, replaced⟩ := calls_split found
  have refs := shown.refs
  rw [split, filterMap_split, held, ← append_assoc] at refs
  rcases append_eq_singleton_iff.mp refs with ⟨before, after⟩ | ⟨-, after⟩
  · obtain ⟨place, nobody⟩ := append_eq_nil_iff.mp before
    obtain ⟨same, rest⟩ := List.cons.inj after
    refine ⟨toList_eq_nil_iff.mp place, same, fun next => ?_⟩
    rw [replaced, filterMap_split, nobody, show later.filterMap Call.held = [] from rest, append_nil, nil_append]
  · cases after

theorem Shows.taker (free : s.globalEndpointRef = some ref) : ref = d.ref ∧ s.Alone index := by
  obtain ⟨_, _, split, replaced⟩ := calls_split found
  have refs := shown.refs
  rw [split, filterMap_split, free] at refs
  obtain ⟨same, rest⟩ := List.cons.inj refs
  obtain ⟨before, after⟩ := append_eq_nil_iff.mp (append_eq_nil_iff.mp rest).2
  refine ⟨same, fun next => ?_⟩
  rw [replaced, filterMap_split, before, (append_eq_nil_iff.mp after).2, append_nil, nil_append]

theorem Shows.users_split :
    ∃ earlier later, d.users = earlier ++ (call.uses.toList ++ later) ∧
      ∀ next, (s.calls.set index next).filterMap Call.uses = earlier ++ (next.uses.toList ++ later) := by
  obtain ⟨earlier, later, split, replaced⟩ := calls_split found
  refine ⟨earlier.filterMap Call.uses, later.filterMap Call.uses, ?_, fun next => ?_⟩
  · rw [← shown.users, split, filterMap_split]
  · rw [replaced, filterMap_split]

theorem Shows.same_users (same : next.uses = call.uses) :
    (s.calls.set index next).filterMap Call.uses = d.users :=
  (filterMap_same found same).trans shown.users

theorem Shows.taken {next} (moved : s.takeMVar index next = some s') (held : ∀ ref, (next ref).held = some ref)
    (uses : ∀ ref, (next ref).uses = call.uses)
    (chosen : ∀ ref other niRef, next ref ≠ .initialized other niRef)
    (passed : ∀ ref other, s.globalEndpointRef = some ref → next ref = .finalizing other → checked other) :
    s'.Shows checked d := by
  obtain ⟨ref, free, rfl⟩ := takeMVar_iff moved
  obtain ⟨rfl, alone⟩ := shown.taker found free
  refine shown.goOn rfl (alone.refs ?_) (shown.same_users found (uses _)) ⟨shown.initialised, shown.terminated⟩ ?_
    (fun other => passed _ other free)
  · rw [held]
    rfl
  · intro other niRef here
    exact absurd here (chosen _ other niRef)

theorem Shows.put {ref'} (moved : s.putMVar index ref' next = some s') (held : call.held = some ref)
    (free : next.held = none) {users}
    (now : (s.calls.set index next).filterMap Call.uses = users) : s'.Shows checked { d with ref := ref', users := users } := by
  obtain rfl := putMVar_iff moved
  obtain ⟨-, -, alone⟩ := shown.holder found held
  refine shown.goOn rfl (alone.refs ?_) now ⟨shown.initialised, shown.terminated⟩ ?_ ?_
  · rw [free]
    rfl
  · rintro other niRef rfl
    cases free
  · rintro other rfl
    cases free

theorem Shows.put_back (moved : s.putMVar index ref next = some s') (held : call.held = some ref)
    (free : next.held = none) (uses : next.uses = call.uses) : s'.Shows checked d := by
  have put := shown.put found moved held free (shown.same_users found uses)
  rw [(shown.holder found held).2.1] at put
  exact put

end

theorem Shows.useEndpoint (succeeds : Bool) (shown : s.Shows checked d) (found : s.calls[index]? = some (.initializing ref)) :
    ∃ d', (s.useEndpoint index ref succeeds).Shows checked d' ∧ d.Change checked d' := by
  obtain ⟨place, rfl, alone⟩ := shown.holder found rfl
  have kept (next : Call) : s.globalEndpointRef.toList ++ next.held.toList = next.held.toList := by
    rw [place]
    rfl
  unfold NotificationInterface.useEndpoint
  cases here : d.ref.erNIRef with
  | some =>
    refine ⟨d, ?_, .same⟩
    refine shown.goOn rfl (alone.refs (kept _)) (shown.same_users found rfl) ⟨shown.initialised, shown.terminated⟩ ?_ nofun
    rintro _ _ ⟨⟩
    exact here
  | none =>
    cases succeeds with
    | true =>
      refine ⟨_, ?_, .make here⟩
      rw [← shown.initialised]
      refine shown.goOn rfl (alone.refs (kept _)) (shown.same_users found rfl) ⟨rfl, shown.terminated⟩ ?_ nofun
      rintro _ _ ⟨⟩
      rfl
    | false =>
      refine ⟨d, ?_, .same⟩
      exact shown.goOn rfl (alone.refs (kept _)) (shown.same_users found rfl) ⟨shown.initialised, shown.terminated⟩ nofun nofun

/-- A call that leaves is no longer counted, from the moment that it has taken the reference. -/
theorem Shows.leave (shown : s.Shows checked d) (found : s.calls[index]? = some (.leave niRef))
    (moved : s.takeMVar index (fun x => .left { x with erRefCount := max 0 (x.erRefCount - 1) }) = some s') :
    ∃ d', s'.Shows checked d' ∧ d.Change checked d' := by
  obtain ⟨ref, free, rfl⟩ := takeMVar_iff moved
  obtain ⟨rfl, alone⟩ := shown.taker found free
  obtain ⟨_, _, users, replaced⟩ := shown.users_split found
  refine ⟨_, ?_, .leave users⟩
  exact shown.goOn rfl (alone.refs rfl) (replaced _) ⟨shown.initialised, shown.terminated⟩ nofun nofun

theorem Shows.finalize (shown : s.Shows checked d) (found : s.calls[index]? = some .finalize)
    (moved : s.takeMVar index checkRefCount = some s') : ∃ d', s'.Shows checked d' ∧ d.Change checked d' := by
  obtain ⟨ref, free, rfl⟩ := takeMVar_iff moved
  obtain ⟨rfl, alone⟩ := shown.taker found free
  unfold checkRefCount
  split
  · refine ⟨d, ?_, .same⟩
    exact shown.goOn rfl (alone.refs rfl) (shown.same_users found rfl) ⟨shown.initialised, shown.terminated⟩ nofun nofun
  · refine ⟨_, ?_, .want⟩
    exact shown.goOn rfl (alone.refs rfl) (shown.same_users found rfl) ⟨shown.initialised, shown.terminated⟩ nofun nofun

theorem Shows.proceed {succeeds} (shown : s.Shows checked d) (found : s.calls[index]? = some call)
    (rechecked : call = .finalizeInternal → ∀ ref ∈ s.globalEndpointRef, checked ref)
    (moved : s.proceed index succeeds call = some s') : ∃ d', s'.Shows checked d' ∧ d.Change checked d' := by
  cases call with
  | initializeInternal => exact ⟨d, shown.taken found moved (fun _ => rfl) (fun _ => rfl) nofun nofun, .same⟩
  | initializing =>
    obtain rfl := some.inj moved
    exact shown.useEndpoint succeeds found
  | failed | finalizeNow | finalizeLater | finalized => exact ⟨d, shown.put_back found moved rfl rfl rfl, .same⟩
  | initialized ref niRef =>
    obtain ⟨_, _, users, replaced⟩ := shown.users_split found
    obtain ⟨-, rfl, -⟩ := shown.holder found rfl
    have here := shown.chosen _ niRef (mem_of_getElem? found)
    exact ⟨_, shown.put found moved rfl rfl (replaced _), .enter here users⟩
  | body niRef =>
    obtain rfl := some.inj moved
    have nobody : (s.calls.set index (.leave niRef)).filterMap Call.held = s.calls.filterMap Call.held := filterMap_same found rfl
    have refs : s.globalEndpointRef.toList ++ (s.calls.set index (.leave niRef)).filterMap Call.held = [d.ref] := by
      rw [nobody]
      exact shown.refs
    exact ⟨d, shown.goOn rfl refs (shown.same_users found rfl) ⟨shown.initialised, shown.terminated⟩ nofun nofun, .same⟩
  | leave => exact shown.leave found moved
  | left =>
    refine ⟨d, shown.put_back found moved rfl ?_ ?_, .same⟩
    · unfold afterLeaving
      split <;> rfl
    · unfold afterLeaving
      split <;> rfl
  | finalize => exact shown.finalize found moved
  | finalizeInternal =>
    refine ⟨d, shown.taken found moved (fun _ => rfl) (fun _ => rfl) nofun ?_, .same⟩
    rintro ref _ free ⟨⟩
    exact rechecked rfl ref free
  | finalizing =>
    obtain rfl := some.inj moved
    obtain ⟨place, rfl, alone⟩ := shown.holder found rfl
    refine ⟨_, ?_, .terminate (shown.passed _ (mem_of_getElem? found))⟩
    refine shown.goOn rfl (alone.refs ?_) (shown.same_users found rfl) ⟨shown.initialised, ?_⟩ nofun nofun
    · change s.globalEndpointRef.toList ++ [emptyEndpointRef] = [emptyEndpointRef]
      rw [place]
      rfl
    · rw [← shown.terminated]
      rfl
  | done => cases moved

theorem Shows.step (shown : s.Shows checked d) (rechecked : s.Rechecked checked action)
    (moved : s.step action = some s') : ∃ d', s'.Shows checked d' ∧ d.Change checked d' := by
  cases action with
  | withNI =>
    obtain rfl := some.inj moved
    refine ⟨d, ⟨?_, ?_, shown.initialised, shown.terminated, ?_, ?_⟩, .same⟩
    · rw [filterMap_append]
      exact (congrArg _ (append_nil _)).trans shown.refs
    · rw [filterMap_append]
      exact (append_nil _).trans shown.users
    · intro ref niRef member
      rcases mem_append.mp member with earlier | new
      · exact shown.chosen ref niRef earlier
      · cases mem_singleton.mp new
    · intro ref member
      rcases mem_append.mp member with earlier | new
      · exact shown.passed ref earlier
      · cases mem_singleton.mp new
  | proceed =>
    obtain ⟨_, found, moved⟩ := bind_eq_some_iff.mp moved
    refine shown.proceed found ?_ moved
    rintro rfl
    exact rechecked found

theorem shows_start : start.Shows checked ⟨emptyEndpointRef, [], 0, []⟩ :=
  ⟨rfl, rfl, rfl, rfl, nofun, nofun⟩

/-- An interface is terminated at most once, however the calls are interleaved. -/
theorem terminated_nodup (run : Run step (fun _ _ => True) start s) : s.terminated.Nodup := by
  have owned : ∃ d, s.Shows (fun _ => True) d ∧ d.Owned := by
    apply run.invariant
    · exact ⟨_, shows_start, rfl, nofun, nofun, nodup_nil⟩
    · intro before action after ⟨d, shown, owned⟩ _ moved
      have rechecked : before.Rechecked (fun _ => True) action := by
        cases action with
        | withNI => trivial
        | proceed => exact fun _ _ _ => trivial
      obtain ⟨d', shown', change⟩ := shown.step rechecked moved
      exact ⟨d', shown', change.owned owned⟩
  obtain ⟨d, shown, owned⟩ := owned
  rw [shown.terminated]
  exact owned.once

/-- The calls that have taken the reference to terminate the interface found its count at most zero. -/
abbrev NobodyCame : NotificationInterface → NIAction → Prop := Rechecked (·.erRefCount ≤ 0)

instance decidableNobodyCame (s : NotificationInterface) (action : NIAction) : Decidable (s.NobodyCame action) := by
  unfold NobodyCame Rechecked
  cases action <;> infer_instance

/-- If no call comes between the check of the count and the termination, no interface is terminated in use. -/
theorem interface_terminated_unused (run : Run step NobodyCame start s) :
    (∀ niRef, .body niRef ∈ s.calls → niRef ∉ s.terminated) ∧ s.terminated.Nodup := by
  refine ⟨?_, terminated_nodup (run.weaken fun _ _ _ => trivial)⟩
  have counted : ∃ d, s.Shows (·.erRefCount ≤ 0) d ∧ d.Owned ∧ d.Counted := by
    apply run.invariant
    · exact ⟨_, shows_start, ⟨rfl, nofun, nofun, nodup_nil⟩, rfl, nofun⟩
    · intro before action after ⟨d, shown, owned, counted⟩ permitted moved
      obtain ⟨d', shown', change⟩ := shown.step permitted moved
      exact ⟨d', shown', change.owned owned, change.counted counted⟩
  obtain ⟨d, shown, owned, counted⟩ := counted
  intro niRef running
  have user : niRef ∈ d.users := by
    rw [← shown.users]
    exact mem_filterMap.mpr ⟨_, running, rfl⟩
  rw [shown.terminated]
  exact (owned.current niRef (counted.alike niRef user)).2

/-- The first call makes an interface and terminates it; the second makes another and uses it. -/
def oneAfterAnother : List NIAction :=
  [.withNI, .withNI] ++ List.replicate 11 (.proceed 0 true) ++ List.replicate 3 (.proceed 1 true)

theorem interface_terminated_unused_twice : ∃ s, execute step NobodyCame start oneAfterAnother = some s ∧
    s.terminated = [0] ∧ (∀ niRef, .body niRef ∈ s.calls → niRef ∉ s.terminated) ∧ s.terminated.Nodup := by
  have executed : execute step NobodyCame start oneAfterAnother =
      some ⟨some ⟨some 1, 1, false, some 1⟩, [.done, .body 1], 2, [0]⟩ := by decide
  exact ⟨_, executed, rfl, interface_terminated_unused (run_of_execute executed)⟩

/-- The second call comes after the first has checked the count, and finds the interface still there. -/
theorem interface_terminated_in_use : ∃ s, execute step (fun _ _ => True) start
      ([.withNI, .withNI] ++ List.replicate 8 (.proceed 0 true) ++ List.replicate 3 (.proceed 1 true) ++
        List.replicate 2 (.proceed 0 true)) = some s ∧
    .body 0 ∈ s.calls ∧ 0 ∈ s.terminated :=
  ⟨⟨none, [.finalized, .body 0], 1, [0]⟩, by decide, by decide, by decide⟩

end NotificationInterface
end Halon.Mero
