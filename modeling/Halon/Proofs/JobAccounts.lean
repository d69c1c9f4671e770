import Halon.Proofs.JobRoles
import Mathlib.Data.Finset.Basic
import Mathlib.Data.Multiset.Bind
import Mathlib.Tactic.Abel

/-! The books of a job and its ledger. Each act of a machine is at most one change of the
ledger, and the books show what the ledger says after it. -/

namespace Halon.Recovery
open Library Cep Multiset

/-- The requests by what became of them, and the inputs with an instance. -/
structure JobLedger (I : Type) where
  waiting : Multiset (JobRequest I)
  running : Finset I
  recorded : Multiset (JobRequest I)
  dismissed : Multiset (JobRequest I)
  served : Multiset (JobRequest I)

namespace JobLedger
variable {I : Type}

def empty : JobLedger I := ⟨0, ∅, 0, 0, 0⟩

def requests (a : JobLedger I) : Multiset (JobRequest I) := a.waiting + a.recorded + a.dismissed + a.served

def arrive (a : JobLedger I) (r : JobRequest I) : JobLedger I := { a with waiting := r ::ₘ a.waiting }

def dismiss (a : JobLedger I) (r : JobRequest I) (waiting : Multiset (JobRequest I)) : JobLedger I :=
  { a with waiting, dismissed := r ::ₘ a.dismissed }

theorem requests_arrive (a : JobLedger I) (r : JobRequest I) : (a.arrive r).requests = r ::ₘ a.requests := by
  simp only [requests, arrive, cons_add]

variable {a : JobLedger I} {r : JobRequest I} {waiting : Multiset (JobRequest I)}

theorem requests_dismiss (taken : a.waiting = r ::ₘ waiting) : (a.dismiss r waiting).requests = a.requests := by
  simp only [requests, dismiss, taken, cons_add, add_cons]

variable [DecidableEq I]

def record (a : JobLedger I) (r : JobRequest I) (waiting : Multiset (JobRequest I)) : JobLedger I :=
  { a with waiting, running := insert r.input a.running, recorded := r ::ₘ a.recorded }

def recordedFor (a : JobLedger I) (input : I) : Multiset (JobRequest I) := a.recorded.filter fun r => r.input = input

def finish (a : JobLedger I) (input : I) : JobLedger I :=
  { a with
    running := a.running.erase input
    recorded := a.recorded.filter fun r => r.input ≠ input
    served := a.recordedFor input + a.served }

inductive Change (a : JobLedger I) : JobLedger I → Prop where
  | arrive (r : JobRequest I) : Change a (a.arrive r)
  | dismiss (r : JobRequest I) (waiting : Multiset (JobRequest I)) (taken : a.waiting = r ::ₘ waiting) :
      Change a (a.dismiss r waiting)
  | record (r : JobRequest I) (waiting : Multiset (JobRequest I)) (taken : a.waiting = r ::ₘ waiting) :
      Change a (a.record r waiting)
  | finish (input : I) (runs : input ∈ a.running) : Change a (a.finish input)

theorem requests_record (taken : a.waiting = r ::ₘ waiting) : (a.record r waiting).requests = a.requests := by
  simp only [requests, record, taken, cons_add, add_cons]

theorem requests_finish (a : JobLedger I) (input : I) : (a.finish input).requests = a.requests := by
  have parts := filter_add_not (fun r : JobRequest I => r.input = input) a.recorded
  calc (a.finish input).requests
      = a.waiting + (a.recordedFor input + a.recorded.filter fun r => ¬ r.input = input) + a.dismissed + a.served := by
        simp only [requests, finish]
        abel
    _ = a.requests := by
        rw [recordedFor, parts]
        rfl

theorem recordedFor_record_self : (a.record r waiting).recordedFor r.input = r ::ₘ a.recordedFor r.input :=
  filter_cons_of_pos _ rfl

theorem recordedFor_record_ne (different : r.input ≠ other) :
    (a.record r waiting).recordedFor other = a.recordedFor other :=
  filter_cons_of_neg _ different

theorem recordedFor_finish_ne (different : other ≠ input) :
    (a.finish input).recordedFor other = a.recordedFor other := by
  rw [recordedFor, finish, filter_filter]
  apply filter_congr
  intro r _
  exact and_iff_left_of_imp fun same => same ▸ different

end JobLedger

variable {set : Setting}

/-- What is stored for an input: the requests that are recorded with its instance. -/
def Describes (a : JobLedger set.Input) (input : set.Input) : Option JobDescription → Prop
  | none => input ∉ a.running ∧ a.recordedFor input = 0
  | some description => input ∈ a.running ∧
    (description.requestUUIDS : Multiset EventId) = (a.recordedFor input).map JobRequest.eid ∧
    (description.listenersUUIDS : Multiset ListenerId) = (a.recordedFor input).bind fun r => r.listeners

namespace Describes
variable {a : JobLedger set.Input} {r : JobRequest set.Input} {waiting : Multiset (JobRequest set.Input)} {input : set.Input}
  {stored : Option JobDescription}

theorem isSome (describes : Describes a input stored) : stored.isSome ↔ input ∈ a.running := by
  cases stored with
  | none | some => simpa using describes.1

theorem record (describes : Describes a r.input stored) : Describes (a.record r waiting) r.input
    (some ((stored.map (JobDescription.mappend ⟨[r.eid], r.listeners⟩)).getD ⟨[r.eid], r.listeners⟩)) := by
  refine ⟨Finset.mem_insert_self _ _, ?_⟩
  rw [JobLedger.recordedFor_record_self, map_cons, cons_bind]
  cases stored with
  | none =>
    rw [describes.2, map_zero, zero_bind, add_zero]
    exact ⟨rfl, rfl⟩
  | some =>
    rw [← describes.2.1, ← describes.2.2]
    exact ⟨rfl, rfl⟩

theorem record_ne (describes : Describes a input stored) (different : r.input ≠ input) :
    Describes (a.record r waiting) input stored := by
  have running : input ∈ (a.record r waiting).running ↔ input ∈ a.running :=
    Finset.mem_insert.trans (or_iff_right different.symm)
  cases stored with
  | none =>
    refine ⟨fun runs => describes.1 (running.mp runs), ?_⟩
    rw [JobLedger.recordedFor_record_ne different]
    exact describes.2
  | some =>
    refine ⟨running.mpr describes.1, ?_⟩
    rw [JobLedger.recordedFor_record_ne different]
    exact describes.2

theorem finish (a : JobLedger set.Input) (input : set.Input) : Describes (a.finish input) input none := by
  refine ⟨Finset.notMem_erase _ _, ?_⟩
  rw [JobLedger.recordedFor, JobLedger.finish, filter_filter]
  exact filter_eq_nil.mpr fun r _ both => both.2 both.1

theorem finish_ne (describes : Describes a other stored) (different : other ≠ input) :
    Describes (a.finish input) other stored := by
  have running : other ∈ (a.finish input).running ↔ other ∈ a.running :=
    Finset.mem_erase.trans (and_iff_right different)
  cases stored with
  | none =>
    refine ⟨fun runs => describes.1 (running.mp runs), ?_⟩
    rw [JobLedger.recordedFor_finish_ne different]
    exact describes.2
  | some =>
    refine ⟨running.mpr describes.1, ?_⟩
    rw [JobLedger.recordedFor_finish_ne different]
    exact describes.2

end Describes

/-- The books agree with the ledger of the job's requests. Listeners are told for sure if the body does not take the
reply back. -/
structure Shows (mine : EventId → Bool) (job : Job set) (books : Books set) (a : JobLedger set.Input) : Prop where
  requests : ∀ r ∈ a.requests, mine r.eid
  acknowledged : (books.processed : Multiset EventId) = (a.dismissed + a.served).map JobRequest.eid
  published : job.Replies → (books.finished.flatMap Prod.fst : Multiset ListenerId) = a.served.bind fun r => r.listeners
  described : ∀ input, Describes a input (books.storage.lookup input)

namespace Shows
variable {job : Job set} {books : Books set} {a : JobLedger set.Input} {input : set.Input}

theorem arrive (shows : Shows mine job books a) (asked : mine r.eid) : Shows mine job books (a.arrive r) := by
  refine ⟨?_, shows.acknowledged, shows.published, shows.described⟩
  rw [JobLedger.requests_arrive]
  exact forall_mem_cons.mpr ⟨asked, shows.requests⟩

theorem dismiss (shows : Shows mine job books a) (taken : a.waiting = r ::ₘ waiting) :
    Shows mine job (books.acknowledge mine r) (a.dismiss r waiting) := by
  have asked : mine r.eid := shows.requests r (by simp [JobLedger.requests, taken])
  refine ⟨?_, ?_, shows.published, shows.described⟩
  · rw [JobLedger.requests_dismiss taken]
    exact shows.requests
  · change ((books.processed ++ [r.eid].filter mine : List EventId) : Multiset EventId) =
      ((r ::ₘ a.dismissed) + a.served).map JobRequest.eid
    rw [List.filter_cons_of_pos asked, cons_add, map_cons, ← shows.acknowledged, ← coe_add, add_comm]
    rfl

theorem record (shows : Shows mine job books a) (taken : a.waiting = r ::ₘ waiting) :
    Shows mine job (books.record r) (a.record r waiting) := by
  refine ⟨?_, shows.acknowledged, shows.published, fun input => ?_⟩
  · rw [JobLedger.requests_record taken]
    exact shows.requests
  · rw [Books.record, OrderedMap.lookup_insertWith]
    split
    next same =>
      subst same
      exact (shows.described r.input).record
    next different => exact (shows.described input).record_ne (Ne.symm different)

theorem finish (shows : Shows mine job books a) (runs : input ∈ a.running) (replied : job.Replies → reply ≠ none) :
    Shows mine job (books.finish mine input reply) (a.finish input) := by
  obtain ⟨description, found⟩ := Option.isSome_iff_exists.mp ((shows.described input).isSome.mpr runs)
  have describes := shows.described input
  rw [found] at describes
  obtain ⟨_, uuids, listeners⟩ := describes
  unfold Books.finish
  rw [found]
  have asked : ∀ eid ∈ description.requestUUIDS, mine eid := by
    intro eid member
    rw [← mem_coe, uuids] at member
    obtain ⟨r, recorded, rfl⟩ := mem_map.mp member
    exact shows.requests r (by simp [JobLedger.requests, mem_of_mem_filter recorded])
  refine ⟨?_, ?_, fun replies => ?_, fun other => ?_⟩
  · rw [JobLedger.requests_finish]
    exact shows.requests
  · calc ((books.processed ++ description.requestUUIDS.filter mine : List EventId) : Multiset EventId)
        = (a.dismissed + a.served).map JobRequest.eid + (a.recordedFor input).map JobRequest.eid := by
          rw [List.filter_eq_self.mpr asked, ← coe_add, shows.acknowledged, uuids]
      _ = (a.dismissed + (a.recordedFor input + a.served)).map JobRequest.eid := by
          rw [← map_add, add_assoc, add_comm a.served]
  · obtain ⟨output, rfl⟩ := Option.ne_none_iff_exists'.mp (replied replies)
    have told : (if description.listenersUUIDS.isEmpty then [] else
        ((some output).map fun output => (description.listenersUUIDS, output)).toList).flatMap Prod.fst =
          description.listenersUUIDS := by
      split
      next none => rw [List.isEmpty_iff.mp none, List.flatMap_nil]
      next => exact List.append_nil _
    calc ((books.finished ++ _ : List (List ListenerId × set.Output)).flatMap Prod.fst : Multiset ListenerId)
        = a.served.bind (fun r => r.listeners) + (a.recordedFor input).bind fun r => r.listeners := by
          rw [List.flatMap_append, told, ← coe_add, shows.published replies, listeners]
      _ = (a.recordedFor input + a.served).bind fun r => r.listeners := by
          rw [add_bind, add_comm]
  · rw [OrderedMap.lookup_delete]
    split
    next same =>
      subst same
      exact .finish a _
    next different => exact (shows.described other).finish_ne different

end Shows

variable {job : Job set} {sm : SM set.app} {made earlier later : List (SM set.app)} {r : JobRequest set.Input}
  {started : List set.Input} {a : JobLedger set.Input} {before after : Books set}

theorem Takes.alone (takes : Takes job sm made r started)
    (waiting : (earlier ++ sm :: later).filterMap (waiting? job) = [a.waiting]) :
    ∃ rest, a.waiting = r ::ₘ rest ∧ (earlier ++ made ++ later).filterMap (waiting? job) = [rest] := by
  obtain ⟨rest, was, now⟩ := takes.was
  rw [List.filterMap_append, List.filterMap_cons_some was] at waiting
  obtain ⟨none, same⟩ | ⟨_, none⟩ := List.append_eq_singleton_iff.mp waiting
  · rw [List.cons.injEq] at same
    refine ⟨rest, same.1.symm, ?_⟩
    rw [List.filterMap_append, List.filterMap_append, none, same.2, now]
    rfl
  · cases none

theorem Takes.instances_add (takes : Takes job sm made r started) :
    ((earlier ++ made ++ later).filterMap (instance? job) : Multiset set.Input) =
      (started : Multiset set.Input) + ((earlier ++ sm :: later).filterMap (instance? job) : List set.Input) := by
  rw [List.filterMap_append, List.filterMap_append, takes.instances, List.filterMap_append, List.filterMap_cons_none takes.apart,
    ← coe_add, ← coe_add, ← coe_add]
  abel

theorem Acts.accounts (acts : Acts job mine sm made before after)
    (waiting : (earlier ++ sm :: later).filterMap (waiting? job) = [a.waiting])
    (running : ((earlier ++ sm :: later).filterMap (instance? job) : Multiset set.Input) = a.running.val)
    (shows : Shows mine job before a) :
    ∃ b, Relation.ReflGen JobLedger.Change a b ∧ b.requests = a.requests ∧
      (earlier ++ made ++ later).filterMap (waiting? job) = [b.waiting] ∧
      ((earlier ++ made ++ later).filterMap (instance? job) : Multiset set.Input) = b.running.val ∧ Shows mine job after b := by
  cases acts with
  | idles same instances =>
    refine ⟨a, .refl, rfl, ?_, ?_, shows⟩
    · rw [← waiting]
      simp only [List.filterMap_append, same, List.filterMap_cons]
      cases waiting? job sm <;> simp
    · rw [← running]
      simp only [List.filterMap_append, instances, List.filterMap_cons]
      cases instance? job sm <;> simp
  | dismisses takes =>
    obtain ⟨rest, taken, left⟩ := takes.alone waiting
    refine ⟨_, .single (.dismiss _ rest taken), JobLedger.requests_dismiss taken, left, ?_, shows.dismiss taken⟩
    rw [takes.instances_add, running]
    exact zero_add _
  | @joins r takes runs =>
    obtain ⟨rest, taken, left⟩ := takes.alone waiting
    refine ⟨_, .single (.record _ rest taken), JobLedger.requests_record taken, left, ?_, shows.record taken⟩
    have present : r.input ∈ a.running := (shows.described r.input).isSome.mp runs
    rw [takes.instances_add, running, JobLedger.record, Finset.insert_eq_of_mem present]
    exact zero_add _
  | @starts r takes free =>
    obtain ⟨rest, taken, left⟩ := takes.alone waiting
    refine ⟨_, .single (.record _ rest taken), JobLedger.requests_record taken, left, ?_, shows.record taken⟩
    have absent : r.input ∉ a.running := by
      rw [← (shows.described r.input).isSome, free]
      simp
    rw [takes.instances_add, running, JobLedger.record, Finset.insert_val_of_notMem absent]
    rfl
  | @finishes input _ was apart none instances replied =>
    have before : ((earlier ++ sm :: later).filterMap (instance? job) : Multiset set.Input) =
        input ::ₘ ((earlier ++ made ++ later).filterMap (instance? job) : List set.Input) := by
      rw [List.filterMap_append, List.filterMap_cons_some was, List.filterMap_append, List.filterMap_append,
        instances, List.append_nil]
      exact coe_eq_coe.mpr List.perm_middle
    rw [before] at running
    have runs : input ∈ a.running := by
      rw [← Finset.mem_val, ← running]
      exact mem_cons_self _ _
    refine ⟨_, .single (.finish input runs), JobLedger.requests_finish a input, ?_, ?_, shows.finish runs replied⟩
    · rw [List.filterMap_append, List.filterMap_cons_none apart, ← List.filterMap_append] at waiting
      rw [List.filterMap_append, List.filterMap_append, none, List.append_nil, ← List.filterMap_append]
      exact waiting
    · rw [JobLedger.finish, Finset.erase_val, ← running, erase_cons_head]

theorem Plays.message (names : ((mkJobRule.phases job).map Phase.phName).Nodup) (plays : Plays job key sm)
    (m : JobMessage set.Input set.Output) : Plays job key (sm.message m.message) ∧
      waiting? job (sm.message m.message) = (waiting? job sm).map ((m.request?.toList : Multiset (JobRequest set.Input)) + ·) ∧
      instance? job (sm.message m.message) = instance? job sm := by
  have of_roles {sm waiting input} (was : InRole job key sm waiting input)
      (now : InRole job key (sm.message m.message)
        (waiting.map ((m.request?.toList : Multiset (JobRequest set.Input)) + ·)) input) :
      Plays job key (sm.message m.message) ∧
        waiting? job (sm.message m.message) = (waiting? job sm).map ((m.request?.toList : Multiset (JobRequest set.Input)) + ·) ∧
        instance? job (sm.message m.message) = instance? job sm :=
    ⟨now.plays, by rw [now.waiting, was.waiting], now.input.trans was.input.symm⟩
  cases plays with
  | fresh receives => exact ⟨.fresh (receives.insert m), congrArg some (receives.requestsIn_insert m), rfl⟩
  | inits receives first =>
    refine of_roles (.inits names receives first) ?_
    rw [Option.map_some, ← receives.requestsIn_insert]
    exact .inits names (receives.insert m) first
  | listens receives last =>
    refine of_roles (.listens names receives last) ?_
    rw [Option.map_some, ← receives.requestsIn_insert]
    exact .listens names (receives.insert m) last
  | runs request reply some inside =>
    exact of_roles (.runs names request reply some inside) (.runs names request reply some inside)
  | leaves last => exact of_roles (.leaves names last) (.leaves names last)

end Halon.Recovery
