import Halon.Proofs.LogAgreement
import Halon.Proofs.LogRequests

/-! What clients are told. A replica answers `True` to the sender of a request only
when it has stored a value that has the request's value in it, or when it served
requests that change nothing. -/

namespace Halon.Log
open Library List Option

variable {A S : Type} {i : Nat}

/-- The client asks for nothing with this event, or makes this request. -/
def Event.OnlySends (κ : Nat) (r : Request A) : Event A S → Prop
  | .batch rs => ∀ m ∈ rs, κ ∈ m.batcherMsgRequest.requestSender → m.batcherMsgRequest = r
  | .recover _ π _ _ => κ ≠ π
  | _ => True

instance [DecidableEq A] {κ : Nat} {r : Request A} : (event : Event A S) → Decidable (event.OnlySends κ r)
  | .batch _ => inferInstanceAs (Decidable (∀ _ ∈ _, _ → _))
  | .recover _ π _ _ => inferInstanceAs (Decidable (κ ≠ π))
  | .message _ | .leaseRenewalTime | .membershipQuery => isTrue trivial

namespace System
variable {s s' : System A S}

/-- Whatever waits to be told to a client is the answer to a request of the client, and what was told is so. -/
structure Answers (s : System A S) : Prop where
  network : ∀ sent ∈ s.network, sent.2.Asked s.requested sent.1
  replicas : ∀ i, ∀ r ∈ (s.nodes i).replica, r.Asked s.requested i
  replied : ∀ i κ, (i, κ, true) ∈ s.replied → Served s.requested i κ ∨
    ∃ n v, (i, n, v) ∈ s.inserted ∧ Asked s.requested i [κ] v

theorem initial_answers (members : List Nat) : (initial members : System A S).Answers :=
  ⟨by simp [initial], fun _ _ found => absurd found (not_mem_none _), nofun⟩

theorem setNode_answers (answers : s.Answers) (asked : ∀ r ∈ node.replica, r.Asked s.requested i) :
    (s.setNode i node).Answers :=
  { answers with replicas := setNode_nodes (fun i node => ∀ r ∈ node.replica, r.Asked s.requested i) answers.replicas asked }

theorem post_answers (answers : s.Answers)
    (asked : ∀ sent ∈ messages, sent.2.Asked s.requested sent.1) : (s.post messages).Answers :=
  { answers with network := forall_mem_append.mpr ⟨answers.network, asked⟩ }

theorem request_answers (answers : s.Answers) :
    ({ s with requested := s.requested ++ [(i, event)] } : System A S).Answers := by
  have grows : s.requested ⊆ s.requested ++ [(i, event)] := subset_append_left _ _
  refine ⟨fun sent member => (answers.network sent member).mono grows, fun j r running =>
    (answers.replicas j r running).mono grows, ?_⟩
  intro j κ told
  rcases answers.replied j κ told with ⟨rs, recorded, served⟩ | ⟨n, v, inserted, asked⟩
  · exact .inl ⟨rs, grows recorded, served⟩
  · exact .inr ⟨n, v, inserted, asked.mono grows⟩

theorem go_asked : ∀ message ∈ (go config i later st).2, message.Asked history i := by
  unfold go
  split
  next =>
    split
    next => exact forall_mem_singleton.mpr Asked.nobody
    next => exact nofun
  next => exact nofun

theorem settle_answers (answers : s.Answers) (running : r ∈ (s.nodes i).replica) (asked : effects.Asked s.requested i) :
    (s.settle config i later r st effects).Answers := by
  have old := answers.replicas i r running
  have node : ∀ r' ∈ ((s.nodes i).resume config i later r st effects).replica, r'.Asked s.requested i := by
    rintro r' ⟨⟩
    refine ⟨forall_mem_append.mpr ⟨old.tasks, asked.tasks⟩, ?_, old.proposer.working⟩
    exact forall_mem_append.mpr ⟨forall_mem_append.mpr ⟨old.proposer.mailbox, asked.proposer⟩, go_asked⟩
  refine { post_answers (setNode_answers answers node) asked.sends with replied := ?_ }
  intro j κ told
  rcases mem_append.mp told with before | now
  · rcases answers.replied j κ before with served | ⟨n, v, inserted, stored⟩
    · exact .inl served
    · exact .inr ⟨n, v, mem_append_left _ inserted, stored⟩
  · obtain ⟨_, member, same⟩ := mem_map.mp now
    cases same
    exact .inl (asked.replies _ member rfl)

theorem proposerMoved_answers (answers : s.Answers)
    (running : r ∈ (s.nodes i).replica)
    (asked : outcome.next.Asked s.requested i ∧ ∀ message ∈ outcome.sends, message.Asked s.requested i) :
    (s.proposerMoved i r outcome).Answers := by
  have node : ∀ r' ∈ some { r with proposer := outcome.next }, r'.Asked s.requested i := by
    rintro r' ⟨⟩
    exact ⟨(answers.replicas i r running).tasks, asked.1⟩
  have sent : ∀ sent ∈ outcome.sends.map (fun message => (i, message)), sent.2.Asked s.requested sent.1 := by
    intro sent member
    obtain ⟨message, inside, rfl⟩ := mem_map.mp member
    exact asked.2 message inside
  exact { post_answers (setNode_answers answers node) sent with }

section
variable [DecidableEq A] {config : Config} {machine : StateMachine A S}

theorem handleEvent_answers (answers : s.Answers) (told : event.Told s.requested i)
    (moves : handleEvent config machine s i m event = some s') : s'.Answers := by
  obtain ⟨r, running, moves⟩ := bind_eq_some_iff.mp moves
  obtain ⟨handled, found, moves⟩ := bind_eq_some_iff.mp moves
  cases handled with
  | dies =>
    cases moves
    exact setNode_answers answers fun _ none => absurd none (not_mem_none _)
  | continues st effects =>
    have settled : (s.settle config i m.later r st effects).Answers := settle_answers answers running (handle_asked told found)
    dsimp only at moves
    split at moves
    next =>
      cases moves
      exact { settled with }
    next =>
      cases moves
      exact settled

theorem persist_answers (answers : s.Answers) (moves : step config machine s (.persist i index) = some s') :
    s'.Answers := by
  cases step_cases moves with
  | @persist _ r _ task running waiting =>
    have old := answers.replicas i r running
    have asked := old.tasks task (mem_of_getElem? waiting)
    have node : ∀ r' ∈ some { r with tasks := r.tasks.eraseIdx index }, r'.Asked s.requested i := by
      rintro r' ⟨⟩
      exact ⟨fun other member => old.tasks other (mem_of_mem_eraseIdx member), old.proposer⟩
    have sent : ∀ sent ∈ (task.sends : List (Message A S)).map (fun message => (i, message)),
      sent.2.Asked s.requested sent.1 := by
      intro sent member
      obtain ⟨_, inside, rfl⟩ := mem_map.mp member
      cases task with
      | commit =>
        rw [mem_singleton.mp inside]
        exact Asked.nobody
      | store =>
        rw [mem_singleton.mp inside]
        exact asked
      | reconf => cases inside
    refine { post_answers (setNode_answers answers node) sent with replied := ?_ }
    intro j κ told
    rcases mem_append.mp told with before | now
    · rcases answers.replied j κ before with served | ⟨n, v, inserted, stored⟩
      · exact .inl served
      · exact .inr ⟨n, v, mem_append_left _ inserted, stored⟩
    · obtain ⟨_, member, same⟩ := mem_map.mp now
      cases same
      refine .inr ⟨task.entry.1, task.entry.2, mem_append_right _ (mem_singleton.mpr rfl), ?_⟩
      refine forall_mem_singleton.mpr ?_
      cases task with
      | commit _ locale =>
        cases locale with
        | Local => exact asked κ member
        | Remote | Stored => cases member
      | store | reconf => cases member

theorem step_answers (answers : s.Answers) (moves : step config machine s action = some s') : s'.Answers := by
  cases step_cases moves with
  | @storeConf _ i => exact setNode_answers answers (answers.replicas i)
  | start =>
    have none {α : Type} {kept : α → Prop} : ∀ item ∈ ([] : List α), kept item := nofun
    refine post_answers (setNode_answers answers ?_) (forall_mem_append.mpr ⟨?_, queryMissingFrom_asked _ _ _⟩)
    · rintro r ⟨⟩
      exact ⟨none, forall_mem_append.mpr ⟨none, go_asked⟩, fun _ found => absurd found (not_mem_none _)⟩
    · intro sent member
      obtain ⟨_, _, rfl⟩ := mem_map.mp member
      exact Asked.nobody
  | die => exact setNode_answers answers fun _ none => absurd none (not_mem_none _)
  | @deliver index i message m _ found handled =>
    have taken : ({ s with network := s.network.eraseIdx index } : System A S).Answers :=
      { answers with network := fun sent member => answers.network sent (mem_of_mem_eraseIdx member) }
    have told : message.Asked s.requested i := answers.network (i, message) (mem_of_getElem? found)
    refine handleEvent_answers taken ?_ handled
    exact told
  | lose => exact { answers with network := fun sent member => answers.network sent (mem_of_mem_eraseIdx member) }
  | @request i event m _ outside handled =>
    refine handleEvent_answers (request_answers answers) ?_ handled
    have recorded : (i, event) ∈ s.requested ++ [(i, event)] := mem_append_right _ (mem_singleton.mpr rfl)
    cases event with
    | message message =>
      cases message with
      | Status => trivial
      | Decree | Query | Max | SnapshotInfo | Dumped | Passed | Rejected => cases outside
    | leaseRenewalTime | membershipQuery | batch | recover => exact recorded
  | persist => exact persist_answers answers moves
  | @dump i => exact post_answers (setNode_answers answers (answers.replicas i)) (forall_mem_singleton.mpr trivial)
  | @propose i r _ running received =>
    exact proposerMoved_answers answers running (Proposer.receive_asked (answers.replicas i r running).proposer received)
  | @workerDecided i r proposer running answered =>
    refine setNode_answers answers ?_
    rintro found ⟨⟩
    have old := answers.replicas i r running
    exact ⟨old.tasks, Proposer.decided_asked old.proposer answered⟩
  | @workerFinished i r _ running finished =>
    exact proposerMoved_answers answers running (Proposer.finish_asked (answers.replicas i r running).proposer finished)
  | decide => exact { answers with }

theorem run_answers (run : Run (step config machine) allowed (initial members) s) : s.Answers :=
  run.invariant (initial_answers members) fun _ _ _ answers _ moves => step_answers answers moves

def SenderOf (s : System A S) (κ : Nat) (r : Request A) : Prop := ∀ sent ∈ s.requested, sent.2.OnlySends κ r

instance {κ : Nat} {r : Request A} : Decidable (s.SenderOf κ r) :=
  inferInstanceAs (Decidable (∀ _ ∈ _, _))

/-- Over any group of replicas and any run in which replicas are cautious, a replica that answers `True` to the sender of
a request to append values has stored them, and all replicas that execute the entry execute what it stored. -/
theorem append_durable {members : List Nat} (run : Run (step config machine) (Cautious config) (initial members) s) :
    ∀ i κ r ys, s.SenderOf κ r → r.requestHint ≠ .Nullipotent → r.requestValue = .Values ys → (i, κ, true) ∈ s.replied →
      ∃ n xs, (i, n, .Values xs) ∈ s.inserted ∧ ys <:+: xs ∧ ∀ j v, (j, n, v) ∈ s.executed → v = .Values xs := by
  have valid := run_valid run
  intro i κ r ys sender changes appended told
  rcases (run_answers run).replied i κ told with ⟨rs, recorded, nullipotent, m, member, sent⟩ | ⟨n, v, inserted, asked⟩
  · have same := sender _ recorded m member sent
    exact absurd (same ▸ nullipotent m member) changes
  · obtain ⟨event, recorded, asks⟩ := asked κ (mem_singleton.mpr rfl)
    have only := sender _ recorded
    cases event with
    | batch =>
      obtain ⟨m, member, sent, covers⟩ := asks
      obtain ⟨xs, rfl, part⟩ := covers ys ((only m member sent) ▸ appended)
      refine ⟨n, xs, inserted, part, ?_⟩
      intro j v executed
      have entry : Entry s.ledger n v := valid.executed _ executed
      exact entry.unique (valid.inserted _ inserted)
    | recover => exact absurd asks only
    | message | leaseRenewalTime | membershipQuery => cases asks

end

namespace Example

def appending (x κ : Nat) : Request Nat := ⟨[κ], .Values [x], .None⟩

end Example

open Example in
theorem append_durable_followed : ∃ s : System Nat (List Nat), Run (step leases recorder) (Cautious leases)
    (initial [0, 1, 2]) s ∧
    s.SenderOf 5 (appending 7 5) ∧ (0, 5, true) ∈ s.replied ∧ (1, 1, .Values [7]) ∈ s.executed ∧
    ∃ n xs, (0, n, .Values xs) ∈ s.inserted ∧ [7] <:+: xs ∧ ∀ j v, (j, n, v) ∈ s.executed → v = .Values xs := by
  obtain ⟨s, ran, sender, told, executed⟩ : ∃ s : System Nat (List Nat), Run (step leases recorder)
      (fun s action => steady s action) (initial [0, 1, 2]) s ∧ s.SenderOf 5 (appending 7 5) ∧ (0, 5, true) ∈ s.replied ∧
      (1, 1, .Values [7]) ∈ s.executed := exists_run followed (by decide)
  have run := ran.weaken cautious_of_steady
  exact ⟨s, run, sender, told, executed, append_durable run 0 5 (appending 7 5) [7] sender (by decide) rfl told⟩

open Example in
/-- Node 0 told its client that the value 7 is appended. The entry that it stored is another one on node 1. -/
theorem append_lost : ¬ ∀ (config : Config) (machine : StateMachine Nat (List Nat)) (members : List Nat)
    (s : System Nat (List Nat)), Run (step config machine) (fun _ _ => True) (initial members) s →
      ∀ i κ r ys, s.SenderOf κ r → r.requestHint ≠ .Nullipotent → r.requestValue = .Values ys → (i, κ, true) ∈ s.replied →
        ∃ n xs, (i, n, .Values xs) ∈ s.inserted ∧ ys <:+: xs ∧ ∀ j v, (j, n, v) ∈ s.executed → v = .Values xs := by
  intro durable
  obtain ⟨s, run, sender, told, executed, placed⟩ : ∃ s : System Nat (List Nat), Run (step leases recorder) (fun _ _ => True)
      (initial [0, 1, 2]) s ∧ s.SenderOf 5 (appending 7 5) ∧ (0, 5, true) ∈ s.replied ∧
      (1, 2, .Reconf 2 [0, 1, 2]) ∈ s.executed ∧ ∀ entry ∈ s.inserted, isReconf entry.2.2 ∨ entry.2.1 = 2 :=
    exists_run misplaced (by decide)
  obtain ⟨n, xs, inserted, -, agree⟩ := durable _ _ _ s run 0 5 _ [7] sender (by decide) rfl told
  rcases placed _ inserted with reconf | index
  · cases reconf
  · cases index
    cases agree 1 _ executed

end System
end Halon.Log
