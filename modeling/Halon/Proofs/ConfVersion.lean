import Halon.Library.Runs
import Halon.Proofs.SyncCompletion

/-! The version of the configuration that the graph records. It is to go up with every
commit that succeeds, but the report of the worker is never taken up; so it stays as it
is, and is right as long as no commit succeeds. -/

namespace Halon.Mero
open Library Stateful Cep List
variable {K V W : Type} [LinearOrder K] [LinearOrder V] {sur : Surroundings K V W} {enc : Encoding Relation Resource K V}

namespace SyncToConfd
open mkSyncToConfd meroRules
variable {L : Type} {lstate : Lens L} {jumps : List (Jump PhaseHandle) → Prop} {next : Jump PhaseHandle}

theorem keeps_syncToBS {k : ByteString → PhaseM (sur.app L)} (stays : jumps []) (rest : ∀ bs, Keeps jumps (k bs)) :
    Keeps jumps (syncToBS sur enc k) := by
  apply PhaseM.Completes.getGlobal
  intro rg
  split
  next =>
    split
    next =>
      apply keeps_getConfUpdateVersion
      intro verno _
      exact keeps_txOpenLocalContext stays fun tx => keeps_txPopulate (keeps_txToBS stays rest)
    next => exact rest []
  next => exact PhaseM.Completes.lift fun _ => keeps_ret stays

theorem keeps_mkSyncAction (stays : jumps []) (starts : jumps [quiesce]) (replies : jumps [next]) :
    Keeps jumps (mkSyncAction sur enc lstate next sync) := by
  refine keeps_catchAll stays ?_ fun _ => keeps_ret stays
  cases sync with
  | SyncToConfdServersInRG =>
    refine keeps_catchAll stays ?_ fun _ => keeps_ret stays
    rw [synchronizeToConfd_bind]
    exact PhaseM.Completes.modifyLocal (PhaseM.Completes.continueTo KeepsVersion.refl starts)
  | SyncDumpToBS =>
    refine keeps_catchAll stays ?_ fun _ => keeps_send (keeps_ret stays)
    exact keeps_syncToBS stays fun _ => keeps_send (PhaseM.Completes.continueTo KeepsVersion.refl replies)

section
variable (sur enc) (type : SyncMessage.Type) (request : SyncMessage → Option (Nat × SyncToConfd))
  (replies : Nat → PhaseM (sur.app (Nat × ConfSyncState)))

def reachable : List (Phase (sur.app (Nat × ConfSyncState))) :=
  initialPhase sur enc type request :: replyPhase sur replies :: waiting sur enc second

def Onwards (xs : List (Jump PhaseHandle)) : Prop := ∀ jmp ∈ xs, jmp ∈ [quiesce, on_quiesced, on_aborted, reply]

end

variable {key : RuleKey} {type : SyncMessage.Type} {request : SyncMessage → Option (Nat × SyncToConfd)}
  {replies : Nat → PhaseM (sur.app (Nat × ConfSyncState))}

theorem reachable_completes (answers : ∀ uuid, Keeps Onwards (replies uuid)) :
    ∀ ph ∈ reachable sur enc type request replies, ph.Completes KeepsVersion Onwards := by
  intro ph member
  have stays : Onwards [] := nofun
  rcases mem_cons.mp member with rfl | member
  · intro m
    dsimp only
    split
    next => exact PhaseM.Completes.putLocal (keeps_mkSyncAction stays (by simp [Onwards]) (by simp [Onwards]))
    next => exact keeps_ret stays
  · rcases mem_cons.mp member with rfl | member
    · exact PhaseM.Completes.getLocal fun _ => answers _
    · exact waiting_completes stays (by simp [Onwards]) ph member

theorem reachable_confined : Confined (syncRule sur enc key type request replies)
    (reachable sur enc type request replies) Onwards := by
  intro xs goes jmp member target found
  have uses := uses_syncRule sur enc key type request replies
  have listed := goes jmp member
  simp only [mem_cons, not_mem_nil, or_false] at listed
  have later {ph : Phase (sur.app (Nat × ConfSyncState))} (inside : ph ∈ waiting sur enc second) :
      ph ∈ reachable sur enc type request replies := mem_cons_of_mem _ (mem_cons_of_mem _ inside)
  rcases listed with rfl | rfl | rfl | rfl
  · exact later (uses.target mem_cons_self rfl found)
  · exact later (uses.target (mem_cons_of_mem _ mem_cons_self) rfl found)
  · exact later (uses.target (mem_cons_of_mem _ (mem_cons_of_mem _ mem_cons_self)) rfl found)
  · cases found
    exact mem_cons_of_mem _ mem_cons_self

end SyncToConfd
open SyncToConfd

namespace SyncSystem
open meroRules

def Others {L : Type} (s : SyncSystem sur L) : SyncAction sur L → Prop
  | .others engine _ => KeepsVersion s.engine.engineStateGlobal engine.engineStateGlobal
  | _ => True

/-- The version as it should be: it goes up with each commit that succeeded, and has the hash of the last. -/
def due {L : Type} (s : SyncSystem sur L) (version : Nat × Option Int) : Nat × Option Int :=
  (s.commits.filter fun entry => entry.2.Committed).foldl (fun version entry => (version.1 + 1, entry.1.hash)) version

theorem fst_foldl (entries : List (Commit × CommitOutcome)) (version : Nat × Option Int) :
    (entries.foldl (fun version entry => (version.1 + 1, entry.1.hash)) version).1 = version.1 + entries.length := by
  induction entries generalizing version with
  | nil => rfl
  | cons _ _ ih =>
    rw [foldl_cons, ih, length_cons]
    omega

theorem due_eq_iff {L : Type} (s : SyncSystem sur L) (version : Nat × Option Int) :
    version = s.due version ↔ ∀ entry ∈ s.commits, ¬ entry.2.Committed := by
  unfold due
  constructor
  · intro same entry member committed
    have number := congrArg Prod.fst same
    rw [fst_foldl] at number
    have none : s.commits.filter (fun entry => entry.2.Committed) = [] := by
      apply length_eq_zero_iff.mp
      omega
    have kept : entry ∈ s.commits.filter fun entry => entry.2.Committed := mem_filter.mpr ⟨member, decide_eq_true committed⟩
    rw [none] at kept
    cases kept
  · intro none
    have nothing : s.commits.filter (fun entry => entry.2.Committed) = [] :=
      filter_eq_nil_iff.mpr fun entry member committed => none entry member (of_decide_eq_true committed)
    rw [nothing]
    rfl

variable {key : RuleKey} {type : SyncMessage.Type} {request : SyncMessage → Option (Nat × SyncToConfd)}
  {replies : Nat → PhaseM (sur.app (Nat × ConfSyncState))} {s s' : SyncSystem sur (Nat × ConfSyncState)} {rg : RG K V}

/-- The machine was not run yet, or is in a phase that it can come to; the version is that of the graph at the start. -/
structure Unversioned (sur : Surroundings K V W) (enc : Encoding Relation Resource K V) (key : RuleKey) (type : SyncMessage.Type)
    (request : SyncMessage → Option (Nat × SyncToConfd)) (replies : Nat → PhaseM (sur.app (Nat × ConfSyncState)))
    (rg : RG K V) (s : SyncSystem sur (Nat × ConfSyncState)) : Prop where
  machine : (∃ b, s.sm = .bootstrap (syncRule sur enc key type request replies) b) ∨
    s.sm.Inside (syncRule sur enc key type request replies) (reachable sur enc type request replies)
  version : KeepsVersion rg s.engine.engineStateGlobal

namespace Unversioned

theorem message (unversioned : Unversioned sur enc key type request replies rg s) (msg : Message SyncMessage) :
    Unversioned sur enc key type request replies rg { s with sm := s.sm.message msg } := by
  refine ⟨?_, unversioned.version⟩
  rcases unversioned.machine with ⟨b, here⟩ | inside
  · refine .inl ⟨bufferInsert msg b, ?_⟩
    rw [here, SM.message]
  · exact .inr (inside.message msg)

theorem inside_start {smid} {start}
    (same : start.value = (syncRule sur enc key type request replies).startPhase.value) :
    (SM.interpretInput (syncRule sur enc key type request replies) smid l b [start]).Inside
      (syncRule sur enc key type request replies) (reachable sur enc type request replies) := by
  refine ⟨smid, l, b, _, rfl, cons_ne_nil _ _, ?_⟩
  intro jmp member
  cases mem_singleton.mp member
  rw [same]
  exact mem_cons_self

theorem execute (answers : ∀ uuid, Keeps Onwards (replies uuid)) (unversioned : Unversioned sur enc key type request replies rg s)
    {fuel subs} {machines : List (SMResult SyncMessage × SM (sur.app (Nat × ConfSyncState)))}
    {engine} {outside : Outside W}
    (returned : Returns (s.sm.execute fuel subs) s.engine s.outside machines engine outside) :
    ∃ result sm, machines = [(result, sm)] ∧ Unversioned sur enc key type request replies rg { s with sm, engine, outside } := by
  -- The first step is one of a machine that stands at the start.
  obtain ⟨sm, between, v, inside, version, returned⟩ : ∃ (sm : SM (sur.app (Nat × ConfSyncState))) (between : EngineState _)
      (v : Outside W), sm.Inside (syncRule sur enc key type request replies) (reachable sur enc type request replies) ∧
        KeepsVersion rg between.engineStateGlobal ∧ Returns (sm.execute fuel subs) between v machines engine outside := by
    rcases unversioned.machine with ⟨b, here⟩ | inside
    · rw [here] at returned
      obtain ⟨_, _, between, v, kept, same, returned⟩ := execute_bootstrap returned
      refine ⟨_, between, v, inside_start same, ?_, returned⟩
      rw [kept.global]
      exact unversioned.version
    · exact ⟨_, _, _, inside, unversioned.version, returned⟩
  obtain ⟨kept, result, after, rfl, ends⟩ := inside.execute (reachable_completes answers) reachable_confined KeepsVersion.refl
    (fun _ _ _ => KeepsVersion.trans) returned
  refine ⟨result, after, rfl, ?_, version.trans kept⟩
  split at ends
  next =>
    obtain ⟨_, b, _, rfl, same⟩ := ends
    exact .inr (inside_start same)
  next => exact .inr ends

theorem step (answers : ∀ uuid, Keeps Onwards (replies uuid))
    (unversioned : Unversioned sur enc key type request replies rg s) (permitted : s.Others action)
    (moves : s.step action = some s') :
    Unversioned sur enc key type request replies rg s' := by
  cases action with
  | arrives m =>
    cases moves
    exact unversioned.message m.message
  | reported =>
    simp only [SyncSystem.step] at moves
    split at moves
    next => cases moves
    next m reports _ =>
      cases moves
      exact ⟨(unversioned.message m.message).machine, unversioned.version⟩
  | executes =>
    simp only [SyncSystem.step] at moves
    split at moves
    next returned =>
      cases moves
      obtain ⟨_, _, same, kept⟩ := unversioned.execute answers returned
      cases same
      exact kept
    next => cases moves
  | commits =>
    simp only [SyncSystem.step] at moves
    split at moves
    next => cases moves
    next =>
      cases moves
      exact ⟨unversioned.machine, unversioned.version⟩
  | others =>
    cases moves
    exact ⟨unversioned.machine, unversioned.version.trans permitted⟩

end Unversioned

variable (enc) in
/-- After any attempts, with any outcomes, the graph records what it should exactly if no commit succeeded. -/
theorem version_recorded_iff {links : Links Relation Resource} (depicts : Depicts rg.graph links)
    (answers : ∀ uuid, Keeps Onwards (replies uuid)) {rest : W} {final : SyncSystem sur (Nat × ConfSyncState)}
    (run : Run step Others (start (syncRule sur enc key type request replies) rg rest) final) :
    final.engine.engineStateGlobal.version = final.due rg.version ↔ ∀ entry ∈ final.commits, ¬ entry.2.Committed := by
  have unversioned : Unversioned sur enc key type request replies rg final := by
    apply run.invariant
    · exact ⟨.inl ⟨_, rfl⟩, KeepsVersion.refl rg⟩
    · exact fun before action after kept permitted moves => kept.step answers permitted moves
  rw [(unversioned.version ⟨links, depicts⟩).2]
  exact final.due_eq_iff rg.version

open Scenario

def Alone {L : Type} (_ : SyncSystem sur L) : SyncAction sur L → Prop
  | .others .. => False
  | _ => True

instance {L : Type} (s : SyncSystem sur L) (action : SyncAction sur L) : Decidable (Alone s action) := by
  cases action <;> unfold Alone <;> infer_instance

theorem others_of_alone {L : Type} (s : SyncSystem sur L) (action : SyncAction sur L) (alone : Alone s action) :
    Others s action := by
  cases action with
  | others => cases alone
  | _ => trivial

theorem version_recorded_iff_refused : ∃ final, Run step Others (start rule (Example.build []) 0) final ∧
    final.commits.length = 1 ∧
    final.engine.engineStateGlobal.version = final.due (Example.build []).version := by
  have refused : (execute step Alone (start rule (Example.build []) 0)
      [request, execution, execution, .commits ⟨.ok (.error ""), .ok ()⟩, .reported, execution]).map
      (fun s => (s.commits.length, s.commits.all fun entry => !decide entry.2.Committed)) = some (1, true) := by
    decide +kernel
  obtain ⟨final, executed, facts⟩ := Option.map_eq_some_iff.mp refused
  have run : Run step Others (start rule (Example.build []) 0) final := (run_of_execute executed).weaken others_of_alone
  obtain ⟨_, depicts⟩ := Example.depicts_build []
  refine ⟨final, run, congrArg Prod.fst facts, ?_⟩
  have stays : Onwards [] := nofun
  refine (version_recorded_iff Example.encoding depicts (fun _ => keeps_send (keeps_send (keeps_ret stays))) run).mpr ?_
  have none := congrArg Prod.snd facts
  simpa only [all_eq_true, Bool.not_eq_true', decide_eq_false_iff_not] using none

/-- A commit succeeded, and its report has arrived; the graph still records the version before it. -/
theorem version_not_recorded :
    (runs [] [SyncToConfd.Scenario.request, execution, execution, .commits ⟨.ok (.ok ()), .ok ()⟩, .reported, execution]).map
      (fun s => (s.engine.engineStateGlobal.version, s.due (Example.build []).version)) = some ((1, none), (2, some 1)) := by
  decide +kernel

end SyncSystem

end Halon.Mero
