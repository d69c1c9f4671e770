import Halon.Proofs.JobRoles

/-! The machines that follow from a program of a job, by the jumps that it ends with, and the
steps of machines that are about to listen or to stop. -/

namespace Halon.Recovery
open Library Stateful Cep List
variable {set : Setting} {job : Job set} {key : RuleKey}

theorem leads_phase (names : ((mkJobRule.phases job).map Phase.phName).Nodup)
    (member : ph ∈ mkJobRule.phases job) (named : origin.value = ph.phName) (leads : Leads (mkJobRule key job) origin jmp) :
    jmp.value = ph ∧ (origin = .NormalJump origin.value → jmp = .NormalJump ph) := by
  obtain ⟨_, found, same, normal⟩ := leads
  rw [named, mkJobRule, lookup_phaseMap names member] at found
  cases found
  refine ⟨same, fun origin => ?_⟩
  rw [normal origin rfl, same]
  rfl

section
variable {idm : Nat} {b : Buffer set.app.Payload} {l : JobLocal set} {xs : List (Jump PhaseHandle)} {state : SMState}
  {sm : SM set.app} (names : ((mkJobRule.phases job).map Phase.phName).Nodup)

theorem follows_goes (follows : Follows rule idm b l xs state sm) : state ≠ .SMStopped := by
  cases follows <;> simp

include names

theorem follows_restart (receives : Receives b) (follows : Follows (mkJobRule key job) idm b l [] state sm) :
    InRole job key sm (some (requestsIn b)) none := by
  cases follows with
  | restart _ same => exact .inits names receives same
  | run some => exact absurd rfl some

theorem follows_listening (named : clear.value = startForks.wrapper_clear.value) (receives : Receives b)
    (follows : Follows (mkJobRule key job) idm b l [mkJobRule.request job, mkJobRule.indexed_request job, clear] state sm) :
    InRole job key sm (some (requestsIn b)) none := by
  cases follows with
  | run _ resolved =>
    rcases resolved with _ | ⟨here, _ | ⟨there, _ | ⟨last, _ | _⟩⟩⟩
    have request : mkJobRule.requestPhase job ∈ mkJobRule.phases job := by simp [mkJobRule.phases]
    have indexed : mkJobRule.indexedRequestPhase job ∈ mkJobRule.phases job := by simp [mkJobRule.phases]
    have clears : startForks.clearPhase (mkJobRule.listened job) ∈ mkJobRule.phases job := by simp [mkJobRule.phases]
    obtain rfl := (leads_phase names request rfl here).2 rfl
    obtain rfl := (leads_phase names indexed rfl there).2 rfl
    exact .listens names receives (leads_phase names clears named last).1

theorem follows_running (leads : job.Leads xs) (request : l.request ≠ none) (reply : job.Replies → l.reply ≠ none)
    (follows : Follows (mkJobRule key job) idm b l xs state sm) : InRole job key sm none l.request := by
  cases follows with
  | restart => exact absurd rfl leads.1
  | @run _ phs some resolved =>
    have inside : ∀ jmp ∈ phs, jmp.value ∈ job.inner := by
      intro jmp member
      obtain ⟨origin, listed, leading⟩ := exists_partner resolved jmp member
      obtain ⟨ph, inner, named⟩ := mem_map.mp (leads.2 origin listed)
      have member : ph ∈ mkJobRule.phases job := mem_append_right (outer job) inner
      rw [(leads_phase names member named.symm leading).1]
      exact inner
    refine .runs names request reply ?_ inside
    intro none
    rw [none] at resolved
    exact some (forall₂_nil_right_iff.mp resolved)

theorem follows_leaving (named : last = startForks.wrapper_end ∨ last = mkJobRule.end' job)
    (follows : Follows (mkJobRule key job) idm b l [last] state sm) : InRole job key sm none none := by
  cases follows with
  | run _ resolved =>
    rcases resolved with _ | @⟨_, jmp, _, _, here, _ | _⟩
    have ends : startForks.endPhase ∈ mkJobRule.phases job := by simp [mkJobRule.phases]
    have stops : mkJobRule.endPhase job ∈ mkJobRule.phases job := by simp [mkJobRule.phases]
    apply InRole.leaves names
    rcases named with rfl | rfl
    · exact .inl (leads_phase names ends rfl here).1
    · exact .inr (leads_phase names stops rfl here).1

end

theorem remaining_cons (goes : result.smResultState ≠ .SMStopped)
    (sm : SM set.app) (others : Machines set.app) :
    JobSystem.remaining ((result, sm) :: others) = sm :: JobSystem.remaining others := by
  unfold JobSystem.remaining
  rw [filter_cons_of_pos (by simpa using goes), map_cons]

structure Steps (mine : EventId → Bool) (key : RuleKey) (job : Job set) (sm : SM set.app) (made : List (SM set.app))
    (before after : Books set) : Prop where
  plays : ∀ sm ∈ made, Plays job key sm
  acts : Acts job mine sm made before after

namespace Steps
variable {sm sm' child : SM set.app} {before after : Books set} {r : JobRequest set.Input}
  {rest : Multiset (JobRequest set.Input)}

theorem idle (was : InRole job key sm waiting input)
    (now : InRole job key sm' waiting input) : Steps mine key job sm [sm'] before before := by
  refine ⟨forall_mem_singleton.mpr now.plays, .idles ?_ ?_⟩
  · rw [was.waiting, ← now.waiting]
    cases found : waiting? job sm' <;> simp [found]
  · rw [was.input, ← now.input]
    cases found : instance? job sm' <;> simp [found]

theorem cleared (was : InRole job key sm (some waiting) none)
    (now : InRole job key sm' none none) (other : InRole job key child (some waiting) none) :
    Steps mine key job sm [sm', child] before before := by
  refine ⟨by simpa using ⟨now.plays, other.plays⟩, .idles ?_ ?_⟩
  · simp [was.waiting, now.waiting, other.waiting]
  · simp [was.input, now.input, other.input]

theorem takes (was : InRole job key sm (some (r ::ₘ rest)) none) (now : InRole job key sm' (some rest) none) :
    Takes job sm [sm'] r [] :=
  ⟨⟨rest, was.waiting, by simp [now.waiting]⟩, was.input, by simp [now.input]⟩

theorem starts (was : InRole job key sm (some (r ::ₘ rest)) none) (now : InRole job key sm' (some rest) none)
    (other : InRole job key child none (some r.input)) (free : before.storage.lookup r.input = none) :
    Steps mine key job sm [sm', child] before (before.record r) := by
  refine ⟨by simpa using ⟨now.plays, other.plays⟩, .starts ⟨⟨rest, was.waiting, ?_⟩, was.input, ?_⟩ free⟩
  · simp [now.waiting, other.waiting]
  · simp [now.input, other.input]

theorem finishes (was : InRole job key sm none (some input))
    (now : InRole job key sm' none none) (replied : job.Replies → reply ≠ none) :
    Steps mine key job sm [sm'] before (before.finish mine input reply) := by
  refine ⟨forall_mem_singleton.mpr now.plays, .finishes was.input was.waiting ?_ ?_ replied⟩
  · simp [now.waiting]
  · simp [now.input]

end Steps

variable {fuel : Nat} {subs : Subscribers} {smid : Nat} {l : JobLocal set} {b : Buffer set.app.Payload}
  {s s' : EngineState set.app} {w w' : JobWorld set}
  {machines : Machines set.app}

theorem init_step (names : ((mkJobRule.phases job).map Phase.phName).Nodup)
    (receives : Receives b) (first : start.value = startForks.initPhase (mkJobRule.listened job))
    (returned : Returns (executeStack fuel (mkJobRule key job) subs smid l b [start] id id) s w machines s' w') :
    Steps mine key job (.interpretInput (mkJobRule key job) smid l b [start]) (JobSystem.remaining machines)
    (books mine s w) (books mine s' w') := by
  have tries : ∀ jmp ∈ [start], Tries fuel subs smid l b (fun s₁ w₁ => books mine s₁ w₁ = books mine s w) (fun _ results s₁ w₁ =>
      results = [(smid, b, .SM_Complete l [mkJobRule.request job, mkJobRule.indexed_request job, startForks.wrapper_clear])] ∧
        books mine s₁ w₁ = books mine s w) jmp.value := by
    intro jmp member s₁ w₁ results s₂ w₂ same ran
    rw [mem_singleton.mp member, first] at ran
    obtain ⟨_, _, evaluated, rfl, rfl⟩ := runPhaseM_alone (fun evaluated => by rw [(PhaseM.returns_Switch.mp evaluated).1]) ran
    obtain ⟨rfl, rfl, rfl⟩ := PhaseM.returns_Switch.mp evaluated
    refine .inr ⟨?_, rfl, same⟩
    intro finished member
    rw [mem_singleton.mp member]
    rfl
  cases executeStack_stepped books_kept tries (cons_ne_nil _ _) rfl returned with
  | waits _ phs lasts here kept =>
    subst here
    rcases lasts with _ | ⟨back, _ | _⟩
    rw [kept, remaining_cons (by simp)]
    exact .idle (.inits names receives first) (.inits names receives (back.1.trans first))
  | moves jmp _ _ _ v done kept completed =>
    obtain ⟨rfl, same⟩ := done
    obtain ⟨_, sm, rfl, follows⟩ := completed_one completed
    rw [books_kept kept same, remaining_cons (follows_goes follows)]
    exact .idle (.inits names receives first) (follows_listening names rfl receives follows)

theorem leaving_step (names : ((mkJobRule.phases job).map Phase.phName).Nodup)
    (last : jmp.value = startForks.endPhase ∨ jmp.value = mkJobRule.endPhase job)
    (returned : Returns (executeStack fuel (mkJobRule key job) subs smid l b [jmp] id id) s w machines s' w') :
    Steps mine key job (.interpretInput (mkJobRule key job) smid l b [jmp]) (JobSystem.remaining machines)
    (books mine s w) (books mine s' w') := by
  have was : InRole job key (.interpretInput (mkJobRule key job) smid l b [jmp]) none none := .leaves names last
  have stops : jmp.value.phCall = .DirectCall .Stop := by
    rcases last with same | same
    · rw [same]
      rfl
    · rw [same]
      rfl
  obtain ⟨kept, result, sm, rfl, gone | ⟨waits, _, same, rfl⟩⟩ := executeStack_stops stops returned
  · have none : JobSystem.remaining [(result, sm)] = [] := by
      unfold JobSystem.remaining
      rw [filter_cons_of_neg (by simpa using gone), filter_nil, map_nil]
    rw [none, books_housekeeping kept]
    refine ⟨fun _ member => absurd member not_mem_nil, .idles ?_ ?_⟩
    · rw [was.waiting]
      rfl
    · rw [was.input]
      rfl
  · rw [books_housekeeping kept, remaining_cons (by simp [waits])]
    exact .idle was (.leaves names (same ▸ last))

end Halon.Recovery
