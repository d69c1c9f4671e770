import Halon.Proofs.CepRuns
import Halon.Proofs.CepSteps

/-! What is left of alternatives that do not complete. A phase that is suspended or stopped, and
forks nothing, leaves the state of the engine as it was, so that a step of a machine has the effects
of one alternative or of none. -/

namespace Halon.Cep
open Library Stateful List
variable {app : Application} {s s' s'' : EngineState app} {w w' : app.World}

/-- A program changes nothing of the engine but the global state and the next id. -/
def Framed (s s' : EngineState app) : Prop :=
  s' = { s with engineStateMaxId := s'.engineStateMaxId, engineStateGlobal := s'.engineStateGlobal }

namespace Framed

theorem refl (s : EngineState app) : Framed s s := rfl

theorem trans (first : Framed s s') (second : Framed s' s'') : Framed s s'' := by
  unfold Framed at *
  rw [second, first]

theorem events (framed : Framed s s') : s'.engineEvents = s.engineEvents := by
  rw [framed]

theorem reverted (framed : Framed s s') (ids : s'.engineStateMaxId = s.engineStateMaxId) :
    { s' with engineStateGlobal := s.engineStateGlobal } = s := by
  rw [framed, ids]

end Framed

namespace PhaseM
variable {subs : Subscribers} {l : app.LocalState}

private theorem ended_framed (returned : Returns (pure ended : EngineM app (Evaluation app)) s w result s' w') : Framed s s' := by
  obtain ⟨rfl, rfl, rfl⟩ := returns_pure.mp returned
  exact .refl _

theorem go_framed {p : PhaseM app} (returned : Returns (p.go subs mindex l buf) s w result s' w') : Framed s s' := by
  induction p generalizing l buf s w result s' w' with
  | ret | Continue | Stop | Suspend | Switch => exact ended_framed returned
  | GetGlobal k ih => exact ih _ (returns_GetGlobal.mp returned)
  | GetLocal k ih => exact ih _ (returns_GetLocal.mp returned)
  | PutGlobal g k ih =>
    have later := ih (returns_PutGlobal.mp returned)
    exact later
  | PutLocal l' k ih => exact ih (returns_PutLocal.mp returned)
  | Fork typ _ k _ ih =>
    obtain ⟨_, _, ran, rfl, rfl⟩ := returns_Fork.mp returned
    exact (ih ran).trans rfl
  | Lift m k ih =>
    obtain ⟨a, _, _, returned⟩ := returns_Lift.mp returned
    exact ih a returned
  | Publish e k ih => exact ih (returns_Publish.mp returned)
  | Peek type idx k ih | Shift type idx k ih =>
    rw [go] at returned
    split at returned
    next => exact ended_framed returned
    next => exact ih _ returned
  | Catch f caught h next ihf ihh ihn =>
    have guarded {ended between v} (guards : Guards subs mindex f caught h l buf s w ended between v) : Framed s between := by
      cases guards with
      | body ran | left ran => exact ihf ran
      | handled _ _ ran | gaveUp _ _ ran => exact ihh _ ran
    rcases returns_Catch.mp returned with ⟨_, _, _, r, _, _, _, guards, further, _⟩ | ⟨_, _, guards, _⟩
    · exact (guarded guards).trans (ihn r further)
    · exact guarded guards

end PhaseM

section
variable {fuel : Nat} {rule : Rule app} {subs : Subscribers} {smid : Nat} {l : app.LocalState} {b buffer : Buffer app.Payload}
  {ph : Phase app} {out : PhaseOut app}

theorem consume_framed (returned : Returns (consume subs mindex fuel queue) s w results s' w') : Framed s s' := by
  refine consume_rule Framed.refl ?_ returned
  intro forked queue s w evaluation between v rest s' ran later
  refine Framed.trans ?_ later
  split
  next => exact PhaseM.go_framed ran
  next => exact (PhaseM.go_framed ran).trans rfl

theorem runPhase_framed (returned : Returns (runPhase fuel subs smid l b ph) s w results s' w') :
    Framed s s' := by
  rcases runPhase_picks returned with ⟨_, _, _, _, _, same⟩ | ⟨_, _, _, _, _, _, ran, _⟩
  · rw [same]
    exact .refl s
  · exact consume_framed ran

theorem consume_empty (returned : Returns (consume subs mindex fuel queue) s w [] s' w') : queue = [] := by
  obtain ⟨_, _, ids⟩ := consume_fresh returned
  have none := append_eq_nil_iff.mp (nil_perm.mp ids)
  exact map_eq_nil_iff.mp none.1

theorem runPhase_reverted (incomplete : out.isComplete = false)
    (returned : Returns (runPhase fuel subs smid l b ph) s w [(idm, buffer, out)] s' w') : s' = s := by
  rcases runPhase_picks returned with ⟨_, _, _, _, _, same⟩ | ⟨action, mindex, _, v, _, _, ran, _⟩
  · exact same
  · obtain ⟨_, _, _, _, _, evaluated, later, results⟩ := consume_first ran
    obtain ⟨first, rfl⟩ := List.cons.inj results
    have none := consume_empty later
    rw [nil_append] at none later
    rw [none] at later
    obtain ⟨_, rfl, _⟩ := consume_none later
    have ids := (PhaseM.go_evaluated subs mindex action evaluated).fresh
    rw [none] at ids
    rw [← congrArg Prod.snd (congrArg Prod.snd first), incomplete]
    exact (PhaseM.go_framed evaluated).reverted ids.same

variable (fuel rule subs smid l b) in
/-- A way past alternatives: each is put off, suspended, or stopped. Those that were not stopped are put back. -/
inductive Passes :
    Stack app → Stack app → EngineState app → app.World → EngineState app → app.World → Prop where
  | nil (s : EngineState app) (w : app.World) : Passes [] [] s w s w
  | putOff {jmp nxt : Jump (Phase app)} {phs back : Stack app} {s between s' : EngineState app} {w v w' : app.World}
      (timed : Returns (jumpApplyTime rule.key jmp) s w (.inl nxt) between v)
      (rest : Passes phs back between v s' w') :
      Passes (jmp :: phs) (nxt :: back) s w s' w'
  | suspends {jmp : Jump (Phase app)} {phs back : Stack app} {buffer : Buffer app.Payload}
      {s between s' : EngineState app} {w v v' w' : app.World}
        (due : Returns (jumpApplyTime rule.key jmp) s w (.inr jmp.value) between v)
      (ran : Returns (runPhase fuel subs smid l b jmp.value) between v [(smid, buffer, .SM_Suspend)] between v')
      (rest : Passes phs back between v' s' w') :
      Passes (jmp :: phs) (.NormalJump jmp.value :: back) s w s' w'
  | stops {jmp : Jump (Phase app)} {phs back : Stack app} {buffer : Buffer app.Payload}
      {s between s' : EngineState app} {w v v' w' : app.World}
        (due : Returns (jumpApplyTime rule.key jmp) s w (.inr jmp.value) between v)
      (ran : Returns (runPhase fuel subs smid l b jmp.value) between v [(smid, buffer, .SM_Stop)] between v')
      (rest : Passes phs back between v' s' w') :
        Passes (jmp :: phs) back s w s' w'

variable (fuel rule subs smid l b) in
/-- A step through alternatives, after some that were put back. Either no alternative completes and the global state is as
before, or those before one of them are passed, and the global state is what this one makes of it. -/
inductive Switched (tried phs : Stack app) (s : EngineState app) (w : app.World) (machines : Machines app)
    (s' : EngineState app) (w' : app.World) : Prop where
  | none (infos : List (ExecutionInfo app.Payload)) (back : Stack app)
      (passes : Passes fuel rule subs smid l b phs back s w s' w') (global : s'.engineStateGlobal = s.engineStateGlobal)
      (left : machines = [leftSM rule smid l b infos (tried ++ back)])
  | one {passed rest back : Stack app}
      (stack : phs = passed ++ jmp :: rest)
      (passes : Passes fuel rule subs smid l b passed back s w s₁ w₁)
      (due : Returns (jumpApplyTime rule.key jmp) s₁ w₁ (.inr jmp.value) s₂ w₂)
        (untouched : s₂.engineStateGlobal = s.engineStateGlobal)
      (ran : Returns (runPhase fuel subs smid l b jmp.value) s₂ w₂ results s₃ w₃)
      (complete : ∀ finished ∈ results, finished.2.2.isComplete) (made : List.Forall₂ (Completed rule) results machines)
      (global : s'.engineStateGlobal = s₃.engineStateGlobal)

theorem Switched.pass (passes : ∀ {phs back s' w'}, Passes fuel rule subs smid l b phs back between v s' w' →
      Passes fuel rule subs smid l b (jmp :: phs) (put ++ back) s w s' w')
    (global : between.engineStateGlobal = s.engineStateGlobal)
    (switched : Switched fuel rule subs smid l b (tried ++ put) phs between v machines s' w') :
    Switched fuel rule subs smid l b tried (jmp :: phs) s w machines s' w' := by
  cases switched with
  | none infos back passed same left =>
    rw [append_assoc] at left
    exact .none infos (put ++ back) (passes passed) (same.trans global) left
  | one stack passed due untouched ran complete made kept =>
    rw [stack]
    exact .one rfl (passes passed) due (untouched.trans global) ran complete made kept

theorem executeStack_switched {f : Stack app → Stack app}
    {info : List (ExecutionInfo app.Payload) → List (ExecutionInfo app.Payload)} (form : f = (tried ++ ·))
    (settles : StackSettles fuel rule subs smid l b phs s w)
    (returned : Returns (executeStack fuel rule subs smid l b phs f info) s w machines s' w') :
    Switched fuel rule subs smid l b tried phs s w machines s' w' := by
  induction phs generalizing tried f info s w machines s' w' with
  | nil =>
    subst form
    obtain ⟨rfl, rfl, left⟩ := executeStack_nil returned
    exact .none (info []) [] (.nil s' w') rfl left
  | cons jmp phs ih =>
    rw [executeStack, returns_bind] at returned
    obtain ⟨applied, between, v, timed, returned⟩ := returned
    obtain ⟨kept, same⟩ := Housekeeping.jumpApplyTime timed
    have later := settles applied between v timed
    have put (back : Jump (Phase app)) : f ∘ (back :: ·) = ((tried ++ [back]) ++ ·) := by
      funext rest
      simp [form]
    cases applied with
    | inl nxt => exact Switched.pass (.putOff timed) kept.global (ih (put nxt) later returned)
    | inr ph =>
      obtain ⟨results, _, _, ran, returned⟩ := returns_bind.mp returned
      obtain ⟨_, followed, rfl⟩ := returns_bind_pure.mp returned
      change ph = jmp.value at same
      subst same
      obtain ⟨settled, rest⟩ := later results _ _ ran
      by_cases complete : ∀ finished ∈ results, finished.2.2.isComplete
      · obtain ⟨follows, made⟩ := mapM_completed complete followed
        have first : jmp :: phs = [] ++ jmp :: phs := rfl
        exact .one first (.nil s w) timed kept.global ran complete made follows.global
      · obtain ⟨⟨_, out⟩, forks, rfl, _⟩ := runPhase_fresh ran
        have alone : forks = [] := by
          have count := settled.resolve_right complete
          exact length_eq_zero_iff.mp (Nat.le_zero.mp (Nat.le_of_succ_le_succ count))
        subst alone
        rw [forall_mem_singleton, Bool.not_eq_true] at complete
        obtain rfl := runPhase_reverted complete ran
        have later := rest (forall_mem_singleton.mpr (Bool.not_eq_true _ ▸ complete))
        obtain ⟨_, _, _, _, follows, nothing, rfl⟩ := returns_mapM_cons.mp followed
        obtain ⟨rfl, rfl, rfl⟩ := returns_mapM_nil.mp nothing
        rw [flatten_singleton]
        cases out with
        | SM_Complete => cases complete
        | SM_Suspend => exact Switched.pass (.suspends timed ran) kept.global (ih (put _) later follows)
        | SM_Stop =>
          have stopped := ih form later follows
          rw [← append_nil tried] at stopped
          exact Switched.pass (.stops timed ran) kept.global stopped

/-- A step of a machine completes one alternative at most, the first that is due and neither suspended nor stopped, together
with the actions it forks, and keeps the effects of no other. -/
theorem switch_runs_one {phs : Stack app} {machines : Machines app}
    (settles : (SM.interpretInput rule smid l b phs).Settles fuel subs s w)
    (returned : Returns ((SM.interpretInput rule smid l b phs).execute fuel subs) s w machines s' w') :
    Switched fuel rule subs smid l b [] phs s w machines s' w' :=
  executeStack_switched rfl settles returned

end

namespace RollbackExample

def counting : Application := { ForkExample.plain with GlobalState := Nat }

def phase (action : PhaseM counting) : Phase counting := ⟨"phase", .DirectCall action⟩

def again : PhaseM counting := .Continue (.NormalJump "phase")

def rule : Rule counting := ⟨initRuleKey, .NormalJump (phase again), [("phase", .NormalJump (phase again))], ()⟩

def start : EngineState counting := ⟨2, 10, .empty, (0 : Nat)⟩

def machine (phs : Stack counting) : SM counting := .interpretInput rule 1 () emptyFifoBuffer phs

def suspending : Phase counting := phase (.PutGlobal (7 : Nat) .Suspend)

def forking : Phase counting := phase (.PutGlobal (3 : Nat) (.Fork .NoBuffer again again))

end RollbackExample

open RollbackExample in
theorem switch_runs_one_forking : ∃ machines s',
    Returns ((machine [.NormalJump suspending, .NormalJump forking]).execute 5 .empty) start () machines s' () ∧
      s'.engineStateGlobal = (3 : Nat) ∧ machines.map (fun made => made.1.smId) = [1, 2] ∧
      Switched 5 rule .empty 1 () emptyFifoBuffer [] [.NormalJump suspending, .NormalJump forking] start () machines s' () := by
  have settles : (machine [.NormalJump suspending, .NormalJump forking]).Settles 5 .empty start () := by
    intro applied between v tried
    cases tried
    intro results s' w' ran
    cases ran
    refine ⟨.inl (le_refl 1), fun _ => ?_⟩
    intro applied between v tried
    cases tried
    intro results s' w' ran
    cases ran
    refine ⟨.inr ?_, fun _ => trivial⟩
    simp [PhaseOut.isComplete]
  have returned : Returns ((machine [.NormalJump suspending, .NormalJump forking]).execute 5 .empty) start () _ _ _ := rfl
  exact ⟨_, _, returned, rfl, rfl, switch_runs_one settles returned⟩

open RollbackExample in
/-- An alternative that stops is passed, although it is not suspended. -/
theorem stopped_alternative_passed : ∃ machines,
    Returns (runPhase 5 .empty 1 () emptyFifoBuffer (phase .Stop)) start () [(1, emptyFifoBuffer, .SM_Stop)] start () ∧
      Returns ((machine [.NormalJump (phase .Stop), .NormalJump (phase again)]).execute 5 .empty) start () machines start () ∧
      machines.map (fun made => (made.1.smId, made.1.smResultState)) = [(1, .SMRunning)] :=
  ⟨_, rfl, rfl, rfl⟩

namespace Jump
variable {α : Type}

inductive Fixed (app : Application) (now : Int) : Jump α → Jump α → Prop where
  | same (jmp : Jump α) : Fixed app now jmp jmp
  | absolute (r : Int) (a : α) (v : app.World) :
      Fixed app now (.OnTimeJump (.Relative r) a) (.OnTimeJump (.Absolute (max now ((app.getTime v).1 + toSecs r))) a)

inductive Expired (now : Int) : Jump α → Jump α → Prop where
  | same (jmp : Jump α) : Expired now jmp jmp
  | passed (t : Int) (a : α) (due : t ≤ now) : Expired now (.OnTimeJump (.Absolute t) a) (.NormalJump a)

/-- A jump that is put back at the given time. -/
def Timed (app : Application) (now : Int) (jmp back : Jump α) : Prop := ∃ fixed, Fixed app now jmp fixed ∧ Expired now fixed back

namespace Timed
variable {now : Int} {a b c : Jump α}

theorem trans (first : Timed app now a b) (second : Timed app now b c) : Timed app now a c := by
  obtain ⟨x, fixed, expired⟩ := first
  obtain ⟨y, again, dropped⟩ := second
  cases expired with
  | same =>
    cases fixed with
    | same => exact ⟨y, again, dropped⟩
    | absolute r h v =>
      cases again with
      | same => exact ⟨_, .absolute r h v, dropped⟩
  | passed t h due =>
    cases again with
    | same =>
      cases dropped with
      | same => exact ⟨_, fixed, .passed t h due⟩

end Timed
end Jump

theorem addEvent_same (returned : Returns (addEvent key t : EngineM app Time) s w t' s' w') :
    s'.engineTimestamp = s.engineTimestamp ∧
      ∃ v, t' = .Absolute (match t with | .Absolute k => k | .Relative r => (app.getTime v).1 + toSecs r) := by
  simp only [addEvent, returns_bind, returns_lift, returns_modify, returns_pure] at returned
  obtain ⟨_, _, _, ⟨due, rfl⟩, _, _, _, ⟨rfl, rfl⟩, rfl, rfl, rfl⟩ := returned
  refine ⟨rfl, w, ?_⟩
  cases t with
  | Absolute | Relative =>
    cases due
    rfl

section
variable {α : Type}

theorem jumpApplyTime_timed (returned : Returns (jumpApplyTime key jmp : EngineM app (Jump α ⊕ α)) s w applied s' w') :
    s'.engineTimestamp = s.engineTimestamp ∧ jmp.Timed app s.engineTimestamp (applied.elim id .NormalJump) ∧
      ∀ nxt, applied = .inl nxt → ∃ t a, nxt = .OnTimeJump (.Absolute t) a := by
  cases jmp with
  | NormalJump =>
    obtain ⟨rfl, rfl, rfl⟩ := returns_pure.mp returned
    exact ⟨rfl, ⟨_, .same _, .same _⟩, nofun⟩
  | OnTimeJump p h =>
    rw [jumpApplyTime, returns_get_bind] at returned
    cases p with
    | Absolute wt =>
      dsimp only at returned
      split at returned
      next =>
        obtain ⟨_, added, rfl⟩ := returns_bind_pure.mp returned
        obtain ⟨same, v, rfl⟩ := addEvent_same added
        refine ⟨same, ⟨_, .same _, .same _⟩, ?_⟩
        rintro _ ⟨⟩
        exact ⟨wt, h, rfl⟩
      next due =>
        obtain ⟨rfl, rfl, rfl⟩ := returns_pure.mp returned
        exact ⟨rfl, ⟨_, .same _, .passed wt h (not_lt.mp due)⟩, nofun⟩
    | Relative r =>
      obtain ⟨_, added, rfl⟩ := returns_bind_pure.mp returned
      obtain ⟨same, v, rfl⟩ := addEvent_same added
      refine ⟨same, ⟨_, .absolute r h v, .same _⟩, ?_⟩
      rintro _ ⟨⟩
      exact ⟨_, h, rfl⟩

theorem jumpEmitTimeout_timed (returned : Returns (jumpEmitTimeout key jmp : EngineM app (Jump α)) s w emitted s' w') :
    s'.engineTimestamp = s.engineTimestamp ∧ jmp.Timed app s.engineTimestamp emitted := by
  obtain ⟨applied, _, _, first, returned⟩ := returns_bind.mp returned
  obtain ⟨same, timed, absolute⟩ := jumpApplyTime_timed first
  cases applied with
  | inl nxt =>
    obtain ⟨t, a, rfl⟩ := absolute nxt rfl
    obtain ⟨_, added, rfl⟩ := returns_bind_pure.mp returned
    obtain ⟨equal, _, rfl⟩ := addEvent_same added
    exact ⟨equal.trans same, timed⟩
  | inr =>
    obtain ⟨rfl, rfl, rfl⟩ := returns_pure.mp returned
    exact ⟨same, timed⟩

end

section
variable {fuel : Nat} {rule : Rule app} {subs : Subscribers} {smid : Nat} {l : app.LocalState} {b : Buffer app.Payload}

variable (fuel rule subs smid l b) in
/-- Every alternative that is tried from this stack is as allowed, until one completes. -/
def Along (allowed : Phase app → List (Finished app) → Prop) : Stack app → EngineState app → app.World → Prop
  | [], _, _ => True
  | jmp :: phs, s, w => ∀ applied between v, Returns (jumpApplyTime rule.key jmp) s w applied between v →
    match applied with
    | .inl _ => Along allowed phs between v
    | .inr ph => ∀ results s' w', Returns (runPhase fuel subs smid l b ph) between v results s' w' → allowed ph results ∧
      ((∀ finished ∈ results, ¬ finished.2.2.isComplete) → Along allowed phs s' w')

variable (fuel rule subs smid l b) in
def StackSuspends : Stack app → EngineState app → app.World → Prop :=
  Along fuel rule subs smid l b fun _ results => ∃ buffer forks, results = (smid, buffer, .SM_Suspend) :: forks

def SM.Suspends (fuel : Nat) (subs : Subscribers) (s : EngineState app) (w : app.World) : SM app → Prop
  | .bootstrap rule b => ∀ ph between v smid s' w', Returns (jumpEmitTimeout rule.key rule.startPhase) s w ph between v →
    Returns nextSmId between v smid s' w' → StackSuspends fuel rule subs smid rule.initialL b [ph] s' w'
  | .interpretInput rule smid l b phs => StackSuspends fuel rule subs smid l b phs s w
  | .stopped => True

inductive SM.Holds : SM app → Rule app → app.LocalState → Buffer app.Payload → Stack app → Prop where
  | bootstrap (rule : Rule app) (b : Buffer app.Payload) : Holds (.bootstrap rule b) rule rule.initialL b [rule.startPhase]
  | interpretInput (rule : Rule app) (smid : Nat) (l : app.LocalState) (b : Buffer app.Payload) (phs : Stack app) :
      Holds (.interpretInput rule smid l b phs) rule l b phs

/-- A machine that was run has alternatives. -/
def SM.Waits : SM app → Prop
  | .interpretInput _ _ _ _ phs => phs ≠ []
  | _ => True

variable {phs back : Stack app} {machines : Machines app}

theorem Follows.waits (follows : Follows rule idm b l xs state sm) : sm.Waits := by
  cases follows with
  | restart start => exact cons_ne_nil start []
  | run some resolved =>
    intro none
    rw [none] at resolved
    exact some (forall₂_nil_right_iff.mp resolved)

/-- Every machine that a step leaves has alternatives, unless it was stopped. -/
theorem SM.execute_waits {sm : SM app} (returned : Returns (sm.execute fuel subs) s w machines s' w') :
    ∀ made ∈ machines, made.2.Waits := by
  obtain ⟨_, _, l, b, phs, _, v, _, ran⟩ := execute_enters returned
  refine executeStack_machines (fun _ _ _ => trivial) (fun _ _ some => some) ?_ ran
  intro infos back
  cases back with
  | nil => trivial
  | cons first rest => exact cons_ne_nil first rest

theorem Along.settles (along : Along fuel rule subs smid l b allowed phs s w)
    (settled : ∀ {ph s w results s' w'}, Returns (runPhase fuel subs smid l b ph) s w results s' w' →
    allowed ph results → Settled results) :
    StackSettles fuel rule subs smid l b phs s w := by
  induction phs generalizing s w with
  | nil => trivial
  | cons jmp phs ih =>
    intro applied between v timed
    have here := along applied between v timed
    cases applied with
    | inl => exact ih here
    | inr =>
      intro results s' w' ran
      obtain ⟨allows, rest⟩ := here results s' w' ran
      exact ⟨settled ran allows, fun incomplete => ih (rest incomplete)⟩

namespace Passes
variable {allowed : Phase app → List (Finished app) → Prop}

variable (passes : Passes fuel rule subs smid l b phs back s w s' w')
include passes

/-- What stands behind alternatives that were passed is tried from where they ended. -/
theorem behind (along : Along fuel rule subs smid l b allowed (phs ++ rest) s w) :
    Along fuel rule subs smid l b allowed rest s' w' := by
  have incomplete (buffer : Buffer app.Payload) {out : PhaseOut app} (other : out.isComplete = false) :
      ∀ finished ∈ [(smid, buffer, out)], ¬ finished.2.2.isComplete := by
    simp [other]
  induction passes with
  | nil => exact along
  | putOff timed _ ih => exact ih (along _ _ _ timed)
  | suspends due ran _ ih | stops due ran _ ih => exact ih ((along _ _ _ due _ _ _ ran).2 (incomplete _ rfl))

theorem keeps : s'.engineStateMaxId = s.engineStateMaxId := by
  induction passes with
  | nil => rfl
  | putOff timed _ ih => exact ih.trans ((Quiet.jumpApplyTime _ _).same timed)
  | suspends due _ _ ih | stops due _ _ ih => exact ih.trans ((Quiet.jumpApplyTime _ _).same due)

/-- Where no alternative is stopped, all are put back, with times that are absolute or have passed. -/
theorem timed (along : Along fuel rule subs smid l b allowed phs s w)
    (running : ∀ {ph s w buffer s' w'}, Returns (runPhase fuel subs smid l b ph) s w [(smid, buffer, .SM_Stop)] s' w' →
      ¬ allowed ph [(smid, buffer, .SM_Stop)]) : List.Forall₂ (Jump.Timed app s.engineTimestamp) phs back := by
  induction passes with
  | nil => exact .nil
  | putOff first rest ih =>
    obtain ⟨same, put, _⟩ := jumpApplyTime_timed first
    have later := ih (along _ _ _ first)
    rw [same] at later
    exact .cons put later
  | suspends due ran rest ih =>
    obtain ⟨same, put, _⟩ := jumpApplyTime_timed due
    have later := ih (behind (.suspends due ran (.nil _ _)) along)
    rw [same] at later
    exact .cons put later
  | stops due ran =>
    obtain ⟨stopped, _⟩ := along _ _ _ due _ _ _ ran
    exact absurd stopped (running ran)

end Passes

theorem executeStack_suspended (some : phs ≠ []) (settles : StackSettles fuel rule subs smid l b phs s w)
    (suspends : StackSuspends fuel rule subs smid l b phs s w)
    (returned : Returns (executeStack fuel rule subs smid l b phs id id) s w machines s' w') :
    s'.engineStateGlobal = s.engineStateGlobal ∧ s'.engineStateMaxId = s.engineStateMaxId ∧ ∃ infos back,
      machines = [(⟨smid, .SMSuspended, infos⟩, .interpretInput rule smid l b back)] ∧
      List.Forall₂ (Jump.Timed app s.engineTimestamp) phs back := by
  have form : id = (([] : Stack app) ++ ·) := rfl
  cases executeStack_switched form settles returned with
  | none infos back passes global left =>
    have put := passes.timed suspends fun _ ⟨_, _, stopped⟩ => nomatch stopped
    refine ⟨global, passes.keeps, infos, back, ?_, put⟩
    rw [left, nil_append]
    cases put with
    | nil => exact absurd rfl some
    | cons => rfl
  | one stack passes due _ ran complete =>
    rw [stack] at suspends
    obtain ⟨⟨_, _, rfl⟩, _⟩ := passes.behind suspends _ _ _ due _ _ _ ran
    cases complete _ mem_cons_self

/-- A step in which every alternative that is tried ends in suspension, and forks nothing, leaves the global state and the
machine as they were, but for the times of its alternatives. -/
theorem suspension_rolled_back {sm : SM app} (holds : sm.Holds rule l b phs) (waits : sm.Waits)
    (settles : sm.Settles fuel subs s w)
    (suspends : sm.Suspends fuel subs s w) (returned : Returns (sm.execute fuel subs) s w machines s' w') :
    s'.engineStateGlobal = s.engineStateGlobal ∧ s'.engineStateMaxId = (sm.identity s).2 ∧ ∃ infos back,
      machines = [(⟨(sm.identity s).1, .SMSuspended, infos⟩, .interpretInput rule (sm.identity s).1 l b back)] ∧
      List.Forall₂ (Jump.Timed app s.engineTimestamp) phs back := by
  cases holds with
  | bootstrap =>
    simp only [SM.execute, returns_bind] at returned
    obtain ⟨_, _, _, emitted, _, _, _, handed, returned⟩ := returned
    have keeps := (Quiet.jumpEmitTimeout _ _).same emitted
    obtain ⟨now, first⟩ := jumpEmitTimeout_timed emitted
    obtain ⟨kept, _⟩ := Housekeeping.jumpEmitTimeout emitted
    obtain ⟨global, ids, infos, _, made, put⟩ :=
      executeStack_suspended (cons_ne_nil _ _) (settles _ _ _ _ _ _ emitted handed) (suspends _ _ _ _ _ _ emitted handed) returned
    obtain ⟨rfl, rfl, rfl⟩ := returns_nextSmId.mp handed
    obtain ⟨last, _, second, nothing, rfl⟩ := forall₂_cons_left_iff.mp put
    cases nothing
    rw [now] at second
    dsimp only [SM.identity]
    rw [← keeps]
    exact ⟨global.trans kept.global, ids, infos, [last], made, .cons (first.trans second) .nil⟩
  | interpretInput => exact executeStack_suspended waits settles suspends returned

end

open RollbackExample in
theorem suspension_rolled_back_once : ∃ machines s',
    Returns ((machine [.NormalJump suspending]).execute 5 .empty) start () machines s' () ∧ s'.engineStateGlobal = (0 : Nat) ∧
      s'.engineStateMaxId = 2 ∧ ∃ infos back, machines = [(⟨1, .SMSuspended, infos⟩, machine back)] ∧
        List.Forall₂ (Jump.Timed counting 10) [.NormalJump suspending] back := by
  have settles : (machine [.NormalJump suspending]).Settles 5 .empty start () := by
    intro applied between v tried
    cases tried
    intro results s' w' ran
    cases ran
    exact ⟨.inl (le_refl 1), fun _ => trivial⟩
  have suspends : (machine [.NormalJump suspending]).Suspends 5 .empty start () := by
    intro applied between v tried
    cases tried
    intro results s' w' ran
    cases ran
    exact ⟨⟨_, _, rfl⟩, fun _ => trivial⟩
  have returned : Returns ((machine [.NormalJump suspending]).execute 5 .empty) start () _ _ _ := rfl
  have kept := suspension_rolled_back (.interpretInput rule 1 () emptyFifoBuffer [.NormalJump suspending]) (cons_ne_nil _ _)
    settles suspends returned
  exact ⟨_, _, returned, kept⟩

open RollbackExample in
/-- An alternative whose time has passed is put back without a time. -/
theorem due_alternative_untimed :
    (machine [.OnTimeJump (.Absolute 5) suspending]).Suspends 5 .empty start () ∧
      (∃ infos, Returns ((machine [.OnTimeJump (.Absolute 5) suspending]).execute 5 .empty) start ()
        [(⟨1, .SMSuspended, infos⟩, machine [.NormalJump suspending])] start ()) ∧
      ¬ List.Forall₂ (Jump.Fixed counting 10) [.OnTimeJump (.Absolute 5) suspending] [.NormalJump suspending] := by
  refine ⟨?_, ⟨_, rfl⟩, ?_⟩
  · intro applied between v tried
    cases tried
    intro results s' w' ran
    cases ran
    exact ⟨⟨_, _, rfl⟩, fun _ => trivial⟩
  · intro fixed
    cases fixed with
    | cons first => cases first

end Halon.Cep
