import Halon.Cep.Commands
import Halon.Proofs.CepForks

/-! Rules for reasoning about stacks of phases, from rules for each of their phases. -/

namespace Halon.Cep
open Library Stateful List
variable {app : Application} {s s' : EngineState app} {w w' : app.World}

variable {α : Type}

theorem exists_partner {β : Type} {related : α → β → Prop} {xs ys} (all : List.Forall₂ related xs ys) :
    ∀ y ∈ ys, ∃ x ∈ xs, related x y := by
  induction all with
  | nil => exact nofun
  | @cons first _ _ _ here _ ih =>
    intro y member
    rcases mem_cons.mp member with rfl | member
    · exact ⟨first, mem_cons_self, here⟩
    · obtain ⟨x, inside, there⟩ := ih y member
      exact ⟨x, mem_cons_of_mem _ inside, there⟩

/-- The phase that a jump of a program leads to, in a rule. What stands for no time leads there at once. -/
def Leads (rule : Rule app) (origin : Jump PhaseHandle) (jmp : Jump (Phase app)) : Prop :=
  ∃ target, rule.ps.lookup origin.value = some target ∧ jmp.value = target.value ∧
    (origin = .NormalJump origin.value → target = .NormalJump target.value → jmp = .NormalJump jmp.value)

def Resolved (rule : Rule app) (xs : List (Jump PhaseHandle)) (phs : Stack app) : Prop :=
  List.Forall₂ (Leads rule) xs phs

theorem jumpBaseOn_value {β : Type} (a : Jump α) (b : Jump β) : (jumpBaseOn a b).value = b.value := by
  cases a <;> cases b <;> rfl

theorem emit_normal {key} {emitted} (returned : Returns (jumpEmitTimeout key (.NormalJump a)) s w emitted s' w') :
    emitted = .NormalJump a := by
  obtain ⟨_, _, _, applied, returned⟩ := returns_bind.mp returned
  obtain ⟨rfl, rfl, rfl⟩ := returns_pure.mp applied
  exact (returns_pure.mp returned).1

theorem resolved_mapM (returned : Returns (xs.mapM fun jmp => do jumpEmitTimeout rule.key (← mkPhase rule jmp)) s w phs s' w') :
    Housekeeping s w s' w' ∧ Resolved rule xs phs := by
  induction xs generalizing s w phs with
  | nil =>
    obtain ⟨rfl, rfl, rfl⟩ := returns_mapM_nil.mp returned
    exact ⟨.refl _ _, .nil⟩
  | cons jmp xs ih =>
    obtain ⟨ph, _, _, _, first, later, rfl⟩ := returns_mapM_cons.mp returned
    obtain ⟨kept, resolved⟩ := ih later
    obtain ⟨target, _, _, found, emitted⟩ := returns_bind.mp first
    unfold mkPhase at found
    split at found
    next target there =>
      obtain ⟨rfl, rfl, rfl⟩ := returns_pure.mp found
      obtain ⟨emits, same⟩ := Housekeeping.jumpEmitTimeout emitted
      refine ⟨emits.trans kept, .cons ⟨target, there, same.trans (jumpBaseOn_value _ _), ?_⟩ resolved⟩
      intro now soon
      rw [now, soon] at emitted
      rw [emit_normal emitted]
      rfl
    next => exact absurd found not_returns_throw

/-- The machine that follows from a program that completed. -/
inductive Follows (rule : Rule app) (idm : Nat) (buffer : Buffer app.Payload) (l : app.LocalState) :
    List (Jump PhaseHandle) → SMState → SM app → Prop where
  | restart (start : Jump (Phase app)) (same : start.value = rule.startPhase.value) :
      Follows rule idm buffer l [] .SMFinished (.interpretInput rule idm rule.initialL buffer [start])
  | run {xs : List (Jump PhaseHandle)} {phs : Stack app} (some : xs ≠ []) (resolved : Resolved rule xs phs) :
      Follows rule idm buffer l xs .SMRunning (.interpretInput rule idm l buffer phs)

section
variable {rule : Rule app} {info : List (ExecutionInfo app.Payload) → List (ExecutionInfo app.Payload)} {b : Buffer app.Payload}
  {ph : Phase app} {suspended stopped : EngineM app (Machines app)}

theorem next_follows
    (returned : Returns (next rule info b ph suspended stopped (idm, buffer, .SM_Complete l xs)) s w machines s' w') :
    Housekeeping s w s' w' ∧ ∃ result sm, machines = [(result, sm)] ∧ Follows rule idm buffer l xs result.smResultState sm := by
  cases xs with
  | nil =>
    obtain ⟨_, emitted, rfl⟩ := returns_bind_pure.mp returned
    obtain ⟨kept, same⟩ := Housekeeping.jumpEmitTimeout emitted
    exact ⟨kept, _, _, rfl, .restart _ same⟩
  | cons =>
    obtain ⟨_, emitted, rfl⟩ := returns_bind_pure.mp returned
    obtain ⟨kept, resolved⟩ := resolved_mapM emitted
    exact ⟨kept, _, _, rfl, .run (cons_ne_nil _ _) resolved⟩

/-- A program that ran to its end, as the machine that follows from it. -/
def Completed (rule : Rule app) (finished : Finished app) (made : SMResult app.Payload × SM app) : Prop :=
  ∃ l xs, finished.2.2 = .SM_Complete l xs ∧ Follows rule finished.1 finished.2.1 l xs made.1.smResultState made.2

theorem mapM_completed (complete : ∀ finished ∈ results, finished.2.2.isComplete)
    (returned : Returns (results.mapM (next rule info b ph suspended stopped)) s w machines s' w') :
    Housekeeping s w s' w' ∧ List.Forall₂ (Completed rule) results machines.flatten := by
  induction results generalizing s w machines with
  | nil =>
    obtain ⟨rfl, rfl, rfl⟩ := returns_mapM_nil.mp returned
    exact ⟨.refl _ _, .nil⟩
  | cons finished _ ih =>
    obtain ⟨_, _, _, _, ran, later, rfl⟩ := returns_mapM_cons.mp returned
    obtain ⟨kept, others⟩ := ih (fun other member => complete other (mem_cons_of_mem _ member)) later
    have complete := complete finished mem_cons_self
    obtain ⟨idm, _, ⟨l, xs⟩ | _ | _⟩ := finished
    · obtain ⟨follows, _, sm, rfl, made⟩ := next_follows ran
      exact ⟨follows.trans kept, .cons ⟨l, xs, rfl, made⟩ others⟩
    · cases complete
    · cases complete

end

section
variable {fuel} {rule : Rule app} {subs smid} {l : app.LocalState} {b : Buffer app.Payload}
  {before : EngineState app → app.World → Prop} {after : Phase app → List (Finished app) → EngineState app → app.World → Prop}

/-- A phase is either suspended, and then the assertion still holds, or it completes together with the actions it forked. -/
def Tries (fuel : Nat) (subs : Subscribers) (smid : Nat) (l : app.LocalState) (b : Buffer app.Payload)
    (before : EngineState app → app.World → Prop) (after : Phase app → List (Finished app) → EngineState app → app.World → Prop)
    (ph : Phase app) : Prop :=
  ∀ ⦃s w results s' w'⦄, before s w → Returns (runPhase fuel subs smid l b ph) s w results s' w' →
    (∃ idm buffer, results = [(idm, buffer, .SM_Suspend)] ∧ before s' w') ∨
      (∀ finished ∈ results, finished.2.2.isComplete) ∧ after ph results s' w'

def Lasts (jmp back : Jump (Phase app)) : Prop := back.value = jmp.value ∧ (jmp = .NormalJump jmp.value → back = jmp)

/-- What a step of a stack leaves: the stack as it was, or the machines that follow from the phase that completed. -/
inductive Stepped (rule : Rule app) (smid : Nat) (l : app.LocalState) (b : Buffer app.Payload)
    (before : EngineState app → app.World → Prop) (after : Phase app → List (Finished app) → EngineState app → app.World → Prop)
    (stack : Stack app) (machines : Machines app) (s' : EngineState app) (w' : app.World) :
    Prop where
  | waits (infos : List (ExecutionInfo app.Payload)) (phs : Stack app) (lasts : List.Forall₂ Lasts stack phs)
      (here : machines = [(⟨smid, .SMSuspended, infos⟩, .interpretInput rule smid l b phs)]) (kept : before s' w')
  | moves (jmp : Jump (Phase app)) (member : jmp ∈ stack) (results : List (Finished app)) (between : EngineState app)
      (v : app.World)
      (done : after jmp.value results between v) (kept : Housekeeping between v s' w')
      (completed : List.Forall₂ (Completed rule) results machines)

theorem Lasts.refl (jmp : Jump (Phase app)) : Lasts jmp jmp := ⟨rfl, fun _ => rfl⟩

theorem Lasts.trans {a b c : Jump (Phase app)} (first : Lasts a b) (second : Lasts b c) : Lasts a c := by
  refine ⟨second.1.trans first.1, fun normal => ?_⟩
  have same := first.2 normal
  rw [same] at second
  exact second.2 normal

theorem jumpApplyTime_lasts (returned : Returns (jumpApplyTime key jmp) s w (.inl back) s' w') :
    Lasts jmp back := by
  refine ⟨(Housekeeping.jumpApplyTime returned).2, fun normal => ?_⟩
  rw [normal] at returned
  cases (returns_pure.mp returned).1

variable {stack tried phs : Stack app}

theorem lasts_replace (lasts : List.Forall₂ Lasts stack (tried ++ jmp :: phs)) (equal : Lasts jmp back) :
    List.Forall₂ Lasts stack (tried ++ back :: phs) := by
  induction tried generalizing stack with
  | nil =>
    obtain ⟨_, _, first, later, rfl⟩ := forall₂_cons_right_iff.mp lasts
    exact .cons (first.trans equal) later
  | cons _ _ ih =>
    obtain ⟨_, _, first, later, rfl⟩ := forall₂_cons_right_iff.mp lasts
    exact .cons first (ih later)

theorem executeStack_rest {f : Stack app → Stack app}
    {info : List (ExecutionInfo app.Payload) → List (ExecutionInfo app.Payload)}
    (time : ∀ {s w s' w'}, Housekeeping s w s' w' → before s w → before s' w')
    (tries : ∀ jmp ∈ phs, Tries fuel subs smid l b before after jmp.value) (form : f = (tried ++ ·))
    (lasts : List.Forall₂ Lasts stack (tried ++ phs)) (some : stack ≠ []) (part : ∀ jmp ∈ phs, jmp ∈ stack) (initial : before s w)
    (returned : Returns (executeStack fuel rule subs smid l b phs f info) s w machines s' w') :
    Stepped rule smid l b before after stack machines s' w' := by
  induction phs generalizing tried f info s w machines s' w' with
  | nil =>
    subst form
    unfold executeStack at returned
    split at returned
    next none =>
      rw [show tried ++ [] = [] from none] at lasts
      exact absurd (forall₂_nil_right_iff.mp lasts) some
    next =>
      obtain ⟨rfl, rfl, rfl⟩ := returns_pure.mp returned
      exact .waits _ _ lasts rfl initial
  | cons jmp phs ih =>
    rw [executeStack, returns_bind] at returned
    obtain ⟨applied, _, _, timed, returned⟩ := returned
    obtain ⟨kept, same⟩ := Housekeeping.jumpApplyTime timed
    have later := fun other member => tries other (mem_cons_of_mem jmp member)
    -- The phases that were tried stand before those that are left, in the order of the stack.
    have onwards (back : Jump (Phase app)) (equal : Lasts jmp back) {s s' : EngineState app} {w w' : app.World} {info machines}
        (holds : before s w)
        (returned : Returns (executeStack fuel rule subs smid l b phs (f ∘ (back :: ·)) info) s w machines s' w') :
        Stepped rule smid l b before after stack machines s' w' := by
      have form : f ∘ (back :: ·) = ((tried ++ [back]) ++ ·) := by
        funext rest
        simp [form]
      refine ih later form ?_ (fun other member => part other (mem_cons_of_mem jmp member)) holds returned
      rw [append_assoc]
      exact lasts_replace lasts equal
    cases applied with
    | inl nxt => exact onwards nxt (jumpApplyTime_lasts timed) (time kept initial) returned
    | inr ph =>
      obtain ⟨results, _, _, ran, returned⟩ := returns_bind.mp returned
      obtain ⟨parts, followed, rfl⟩ := returns_bind_pure.mp returned
      change ph = jmp.value at same
      subst same
      rcases tries jmp mem_cons_self (time kept initial) ran with ⟨idm, _, rfl, holds⟩ | ⟨complete, holds⟩
      · obtain ⟨part, _, _, rest, first, none, rfl⟩ := returns_mapM_cons.mp followed
        obtain ⟨rfl, rfl, rfl⟩ := returns_mapM_nil.mp none
        rw [flatten_cons, flatten_nil, append_nil]
        exact onwards (.NormalJump jmp.value) ⟨rfl, Eq.symm⟩ holds first
      · obtain ⟨kept, completed⟩ := mapM_completed complete followed
        exact .moves jmp (part jmp mem_cons_self) results _ _ holds kept completed

/-- The rule for stacks: what holds of each of the phases is said of the whole. -/
theorem executeStack_stepped (time : ∀ {s w s' w'}, Housekeeping s w s' w' → before s w → before s' w')
    (tries : ∀ jmp ∈ phs, Tries fuel subs smid l b before after jmp.value) (some : phs ≠ [])
    (initial : before s w) (returned : Returns (executeStack fuel rule subs smid l b phs id id) s w machines s' w') :
    Stepped rule smid l b before after phs machines s' w' := by
  have form : id = (([] : Stack app) ++ ·) := rfl
  have lasts : List.Forall₂ Lasts phs ([] ++ phs) := forall₂_same.mpr fun jmp _ => .refl jmp
  exact executeStack_rest time tries form lasts some (fun _ member => member) initial returned

end

theorem execute_bootstrap (returned : Returns ((SM.bootstrap rule b).execute fuel subs) s w machines s' w') :
    ∃ start smid between v, Housekeeping s w between v ∧ start.value = rule.startPhase.value ∧
      Returns ((SM.interpretInput rule smid rule.initialL b [start]).execute fuel subs) between v machines s' w' := by
  obtain ⟨start, _, _, emitted, returned⟩ := returns_bind.mp returned
  obtain ⟨smid, _, v, numbered, executed⟩ := returns_bind.mp returned
  obtain ⟨kept, same⟩ := Housekeeping.jumpEmitTimeout emitted
  obtain ⟨_, rfl, rfl⟩ := returns_nextSmId.mp numbered
  refine ⟨start, smid, _, _, ?_, same, executed⟩
  exact ⟨kept.global, kept.world⟩

end Halon.Cep
