import Halon.Cep.Engine

/-! Rules for programs. A program that returned is taken apart instruction by instruction, a phase
into the program that it runs, and a queue of programs into the first one and the rest. What the
engine does on its own leaves the global state alone. -/

namespace Halon.Cep
open Library Stateful
variable {app : Application} {s s' : EngineState app} {w w' : app.World}

theorem returns_nextSmId :
    Returns nextSmId s w smId s' w' ↔
      smId = s.engineStateMaxId ∧ s' = { s with engineStateMaxId := s.engineStateMaxId + 1 } ∧ w' = w := by
  simp only [nextSmId, returns_bind, returns_get, returns_modify, returns_pure]
  grind

theorem liftProcess_outcome (m : Process app.World app.Exception α) (w : app.World) :
    (liftProcess m).outcome w = match m.outcome w with
      | (.ok value, v) => (.ok value, v)
      | (.error e, v) => (.error (.thrown e), v) := rfl

theorem liftProcess_ok {α : Type} {m : Process app.World app.Exception α} {value} :
    (liftProcess m).outcome w = (.ok value, w') ↔ m.outcome w = (.ok value, w') := by
  rw [liftProcess_outcome]
  rcases m.outcome w with ⟨_ | _, v⟩ <;> simp

def notified (subs : Subscribers) (a : Message app.Payload) (w : app.World) : app.World :=
  ((subs.lookup a.fingerprint).getD .empty).elements.foldl (fun w pid => app.usend pid a w) w

theorem notifySubscribers_ok :
    (notifySubscribers subs a).outcome w = (.ok value, w') ↔ w' = notified subs a w := by
  have outcome : (notifySubscribers subs a).outcome w = (.ok (), notified subs a w) := rfl
  rw [outcome]
  simp [eq_comm]

namespace PhaseM
variable {subs : Subscribers} {mindex : Option Index} {l : app.LocalState} {buf : Buffer app.Payload} {result : Evaluation app}

@[simp] theorem returns_ret : Returns ((ret a).go subs mindex l buf) s w result s' w' ↔
    result = (((buf, .SM_Complete l []), []), some a) ∧ s' = s ∧ w' = w := returns_pure

@[simp] theorem returns_Continue : Returns ((Continue ph).go subs mindex l buf) s w result s' w' ↔
    result = (((buf, .SM_Complete l [ph]), []), none) ∧ s' = s ∧ w' = w := returns_pure

@[simp] theorem returns_Switch : Returns ((Switch xs).go subs mindex l buf) s w result s' w' ↔
    result = (((buf, .SM_Complete l xs), []), none) ∧ s' = s ∧ w' = w := returns_pure

@[simp] theorem returns_GetGlobal :
    Returns ((GetGlobal k).go subs mindex l buf) s w result s' w' ↔
      Returns ((k s.engineStateGlobal).go subs mindex l buf) s w result s' w' := returns_get_bind

@[simp] theorem returns_GetLocal :
    Returns ((GetLocal k).go subs mindex l buf) s w result s' w' ↔
    Returns ((k l).go subs mindex l buf) s w result s' w' := Iff.rfl

variable {k : PhaseM app}

@[simp] theorem returns_PutGlobal :
    Returns ((PutGlobal g k).go subs mindex l buf) s w result s' w' ↔
      Returns (k.go subs mindex l buf) { s with engineStateGlobal := g } w result s' w' := returns_modify_bind

@[simp] theorem returns_PutLocal :
    Returns ((PutLocal l' k).go subs mindex l buf) s w result s' w' ↔
    Returns (k.go subs mindex l' buf) s w result s' w' := Iff.rfl

@[simp] theorem returns_Lift {m k} :
    Returns ((Lift m k).go subs mindex l buf) s w result s' w' ↔
      ∃ a v, m.outcome w = (.ok a, v) ∧ Returns ((k a).go subs mindex l buf) s v result s' w' := by
  simp only [go, returns_bind, returns_lift, liftProcess_ok]
  grind

@[simp] theorem returns_Publish :
    Returns ((Publish e k).go subs mindex l buf) s w result s' w' ↔
      Returns (k.go subs mindex l buf) s (notified subs e w) result s' w' := by
  simp only [go, returns_bind, returns_lift, notifySubscribers_ok]
  grind

/-- The forked action starts where the program stood, with an id that is given out last. -/
@[simp] theorem returns_Fork :
    Returns ((Fork typ naction k).go subs mindex l buf) s w result s' w' ↔
      ∃ first between, Returns (k.go subs mindex l buf) s w first between w' ∧
        s' = { between with engineStateMaxId := between.engineStateMaxId + 1 } ∧
        result = ((first.1.1, ⟨between.engineStateMaxId, forkBuffer typ mindex buf, l, naction⟩ :: first.1.2), first.2) := by
  simp only [go, returns_bind, returns_nextSmId, returns_pure]
  constructor
  · rintro ⟨first, between, _, ran, _, _, _, ⟨rfl, rfl, rfl⟩, rfl, rfl, rfl⟩
    exact ⟨first, between, ran, rfl, rfl⟩
  · rintro ⟨first, between, ran, rfl, rfl⟩
    exact ⟨first, between, _, ran, _, _, _, ⟨rfl, rfl, rfl⟩, rfl, rfl, rfl⟩

@[simp] theorem returns_Stop : Returns ((Stop : PhaseM app).go subs mindex l buf) s w result s' w' ↔
    result = (((buf, .SM_Stop), []), none) ∧ s' = s ∧ w' = w := returns_pure

/-- A program under a handler up to where the rest takes over. When it ended the phase its buffer is not kept. -/
inductive Guards (subs : Subscribers) (mindex : Option Index) (f : PhaseM app) (caught : app.Exception → Bool)
    (h : app.Exception → PhaseM app) (l : app.LocalState) (buf : Buffer app.Payload) (s : EngineState app) (w : app.World) :
    Evaluation app → EngineState app → app.World → Prop where
  | body {buf' l' phs r between v}
      (ran : Returns (f.go subs mindex l buf) s w (((buf', .SM_Complete l' []), phs), some r) between v) :
      Guards subs mindex f caught h l buf s w (((buf', .SM_Complete l' []), phs), some r) between v
  | left {buf' out phs mr between v} (ran : Returns (f.go subs mindex l buf) s w (((buf', out), phs), mr) between v)
      (other : ∀ l' r, out = .SM_Complete l' [] → mr = some r → False) :
      Guards subs mindex f caught h l buf s w (((buf, out), phs), none) between v
  | handled {e v buf' l' xs phs r between v'} (failed : Fails (f.go subs mindex l buf) s w (.thrown e) v) (handles : caught e)
      (ran : Returns ((h e).go subs mindex l buf) s v (((buf', .SM_Complete l' xs), phs), some r) between v') :
      Guards subs mindex f caught h l buf s w (((buf', .SM_Complete l' []), phs), some r) between v'
  | gaveUp {e v buf' out phs mr between v'} (failed : Fails (f.go subs mindex l buf) s w (.thrown e) v) (handles : caught e)
      (ran : Returns ((h e).go subs mindex l buf) s v (((buf', out), phs), mr) between v')
      (other : ∀ l' xs r, out = .SM_Complete l' xs → mr = some r → False) :
      Guards subs mindex f caught h l buf s w (((buf', out), phs), none) between v'

theorem returns_Catch {f caught h next} :
    Returns ((Catch f caught h next).go subs mindex l buf) s w result s' w' ↔
      (∃ buf' l' phs r between v last, Guards subs mindex f caught h l buf s w
      (((buf', .SM_Complete l' []), phs), some r) between v ∧
        Returns ((next r).go subs mindex l' buf') between v last s' w' ∧ result = ((last.1.1, phs ++ last.1.2), last.2)) ∨
      ∃ out phs, Guards subs mindex f caught h l buf s w ((out, phs), none) s' w' ∧ result = ((out, phs), none) := by
  rw [go, returns_bind]
  constructor
  · intro returned
    obtain ⟨_, _, v, attempted, returned⟩ := returned
    rcases returns_attempt.mp attempted with ⟨⟨⟨⟨_, out⟩, phs⟩, mr⟩, rfl, ran⟩ | ⟨error, rfl, rfl, failed⟩
    · simp only at returned
      split at returned
      next =>
        simp only [returns_bind, returns_pure] at returned
        obtain ⟨last, _, _, further, rfl, rfl, rfl⟩ := returned
        exact .inl ⟨_, _, _, _, _, _, last, .body ran, further, rfl⟩
      next other =>
        obtain ⟨rfl, rfl, rfl⟩ := returns_pure.mp returned
        exact .inr ⟨_, _, .left ran other, rfl⟩
    · cases error with
      | thrown =>
        simp only at returned
        split at returned
        next handles =>
          obtain ⟨⟨⟨⟨_, out⟩, phs⟩, mr⟩, _, _, ran, returned⟩ := returns_bind.mp returned
          simp only at returned
          split at returned
          next =>
            simp only [returns_bind, returns_pure] at returned
            obtain ⟨last, _, _, further, rfl, rfl, rfl⟩ := returned
            exact .inl ⟨_, _, _, _, _, _, last, .handled failed handles ran, further, rfl⟩
          next other =>
            obtain ⟨rfl, rfl, rfl⟩ := returns_pure.mp returned
            exact .inr ⟨_, _, .gaveUp failed handles ran other, rfl⟩
        next => exact absurd returned not_returns_throw
      | _ => exact absurd returned not_returns_throw
  · rintro (⟨buf', l', phs, r, between, v, last, guards, further, rfl⟩ | ⟨out, phs, guards, rfl⟩)
    · cases guards with
      | body ran =>
        refine ⟨_, _, _, returns_attempt.mpr (.inl ⟨_, rfl, ran⟩), ?_⟩
        exact returns_bind.mpr ⟨last, _, _, further, returns_pure.mpr ⟨rfl, rfl, rfl⟩⟩
      | handled failed handles ran =>
        refine ⟨_, _, _, returns_attempt.mpr (.inr ⟨_, rfl, rfl, failed⟩), ?_⟩
        dsimp only
        rw [if_pos handles, returns_bind]
        exact ⟨_, _, _, ran, returns_bind.mpr ⟨last, _, _, further, returns_pure.mpr ⟨rfl, rfl, rfl⟩⟩⟩
    · cases guards with
      | left ran other =>
        refine ⟨_, _, _, returns_attempt.mpr (.inl ⟨_, rfl, ran⟩), ?_⟩
        dsimp only
        split
        next l' r => exact (other l' r rfl rfl).elim
        next => exact returns_pure.mpr ⟨rfl, rfl, rfl⟩
      | gaveUp failed handles ran other =>
        refine ⟨_, _, _, returns_attempt.mpr (.inr ⟨_, rfl, rfl, failed⟩), ?_⟩
        dsimp only
        rw [if_pos handles, returns_bind]
        refine ⟨_, _, _, ran, ?_⟩
        dsimp only
        split
        next l' xs r => exact (other l' xs r rfl rfl).elim
        next => exact returns_pure.mpr ⟨rfl, rfl, rfl⟩

end PhaseM

/-- A property of the world that passing time and sending to subscribers keep. -/
structure Blind (kept : app.World → Prop) : Prop where
  time : ∀ w, kept w → kept (app.getTime w).2
  send : ∀ pid a w, kept w → kept (app.usend pid a w)

theorem Blind.notified (blind : Blind kept) (subs : Subscribers) (a : Message app.Payload)
    (initial : kept w) : kept (notified subs a w) := by
  unfold Cep.notified
  generalize ((subs.lookup a.fingerprint).getD .empty).elements = pids
  induction pids generalizing w with
  | nil => exact initial
  | cons pid pids ih => exact ih (blind.send pid a w initial)

/-- What the engine did on its own. -/
structure Housekeeping (s : EngineState app) (w : app.World) (s' : EngineState app) (w' : app.World) : Prop where
  global : s'.engineStateGlobal = s.engineStateGlobal
  world : ∀ kept : app.World → Prop, Blind kept → kept w → kept w'

namespace Housekeeping
variable {s'' : EngineState app} {w'' : app.World} {key : RuleKey} {α : Type}

theorem refl (s : EngineState app) (w : app.World) : Housekeeping s w s w := ⟨rfl, fun _ _ kept => kept⟩

theorem trans (first : Housekeeping s w s' w') (second : Housekeeping s' w' s'' w'') : Housekeeping s w s'' w'' :=
  ⟨second.global.trans first.global, fun kept blind initial => second.world kept blind (first.world kept blind initial)⟩

theorem addEvent (returned : Returns (addEvent key t) s w t' s' w') : Housekeeping s w s' w' := by
  simp only [Cep.addEvent, returns_bind, returns_lift, returns_modify, returns_pure] at returned
  obtain ⟨_, _, _, ⟨due, rfl⟩, _, _, _, ⟨rfl, rfl⟩, _, rfl, rfl⟩ := returned
  refine ⟨rfl, fun kept blind initial => ?_⟩
  cases t with
  | Absolute =>
    cases due
    exact initial
  | Relative =>
    cases due
    exact blind.time _ initial

theorem jumpApplyTime (returned : Returns (jumpApplyTime key jmp) s w applied s' w') :
    Housekeeping s w s' w' ∧ applied.elim Jump.value id = jmp.value := by
  cases jmp with
  | NormalJump =>
    obtain ⟨rfl, rfl, rfl⟩ := returns_pure.mp returned
    exact ⟨refl _ _, rfl⟩
  | OnTimeJump p =>
    rw [Cep.jumpApplyTime, returns_get_bind] at returned
    cases p with
    | Absolute =>
      dsimp only at returned
      split at returned
      next =>
        obtain ⟨_, added, rfl⟩ := returns_bind_pure.mp returned
        exact ⟨addEvent added, rfl⟩
      next =>
        obtain ⟨rfl, rfl, rfl⟩ := returns_pure.mp returned
        exact ⟨refl _ _, rfl⟩
    | Relative =>
      obtain ⟨_, added, rfl⟩ := returns_bind_pure.mp returned
      exact ⟨addEvent added, rfl⟩

theorem jumpEmitTimeout (returned : Returns (jumpEmitTimeout key jmp) s w emitted s' w') :
    Housekeeping s w s' w' ∧ emitted.value = jmp.value := by
  obtain ⟨applied, _, _, first, returned⟩ := returns_bind.mp returned
  obtain ⟨kept, same⟩ := jumpApplyTime first
  rcases applied with (a | ⟨t, a⟩) | a
  · obtain ⟨rfl, rfl, rfl⟩ := returns_pure.mp returned
    exact ⟨kept, same⟩
  · obtain ⟨_, added, rfl⟩ := returns_bind_pure.mp returned
    exact ⟨kept.trans (addEvent added), same⟩
  · obtain ⟨rfl, rfl, rfl⟩ := returns_pure.mp returned
    exact ⟨kept, same⟩

theorem notify {a : Message app.Payload}
    (returned : Returns (liftM (notifySubscribers subs a) : EngineM app Unit) s w value s' w') : Housekeeping s w s' w' := by
  obtain ⟨sent, rfl⟩ := returns_lift.mp returned
  rw [notifySubscribers_ok.mp sent]
  exact ⟨rfl, fun _ blind initial => blind.notified subs a initial⟩

end Housekeeping

variable {subs : Subscribers} {mindex : Option Index} {fuel idm : Nat} {l : app.LocalState} {buf : Buffer app.Payload}

theorem extractMatchMsg_same (returned : Returns (extractMatchMsg.go type p l buf left idx) s w found s' w') :
    s' = s := by
  induction left generalizing idx w with
  | zero => exact (returns_pure.mp returned).2.1
  | succ left ih =>
    unfold extractMatchMsg.go at returned
    split at returned
    next =>
      obtain ⟨_, between, _, attempted, returned⟩ := returns_bind.mp (returns_get_bind.mp returned)
      have same : between = s := by
        rcases returns_attempt.mp attempted with ⟨_, _, lifted⟩ | ⟨_, _, same, _⟩
        · exact (returns_lift.mp lifted).2
        · exact same
      rw [same] at returned
      split at returned
      next => exact (returns_pure.mp returned).2.1
      next => exact ih returned
      next => exact (returns_pure.mp returned).2.1
    next => exact (returns_pure.mp returned).2.1

theorem extractMsg_same (returned : Returns (extractMsg typ l buf) s w found s' w') : s' = s := by
  cases typ with
  | PhaseMatch => exact extractMatchMsg_same returned
  | PhaseNone | PhaseSeq => exact (returns_pure.mp returned).2.1

/-- A program of the phase that is run, with the buffer that is left to it and the world in which it starts. -/
inductive Phase.Picks (ph : Phase app) (l : app.LocalState) (buf : Buffer app.Payload) (s : EngineState app) (w : app.World) :
    PhaseM app → Option Index → Buffer app.Payload → app.World → Prop where
  | direct (call : ph.phCall = .DirectCall action) : Picks ph l buf s w action none buf w
  | found
      (call : ph.phCall = .ContCall typ k) (extracts : Returns (extractMsg typ l buf) s w (some extraction) s v) :
      Picks ph l buf s w (k extraction.extractMsg) (some extraction.extractIndex) extraction.extractBuf v

variable {results : List (Finished app)}

theorem forM_notify {b : Message app.Payload} (returned : Returns (results.forM fun finished =>
      if finished.2.2.isComplete then liftM (notifySubscribers subs b) else pure () : EngineM app PUnit) s w value s' w') :
    s' = s ∧ Housekeeping s w s' w' := by
  induction results generalizing s w with
  | nil =>
    obtain ⟨rfl, rfl, rfl⟩ := returns_pure.mp returned
    exact ⟨rfl, .refl _ _⟩
  | cons _ _ ih =>
    obtain ⟨_, _, _, first, later⟩ := returns_bind.mp returned
    dsimp only at first
    split at first
    next =>
      have here := Housekeeping.notify first
      obtain ⟨_, rfl⟩ := returns_lift.mp first
      exact ⟨(ih later).1, here.trans (ih later).2⟩
    next =>
      obtain ⟨_, rfl, rfl⟩ := returns_pure.mp first
      exact ih later

theorem runPhase_picks (returned : Returns (runPhase fuel subs idm l buf ph) s w results s' w') :
    (∃ typ k, ph.phCall = .ContCall typ k ∧ Returns (extractMsg typ l buf) s w none s w' ∧
      results = [(idm, buf, .SM_Suspend)] ∧ s' = s) ∨
    ∃ action mindex rest v v', ph.Picks l buf s w action mindex rest v ∧
      Returns (runPhaseM fuel subs idm l mindex rest action) s v results s' v' ∧ Housekeeping s' v' s' w' := by
  unfold runPhase at returned
  split at returned
  next call => exact .inr ⟨_, _, _, _, _, .direct call, returned, .refl _ _⟩
  next typ k call =>
    obtain ⟨_, _, _, extracts, returned⟩ := returns_bind.mp returned
    cases extractMsg_same extracts
    split at returned
    next =>
      simp only [returns_bind, returns_pure] at returned
      obtain ⟨_, _, _, ran, _, _, _, notifies, rfl, rfl, rfl⟩ := returned
      obtain ⟨rfl, kept⟩ := forM_notify notifies
      exact .inr ⟨_, _, _, _, _, .found call extracts, ran, kept⟩
    next =>
      obtain ⟨rfl, rfl, rfl⟩ := returns_pure.mp returned
      exact .inl ⟨typ, k, call, extracts, rfl, rfl⟩

theorem returns_reverseOn {α : Type} {p : α → Bool} {f x} (returned : Returns (reverseOn p f) s w x s' w') :
    ∃ between, Returns f s w x between w' ∧
      s' = if p x then between else { between with engineStateGlobal := s.engineStateGlobal } := by
  simp only [reverseOn, returns_bind, returns_get] at returned
  obtain ⟨_, _, _, ⟨rfl, rfl, rfl⟩, _, _, _, first, returned⟩ := returned
  split at returned
  next complete =>
    obtain ⟨rfl, rfl, rfl⟩ := returns_pure.mp returned
    exact ⟨_, first, (if_pos complete).symm⟩
  next incomplete =>
    obtain ⟨_, _, _, ⟨rfl, rfl⟩, rfl, rfl, rfl⟩ := returned
    exact ⟨_, first, (if_neg incomplete).symm⟩

theorem consume_first (returned : Returns (consume subs mindex fuel (forked :: queue)) s w results s' w') :
    ∃ left evaluation between v rest, Returns (forked.action.go subs mindex forked.l forked.buffer) s w evaluation between v ∧
      Returns (consume subs mindex left (queue ++ evaluation.1.2))
        (if evaluation.1.1.2.isComplete then between else { between with engineStateGlobal := s.engineStateGlobal }) v
        rest s' w' ∧
      results = (forked.smId, evaluation.1.1) :: rest := by
  cases fuel with
  | zero => exact absurd returned not_returns_throw
  | succ fuel =>
    simp only [consume, returns_bind, returns_pure] at returned
    obtain ⟨evaluation, _, _, first, rest, _, _, later, rfl, rfl, rfl⟩ := returned
    obtain ⟨between, ran, rfl⟩ := returns_reverseOn first
    exact ⟨fuel, evaluation, between, _, rest, ran, later, rfl⟩

theorem consume_none (returned : Returns (consume subs mindex fuel []) s w results s' w') : results = [] ∧ s' = s ∧ w' = w := by
  unfold consume at returned
  exact returns_pure.mp returned

/-- The rule for a queue of programs: a program that was run, and the rest with those that it forked. -/
@[elab_as_elim]
theorem consume_rule {P : List (Forked app) → EngineState app → List (Finished app) → EngineState app → Prop}
    (none : ∀ s, P [] s [] s)
    (first : ∀ {forked queue s w evaluation between v rest s'},
      Returns (forked.action.go subs mindex forked.l forked.buffer) s w evaluation between v →
      P (queue ++ evaluation.1.2)
        (if evaluation.1.1.2.isComplete then between else { between with engineStateGlobal := s.engineStateGlobal }) rest s' →
      P (forked :: queue) s ((forked.smId, evaluation.1.1) :: rest) s')
    (returned : Returns (consume subs mindex fuel queue) s w results s' w') : P queue s results s' := by
  induction fuel generalizing queue s w results with
  | zero =>
    cases queue with
    | nil =>
      obtain ⟨rfl, rfl, rfl⟩ := consume_none returned
      exact none _
    | cons => exact absurd returned not_returns_throw
  | succ fuel ih =>
    cases queue with
    | nil =>
      obtain ⟨rfl, rfl, rfl⟩ := consume_none returned
      exact none _
    | cons =>
      simp only [consume, returns_bind, returns_pure] at returned
      obtain ⟨_, _, _, reverted, _, _, _, later, rfl, rfl, rfl⟩ := returned
      obtain ⟨_, ran, rfl⟩ := returns_reverseOn reverted
      exact first ran (ih later)

theorem runPhaseM_alone
    (forkless : ∀ {evaluation between v}, Returns (action.go subs mindex l buf) s w evaluation between v → evaluation.1.2 = [])
    (returned : Returns (runPhaseM fuel subs idm l mindex buf action) s w results s' w') :
    ∃ evaluation between, Returns (action.go subs mindex l buf) s w evaluation between w' ∧ results = [(idm, evaluation.1.1)] ∧
      s' = if evaluation.1.1.2.isComplete then between else { between with engineStateGlobal := s.engineStateGlobal } := by
  obtain ⟨_, evaluation, between, _, _, ran, later, rfl⟩ := consume_first returned
  have none := forkless ran
  rw [none, List.nil_append] at later
  obtain ⟨rfl, rfl, rfl⟩ := consume_none later
  exact ⟨evaluation, between, ran, rfl, rfl⟩

end Halon.Cep
