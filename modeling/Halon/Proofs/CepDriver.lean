import Halon.Proofs.CepDelivery

/-! The driver over whole runs. What was received and not delivered yet is kept in the
order in which it came, as long as the init rule ends where the driver looks for it. -/

namespace Halon.Cep
open Library List Option
variable {app : Application} {st : Machine app}

/-- Delivered and waiting messages are those received, in their order, and each was delivered as it should be. -/
structure Balanced (st : Machine app) (log : List (Event app)) (pending : List (Request app.Payload)) : Prop where
  order : log.filterMap (Event.delivered st) ++ pending.filterMap st.declared =
    (log.filterMap Event.received).filterMap st.declared
  proper : ∀ event ∈ log, event.Proper st

namespace Balanced
variable {log : List (Event app)} {pending : List (Request app.Payload)} {msg : AcceptedMsg app.Payload}
    {req : Request app.Payload}
  {before after : Engine app}

theorem nil : Balanced st [] [] := ⟨rfl, fun _ member => absurd member not_mem_nil⟩

private theorem proper_snoc (balanced : Balanced st log pending) (last : event.Proper st) :
    ∀ e ∈ log ++ [event], e.Proper st := by
  intro e member
  rcases mem_append.mp member with earlier | new
  · exact balanced.proper e earlier
  · rw [mem_singleton.mp new]
    exact last

theorem took (balanced : Balanced st log pending) (carries : msg.message = some req) :
    Balanced st (log ++ [.took msg]) (pending ++ [req]) where
  order := by
    have delivered : Event.delivered st (.took msg) = none := rfl
    have received : Event.received (.took msg) = some req := carries
    simp only [filterMap_append, filterMap_cons, filterMap_nil, delivered, received, append_nil,
      ← balanced.order, append_assoc]
  proper := balanced.proper_snoc trivial

theorem took_other (balanced : Balanced st log pending) (technical : msg.message = none) :
    Balanced st (log ++ [.took msg]) pending where
  order := by
    have delivered : Event.delivered st (.took msg) = none := rfl
    have received : Event.received (.took msg) = none := technical
    simp only [filterMap_append, filterMap_cons, filterMap_nil, delivered, received, append_nil, balanced.order]
  proper := balanced.proper_snoc trivial

theorem asked_other (balanced : Balanced st log pending) (silent : Event.delivered st (.asked before req after) = none)
    (proper : Event.Proper st (.asked before req after)) : Balanced st (log ++ [.asked before req after]) pending where
  order := by
    have received : Event.received (.asked before req after) = none := rfl
    simp only [filterMap_append, filterMap_cons, filterMap_nil, silent, received, append_nil, balanced.order]
  proper := balanced.proper_snoc proper

theorem asked_next (balanced : Balanced st log (req :: pending)) (proper : Event.Proper st (.asked (.cepCruise m) req after)) :
    Balanced st (log ++ [.asked (.cepCruise m) req after]) pending where
  order := by
    have received : Event.received (.asked (.cepCruise m) req after) = none := rfl
    have delivered : Event.delivered st (.asked (.cepCruise m) req after) = st.declared req := rfl
    have order := balanced.order
    simp only [filterMap_append, filterMap_cons, filterMap_nil, received, append_nil, ← order, delivered]
    cases st.declared req <;> simp
  proper := balanced.proper_snoc proper

end Balanced

section
variable {α β : Type} {log log' : List (Event app)}

theorem run_bind {f : α → DriverM app β} :
    (x >>= f) log = some (b, log') ↔ ∃ a between, x log = some (a, between) ∧ f a between = some (b, log') := by
  change ((x log).bind fun pair => f pair.1 pair.2) = _ ↔ _
  rw [bind_eq_some_iff]
  constructor
  · rintro ⟨⟨a, between⟩, first, rest⟩
    exact ⟨a, between, first, rest⟩
  · rintro ⟨a, between, first, rest⟩
    exact ⟨(a, between), first, rest⟩

theorem run_pure : (pure a : DriverM app α) log = some (b, log') ↔ b = a ∧ log' = log := by
  change some (a, log) = some (b, log') ↔ _
  simp [eq_comm]

theorem run_stepForward :
    stepForward req m eng log = some (result, log') ↔
      (∃ w', (eng.stepForward m.fuel req).outcome m.world = (.ok result, w')) ∧ log' = log ++ [.asked eng req result.2] := by
  unfold stepForward
  split
  next w' ok =>
    simp only [ok, Option.some.injEq, Prod.mk.injEq, Except.ok.injEq]
    constructor
    · rintro ⟨rfl, rfl⟩
      exact ⟨⟨w', rfl, rfl⟩, rfl⟩
    · rintro ⟨⟨_, rfl, _⟩, rfl⟩
      exact ⟨rfl, rfl⟩
  next failed => simp [failed]

theorem run_receiveTimeout :
    receiveTimeout o log = some (received, log') ↔ received = o.received ∧ log' = log ++ o.received.toList.map Event.took := by
  unfold receiveTimeout
  cases o.received <;> simp [eq_comm]

theorem run_receiveWait :
    receiveWait o log = some (msg, log') ↔ o.received = some msg ∧ log' = log ++ [.took msg] := by
  unfold receiveWait
  rw [run_bind]
  constructor
  · rintro ⟨received, between, taken, rest⟩
    obtain ⟨rfl, rfl⟩ := run_receiveTimeout.mp taken
    cases found : o.received with
    | none =>
      rw [found] at rest
      cases rest
    | some =>
      rw [found] at rest
      obtain ⟨rfl, rfl⟩ := run_pure.mp rest
      exact ⟨rfl, rfl⟩
  · rintro ⟨found, rfl⟩
    refine ⟨some msg, _, run_receiveTimeout.mpr ⟨found.symm, rfl⟩, ?_⟩
    rw [found]
    rfl

variable {req : Request app.Payload} {mo : Moment app} {m : Machine app} {ir : InitRule app}
    {result : Response app.Payload × Engine app}

theorem ask_cruise (filled : st.Filled) (equipped : st.Equipped true m)
    (ok : stepForward req mo (.cepCruise m) log = some (result, log')) :
    ∃ m', result.2 = .cepCruise m' ∧ st.Equipped true m' ∧
      (∀ pending, Balanced st log (req :: pending) → Balanced st log' pending) ∧
      (st.declared req = none → ∀ pending, Balanced st log pending → Balanced st log' pending) := by
  obtain ⟨⟨w', handled⟩, rfl⟩ := run_stepForward.mp ok
  obtain ⟨⟨m', same, equipped'⟩, proper⟩ := Engine.cruise_fits filled equipped handled
  exact ⟨m', same, equipped', fun _ balanced => balanced.asked_next proper, fun silent _ balanced =>
    balanced.asked_other silent proper⟩

theorem ask_init (equipped : st.Equipped false m) (ok : stepForward req mo (.cepInitRule ir m) log = some (result, log')) :
    result.2.Fits st ∧ (∀ pending, Balanced st log pending → Balanced st log' pending) ∧
      (req ≠ .Tick → ∃ ir' m', result.2 = .cepInitRule ir' m' ∧ st.Equipped false m') ∧
      (result.1.ignored = true → ir.uses m req = false ∧ result.2 = .cepInitRule ir m) := by
  obtain ⟨⟨w', handled⟩, rfl⟩ := run_stepForward.mp ok
  obtain ⟨fits, proper, running, ignored⟩ := Engine.init_fits equipped handled
  refine ⟨fits, fun _ balanced => balanced.asked_other rfl proper, ?_, ignored⟩
  intro message
  obtain ⟨ir', m', same⟩ := running message
  rw [same] at fits
  exact ⟨ir', m', same, fits⟩

theorem ask_silent (filled : st.Filled) (fits : eng.Fits st) (silent : st.declared req = none)
    (ok : stepForward req mo eng log = some (result, log')) :
    result.2.Fits st ∧ ∀ pending, Balanced st log pending → Balanced st log' pending := by
  cases eng with
  | cepInitRule =>
    obtain ⟨fits', kept, _, _⟩ := ask_init fits ok
    exact ⟨fits', kept⟩
  | cepCruise =>
    obtain ⟨m', same, equipped, _, other⟩ := ask_cruise filled fits ok
    rw [same]
    exact ⟨equipped, other silent⟩

end

namespace Driver

def pending : Driver app → List (Request app.Payload)
  | .bootstrap ms _ _ => ms.reverse
  | .forwardLeftOvers _ xs => xs
  | .cruise _ => []

/-- The init rule runs as long as the driver waits for its end, and not any more after. -/
def Sound (st : Machine app) : Driver app → Prop
  | .bootstrap ms loop eng => eng.Fits st ∧ 0 < loop ∧ (loop = 1 → ms = []) ∧ (loop ≠ 1 → ∃ ir m, eng = .cepInitRule ir m)
  | .forwardLeftOvers eng _ => ∃ m, eng = .cepCruise m ∧ st.Equipped true m
  | .cruise eng => ∃ m, eng = .cepCruise m ∧ st.Equipped true m

def endsInit (eng : Engine app) (m : Moment app) : Bool :=
  match (eng.stepForward m.fuel .Tick).outcome m.world with
  | (.ok (_, nxt_eng), _) => nxt_eng.initRulePassed
  | (.error _, _) => false

/-- When a message comes that the init rule does not use, the tick after it does not end the init rule. -/
def Waits (s : Recorded app) (o : Occasion app) : Prop :=
  match s.1 with
  | .bootstrap _ loop (.cepInitRule ir st) =>
    loop ≠ 1 → ∀ msg ∈ o.received, ∀ req ∈ msg.message, ir.uses st req = false → endsInit (.cepInitRule ir st) o.second = false
  | _ => True

instance (s : Recorded app) (o : Occasion app) : Decidable (Waits s o) := by
  unfold Waits
  split <;> infer_instance

variable {d d' : Driver app} {log log' : List (Event app)} {o : Occasion app}

theorem go_sound (filled : st.Filled)
    (outer : st.Equipped true m) (inner : st.Equipped true n) (balanced : Balanced st log (msg.bind AcceptedMsg.message).toList)
    (moves : cruise.go (.cepCruise m) (.cepCruise n) mo msg log = some (d', log')) : d'.Sound st ∧
    Balanced st log' d'.pending := by
  have asks {req : Request app.Payload}
    (handles : ∀ between result, stepForward req mo (.cepCruise n) log = some (result, between) →
        Balanced st between [])
      (moves : (do let asked ← stepForward req mo (.cepCruise n); pure (.cruise asked.2) : DriverM app (Driver app)) log =
        some (d', log')) : d'.Sound st ∧ Balanced st log' d'.pending := by
    obtain ⟨_, _, asked, rest⟩ := run_bind.mp moves
    obtain ⟨rfl, rfl⟩ := run_pure.mp rest
    obtain ⟨m', same, equipped, _, _⟩ := ask_cruise filled inner asked
    exact ⟨⟨m', same, equipped⟩, handles _ _ asked⟩
  have delivers {req : Request app.Payload} (carried : (msg.bind AcceptedMsg.message) = some req) (between) (result)
      (asked : stepForward req mo (.cepCruise n) log = some (result, between)) : Balanced st between [] := by
    rw [carried] at balanced
    obtain ⟨_, _, _, next, _⟩ := ask_cruise filled inner asked
    exact next [] balanced
  have passes {req : Request app.Payload} (technical : (msg.bind AcceptedMsg.message) = none)
    (silent : st.declared req = none) (between)
      (result) (asked : stepForward req mo (.cepCruise n) log = some (result, between)) : Balanced st between [] := by
    rw [technical] at balanced
    obtain ⟨_, _, _, _, other⟩ := ask_cruise filled inner asked
    exact other silent [] balanced
  unfold cruise.go at moves
  split at moves
  next =>
    obtain ⟨rfl, rfl⟩ := run_pure.mp moves
    exact ⟨⟨m, rfl, outer⟩, balanced⟩
  next => exact asks (passes rfl rfl) moves
  next => exact asks (passes rfl rfl) moves
  next => exact asks (delivers rfl) moves
  next => exact asks (delivers rfl) moves
  next => exact asks (passes rfl rfl) moves

variable {eng : Engine app}

theorem cruise_sound (filled : st.Filled) (sound : (cruise eng).Sound st) (balanced : Balanced st log [])
    (moves : (cruise eng).iterate o log = some (d', log')) : d'.Sound st ∧ Balanced st log' d'.pending := by
  obtain ⟨m, rfl, equipped⟩ := sound
  have taken {between : List (Event app)} (balanced : Balanced st between []) :
      Balanced st (between ++ o.received.toList.map Event.took) (o.received.bind AcceptedMsg.message).toList := by
    cases o.received with
    | none => simpa using balanced
    | some msg =>
      cases carries : msg.message with
      | none => simpa [carries] using balanced.took_other carries
      | some => simpa [carries] using balanced.took carries
  obtain ⟨⟨c, _⟩, _, asked, moves⟩ := run_bind.mp moves
  obtain ⟨m', rfl, equipped', _, other⟩ := ask_cruise filled equipped asked
  have timed := other rfl [] balanced
  dsimp only at moves
  split at moves
  next =>
    obtain ⟨msg, _, received, moves⟩ := run_bind.mp moves
    obtain ⟨rfl, rfl⟩ := run_receiveTimeout.mp received
    exact go_sound filled equipped equipped' (taken timed) moves
  next =>
    split at moves
    next =>
      obtain ⟨rfl, rfl⟩ := run_pure.mp moves
      exact ⟨⟨m', rfl, equipped'⟩, timed⟩
    next =>
      cases event : (Engine.cepCruise m).nextEvent with
      | none =>
        rw [event] at moves
        obtain ⟨msg, _, received, moves⟩ := run_bind.mp moves
        obtain ⟨found, rfl⟩ := run_receiveWait.mp received
        have waiting := taken timed
        rw [found] at waiting
        exact go_sound filled equipped equipped waiting moves
      | some _ =>
        rw [event] at moves
        obtain ⟨msg, _, received, moves⟩ := run_bind.mp moves
        obtain ⟨rfl, rfl⟩ := run_receiveTimeout.mp received
        have waiting := taken timed
        cases found : o.received with
        | none =>
          rw [found] at moves waiting
          obtain ⟨_, _, again, moves⟩ := run_bind.mp moves
          obtain ⟨rfl, rfl⟩ := run_pure.mp moves
          obtain ⟨m'', same, equipped'', _, other⟩ := ask_cruise filled equipped again
          exact ⟨⟨m'', same, equipped''⟩, other rfl [] waiting⟩
        | some =>
          rw [found] at moves waiting
          exact go_sound filled equipped equipped waiting moves

theorem forward_sound (filled : st.Filled) (sound : (forwardLeftOvers eng xs).Sound st)
    (balanced : Balanced st log xs) (moves : (forwardLeftOvers eng xs).iterate o log = some (d', log')) :
    d'.Sound st ∧ Balanced st log' d'.pending := by
  obtain ⟨m, rfl, equipped⟩ := sound
  cases xs with
  | nil =>
    obtain ⟨_, _, asked, moves⟩ := run_bind.mp moves
    obtain ⟨rfl, rfl⟩ := run_pure.mp moves
    obtain ⟨m', same, equipped', _, other⟩ := ask_cruise filled equipped asked
    exact ⟨⟨m', same, equipped'⟩, other rfl [] balanced⟩
  | cons x xs =>
    obtain ⟨_, _, asked, moves⟩ := run_bind.mp moves
    obtain ⟨rfl, rfl⟩ := run_pure.mp moves
    obtain ⟨m', same, equipped', next, _⟩ := ask_cruise filled equipped asked
    exact ⟨⟨m', same, equipped'⟩, next xs balanced⟩

private theorem still_running (fits : eng.Fits st) (waiting : eng.initRulePassed = false) : ∃ ir m, eng = .cepInitRule ir m := by
  cases eng with
  | cepInitRule ir m => exact ⟨ir, m, rfl⟩
  | cepCruise m =>
    rw [fits.passed_iff.mpr ⟨m, rfl⟩] at waiting
    cases waiting

theorem feed_sound (equipped : st.Equipped false m) (message : req ≠ .Tick) (balanced : Balanced st log (ms.reverse ++ [req]))
    (waits : ir.uses m req = false → endsInit (.cepInitRule ir m) o.second = false) (positive : 0 < loop)
    (moves : bootstrap.feed ms loop (.cepInitRule ir m) o req log = some (d', log')) : d'.Sound st ∧
    Balanced st log' d'.pending := by
  obtain ⟨⟨ri, _⟩, _, asked, moves⟩ := run_bind.mp moves
  obtain ⟨_, kept, running, ignored⟩ := ask_init equipped asked
  obtain ⟨ir', m', rfl, equipped'⟩ := running message
  obtain ⟨⟨_, eng⟩, after, ticked, moves⟩ := run_bind.mp moves
  obtain ⟨fits, kept', _, _⟩ := ask_init equipped' ticked
  have balanced' : Balanced st after (req :: ms).reverse := by
    rw [reverse_cons]
    exact kept' _ (kept _ balanced)
  have stays (waiting : eng.initRulePassed = false) : (Driver.bootstrap (req :: ms) (loop + 1) eng).Sound st :=
    ⟨fits, Nat.succ_pos loop, by omega, fun _ => still_running fits waiting⟩
  dsimp only at moves
  split at moves
  next unseen =>
    obtain ⟨rfl, rfl⟩ := run_pure.mp moves
    obtain ⟨unused, same⟩ := ignored unseen
    cases same
    obtain ⟨⟨w', ok⟩, _⟩ := run_stepForward.mp ticked
    have waiting := waits unused
    simp only [endsInit, ok] at waiting
    exact ⟨stays waiting, balanced'⟩
  next =>
    split at moves
    next done =>
      obtain ⟨rfl, rfl⟩ := run_pure.mp moves
      obtain ⟨n, rfl⟩ := fits.passed_iff.mp done
      exact ⟨⟨n, rfl, fits⟩, balanced'⟩
    next waiting =>
      obtain ⟨rfl, rfl⟩ := run_pure.mp moves
      exact ⟨stays (Bool.eq_false_iff.mpr waiting), balanced'⟩

theorem bootstrap_sound (filled : st.Filled) (sound : (bootstrap ms loop eng).Sound st)
    (balanced : Balanced st log ms.reverse) (waits : Waits (bootstrap ms loop eng, log) o)
    (moves : (bootstrap ms loop eng).iterate o log = some (d', log')) : d'.Sound st ∧ Balanced st log' d'.pending := by
  obtain ⟨fits, _, fresh, running⟩ := sound
  by_cases first : loop = 1
  · subst first
    obtain rfl := fresh rfl
    obtain ⟨⟨_, _⟩, _, ticked, moves⟩ := run_bind.mp moves
    obtain ⟨fits', kept⟩ := ask_silent filled fits rfl ticked
    dsimp only at moves fits'
    split at moves
    next done =>
      obtain ⟨m, rfl⟩ := fits'.passed_iff.mp done
      obtain ⟨_, _, asked, moves⟩ := run_bind.mp moves
      obtain ⟨rfl, rfl⟩ := run_pure.mp moves
      obtain ⟨m', same, equipped, _, other⟩ := ask_cruise filled fits' asked
      exact ⟨⟨m', same, equipped⟩, other rfl [] (kept [] balanced)⟩
    next waiting =>
      obtain ⟨rfl, rfl⟩ := run_pure.mp moves
      exact ⟨⟨fits', by omega, by omega, fun _ => still_running fits' (Bool.eq_false_iff.mpr waiting)⟩, kept [] balanced⟩
  · obtain ⟨ir, m, rfl⟩ := running first
    obtain ⟨n, rfl⟩ : ∃ n, loop = n + 2 := ⟨loop - 2, by omega⟩
    obtain ⟨msg, _, received, moves⟩ := run_bind.mp moves
    obtain ⟨found, rfl⟩ := run_receiveWait.mp received
    have subscribes (req : Request app.Payload) (request : req ≠ .Tick) (technical : msg.message = none)
        (moves : (do let asked ← stepForward req o.first (.cepInitRule ir m); pure (.bootstrap ms (n + 2 + 1) asked.2) :
          DriverM app (Driver app)) (log ++ [.took msg]) = some (d', log')) : d'.Sound st ∧ Balanced st log' d'.pending := by
      obtain ⟨_, _, asked, moves⟩ := run_bind.mp moves
      obtain ⟨rfl, rfl⟩ := run_pure.mp moves
      obtain ⟨fits', kept, stays, _⟩ := ask_init fits asked
      obtain ⟨ir', m', same, _⟩ := stays request
      exact ⟨⟨fits', by omega, by omega, fun _ => ⟨ir', m', same⟩⟩, kept _ (balanced.took_other technical)⟩
    have feeds (req : Request app.Payload) (request : req ≠ .Tick) (carries : msg.message = some req)
        (moves : bootstrap.feed ms (n + 2) (.cepInitRule ir m) o req (log ++ [.took msg]) = some (d', log')) :
        d'.Sound st ∧ Balanced st log' d'.pending := by
      refine feed_sound (m := m) fits request (balanced.took carries) ?_ ?_ moves
      · exact waits first msg found req carries
      · exact Nat.succ_pos _
    cases msg with
    | SubMsg tpe pid => exact subscribes (.NewSub tpe pid) (by simp) rfl moves
    | UnsubMsg tpe pid => exact subscribes (.Unsub tpe pid) (by simp) rfl moves
    | SomeMsg x => exact feeds (.Incoming x) (by simp) rfl moves
    | SomeSMsg sfp payload => exact feeds (.Unpersist sfp payload) (by simp) rfl moves
    | Debug => cases moves

theorem step_sound (filled : st.Filled) (sound : s.1.Sound st) (balanced : Balanced st s.2 s.1.pending)
    (waits : Waits s o) (moves : step s o = some s') : s'.1.Sound st ∧ Balanced st s'.2 s'.1.pending := by
  obtain ⟨d, log⟩ := s
  cases d with
  | bootstrap => exact bootstrap_sound filled sound balanced waits moves
  | forwardLeftOvers => exact forward_sound filled sound balanced moves
  | cruise => exact cruise_sound filled sound balanced moves

private theorem unpassed (g : app.GlobalState) (defs : List (Declare app)) :
    (Machine.buildMachine g defs).machInitRulePassed = false := by
  have declared (defs : List (Declare app)) (st : Machine app) (running : st.machInitRulePassed = false) :
      (defs.foldl Machine.declare st).machInitRulePassed = false := by
    induction defs generalizing st with
    | nil => exact running
    | cons decl defs ih =>
      apply ih
      cases decl <;> exact running
  exact declared defs _ rfl

theorem start_sound (started : runItForever (Engine.cepEngine g defs) mo = some s) :
    s.1.Sound (Machine.buildMachine g defs) ∧ Balanced (Machine.buildMachine g defs) s.2 s.1.pending := by
  have fits : (Engine.cepEngine g defs).Fits (Machine.buildMachine g defs) := by
    unfold Engine.cepEngine Engine.cepInit
    split
    next => exact ⟨rfl, rfl, rfl⟩
    next => exact ⟨rfl, rfl, unpassed g defs⟩
  obtain ⟨d, log⟩ := s
  obtain ⟨_, _, asked, moves⟩ := run_bind.mp started
  obtain ⟨rfl, rfl⟩ := run_pure.mp moves
  obtain ⟨fits', kept⟩ := ask_silent (Machine.filled_build g defs) fits rfl asked
  exact ⟨⟨fits', Nat.one_pos, fun _ => rfl, fun other => absurd rfl other⟩, kept [] .nil⟩

end Driver

/-- In every run of the driver in which the init rule does not end in a tick after a message that it does not use, the
messages of declared types are put into the buffers of the machines that are there, each once and in the order in which they came,
once the init rule is done. -/
theorem messages_delivered {g : app.GlobalState} {defs : List (Declare app)} {mo : Moment app} {start s : Driver.Recorded app}
    (started : Driver.runItForever (Engine.cepEngine g defs) mo = some start) (run : Run Driver.step Driver.Waits start s) :
    Balanced (Machine.buildMachine g defs) s.2 s.1.pending := by
  have kept : s.1.Sound (Machine.buildMachine g defs) ∧ Balanced (Machine.buildMachine g defs) s.2 s.1.pending := by
    apply run.invariant (Driver.start_sound started)
    intro before o after kept waits moves
    exact Driver.step_sound (Machine.filled_build g defs) kept.1 kept.2 waits moves
  exact kept.2

namespace DriverExample

def gate : Application where
  GlobalState := Unit
  LocalState := Unit
  Value := Bool
  Payload := Nat
  World := Bool
  Exception := Empty
  getTime w := (0, w)
  usend _ _ w := w

def rules (init : Phase gate) (types : List TypeInfo) : List (Declare gate) :=
  [.Init ⟨.NormalJump init, [], (), types⟩,
    .DefineRule "rule"
      ⟨.NormalJump ⟨"wait", .ContCall (.PhaseNone 1) fun _ => .Continue (.NormalJump "wait")⟩,
        [("wait", .NormalJump ⟨"wait", .ContCall (.PhaseNone 1) fun _ => .Continue (.NormalJump "wait")⟩)], (), [⟨1, 1⟩]⟩]

/-- An init rule that waits until the world is ready. -/
def polling : List (Declare gate) :=
  rules ⟨"init", .DirectCall (.Lift (fun w => (.ok w, w)) fun ready : Bool => bif ready then .ret true else .Suspend)⟩ []

def listening : List (Declare gate) := rules ⟨"init", .ContCall (.PhaseNone 2) fun _ => .ret true⟩ [⟨2, 2⟩]

def moment (ready : Bool) : Moment gate := ⟨0, ready, 5⟩

def nothing : Occasion gate := ⟨none, moment false, moment false⟩

def arrives (type payload : Nat) (ready : Bool) : Occasion gate := ⟨some (.SomeMsg ⟨type, payload⟩), moment false, moment ready⟩

def delivered (defs : List (Declare gate)) (s : Driver.Recorded gate) : List Nat :=
  (s.2.filterMap (Event.delivered (Machine.buildMachine () defs))).map Message.payload

def received (defs : List (Declare gate)) (s : Driver.Recorded gate) : List Nat :=
  ((s.2.filterMap Event.received).filterMap (Machine.buildMachine () defs).declared).map Message.payload

end DriverExample

open DriverExample in
/-- The init rule ends in the tick after a message that it does not use. The next message is delivered at once,
then the one before it, and then the next one again. -/
theorem messages_doubled :
    ∃ start s, Driver.runItForever (Engine.cepEngine () polling) (moment false) = some start ∧
      Run Driver.step (fun _ _ => True) start s ∧ s.1.pending = [] ∧ delivered polling s = [20, 10, 20] ∧
      received polling s = [10, 20] := by
  have computed : ((Driver.runItForever (Engine.cepEngine () polling) (moment false)).bind fun start =>
      execute Driver.step (fun _ _ => True) start
        [nothing, arrives 1 10 true, arrives 1 20 true, nothing, nothing, nothing]).map
          (fun s => (s.1.pending.length, delivered polling s, received polling s)) = some (0, [20, 10, 20], [10, 20]) := by
    decide +kernel
  obtain ⟨s, reached, shown⟩ := map_eq_some_iff.mp computed
  obtain ⟨start, started, executed⟩ := bind_eq_some_iff.mp reached
  simp only [Prod.mk.injEq] at shown
  exact ⟨start, s, started, run_of_execute executed, length_eq_zero_iff.mp shown.1, shown.2.1, shown.2.2⟩

open DriverExample in
/-- The init rule waits for its message while two others come. These are then given to the rule, and so is a later one. -/
theorem messages_delivered_in_order :
    ∃ start s, Driver.runItForever (Engine.cepEngine () listening) (moment false) = some start ∧
      Run Driver.step Driver.Waits start s ∧ s.1.pending = [] ∧ delivered listening s = received listening s ∧
        received listening s = [10, 11, 12] := by
  have computed : ((Driver.runItForever (Engine.cepEngine () listening) (moment false)).bind fun start =>
      execute Driver.step Driver.Waits start
        [nothing, arrives 1 10 false, arrives 1 11 false, arrives 2 20 false, nothing, nothing, nothing, nothing,
          arrives 1 12 false, nothing, nothing]).map
          (fun s => (s.1.pending.length, received listening s)) = some (0, [10, 11, 12]) := by
    decide +kernel
  obtain ⟨s, reached, shown⟩ := map_eq_some_iff.mp computed
  obtain ⟨start, started, executed⟩ := bind_eq_some_iff.mp reached
  simp only [Prod.mk.injEq] at shown
  have run := run_of_execute executed
  have done := length_eq_zero_iff.mp shown.1
  have order := (messages_delivered started run).order
  rw [done, filterMap_nil, append_nil] at order
  exact ⟨start, s, started, run, done, congrArg (List.map Message.payload) order, shown.2⟩

end Halon.Cep
