import Halon.Proofs.CepRollback
import Halon.Proofs.CepTimeouts

/-! No timeout is lost. A rule has one event for all its machines; it is at the earliest of their
times, whichever of them asked for it last. -/

namespace Halon.Cep
open Library Stateful List OrderedMap
variable {app : Application} {events events' events'' : OrderedMap Int (Int × RuleKey)} {keys : List RuleKey} {key : RuleKey}

def Pending (events : OrderedMap Int (Int × RuleKey)) (key : RuleKey) (t : Int) : Prop :=
  ∃ early ≤ t, events.lookup key.ruleKeyId = some (early, key)

theorem Pending.later (pending : Pending events key t) (later : t ≤ t') : Pending events key t' := by
  obtain ⟨early, before, found⟩ := pending
  exact ⟨early, before.trans later, found⟩

def Numbered (keys : List RuleKey) : Prop := ∀ a ∈ keys, ∀ b ∈ keys, a.ruleKeyId = b.ruleKeyId → a = b

/-- What was pending for a rule is so still, perhaps sooner. -/
def Sooner (keys : List RuleKey) (events events' : OrderedMap Int (Int × RuleKey)) : Prop :=
  ∀ key ∈ keys, ∀ t, Pending events key t → Pending events' key t

namespace Sooner

theorem refl (keys : List RuleKey) (events : OrderedMap Int (Int × RuleKey)) : Sooner keys events events :=
    fun _ _ _ pending => pending

theorem trans (first : Sooner keys events events') (second : Sooner keys events' events'') : Sooner keys events events'' :=
  fun key known t pending => second key known t (first key known t pending)

end Sooner

section
variable {α : Type} {s s' : EngineState app} {w w' : app.World} {jmp : Jump α}

theorem addEvent_sooner (numbered : Numbered keys) (known : key ∈ keys)
    (returned : Returns (addEvent key t : EngineM app Time) s w t' s' w') :
    Sooner keys s.engineEvents s'.engineEvents ∧ ∃ due, t' = .Absolute due ∧ Pending s'.engineEvents key due := by
  simp only [addEvent, returns_bind, returns_lift, returns_modify, returns_pure] at returned
  obtain ⟨due, _, _, ⟨_, rfl⟩, _, _, _, ⟨rfl, rfl⟩, rfl, rfl, rfl⟩ := returned
  constructor
  · rintro other listed t ⟨early, before, found⟩
    by_cases same : other.ruleKeyId = key.ruleKeyId
    · obtain rfl := numbered other listed key known same
      refine ⟨min due early, (min_le_right _ _).trans before, ?_⟩
      rw [lookup_alter, if_pos rfl, found]
    · refine ⟨early, before, ?_⟩
      rw [lookup_alter, if_neg same]
      exact found
  · refine ⟨due, rfl, ?_⟩
    unfold Pending
    rw [lookup_alter, if_pos rfl]
    split
    next => exact ⟨due, le_refl due, rfl⟩
    next early _ _ => exact ⟨min due early, min_le_left _ _, rfl⟩

def Jump.Armed (events : OrderedMap Int (Int × RuleKey)) (key : RuleKey) (jmp : Jump α) : Prop :=
  ∀ t a, jmp = .OnTimeJump (.Absolute t) a → Pending events key t

theorem Jump.Armed.sooner (armed : jmp.Armed events key) (known : key ∈ keys) (sooner : Sooner keys events events') :
    jmp.Armed events' key :=
  fun t a same => sooner key known t (armed t a same)

theorem Jump.armed_normal (a : α) : (Jump.NormalJump a).Armed events key := nofun

theorem Jump.armed_absolute (pending : Pending events key t) :
    (Jump.OnTimeJump (.Absolute t) a).Armed events key := by
  intro _ _ same
  cases same
  exact pending

theorem jumpApplyTime_sooner (numbered : Numbered keys) (known : key ∈ keys)
    (returned : Returns (jumpApplyTime key jmp : EngineM app (Jump α ⊕ α)) s w applied s' w') :
    Sooner keys s.engineEvents s'.engineEvents ∧ ∀ nxt, applied = .inl nxt → nxt.Armed s'.engineEvents key := by
  cases jmp with
  | NormalJump =>
    obtain ⟨rfl, rfl, rfl⟩ := returns_pure.mp returned
    exact ⟨.refl _ _, nofun⟩
  | OnTimeJump p =>
    rw [jumpApplyTime, returns_get_bind] at returned
    cases p with
    | Absolute =>
      dsimp only at returned
      split at returned
      next =>
        obtain ⟨_, added, rfl⟩ := returns_bind_pure.mp returned
        obtain ⟨sooner, due, rfl, pending⟩ := addEvent_sooner numbered known added
        refine ⟨sooner, fun nxt same => ?_⟩
        cases same
        exact Jump.armed_absolute pending
      next =>
        obtain ⟨rfl, rfl, rfl⟩ := returns_pure.mp returned
        exact ⟨.refl _ _, nofun⟩
    | Relative =>
      obtain ⟨_, added, rfl⟩ := returns_bind_pure.mp returned
      obtain ⟨sooner, due, rfl, pending⟩ := addEvent_sooner numbered known added
      refine ⟨sooner, fun nxt same => ?_⟩
      cases same
      exact Jump.armed_absolute (pending.later (le_max_right _ _))

theorem jumpEmitTimeout_sooner (numbered : Numbered keys) (known : key ∈ keys)
    (returned : Returns (jumpEmitTimeout key jmp : EngineM app (Jump α)) s w emitted s' w') :
    Sooner keys s.engineEvents s'.engineEvents := by
  obtain ⟨applied, _, _, first, returned⟩ := returns_bind.mp returned
  have sooner := (jumpApplyTime_sooner numbered known first).1
  rcases applied with (a | ⟨t, a⟩) | a
  · obtain ⟨rfl, rfl, rfl⟩ := returns_pure.mp returned
    exact sooner
  · obtain ⟨_, added, rfl⟩ := returns_bind_pure.mp returned
    exact sooner.trans (addEvent_sooner numbered known added).1
  · obtain ⟨rfl, rfl, rfl⟩ := returns_pure.mp returned
    exact sooner

end

def SM.Under (key : RuleKey) : SM app → Prop
  | .bootstrap rule _ => rule.key = key
  | .interpretInput rule .. => rule.key = key
  | .stopped => True

def SM.Armed (events : OrderedMap Int (Int × RuleKey)) (key : RuleKey) : SM app → Prop
  | .interpretInput _ _ _ _ phs => ∀ jmp ∈ phs, jmp.Armed events key
  | _ => True

theorem SM.Armed.sooner {sm : SM app} (armed : sm.Armed events key) (known : key ∈ keys) (sooner : Sooner keys events events') :
    sm.Armed events' key := by
  cases sm with
  | bootstrap | stopped => trivial
  | interpretInput => exact fun jmp member => (armed jmp member).sooner known sooner

/-- A result of a step. Only a machine that is suspended needs its events. -/
structure Placed (events : OrderedMap Int (Int × RuleKey)) (key : RuleKey) (made : SMResult app.Payload × SM app) : Prop where
  under : made.2.Under key
  armed : made.1.smResultState = .SMSuspended → made.2.Armed events key

theorem Placed.sooner {made : SMResult app.Payload × SM app} (placed : Placed events key made) (known : key ∈ keys)
    (sooner : Sooner keys events events') : Placed events' key made :=
  ⟨placed.under, fun suspended => (placed.armed suspended).sooner known sooner⟩

section
variable {s s' : EngineState app} {w w' : app.World} {fuel : Nat} {rule : Rule app} {subs : Subscribers} {smid : Nat}
  {l : app.LocalState} {b : Buffer app.Payload} {machines : Machines app}

theorem guarantees_placed (numbered : Numbered keys) (known : rule.key ∈ keys) :
    Guarantees fuel rule subs smid l b (fun s s' => Sooner keys s.engineEvents s'.engineEvents)
      (fun s jmp => jmp.Armed s.engineEvents rule.key) (fun _ => True) (fun s made => Placed s.engineEvents rule.key made) where
  refl _ := .refl _ _
  trans := Sooner.trans
  waits armed := armed.sooner known
  stays placed := placed.sooner known
  timed := jumpApplyTime_sooner numbered known
  normal _ ph := Jump.armed_normal ph
  emits := jumpEmitTimeout_sooner numbered known
  runs ran := by
    rw [(runPhase_framed ran).events]
    exact ⟨.refl _ _, fun _ _ => trivial⟩
  made _ active _ := ⟨rfl, fun suspended => absurd suspended active⟩
  left {_ _ back} armed := by
    cases back with
    | nil => exact ⟨trivial, fun _ => trivial⟩
    | cons => exact ⟨rfl, fun _ => armed⟩

theorem SM.execute_placed (numbered : Numbered keys) (known : key ∈ keys) {sm : SM app} (under : sm.Under key)
    (returned : Returns (sm.execute fuel subs) s w machines s' w') :
    Sooner keys s.engineEvents s'.engineEvents ∧ ∀ made ∈ machines, Placed s'.engineEvents key made := by
  obtain ⟨rule, _, l, b, phs, between, v, enters, ran⟩ := execute_enters returned
  obtain ⟨rfl, begins⟩ : rule.key = key ∧ Sooner keys s.engineEvents between.engineEvents := by
    cases enters with
    | bootstrap emitted =>
      obtain rfl : rule.key = key := under
      have sooner := jumpEmitTimeout_sooner numbered known emitted
      exact ⟨rfl, sooner⟩
    | interpretInput => exact ⟨under, .refl _ _⟩
  have placed := (guarantees_placed numbered known).run ran
  exact ⟨begins.trans placed.1, placed.2⟩

end

namespace Machine

/-- The machines that are listed or wait for their turn are those of known rules. What the suspended ones wait for
has an event. -/
structure Armed (keys : List RuleKey) (waiting : List (SMData app)) (m : Machine app) : Prop where
  known : ∀ d ∈ waiting ++ m.machines, d.key ∈ keys ∧ d.data.ruleStack.Under d.key
  armed : ∀ d ∈ m.machSuspendedSM, d.data.ruleStack.Armed m.machEvents d.key

variable {m m' : Machine app} {w w' : app.World} {fuel : Nat}

theorem execute_armed (numbered : Numbered keys)
    (armed : Armed keys (d :: waiting) m) (returned : Returns (execute fuel d) m w info m' w') : Armed keys waiting m' := by
  obtain ⟨_, _, ran, _, kept, _, reached⟩ := returns_execute returned
  obtain ⟨listed, under⟩ := armed.known d mem_cons_self
  obtain ⟨sooner, placed⟩ := SM.execute_placed numbered listed under ran
  constructor
  · intro e member
    rcases mem_append.mp member with other | inside
    · exact armed.known e (mem_append_left _ (mem_cons_of_mem d other))
    · rcases mem_append.mp (kept.mem_iff.mp inside) with new | old
      · obtain ⟨x, result, _, rfl⟩ := mem_left new
        exact ⟨listed, (placed x result).under⟩
      · exact armed.known e (mem_append_right _ old)
  · intro e member
    subst reached
    rcases mem_append.mp member with new | old
    · obtain ⟨x, result, rfl⟩ := mem_map.mp new
      obtain ⟨inside, suspended⟩ := mem_filter.mp result
      exact (placed x inside).armed (of_decide_eq_true suspended)
    · have before := armed.known e (mem_append_right _ (mem_append_right _ old))
      exact (armed.armed e old).sooner before.1 sooner

theorem executes_armed (numbered : Numbered keys)
    (armed : Armed keys waiting m) (returned : Returns (waiting.mapM (execute fuel)) m w infos m' w') : Armed keys [] m' := by
  induction waiting generalizing m w infos with
  | nil =>
    obtain ⟨_, rfl, _⟩ := returns_mapM_nil.mp returned
    exact armed
  | cons d _ ih =>
    obtain ⟨_, _, _, _, ran, later, _⟩ := returns_mapM_cons.mp returned
    exact ih (execute_armed numbered armed ran) later

theorem executeTick_armed (numbered : Numbered keys) (armed : Armed keys [] m)
    (returned : Returns (executeTick fuel) m w infos m' w') : Armed keys [] m' := by
  obtain ⟨between, _, _, ran, rfl⟩ := executeTick_executes returned
  have kept : Armed keys [] between := by
    apply executes_armed numbered _ ran
    exact ⟨armed.known, armed.armed⟩
  exact ⟨kept.known, kept.armed⟩

theorem Awakens.pending {st nst : Machine app} {ts t count} (awakens : st.Awakens ts count nst)
    (undue : ¬ st.Due ts key) (pending : Pending st.machEvents key t) : Pending nst.machEvents key t := by
  obtain ⟨early, before, found⟩ := pending
  have member := lookup_eq_some.mp found
  refine ⟨early, before, lookup_eq_some.mpr ((awakens.events _).mpr ⟨member, ?_⟩)⟩
  apply lt_of_not_ge
  intro due
  exact undue ⟨_, member, due, rfl⟩

theorem timeoutArrived_armed (ts : Int) (armed : Armed keys [] m) : Armed keys [] (m.timeoutArrived ts).2 := by
  have awakens := (m.timeoutArrived_awakens ts).1
  constructor
  · intro d member
    exact armed.known d (awakens.machines.mem_iff.mp member)
  · intro d member
    rw [awakens.suspended, mem_filter, decide_eq_true_eq] at member
    have before := armed.armed d member.1
    cases stack : d.data.ruleStack with
    | bootstrap | stopped => trivial
    | interpretInput =>
      rw [stack] at before
      intro jmp inside t a same
      exact awakens.pending member.2 (before jmp inside t a same)

private theorem message_under {sm : SM app} (msg : Message app.Payload) (under : sm.Under key) : (sm.message msg).Under key := by
  cases sm <;> exact under

theorem incoming_armed (msg : Message app.Payload) (armed : Armed keys [] m) : Armed keys [] (m.incoming msg).2 := by
  constructor
  · intro d member
    obtain ⟨e, listed, rfl⟩ := mem_map.mp ((m.incoming_perm msg).mem_iff.mp member)
    have before := armed.known e listed
    unfold offer
    split
    next => exact ⟨before.1, message_under msg before.2⟩
    next => exact before
  · intro d member
    exact armed.armed d (mem_of_mem_filter member)

structure Declared (st : Machine app) : Prop where
  under : ∀ entry ∈ st.machRuleData, entry.2.ruleStack.Under entry.1
  numbered : Numbered (st.machRuleData.map Prod.fst)
  below : ∀ key ∈ st.machRuleData.map Prod.fst, key.ruleKeyId < st.machRuleCount

theorem Declared.declare (declared : Declared st) (decl : Declare app) : Declared (st.declare decl) := by
  cases decl with
  | DefineRule n rule =>
    have cases {key : RuleKey} (member : key ∈ (st.declare (.DefineRule n rule)).machRuleData.map Prod.fst) :
        key ∈ st.machRuleData.map Prod.fst ∨ key = ⟨st.machRuleCount, n⟩ := by
      simpa [Machine.declare] using member
    refine ⟨?_, ?_, ?_⟩
    · intro entry member
      rcases mem_append.mp member with old | new
      · exact declared.under entry old
      · rw [mem_singleton.mp new]
        rfl
    · intro a first b second same
      rcases cases first with old | rfl <;> rcases cases second with other | rfl
      · exact declared.numbered a old b other same
      · have less := declared.below a old
        exact absurd same less.ne
      · have less := declared.below b other
        exact absurd same.symm less.ne
      · rfl
    · intro key member
      change key.ruleKeyId < ((st.machRuleCount + 1 : Nat) : Int)
      rcases cases member with old | rfl
      · have less := declared.below key old
        omega
      · exact Int.lt_succ _
  | Init rule | RuleFinalizer action | PhaseBuffer buf | DefaultHandler f =>
    exact { declared with }

theorem buildMachine_declared (g : app.GlobalState) (defs : List (Declare app)) : Declared (buildMachine g defs) := by
  have all (defs : List (Declare app)) (st : Machine app) (declared : Declared st) : Declared (defs.foldl declare st) := by
    induction defs generalizing st with
    | nil => exact declared
    | cons decl defs ih => exact ih _ (declared.declare decl)
  have none {P : Prop} {α : Type} {a : α} (member : a ∈ []) : P := absurd member not_mem_nil
  have built := all defs (emptyMachine g) ⟨fun _ => none, fun _ => none, fun _ => none⟩
  exact { built with }

theorem start_armed {st : Machine app} (unstarted : Unstarted st) (declared : Declared st) :
    Armed (st.machRuleData.map Prod.fst) [] st.start := by
  constructor
  · intro d member
    have listed : d ∈ st.machRuleData.zipIdx.map fun entry => ⟨st.machMaxThreadId + entry.2, entry.1.1, entry.1.2⟩ := by
      simpa [machines, start, unstarted.suspended] using member
    obtain ⟨⟨entry, i⟩, position, rfl⟩ := mem_map.mp listed
    have inside := fst_mem_of_mem_zipIdx position
    exact ⟨mem_map_of_mem inside, declared.under entry inside⟩
  · intro d member
    have empty : d ∈ ([] : List (SMData app)) := unstarted.suspended ▸ member
    exact absurd empty not_mem_nil

end Machine

namespace Engine

def Armed (keys : List RuleKey) : Engine app → Prop
  | .cepInitRule _ m => m.Armed keys [] ∧ m.machSuspendedSM = []
  | .cepCruise m => m.Armed keys []

theorem cepEngine_armed (g : app.GlobalState) (defs : List (Declare app)) :
    (cepEngine g defs).Armed ((Machine.buildMachine g defs).machRuleData.map Prod.fst) := by
  have unstarted := Machine.buildMachine_unstarted g defs
  have started := Machine.start_armed unstarted (Machine.buildMachine_declared g defs)
  unfold cepEngine cepInit
  split
  next => exact ⟨started.known, started.armed⟩
  next => exact ⟨started, unstarted.suspended⟩

theorem step_armed (numbered : Numbered keys) {e e' : Engine app} {i : Input app} (armed : e.Armed keys)
    (moves : e.step i = some e') :
    e'.Armed keys := by
  have rest {m m' : Machine app} (rests : m.Rests m') (armed : m.Armed keys []) :
      ∀ d ∈ [] ++ m'.machines, d.key ∈ keys ∧ d.data.ruleStack.Under d.key := by
    have same : m'.machines = m.machines := by
      rw [Machine.machines, rests.running, rests.suspended, Machine.machines]
    rw [same]
    exact armed.known
  obtain ⟨req, w, _⟩ := i
  cases step_handles moves with
  | tick ran => exact Machine.executeTick_armed numbered armed ran
  | timeout ts => exact Machine.timeoutArrived_armed ts armed
  | incoming _ msg => exact Machine.incoming_armed msg armed
  | @other _ m m' rests events =>
    refine ⟨rest rests armed, ?_⟩
    rw [rests.suspended, events]
    exact Machine.Armed.armed armed
  | @init _ ir m _ rests =>
    obtain ⟨armed, none⟩ := armed
    have still : e'.machine.machSuspendedSM = [] := rests.suspended.trans none
    have kept : e'.machine.Armed keys [] := by
      refine ⟨rest rests armed, ?_⟩
      rw [still]
      simp
    cases e' with
    | cepInitRule => exact ⟨kept, still⟩
    | cepCruise => exact kept

end Engine

/-- After any requests, a machine that is suspended and waits for a time has an event of its rule, at that time or
before, and a timeout that comes then or later makes it run. -/
theorem no_timeout_lost {g : app.GlobalState} {defs : List (Declare app)} {st : Machine app}
    (run : Run Engine.step (fun _ _ => True) (Engine.cepEngine g defs) (.cepCruise st)) {d : SMData app}
    (suspended : d ∈ st.machSuspendedSM) {rule : Rule app} {smid : Nat} {l : app.LocalState} {b : Buffer app.Payload}
    {phs : Stack app} (stack : d.data.ruleStack = .interpretInput rule smid l b phs) {t : Int} {ph : Phase app}
    (waits : .OnTimeJump (.Absolute t) ph ∈ phs) :
    (∃ early ≤ t, st.machEvents.lookup d.key.ruleKeyId = some (early, d.key)) ∧
      ∀ ts, t ≤ ts → ∀ fuel w, ∃ count nst,
        (Engine.stepForward fuel (.TimeoutArrived ts) (.cepCruise st)).outcome w = (.ok (.awaken count, .cepCruise nst), w) ∧
          d ∈ nst.machRunningSM := by
  have numbered := (Machine.buildMachine_declared g defs).numbered
  have armed : (Engine.cepCruise st).Armed ((Machine.buildMachine g defs).machRuleData.map Prod.fst) :=
    run.invariant (Engine.cepEngine_armed g defs) fun _ _ _ armed _ moves => Engine.step_armed numbered armed moves
  have machine := Machine.Armed.armed armed d suspended
  rw [stack] at machine
  obtain ⟨early, before, found⟩ := machine _ waits t ph rfl
  refine ⟨⟨early, before, found⟩, ?_⟩
  intro ts later fuel w
  have due : st.Due ts d.key := ⟨_, lookup_eq_some.mp found, before.trans later, rfl⟩
  obtain ⟨_, same, running⟩ := (st.timeoutArrived_awakens ts).1.running
  refine ⟨(st.timeoutArrived ts).1, (st.timeoutArrived ts).2, rfl, ?_⟩
  rw [running]
  exact mem_append_right _ (same.mem_iff.mpr (mem_filter.mpr ⟨suspended, decide_eq_true due⟩))

open ForkExample in
def twoDelayed : List (Declare plain) :=
  delayed ++ [.DefineRule "later" ⟨.OnTimeJump (.Absolute 8) ⟨"start", .DirectCall (.ret ())⟩, [], (), []⟩]

/-- A timeout has woken the machine of one rule, and that of the other goes on waiting for a later time. -/
theorem no_timeout_lost_delayed : ∃ st d,
    [⟨.Tick, (), 9⟩, ⟨.TimeoutArrived 6, (), 9⟩].foldlM Engine.step (Engine.cepEngine () twoDelayed) = some (.cepCruise st) ∧
      st.machRunningSM.length = 1 ∧ d ∈ st.machSuspendedSM ∧
      (∃ early ≤ 8, st.machEvents.lookup d.key.ruleKeyId = some (early, d.key)) ∧
      ∃ count nst, (Engine.stepForward 9 (.TimeoutArrived 8) (.cepCruise st)).outcome () =
      (.ok (.awaken count, .cepCruise nst), ()) ∧
        d ∈ nst.machRunningSM := by
  have ticked : (Engine.cepEngine () twoDelayed).step ⟨.Tick, (), 9⟩ = some _ := rfl
  have run : Run Engine.step (fun _ _ => True) (Engine.cepEngine () twoDelayed) (.cepCruise _) :=
    .step ⟨.TimeoutArrived 6, (), 9⟩ (.step _ .refl trivial ticked) trivial rfl
  refine ⟨_, _, rfl, rfl, mem_cons_self, ?_⟩
  have kept := no_timeout_lost run mem_cons_self rfl mem_cons_self
  exact ⟨kept.1, kept.2 8 (by decide) 9 ()⟩

end Halon.Cep
