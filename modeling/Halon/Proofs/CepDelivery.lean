import Halon.Cep.Driver
import Halon.Proofs.CepBuffers

/-! What the engine does with a message. When the init rule is done, a message is put
into the buffer of every machine of a rule that declares its type, and nothing else is. -/

namespace Halon.Cep
open Library Stateful List
variable {app : Application}

namespace Machine

def Declares (st : Machine app) (key : RuleKey) (fingerprint : Nat) : Prop :=
  ∃ entry ∈ st.machRuleData, entry.1 = key ∧ ∃ info ∈ entry.2.ruleTypes, info.fingerprint = fingerprint

instance {st : Machine app} {key : RuleKey} {fingerprint : Nat} : Decidable (st.Declares key fingerprint) :=
  inferInstanceAs (Decidable (∃ _ ∈ _, _))

def declared (st : Machine app) (req : Request app.Payload) : Option (Message app.Payload) :=
  match st.decode req with
  | some (.Incoming m) => if ∃ entry ∈ st.machRuleData, st.Declares entry.1 m.fingerprint then some m else none
  | _ => none

private theorem mem_types (key other : RuleKey) (types : List TypeInfo) (m : OrderedMap Nat (List RuleKey)) (fingerprint : Nat) :
    other ∈ ((types.foldr (fun info m => m.alter (fun keys => some (key :: keys.getD [])) info.fingerprint) m).lookup
        fingerprint).getD [] ↔
      (key = other ∧ ∃ info ∈ types, info.fingerprint = fingerprint) ∨ other ∈ (m.lookup fingerprint).getD [] := by
  induction types with
  | nil => simp
  | cons info _ ih =>
    rw [foldr_cons, OrderedMap.lookup_alter]
    by_cases same : fingerprint = info.fingerprint
    · subst same
      simp only [if_true, Option.getD_some, mem_cons, ih, exists_eq_or_imp, true_or, and_true]
      constructor
      · rintro (rfl | ⟨rfl, _⟩ | before)
        · exact .inl rfl
        · exact .inl rfl
        · exact .inr before
      · rintro (rfl | before)
        · exact .inl rfl
        · exact .inr (.inr before)
    · have apart : info.fingerprint ≠ fingerprint := fun equal => same equal.symm
      simp only [same, if_false, ih, mem_cons, exists_eq_or_imp, apart, false_or]

private theorem isSome_types (key : RuleKey) (types : List TypeInfo) (m : OrderedMap Nat (List RuleKey)) (fingerprint : Nat) :
    ((types.foldr (fun info m => m.alter (fun keys => some (key :: keys.getD [])) info.fingerprint) m).lookup
    fingerprint).isSome ↔
      (∃ info ∈ types, info.fingerprint = fingerprint) ∨ (m.lookup fingerprint).isSome := by
  induction types with
  | nil => simp
  | cons info _ ih =>
    rw [foldr_cons, OrderedMap.lookup_alter]
    by_cases same : fingerprint = info.fingerprint
    · simp [same]
    · have apart : info.fingerprint ≠ fingerprint := fun equal => same equal.symm
      simp only [same, if_false, ih, mem_cons, exists_eq_or_imp, apart, false_or]

theorem mem_typeMap (st : Machine app) (key : RuleKey) (fingerprint : Nat) :
    key ∈ (st.fillMachineTypeMap.machTypeMap.lookup fingerprint).getD [] ↔ st.Declares key fingerprint := by
  unfold fillMachineTypeMap Declares
  induction st.machRuleData with
  | nil => simp
  | cons _ _ ih => simp only [foldr_cons, mem_types, ih, mem_cons, exists_eq_or_imp]

theorem isSome_typeMap (st : Machine app) (fingerprint : Nat) :
    (st.fillMachineTypeMap.machTypeMap.lookup fingerprint).isSome ↔
    ∃ entry ∈ st.machRuleData, st.Declares entry.1 fingerprint := by
  have listed : (st.fillMachineTypeMap.machTypeMap.lookup fingerprint).isSome ↔
      ∃ entry ∈ st.machRuleData, ∃ info ∈ entry.2.ruleTypes, info.fingerprint = fingerprint := by
    unfold fillMachineTypeMap
    induction st.machRuleData with
    | nil => simp
    | cons _ _ ih => simp only [foldr_cons, isSome_types, ih, mem_cons, exists_eq_or_imp]
  rw [listed]
  constructor
  · rintro ⟨entry, member, types⟩
    exact ⟨entry, member, entry, member, rfl, types⟩
  · rintro ⟨_, _, entry, member, _, types⟩
    exact ⟨entry, member, types⟩

def deliver (st : Machine app) (m : Message app.Payload) (d : SMData app) : SMData app :=
  if st.Declares d.key m.fingerprint then { d with data := { d.data with ruleStack := d.data.ruleStack.message m } } else d

variable {st m : Machine app}

theorem incoming_machines (msg : Message app.Payload)
    (same : ∀ key, key ∈ (m.machTypeMap.lookup msg.fingerprint).getD [] ↔ st.Declares key msg.fingerprint) :
    (m.incoming msg).2.machines.Perm (m.machines.map (st.deliver msg)) := by
  have offered : m.offer msg = st.deliver msg := by
    funext d
    unfold offer deliver
    simp only [same]
  rw [← offered]
  exact m.incoming_perm msg

end Machine

variable {st : Machine app}

def AcceptedMsg.message {P : Type} : AcceptedMsg P → Option (Request P)
  | .SomeMsg m => some (.Incoming m)
  | .SomeSMsg sfp payload => some (.Unpersist sfp payload)
  | _ => none

namespace Event

def received : Event app → Option (Request app.Payload)
  | .took msg => msg.message
  | .asked .. => none

/-- The message that is put into buffers, if the init rule is done and some rule declares its type. -/
def delivered (st : Machine app) : Event app → Option (Message app.Payload)
  | .asked (.cepCruise _) req _ => st.declared req
  | _ => none

/-- A message that is delivered is put, once, into the buffer of every machine of a rule that declares its type, and
otherwise no message is put into any buffer. -/
def Proper (st : Machine app) (event : Event app) : Prop :=
  match event with
  | .took _ => True
  | .asked before req after =>
    match delivered st (.asked before req after) with
    | some m => after.machine.machines.Perm (before.machine.machines.map (st.deliver m))
    | none => ∀ d ∈ after.machine.machines, d.Descends before.machine.machines

variable {before after : Engine app} {req : Request app.Payload}

theorem proper_delivered (found : delivered st (.asked before req after) = some m)
    (put : after.machine.machines.Perm (before.machine.machines.map (st.deliver m))) : Proper st (.asked before req after) := by
  simp only [Proper, found]
  exact put

theorem proper_other (nothing : delivered st (.asked before req after) = none)
    (descend : ∀ d ∈ after.machine.machines, d.Descends before.machine.machines) : Proper st (.asked before req after) := by
  simp only [Proper, nothing]
  exact descend

end Event

namespace Machine

structure Filled (st : Machine app) : Prop where
  listed : ∀ fingerprint key, key ∈ (st.machTypeMap.lookup fingerprint).getD [] ↔ st.Declares key fingerprint
  known : ∀ fingerprint, (st.machTypeMap.lookup fingerprint).isSome ↔ ∃ entry ∈ st.machRuleData, st.Declares entry.1 fingerprint

theorem filled_build (g : app.GlobalState) (defs : List (Declare app)) : Filled (buildMachine g defs) :=
  ⟨fun fingerprint key => mem_typeMap _ key fingerprint, fun fingerprint => isSome_typeMap _ fingerprint⟩

structure Equipped (st : Machine app) (passed : Bool) (m : Machine app) : Prop where
  types : m.machTypeMap = st.machTypeMap
  stable : m.machSFingerprint = st.machSFingerprint
  passed : m.machInitRulePassed = passed

variable {m m' : Machine app} {passed : Bool}

theorem Equipped.kept (equipped : Equipped st passed m) (rules : SameRules m m') : Equipped st passed m' :=
  ⟨rules.types.trans equipped.types, rules.stable.trans equipped.stable, rules.passed.trans equipped.passed⟩

theorem Equipped.decode_eq (equipped : Equipped st passed m) (req : Request app.Payload) : m.decode req = st.decode req := by
  cases req with
  | Unpersist => simp only [decode, equipped.stable]
  | _ => rfl

end Machine

namespace Engine
variable {m : Machine app} {req req' : Request app.Payload} {e : Engine app} {fuel : Nat} {w w' : app.World}
    {response : Response app.Payload}

def Fits (st : Machine app) : Engine app → Prop
  | .cepInitRule _ m => st.Equipped false m
  | .cepCruise m => st.Equipped true m

theorem Fits.passed_iff (fits : e.Fits st) : e.initRulePassed = true ↔ ∃ m, e = .cepCruise m := by
  cases e with
  | cepInitRule ir m =>
    have running : initRulePassed (.cepInitRule ir m) = false := fits.passed
    simp [running]
  | cepCruise m =>
    have done : initRulePassed (.cepCruise m) = true := fits.passed
    simp [done]

private theorem defaultHandler_fits {passed next} (equipped : st.Equipped passed m)
    (ok : (response, e) = defaultHandler m next req) : ∃ m', e = next m' ∧ st.Equipped passed m' ∧ m'.machines = m.machines := by
  cases req with
  | NewSub | Unsub | TimeoutArrived =>
    cases ok
    exact ⟨_, rfl, { equipped with }, rfl⟩
  | _ =>
    cases ok
    exact ⟨_, rfl, equipped, rfl⟩

private theorem cruiseStep_fits (filled : st.Filled) (equipped : st.Equipped true m) (read : st.decode req = some req')
    (ok : (cruiseStep fuel m req').outcome w = (.ok (response, e), w')) :
    (∃ m', e = .cepCruise m' ∧ st.Equipped true m') ∧ Event.Proper st (.asked (.cepCruise m) req e) := by
  have other (silent : ∀ msg, req' ≠ .Incoming msg) : Event.delivered st (.asked (.cepCruise m) req e) = none := by
    simp only [Event.delivered, Machine.declared, read]
    split
    next found => exact absurd (Option.some.inj found) (silent _)
    next => rfl
  have handled (nothing : Event.delivered st (.asked (.cepCruise m) req e) = none)
      (ok : (response, e) = defaultHandler m .cepCruise req') :
      (∃ m', e = .cepCruise m' ∧ st.Equipped true m') ∧ Event.Proper st (.asked (.cepCruise m) req e) := by
    obtain ⟨m', rfl, kept, same⟩ := defaultHandler_fits equipped ok
    refine ⟨⟨m', rfl, kept⟩, Event.proper_other nothing ?_⟩
    intro d member
    exact SMData.descends_self (same ▸ member)
  unfold cruiseStep at ok
  split at ok
  next =>
    obtain ⟨⟨_, _⟩, v, ran, ok⟩ := Process.bind_ok ok
    cases ok
    obtain ⟨rules, descend⟩ := Machine.executeTick_descends ran
    exact ⟨⟨_, rfl, equipped.kept rules⟩, Event.proper_other (other nofun) descend⟩
  next ts =>
    cases ok
    obtain ⟨rules, same⟩ := Machine.timeoutArrived_same ts m
    refine ⟨⟨_, rfl, equipped.kept rules⟩, Event.proper_other (other nofun) ?_⟩
    intro d member
    exact SMData.descends_self (same.mem_iff.mp member)
  next msg =>
    have known := filled.known msg.fingerprint
    rw [← equipped.types] at known
    by_cases declared : ∃ entry ∈ st.machRuleData, st.Declares entry.1 msg.fingerprint
    · rw [if_pos (known.mpr declared)] at ok
      cases ok
      refine ⟨⟨_, rfl, equipped.kept ⟨rfl, rfl, rfl⟩⟩, Event.proper_delivered (m := msg) ?_ ?_⟩
      · simp only [Event.delivered, Machine.declared, read, declared, if_true]
      · apply Machine.incoming_machines
        intro key
        rw [equipped.types]
        exact filled.listed msg.fingerprint key
    · rw [if_neg fun found => declared (known.mp found)] at ok
      refine handled ?_ (Process.pure_ok ok)
      simp only [Event.delivered, Machine.declared, read, declared, if_false]
  next silent => exact handled (other (silent · )) (Process.pure_ok ok)

private theorem initTick_fits (equipped : st.Equipped false m)
    (ok : (initTick fuel left ir m).outcome w = (.ok (response, e), w')) :
    e.Fits st ∧ e.machine.machines = m.machines ∧ response.ignored = false := by
  induction left generalizing ir m w with
  | zero => cases ok
  | succ left ih =>
    obtain ⟨⟨_, s'⟩, v, ran, ok⟩ := Process.bind_ok ok
    dsimp only at ok
    split at ok
    next out infos nxt_stk =>
      cases out with
      | SMFinished =>
        cases ok
        exact ⟨⟨equipped.types, equipped.stable, rfl⟩, rfl, rfl⟩
      | SMRunning =>
        dsimp only at ok
        exact ih (m := { m with machState := s'.engineStateGlobal, machEvents := s'.engineEvents })
          { equipped with } ok
      | SMSuspended | SMStopped =>
        cases ok
        exact ⟨{ equipped with }, rfl, rfl⟩
    next => cases ok

end Engine

def InitRule.uses (ir : InitRule app) (st : Machine app) (req : Request app.Payload) : Bool :=
  match st.decode req with
  | some (.Incoming m) => m.fingerprint ∈ ir.initRuleTypes
  | _ => false

namespace Engine
variable {m : Machine app} {req req' : Request app.Payload} {e : Engine app} {fuel : Nat} {w w' : app.World}
    {response : Response app.Payload}
  {ir : InitRule app}

private theorem initRuleStep_fits (equipped : st.Equipped false m) (read : m.decode req = some req')
    (ok : (initRuleStep fuel ir m req').outcome w = (.ok (response, e), w')) :
    e.Fits st ∧ e.machine.machines = m.machines ∧ (req ≠ .Tick → ∃ ir' m', e = .cepInitRule ir' m') ∧
      (response.ignored = true → ir.uses m req = false ∧ e = .cepInitRule ir m) := by
  have unused (silent : ∀ msg, req' = .Incoming msg → msg.fingerprint ∉ ir.initRuleTypes) : ir.uses m req = false := by
    simp only [InitRule.uses, read]
    split
    next found => exact decide_eq_false (silent _ (Option.some.inj found))
    next => rfl
  have handled (silent : ∀ msg, req' = .Incoming msg → msg.fingerprint ∉ ir.initRuleTypes)
      (ok : (response, e) = defaultHandler m (.cepInitRule ir) req') :
      e.Fits st ∧ e.machine.machines = m.machines ∧ (req ≠ .Tick → ∃ ir' m', e = .cepInitRule ir' m') ∧
        (response.ignored = true → ir.uses m req = false ∧ e = .cepInitRule ir m) := by
    obtain ⟨m', rfl, kept, same⟩ := defaultHandler_fits equipped ok
    refine ⟨kept, same, fun _ => ⟨ir, m', rfl⟩, fun ignored => ⟨unused silent, ?_⟩⟩
    cases req' <;> cases ok <;> first | rfl | cases ignored
  unfold initRuleStep at ok
  split at ok
  next =>
    obtain ⟨fits, same, used⟩ := initTick_fits equipped ok
    refine ⟨fits, same, ?_, fun ignored => ?_⟩
    · intro other
      cases req with
      | Tick => exact absurd rfl other
      | Unpersist => simp [Machine.decode] at read
      | _ => cases read
    · rw [used] at ignored
      cases ignored
  next =>
    split at ok
    next =>
      cases ok
      exact ⟨{ equipped with }, rfl, fun _ => ⟨_, _, rfl⟩, nofun⟩
    next outside =>
      refine handled ?_ (Process.pure_ok ok)
      rintro _ ⟨⟩
      exact outside
  next silent => exact handled (fun msg same => absurd same (silent msg)) (Process.pure_ok ok)

theorem init_fits (equipped : st.Equipped false m)
    (ok : ((cepInitRule ir m).stepForward fuel req).outcome w = (.ok (response, e), w')) :
    e.Fits st ∧ Event.Proper st (.asked (.cepInitRule ir m) req e) ∧ (req ≠ .Tick → ∃ ir' m', e = .cepInitRule ir' m') ∧
      (response.ignored = true → ir.uses m req = false ∧ e = .cepInitRule ir m) := by
  have proper (same : e.machine.machines = m.machines) : Event.Proper st (.asked (.cepInitRule ir m) req e) := by
    apply Event.proper_other rfl
    intro d member
    exact SMData.descends_self (same ▸ member)
  rw [stepForward] at ok
  split at ok
  next read =>
    obtain ⟨fits, same, running, ignored⟩ := initRuleStep_fits equipped read ok
    exact ⟨fits, proper same, running, ignored⟩
  next unread =>
    obtain ⟨_, _, _, ok⟩ := Process.bind_ok ok
    cases ok
    refine ⟨equipped, proper rfl, fun _ => ⟨ir, m, rfl⟩, fun _ => ⟨?_, rfl⟩⟩
    simp only [InitRule.uses, unread]

theorem cruise_fits (filled : st.Filled) (equipped : st.Equipped true m)
    (ok : ((cepCruise m).stepForward fuel req).outcome w = (.ok (response, e), w')) :
    (∃ m', e = .cepCruise m' ∧ st.Equipped true m') ∧ Event.Proper st (.asked (.cepCruise m) req e) := by
  rw [stepForward] at ok
  rw [equipped.decode_eq] at ok
  split at ok
  next read => exact cruiseStep_fits filled equipped read ok
  next unread =>
    obtain ⟨_, _, _, ok⟩ := Process.bind_ok ok
    cases ok
    refine ⟨⟨m, rfl, equipped⟩, Event.proper_other ?_ fun _ => SMData.descends_self⟩
    simp only [Event.delivered, Machine.declared, unread]

end Engine
end Halon.Cep
