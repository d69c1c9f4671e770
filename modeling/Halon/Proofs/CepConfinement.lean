import Halon.Proofs.CepSteps

/-! Machines that stay within some phases of their rule. When all programs of these phases
complete, fork nothing and jump to one another only, so does the machine, until the rule
comes to its end. What each program does to the global state adds up. -/

namespace Halon.Cep
open Library Stateful List
variable {app : Application} {s s' : EngineState app} {w w' : app.World}

/-- Whatever the program does, it forks nothing, completes with jumps as said and changes the global state as said. -/
def PhaseM.Completes (change : app.GlobalState → app.GlobalState → Prop) (jumps : List (Jump PhaseHandle) → Prop)
    (ph : PhaseM app) : Prop :=
  ∀ ⦃subs mindex l buf s w result s' w'⦄, Returns (ph.go subs mindex l buf) s w result s' w' →
    change s.engineStateGlobal s'.engineStateGlobal ∧
      ∃ l' xs value, result = (((buf, .SM_Complete l' xs), []), value) ∧ jumps xs

namespace PhaseM.Completes
variable {change : app.GlobalState → app.GlobalState → Prop} {jumps : List (Jump PhaseHandle) → Prop}

section
variable (refl : ∀ g, change g g)
include refl

theorem ret (stays : jumps []) : (PhaseM.ret a).Completes change jumps := by
  intro subs mindex l buf s w result s' w' returned
  obtain ⟨rfl, rfl, rfl⟩ := returns_ret.mp returned
  exact ⟨refl _, _, _, _, rfl, stays⟩

theorem switch (goes : jumps xs) : (PhaseM.Switch xs).Completes change jumps := by
  intro subs mindex l buf s w result s' w' returned
  obtain ⟨rfl, rfl, rfl⟩ := returns_Switch.mp returned
  exact ⟨refl _, _, _, _, rfl, goes⟩

theorem continueTo (goes : jumps [ph]) : (PhaseM.Continue ph).Completes change jumps := by
  intro subs mindex l buf s w result s' w' returned
  obtain ⟨rfl, rfl, rfl⟩ := returns_Continue.mp returned
  exact ⟨refl _, _, _, _, rfl, goes⟩

end

theorem lift (each : ∀ a, (k a).Completes change jumps) : (PhaseM.Lift m k).Completes change jumps := by
  intro subs mindex l buf s w result s' w' returned
  obtain ⟨a, v, _, returned⟩ := returns_Lift.mp returned
  exact each a returned

theorem getGlobal (each : ∀ g, (k g).Completes change jumps) :
    (PhaseM.GetGlobal k).Completes change jumps := by
  intro subs mindex l buf s w result s' w' returned
  exact each _ (returns_GetGlobal.mp returned)

theorem getLocal (each : ∀ l, (k l).Completes change jumps) :
    (PhaseM.GetLocal k).Completes change jumps := fun _ _ _ _ _ _ _ _ _ returned => each _ returned

theorem putLocal (rest : k.Completes change jumps) :
    (PhaseM.PutLocal l k).Completes change jumps := fun _ _ _ _ _ _ _ _ _ returned => rest returned

theorem modifyLocal {k : PhaseM app} (rest : k.Completes change jumps) :
    (k.modifyLocal f).Completes change jumps := getLocal fun _ => putLocal rest

theorem catchWith (trans : ∀ a b c, change a b → change b c → change a c) {f caught h next} (body : f.Completes change jumps)
    (handler : ∀ e, (h e).Completes change jumps) (rest : ∀ a, (next a).Completes change jumps) :
    (PhaseM.Catch f caught h next).Completes change jumps := by
  intro subs mindex l buf s w result s' w' returned
  have guarded {stage between v} (guards : Guards subs mindex f caught h l buf s w stage between v) :
      change s.engineStateGlobal between.engineStateGlobal ∧
        ∃ l' xs value, stage = (((buf, .SM_Complete l' xs), []), value) ∧ (value = none → jumps xs) := by
    cases guards with
    | body ran =>
      obtain ⟨changed, _, _, _, same, _⟩ := body ran
      cases same
      exact ⟨changed, _, _, _, rfl, nofun⟩
    | left ran =>
      obtain ⟨changed, _, _, _, same, goes⟩ := body ran
      cases same
      exact ⟨changed, _, _, _, rfl, fun _ => goes⟩
    | handled _ _ ran =>
      obtain ⟨changed, _, _, _, same, _⟩ := handler _ ran
      cases same
      exact ⟨changed, _, _, _, rfl, nofun⟩
    | gaveUp _ _ ran =>
      obtain ⟨changed, _, _, _, same, goes⟩ := handler _ ran
      cases same
      exact ⟨changed, _, _, _, rfl, fun _ => goes⟩
  rcases returns_Catch.mp returned with ⟨_, _, _, r, _, _, _, guards, further, rfl⟩ | ⟨_, _, guards, rfl⟩
  · obtain ⟨changed, _, _, _, same, _⟩ := guarded guards
    cases same
    obtain ⟨more, l', xs, value, rfl, goes⟩ := rest r further
    exact ⟨trans _ _ _ changed more, l', xs, value, rfl, goes⟩
  · obtain ⟨changed, l', xs, _, same, goes⟩ := guarded guards
    cases same
    exact ⟨changed, l', xs, none, rfl, goes rfl⟩

end PhaseM.Completes

def Phase.Completes (change : app.GlobalState → app.GlobalState → Prop) (jumps : List (Jump PhaseHandle) → Prop)
    (ph : Phase app) :
    Prop :=
  match ph.phCall with
  | .DirectCall action => action.Completes change jumps
  | .ContCall _ k => ∀ m, (k m).Completes change jumps

section
variable {change : app.GlobalState → app.GlobalState → Prop} {jumps : List (Jump PhaseHandle) → Prop} {fuel : Nat}
    {rule : Rule app}
  {subs : Subscribers} {smid : Nat} {l : app.LocalState} {b : Buffer app.Payload} {ph : Phase app}

theorem Phase.Completes.picked (completes : ph.Completes change jumps)
    (picks : ph.Picks l b s w action mindex rest v) : action.Completes change jumps := by
  unfold Phase.Completes at completes
  cases picks with
  | direct call =>
    rw [call] at completes
    exact completes
  | found call =>
    rw [call] at completes
    exact completes _

theorem Phase.Completes.tries (completes : ph.Completes change jumps) (trans : ∀ a b c, change a b → change b c → change a c)
    (g : app.GlobalState) : Tries fuel subs smid l b (fun s _ => change g s.engineStateGlobal)
      (fun _ results s _ => change g s.engineStateGlobal ∧
        ∃ buffer l' xs, results = [(smid, buffer, .SM_Complete l' xs)] ∧ jumps xs) ph := by
  intro s w results s' w' before returned
  rcases runPhase_picks returned with ⟨_, _, _, _, rfl, rfl⟩ | ⟨_, _, rest, v, _, picks, ran, _⟩
  · exact .inl ⟨smid, b, rfl, before⟩
  · have completes := completes.picked picks
    obtain ⟨_, _, evaluated, rfl, rfl⟩ := runPhaseM_alone (fun evaluated => by
      obtain ⟨_, _, _, _, rfl, _⟩ := completes evaluated
      rfl) ran
    obtain ⟨changed, l', xs, _, rfl, goes⟩ := completes evaluated
    refine .inr ⟨?_, ?_, rest, l', xs, rfl, goes⟩
    · intro finished member
      rw [mem_singleton.mp member]
      rfl
    · exact trans _ _ _ before changed

def Confined (rule : Rule app) (phases : List (Phase app)) (jumps : List (Jump PhaseHandle) → Prop) : Prop :=
  ∀ xs, jumps xs → ∀ jmp ∈ xs, ∀ target, rule.ps.lookup jmp.value = some target → target.value ∈ phases

variable {phases : List (Phase app)}

theorem Resolved.confined (resolved : Resolved rule xs phs)
    (confined : Confined rule phases jumps) (goes : jumps xs) : ∀ jmp ∈ phs, jmp.value ∈ phases := by
  intro jmp member
  obtain ⟨origin, inside, target, there, same, _⟩ := exists_partner resolved jmp member
  rw [same]
  exact confined xs goes origin inside target there

theorem Resolved.ne_nil (resolved : Resolved rule xs phs)
    (some : xs ≠ []) : phs ≠ [] := by
  rintro rfl
  exact some (forall₂_nil_right_iff.mp resolved)

def SM.Inside (rule : Rule app) (phases : List (Phase app)) (sm : SM app) : Prop :=
  ∃ smid l b phs, sm = .interpretInput rule smid l b phs ∧ phs ≠ [] ∧ ∀ jmp ∈ phs, jmp.value ∈ phases

theorem SM.Inside.message {sm : SM app} (inside : sm.Inside rule phases) (msg : Message app.Payload) :
    (sm.message msg).Inside rule phases := by
  obtain ⟨smid, l, b, phs, rfl, some, within⟩ := inside
  exact ⟨smid, l, _, phs, rfl, some, within⟩

/-- A step keeps the machine inside, until the rule comes to its end and starts anew. -/
theorem SM.Inside.execute {sm : SM app}
    (completes : ∀ ph ∈ phases, ph.Completes change jumps) (confined : Confined rule phases jumps) (refl : ∀ g, change g g)
    (trans : ∀ a b c, change a b → change b c → change a c) (inside : sm.Inside rule phases)
    (returned : Returns (sm.execute fuel subs) s w machines s' w') :
    change s.engineStateGlobal s'.engineStateGlobal ∧ ∃ result after, machines = [(result, after)] ∧
      if result.smResultState = .SMFinished then
        ∃ smid b start, after = .interpretInput rule smid rule.initialL b [start] ∧ start.value = rule.startPhase.value
      else after.Inside rule phases := by
  obtain ⟨smid, l, b, phs, rfl, some, within⟩ := inside
  have tries : ∀ jmp ∈ phs, Tries fuel subs smid l b _ _ jmp.value :=
    fun jmp member => (completes _ (within jmp member)).tries trans s.engineStateGlobal
  have stepped := executeStack_stepped (fun kept holds => kept.global ▸ holds) tries some (refl _) returned
  cases stepped with
  | waits _ phs' lasts here kept =>
    refine ⟨kept, _, _, here, ?_⟩
    rw [if_neg (by simp)]
    refine ⟨smid, l, b, phs', rfl, ?_, ?_⟩
    · rintro rfl
      exact some (forall₂_nil_right_iff.mp lasts)
    · intro jmp member
      obtain ⟨origin, inside, equal⟩ := exists_partner lasts jmp member
      rw [equal.1]
      exact within origin inside
  | moves jmp _ _ _ v done kept completed =>
    obtain ⟨_, buffer, l', xs, rfl, goes⟩ := done
    obtain ⟨made, _, ⟨_, _, out, follows⟩, ⟨⟩, rfl⟩ := forall₂_cons_left_iff.mp completed
    cases out
    refine ⟨by rwa [kept.global], made.1, made.2, rfl, ?_⟩
    generalize made.1.smResultState = state at follows
    generalize made.2 = after at follows
    cases follows with
    | restart start same =>
      rw [if_pos rfl]
      exact ⟨smid, buffer, start, rfl, same⟩
    | run some resolved =>
      rw [if_neg (by simp)]
      exact ⟨smid, l', buffer, _, rfl, resolved.ne_nil some, resolved.confined confined goes⟩

end

namespace SM

/-- What a machine becomes by messages and steps, in whatever states of the engine and the world, before its rule
comes to its end. -/
inductive Becomes (sm : SM app) : SM app → Prop where
  | same : Becomes sm sm
  | message {sm' : SM app} (earlier : Becomes sm sm') (msg : Message app.Payload) : Becomes sm (sm'.message msg)
  | execute {sm' after : SM app} {fuel : Nat} {subs : Subscribers} {s s' : EngineState app} {w w' : app.World}
      {machines : Machines app} {result : SMResult app.Payload} (earlier : Becomes sm sm')
      (returned : Returns (sm'.execute fuel subs) s w machines s' w') (member : (result, after) ∈ machines)
      (goes : result.smResultState ≠ .SMFinished) : Becomes sm after

def names : SM app → List String
  | .interpretInput _ _ _ _ phs => phs.map jumpPhaseName
  | _ => []

variable {change : app.GlobalState → app.GlobalState → Prop} {jumps : List (Jump PhaseHandle) → Prop} {rule : Rule app}
  {phases : List (Phase app)} {sm after : SM app}

theorem Becomes.inside (completes : ∀ ph ∈ phases, ph.Completes change jumps) (confined : Confined rule phases jumps)
    (refl : ∀ g, change g g) (trans : ∀ a b c, change a b → change b c → change a c) (inside : sm.Inside rule phases)
    (becomes : sm.Becomes after) : after.Inside rule phases := by
  induction becomes with
  | same => exact inside
  | message _ msg ih => exact ih.message msg
  | execute _ returned member goes ih =>
    obtain ⟨_, _, _, rfl, ends⟩ := ih.execute completes confined refl trans returned
    cases mem_singleton.mp member
    rw [if_neg goes] at ends
    exact ends

theorem Inside.names (inside : sm.Inside rule phases) : ∀ name ∈ sm.names, name ∈ phases.map Phase.phName := by
  obtain ⟨_, l, b, phs, rfl, _, within⟩ := inside
  intro name member
  obtain ⟨jmp, listed, rfl⟩ := mem_map.mp member
  exact mem_map_of_mem (within jmp listed)

end SM
end Halon.Cep
