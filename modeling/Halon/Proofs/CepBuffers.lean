import Halon.Proofs.CepEngine

/-! Buffers while machines run. A step only takes messages out of a machine's buffer, and
the machines forked in it start with part of that buffer. -/

namespace Halon.Cep
open Library Stateful List OrderedMap
variable {app : Application} {P : Type}

/-- Every message of the one buffer is in the other, under the same index. -/
def Buffer.Within (part whole : Buffer P) : Prop := ∀ entry ∈ part.messages, entry ∈ whole.messages

namespace Buffer.Within
variable {a b c : Buffer P}

theorem refl (b : Buffer P) : b.Within b := fun _ member => member

theorem trans (first : a.Within b) (second : b.Within c) : a.Within c := fun entry member => second entry (first entry member)

end Buffer.Within

theorem bufferDrop_within (i : Index) (b : Buffer P) : (bufferDrop i b).Within b := by
  intro entry member
  exact (OrderedMap.mem_filter.mp member).1

theorem bufferGetWithIndex_within (found : bufferGetWithIndex type idx b = some (newIdx, e, newBuf)) : newBuf.Within b := by
  simp only [bufferGetWithIndex, bind, Option.bind_eq_some_iff] at found
  obtain ⟨⟨k, m⟩, _, taken⟩ := found
  split at taken
  next =>
    cases taken
    intro entry member
    exact (OrderedMap.mem_filter.mp member).1
  next => cases taken

theorem forkBuffer_within (typ : ForkType) (mindex : Option Index) (buf : Buffer app.Payload) :
    (forkBuffer typ mindex buf).Within buf := by
  cases typ with
  | NoBuffer => exact fun entry member => absurd member (not_mem_empty entry)
  | CopyBuffer => exact .refl buf
  | CopyNewerBuffer =>
    cases mindex with
    | none => exact .refl buf
    | some idx => exact bufferDrop_within idx buf

/-- A program leaves part of its buffer, and parts of it to the actions it forks. -/
structure Shrinks (buf : Buffer app.Payload) (result : Evaluation app) : Prop where
  own : result.1.1.1.Within buf
  children : ∀ child ∈ result.1.2, child.buffer.Within buf

section
variable {s s' : EngineState app} {w w' : app.World}

namespace Shrinks
variable {buf part : Buffer app.Payload} {result : Evaluation app}

theorem ended (returned : Returns (pure (((buf, out), []), value) : EngineM app (Evaluation app)) s w result s' w') :
    Shrinks buf result := by
  obtain ⟨rfl, _, _⟩ := returns_pure.mp returned
  exact ⟨.refl buf, nofun⟩

theorem widen (shrinks : Shrinks part result) (within : part.Within buf) : Shrinks buf result :=
  ⟨shrinks.own.trans within, fun child member => (shrinks.children child member).trans within⟩

theorem append (before : Shrinks buf ((first, phs), mr)) (after : Shrinks first.1 ((z, phs'), t)) :
    Shrinks buf ((z, phs ++ phs'), t) where
  own := after.own.trans before.own
  children child member := (mem_append.mp member).elim (before.children child) fun later =>
    (after.children child later).trans before.own

end Shrinks

variable {l : app.LocalState} {buf : Buffer app.Payload} {subs : Subscribers}

theorem PhaseM.go_shrinks (subs : Subscribers) (mindex : Option Index) (ph : PhaseM app)
    (returned : Returns (ph.go subs mindex l buf) s w result s' w') : Shrinks buf result := by
  induction ph generalizing l buf s s' w w' result with
  | ret | Continue | Stop | Suspend | Switch => exact .ended returned
  | GetGlobal k ih => exact ih _ (returns_GetGlobal.mp returned)
  | GetLocal k ih => exact ih l returned
  | PutGlobal s k ih => exact ih (returns_PutGlobal.mp returned)
  | PutLocal s k ih => exact ih returned
  | Fork typ _ k _ ih =>
    obtain ⟨_, _, ran, rfl, rfl⟩ := returns_Fork.mp returned
    have shrinks := ih ran
    refine ⟨shrinks.own, ?_⟩
    intro child member
    rcases mem_cons.mp member with rfl | member
    · exact forkBuffer_within typ mindex buf
    · exact shrinks.children child member
  | Lift m k ih =>
    obtain ⟨_, _, _, returned⟩ := returns_Lift.mp returned
    exact ih _ returned
  | Publish e k ih => exact ih (returns_Publish.mp returned)
  | Peek type idx k ih =>
    rw [go] at returned
    split at returned
    next => exact .ended returned
    next => exact ih _ returned
  | Shift type idx k ih =>
    rw [go] at returned
    split at returned
    next => exact .ended returned
    next found => exact (ih _ returned).widen (bufferGetWithIndex_within found)
  | Catch f caught h next ihf ihh ihn =>
    have guarded {ended between v} (guards : Guards subs mindex f caught h l buf s w ended between v) : Shrinks buf ended := by
      cases guards with
      | body ran => exact ihf ran
      | left ran => exact ⟨.refl buf, (ihf ran).children⟩
      | handled _ _ ran | gaveUp _ _ ran =>
        have shrinks := ihh _ ran
        exact ⟨shrinks.own, shrinks.children⟩
    rcases returns_Catch.mp returned with ⟨_, _, _, r, _, _, _, guards, further, rfl⟩ | ⟨_, _, guards, rfl⟩
    · exact (guarded guards).append (ihn r further)
    · exact guarded guards

theorem consume_within (within : ∀ forked ∈ queue, forked.buffer.Within top)
    (returned : Returns (consume subs mindex fuel queue) s w results s' w') : ∀ finished ∈ results, finished.2.1.Within top := by
  revert within
  refine consume_rule ?_ ?_ returned
  · exact nofun
  intro forked queue s w evaluation between v rest s' ran others within
  have shrinks := (PhaseM.go_shrinks subs mindex _ ran).widen (within forked mem_cons_self)
  refine forall_mem_cons.mpr ⟨shrinks.own, others ?_⟩
  exact forall_mem_append.mpr ⟨fun child waiting => within child (mem_cons_of_mem _ waiting), shrinks.children⟩

theorem extractMatchMsg_within
    (returned : Returns (extractMatchMsg.go type p l buf left lastIdx) s w (some found) s' w') : found.extractBuf.Within buf := by
  induction left generalizing lastIdx s w with
  | zero =>
    obtain ⟨impossible, _, _⟩ := returns_pure.mp returned
    cases impossible
  | succ left ih =>
    rw [extractMatchMsg.go] at returned
    split at returned
    next taken =>
      simp only [returns_bind] at returned
      obtain ⟨_, _, _, _, _, _, _, _, returned⟩ := returned
      split at returned
      next =>
        obtain ⟨impossible, _, _⟩ := returns_pure.mp returned
        cases impossible
      next => exact ih returned
      next =>
        obtain ⟨same, _, _⟩ := returns_pure.mp returned
        cases same
        exact bufferGetWithIndex_within taken
    next =>
      obtain ⟨impossible, _, _⟩ := returns_pure.mp returned
      cases impossible

theorem extractSeqMsg_within {lastIdx buf} (extracted : extractSeqMsg.go lastIdx buf step = some found) :
    found.extractBuf.Within buf := by
  induction step generalizing lastIdx buf with
  | Await type k ih =>
    rw [extractSeqMsg.go] at extracted
    split at extracted
    next taken => exact (ih _ extracted).trans (bufferGetWithIndex_within taken)
    next => cases extracted
  | Emit =>
    cases extracted
    exact .refl buf
  | Error => cases extracted

theorem extractMsg_within (returned : Returns (extractMsg typ l buf) s w (some found) s' w') : found.extractBuf.Within buf := by
  cases typ with
  | PhaseMatch => exact extractMatchMsg_within returned
  | PhaseNone =>
    obtain ⟨extracted, _, _⟩ := returns_pure.mp returned
    obtain ⟨⟨idx, e, _⟩, taken, rfl⟩ := Option.map_eq_some_iff.mp extracted.symm
    exact bufferGetWithIndex_within taken
  | PhaseSeq =>
    obtain ⟨extracted, _, _⟩ := returns_pure.mp returned
    exact extractSeqMsg_within extracted.symm

theorem runPhase_within (returned : Returns (runPhase fuel subs idm l buf ph) s w results s' w') :
    ∀ finished ∈ results, finished.2.1.Within buf := by
  rcases runPhase_picks returned with ⟨_, _, _, _, rfl, _⟩ | ⟨_, _, _, _, _, picks, ran, _⟩
  · exact forall_mem_singleton.mpr (.refl buf)
  · refine consume_within (forall_mem_singleton.mpr ?_) ran
    cases picks with
    | direct => exact .refl buf
    | found _ extracts => exact extractMsg_within extracts

def SM.buffer : SM app → Buffer app.Payload
  | .bootstrap _ b => b
  | .interpretInput _ _ _ b _ => b
  | .stopped => emptyFifoBuffer

theorem SM.execute_within {sm : SM app} {machines : Machines app}
    (returned : Returns (sm.execute fuel subs) s w machines s' w') : ∀ x ∈ machines, x.2.buffer.Within sm.buffer := by
  obtain ⟨_, _, l, b, phs, _, v, enters, ran⟩ := execute_enters returned
  have own : sm.buffer = b := by cases enters <;> rfl
  rw [own]
  refine executeStack_machines runPhase_within (fun within _ _ => within) ?_ ran
  intro infos back
  cases back with
  | nil => exact fun entry member => absurd member (not_mem_empty entry)
  | cons => exact .refl b

end

/-- A machine of the same rule was there, with all messages that the machine has. -/
def SMData.Descends (listed : List (SMData app)) (d : SMData app) : Prop :=
  ∃ ancestor ∈ listed, ancestor.key = d.key ∧ d.data.ruleStack.buffer.Within ancestor.data.ruleStack.buffer

theorem SMData.descends_self {listed : List (SMData app)} {d : SMData app} (member : d ∈ listed) : d.Descends listed :=
  ⟨d, member, rfl, .refl _⟩

namespace Machine
variable {m m' m'' : Machine app} {w w' : app.World} {fuel : Nat}

/-- The rules are the same, and whether the init rule is done. -/
structure SameRules (m m' : Machine app) : Prop where
  types : m'.machTypeMap = m.machTypeMap
  stable : m'.machSFingerprint = m.machSFingerprint
  passed : m'.machInitRulePassed = m.machInitRulePassed

theorem SameRules.trans (first : SameRules m m') (second : SameRules m' m'') : SameRules m m'' :=
  ⟨second.types.trans first.types, second.stable.trans first.stable, second.passed.trans first.passed⟩

private theorem executes_descend (returned : Returns (pending.mapM (execute fuel)) m w infos m' w') :
    SameRules m m' ∧ ∀ e ∈ m'.machines, e.Descends (pending ++ m.machines) := by
  induction pending generalizing m w infos with
  | nil =>
    obtain ⟨_, rfl, _⟩ := returns_mapM_nil.mp returned
    exact ⟨⟨rfl, rfl, rfl⟩, fun e member => SMData.descends_self member⟩
  | cons d _ ih =>
    obtain ⟨_, between, _, _, executed, later, _⟩ := returns_mapM_cons.mp returned
    obtain ⟨_, _, ran, _, kept, _, reached⟩ := returns_execute executed
    obtain ⟨rules, descend⟩ := ih later
    have first : SameRules m between := by
      rw [reached]
      exact ⟨rfl, rfl, rfl⟩
    refine ⟨first.trans rules, ?_⟩
    intro e member
    obtain ⟨ancestor, listed, same, within⟩ := descend e member
    rcases mem_append.mp listed with waiting | listed
    · exact ⟨ancestor, mem_append_left _ (mem_cons_of_mem _ waiting), same, within⟩
    · rcases mem_append.mp (kept.mem_iff.mp listed) with left | old
      · obtain ⟨x, result, _, rfl⟩ := mem_left left
        exact ⟨d, mem_append_left _ mem_cons_self, same, within.trans (SM.execute_within ran x result)⟩
      · exact ⟨ancestor, mem_append_right _ old, same, within⟩

theorem executeTick_descends (returned : Returns (executeTick fuel) m w infos m' w') :
    SameRules m m' ∧ ∀ e ∈ m'.machines, e.Descends m.machines := by
  obtain ⟨_, _, _, ran, rfl⟩ := executeTick_executes returned
  obtain ⟨rules, descend⟩ := executes_descend ran
  exact ⟨{ rules with }, descend⟩

theorem timeoutArrived_same (ts : Int) (st : Machine app) :
    SameRules st (st.timeoutArrived ts).2 ∧ (st.timeoutArrived ts).2.machines.Perm st.machines :=
  wake_rule (P := fun nst => SameRules st nst ∧ nst.machines.Perm st.machines) ⟨⟨rfl, rfl, rfl⟩, .refl _⟩
    fun kept same => ⟨⟨rfl, rfl, rfl⟩, same.trans kept.2⟩

end Machine
end Halon.Cep
