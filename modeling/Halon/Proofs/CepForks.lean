import Halon.Proofs.CepPrograms

/-! The ids that forks hand out. Running a phase gives every forked action an id of
its own, and the ids handed out in between are exactly those of the actions. -/

namespace Halon.Cep
open Library Stateful List
variable {app : Application}

/-- Ids handed out one after another, each to one owner. -/
structure Fresh (before after : Nat) (ids : List Nat) : Prop where
  grows : before ≤ after
  owned : ids.Perm (List.range' before (after - before))

namespace Fresh

theorem none (a : Nat) : Fresh a a [] := ⟨le_refl a, by simp⟩

theorem append (first : Fresh a b ids) (second : Fresh b c others) : Fresh a c (ids ++ others) := by
  refine ⟨first.grows.trans second.grows, (first.owned.append second.owned).trans ?_⟩
  have split := List.range'_append_1 (s := a) (m := b - a) (n := c - b)
  rw [Nat.add_sub_cancel' first.grows] at split
  have total : b - a + (c - b) = c - a := by
    have := first.grows
    have := second.grows
    omega
  rw [split, total]

theorem next (fresh : Fresh a b ids) : Fresh a (b + 1) (b :: ids) := by
  have one : Fresh b (b + 1) [b] := ⟨Nat.le_succ b, by simp⟩
  exact ⟨(fresh.append one).grows, (perm_append_singleton b ids).symm.trans (fresh.append one).owned⟩

theorem perm (fresh : Fresh a b ids) (same : others.Perm ids) : Fresh a b others := ⟨fresh.grows, same.trans fresh.owned⟩

theorem mem (fresh : Fresh a b ids) {id} (member : id ∈ ids) : a ≤ id ∧ id < b := by
  have inside := fresh.owned.mem_iff.mp member
  rw [mem_range'_1] at inside
  have := fresh.grows
  omega

theorem same (fresh : Fresh a b []) : b = a := by
  have grows := fresh.grows
  have count := fresh.owned.length_eq
  rw [length_nil, length_range'] at count
  omega

theorem nodup (fresh : Fresh a b ids) : ids.Nodup := fresh.owned.nodup_iff.mpr nodup_range'

end Fresh

namespace PhaseM

/-- A run of the program may fork the action. Actions forked by that action in turn do not count. -/
def Forks (action : PhaseM app) : PhaseM app → Prop
  | .ret _ | .Continue _ | .Stop | .Suspend | .Switch _ => False
  | .GetGlobal k => ∃ g, Forks action (k g)
  | .GetLocal k => ∃ l, Forks action (k l)
  | .PutGlobal _ k | .PutLocal _ k | .Publish _ k => Forks action k
  | .Fork _ naction k => action = naction ∨ Forks action k
  | .Lift _ k => ∃ a, Forks action (k a)
  | .Peek _ _ k | .Shift _ _ k => ∃ r, Forks action (k r)
  | .Catch f _ h next => Forks action f ∨ (∃ e, Forks action (h e)) ∨ ∃ r, Forks action (next r)

/-- The program handed out the ids of the actions that it forked. -/
structure Evaluated (ph : PhaseM app) (before after : Nat) (forked : List (Forked app)) : Prop where
  fresh : Fresh before after (forked.map Forked.smId)
  forks : ∀ child ∈ forked, Forks child.action ph

namespace Evaluated
variable {ph other : PhaseM app}

theorem mono (evaluated : Evaluated ph a b forked) (part : ∀ action, Forks action ph → Forks action other) :
    Evaluated other a b forked :=
  ⟨evaluated.fresh, fun child member => part _ (evaluated.forks child member)⟩

theorem append (first : Evaluated ph a b forked) (second : Evaluated ph b c others) : Evaluated ph a c (forked ++ others) where
  fresh := by
    rw [map_append]
    exact first.fresh.append second.fresh
  forks child member := (mem_append.mp member).elim (first.forks child) (second.forks child)

end Evaluated

variable {s s' : EngineState app} {w w' : app.World} {result : Evaluation app}

private theorem finished (forkless : final.1.2 = [])
    (returned : Returns (pure final : EngineM app (Evaluation app)) s w result s' w') :
    Evaluated ph s.engineStateMaxId s'.engineStateMaxId result.1.2 := by
  obtain ⟨rfl, rfl, rfl⟩ := returns_pure.mp returned
  rw [forkless]
  exact ⟨Fresh.none _, nofun⟩

theorem go_evaluated (subs : Subscribers) (mindex : Option Index) (ph : PhaseM app)
    (returned : Returns (ph.go subs mindex l buf) s w result s' w') :
    Evaluated ph s.engineStateMaxId s'.engineStateMaxId result.1.2 := by
  induction ph generalizing l buf s s' w w' result with
  | ret | Continue | Stop | Suspend | Switch => exact finished rfl returned
  | GetGlobal k ih => exact (ih _ (returns_GetGlobal.mp returned)).mono fun _ forks => ⟨_, forks⟩
  | GetLocal k ih => exact (ih l returned).mono fun _ forks => ⟨_, forks⟩
  | PutGlobal s k ih =>
    have evaluated := ih (returns_PutGlobal.mp returned)
    exact evaluated.mono fun _ forks => forks
  | PutLocal s k ih => exact (ih returned).mono fun _ forks => forks
  | Fork typ _ k _ ih =>
    obtain ⟨_, _, ran, rfl, rfl⟩ := returns_Fork.mp returned
    have evaluated := ih ran
    refine ⟨evaluated.fresh.next, ?_⟩
    intro child member
    rcases mem_cons.mp member with rfl | member
    · exact .inl rfl
    · exact .inr (evaluated.forks child member)
  | Lift m k ih =>
    obtain ⟨_, _, _, returned⟩ := returns_Lift.mp returned
    exact (ih _ returned).mono fun _ forks => ⟨_, forks⟩
  | Publish e k ih => exact (ih (returns_Publish.mp returned)).mono fun _ forks => forks
  | Peek type idx k ih | Shift type idx k ih =>
    rw [go] at returned
    split at returned
    next => exact finished rfl returned
    next => exact (ih _ returned).mono fun _ forks => ⟨_, forks⟩
  | Catch f caught h next ihf ihh ihn =>
    have guarded {ended between v} (guards : Guards subs mindex f caught h l buf s w ended between v) :
        Evaluated (.Catch f caught h next) s.engineStateMaxId between.engineStateMaxId ended.1.2 := by
      cases guards with
      | body ran | left ran => exact (ihf ran).mono fun _ forks => .inl forks
      | handled _ _ ran | gaveUp _ _ ran => exact (ihh _ ran).mono fun _ forks => .inr (.inl ⟨_, forks⟩)
    rcases returns_Catch.mp returned with ⟨_, _, _, r, _, _, _, guards, further, rfl⟩ | ⟨_, _, guards, rfl⟩
    · exact (guarded guards).append ((ihn r further).mono fun _ forks => .inr (.inr ⟨r, forks⟩))
    · exact guarded guards

end PhaseM

variable {s s' : EngineState app} {w w' : app.World}

/-- The computation does not run out of steps. -/
def Answers {α : Type} (x : EngineM app α) : Prop := ∀ s w w', ¬ Fails x s w .exhausted w'

theorem Answers.bind {α β : Type} {x} {f : α → EngineM app β} (first : Answers x)
    (rest : ∀ value, Answers (f value)) : Answers (x >>= f) := by
  intro s w w' failed
  rcases fails_bind.mp failed with failed | ⟨value, _, _, _, failed⟩
  · exact first _ _ _ failed
  · exact rest value _ _ _ failed

/-- The computation hands out no id and does not run out of steps. -/
structure Quiet {α : Type} (x : EngineM app α) : Prop where
  same : ∀ {s w value s' w'}, Returns x s w value s' w' → s'.engineStateMaxId = s.engineStateMaxId
  answers : Answers x

namespace Quiet
variable {α β : Type}

theorem pure (value : α) : Quiet (pure value : EngineM app α) where
  same returned := by rw [(returns_pure.mp returned).2.1]
  answers _ _ _ := not_fails_pure

theorem throw (other : error ≠ .exhausted) : Quiet (throw error : EngineM app α) where
  same returned := absurd returned not_returns_throw
  answers _ _ _ failed := other (fails_throw.mp failed).1.symm

theorem lift {m : Process app.World (Failure app) α} (answers : ∀ w w', m.outcome w ≠ (.error .exhausted, w')) :
    Quiet (liftM m : EngineM app α) where
  same returned := by rw [(returns_lift.mp returned).2]
  answers _ _ _ failed := answers _ _ (fails_lift.mp failed)

theorem get : Quiet (get : EngineM app (EngineState app)) where
  same returned := by rw [(returns_get.mp returned).2.1]
  answers _ _ _ := not_fails_get

theorem modify (same : ∀ s, (g s).engineStateMaxId = s.engineStateMaxId) :
    Quiet (modify g : EngineM app PUnit) where
  same returned := by rw [(returns_modify.mp returned).1, same]
  answers _ _ _ := not_fails_modify

variable {f : α → EngineM app β}

theorem bind {x} (first : Quiet x) (rest : ∀ value, Quiet (f value)) : Quiet (x >>= f) where
  same returned := by
    obtain ⟨value, _, _, returned, later⟩ := returns_bind.mp returned
    rw [(rest value).same later, first.same returned]
  answers := first.answers.bind fun value => (rest value).answers

theorem attempt (quiet : Quiet x) : Quiet (attempt x) where
  same returned := by
    rcases returns_attempt.mp returned with ⟨_, _, returned⟩ | ⟨_, _, same, _⟩
    · exact quiet.same returned
    · rw [same]
  answers _ _ _ := not_fails_attempt

theorem mapM (quiet : ∀ item, Quiet (f item)) (items : List α) : Quiet (items.mapM f) := by
  induction items with
  | nil => exact pure []
  | cons item _ ih =>
    rw [mapM_cons]
    exact (quiet item).bind fun first => ih.bind fun rest => pure _

theorem forM {f : α → EngineM app PUnit} (quiet : ∀ item, Quiet (f item)) (items : List α) : Quiet (items.forM f) := by
  induction items with
  | nil => exact pure _
  | cons item _ ih => exact (quiet item).bind fun _ => ih

theorem process (m : Process app.World app.Exception α) : Quiet (liftM (liftProcess m) : EngineM app α) := by
  apply lift
  intro w w' failed
  rw [liftProcess_outcome] at failed
  split at failed <;> cases failed

theorem notify (subs : Subscribers) (e : Message app.Payload) : Quiet (liftM (notifySubscribers subs e) : EngineM app Unit) := by
  apply lift
  intro w w' failed
  cases failed

theorem addEvent (key : RuleKey) (t : Time) : Quiet (addEvent key t : EngineM app Time) := by
  refine (lift ?_).bind fun t' => bind ?_ fun _ => pure _
  · intro w w' failed
    cases t <;> cases failed
  · exact modify fun _ => rfl

theorem jumpApplyTime (key : RuleKey) (jmp : Jump α) : Quiet (jumpApplyTime key jmp : EngineM app (Jump α ⊕ α)) := by
  cases jmp with
  | NormalJump => exact pure _
  | OnTimeJump p =>
    apply get.bind
    intro state
    cases p with
    | Absolute =>
      dsimp only
      split
      next => exact (addEvent key _).bind fun _ => pure _
      next => exact pure _
    | Relative => exact (addEvent key _).bind fun _ => pure _

theorem jumpEmitTimeout (key : RuleKey) (jmp : Jump α) : Quiet (jumpEmitTimeout key jmp : EngineM app (Jump α)) := by
  apply (jumpApplyTime key jmp).bind
  intro applied
  split
  next => exact (addEvent key _).bind fun _ => pure _
  next => exact pure _
  next => exact pure _

theorem mkPhase (rule : Rule app) (jmp : Jump PhaseHandle) : Quiet (mkPhase rule jmp) := by
  unfold Cep.mkPhase
  split
  next => exact pure _
  next => exact throw (by simp)

theorem extractMatchMsg_go (type : Nat) (p : Message app.Payload → app.GlobalState → app.LocalState →
    Process app.World app.Exception (Option (Message app.Payload))) (l : app.LocalState) (buf : Buffer app.Payload)
    (left : Nat) (idx : Index) : Quiet (extractMatchMsg.go type p l buf left idx) := by
  induction left generalizing idx with
  | zero => exact pure _
  | succ left ih =>
    unfold extractMatchMsg.go
    split
    next =>
      refine get.bind fun state => (attempt (process _)).bind fun tried => ?_
      split
      next => exact pure _
      next => exact ih _
      next => exact pure _
    next => exact pure _

theorem extractMsg (typ : PhaseType app) (l : app.LocalState) (buf : Buffer app.Payload) : Quiet (extractMsg typ l buf) := by
  cases typ with
  | PhaseMatch type p => exact extractMatchMsg_go type p l buf _ _
  | PhaseNone | PhaseSeq => exact pure _

end Quiet

variable {subs : Subscribers}

theorem consume_fresh (returned : Returns (consume subs mindex fuel queue) s w results s' w') :
    ∃ added, Fresh s.engineStateMaxId s'.engineStateMaxId added ∧
      (results.map Prod.fst).Perm (queue.map Forked.smId ++ added) := by
  refine consume_rule ?_ ?_ returned
  · exact fun s => ⟨[], Fresh.none _, List.Perm.refl _⟩
  rintro forked queue s w evaluation between v rest s' ran ⟨added, others, owners⟩
  have fresh := (PhaseM.go_evaluated subs mindex _ ran).fresh
  rw [apply_ite EngineState.engineStateMaxId, ite_self] at others
  refine ⟨_, fresh.append others, ?_⟩
  rw [map_append, append_assoc] at owners
  exact owners.cons forked.smId

theorem runPhaseM_fresh (returned : Returns (runPhaseM fuel subs idm l mindex buf action) s w results s' w') :
    ∃ out rest, results = (idm, out) :: rest ∧ Fresh s.engineStateMaxId s'.engineStateMaxId (rest.map Prod.fst) := by
  obtain ⟨_, evaluation, _, _, rest, _, _, rfl⟩ := consume_first returned
  obtain ⟨_, fresh, owners⟩ := consume_fresh returned
  exact ⟨evaluation.1.1, rest, rfl, fresh.perm owners.cons_inv⟩

theorem runPhase_fresh (returned : Returns (runPhase fuel subs idm l buf ph) s w results s' w') :
    ∃ out rest, results = (idm, out) :: rest ∧ Fresh s.engineStateMaxId s'.engineStateMaxId (rest.map Prod.fst) := by
  rcases runPhase_picks returned with ⟨_, _, _, _, rfl, rfl⟩ | ⟨_, _, _, _, _, _, ran, _⟩
  · exact ⟨_, [], rfl, Fresh.none _⟩
  · exact runPhaseM_fresh ran

end Halon.Cep
