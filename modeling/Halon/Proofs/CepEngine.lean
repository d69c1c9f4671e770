import Halon.Proofs.CepIsolation
import Halon.Library.Runs

/-! The machines of the engine over whole runs. As long as every phase that forks
settles, the ids of all machines are distinct. -/

namespace Halon.Cep
open Library Stateful List
variable {app : Application}

def SMData.Bound (d : SMData app) : Prop :=
  match d.data.ruleStack with
  | .bootstrap .. => True
  | .interpretInput _ smid .. => smid = d.smId
  | .stopped => False

namespace Machine

def machines (m : Machine app) : List (SMData app) := m.machRunningSM ++ m.machSuspendedSM

/-- The listed machines, which may be waiting for their turn in a tick, have distinct ids that were all handed out. -/
structure Valid (bound : Nat) (listed : List (SMData app)) : Prop where
  distinct : (listed.map SMData.smId).Nodup
  below : ∀ d ∈ listed, d.smId < bound
  bound : ∀ d ∈ listed, d.Bound

end Machine

theorem SM.execute_ids {d : SMData app} {s s' : EngineState app}
    {machines : Machines app} (bound : d.Bound) (below : d.smId < s.engineStateMaxId)
    (settles : d.data.ruleStack.Settles fuel subs s w)
    (returned : Returns (d.data.ruleStack.execute fuel subs) s w machines s' w') :
    s.engineStateMaxId ≤ s'.engineStateMaxId ∧ (machines.map fun x => x.1.smId).Nodup ∧
      ∀ x ∈ machines, x.1.smId < s'.engineStateMaxId ∧ (x.1.smId = d.smId ∨ s.engineStateMaxId ≤ x.1.smId) := by
  obtain ⟨isolated, _⟩ := SM.execute_isolated settles returned
  obtain ⟨_, fresh, ids⟩ := isolated.added
  have identity : (d.data.ruleStack.identity s).1 < (d.data.ruleStack.identity s).2 ∧
      s.engineStateMaxId ≤ (d.data.ruleStack.identity s).2 ∧
      ((d.data.ruleStack.identity s).1 = d.smId ∨ s.engineStateMaxId ≤ (d.data.ruleStack.identity s).1) := by
    unfold SMData.Bound at bound
    split at bound
    next found => simp [found, SM.identity]
    next found => simp [found, SM.identity, bound, below]
    next => exact bound.elim
  obtain ⟨_, _, own⟩ := identity
  have grows := fresh.grows
  refine ⟨by omega, ?_, ?_⟩
  · rw [ids.nodup_iff, nodup_cons]
    exact ⟨fun member => absurd (fresh.mem member).1 (by omega), fresh.nodup⟩
  · intro x member
    rcases mem_cons.mp (ids.mem_iff.mp (mem_map_of_mem member)) with same | child
    · rw [same]
      exact ⟨by omega, own⟩
    · have range := fresh.mem child
      exact ⟨range.2, .inr (by omega)⟩

namespace Machine
variable {m m' : Machine app} {w w' : app.World} {fuel : Nat}

variable {d : SMData app} {info : RuleInfo app.Payload} {st : Machine app}

theorem Valid.perm (valid : Valid limit listed) (same : others.Perm listed) :
    Valid limit others where
  distinct := (same.map SMData.smId).nodup_iff.mpr valid.distinct
  below d member := valid.below d (same.mem_iff.mp member)
  bound d member := valid.bound d (same.mem_iff.mp member)

def left (d : SMData app) (results : Machines app) : List (SMData app) :=
  ((results.filter fun x => x.1.smResultState = .SMRunning ∨ x.1.smResultState = .SMFinished) ++
    results.filter fun x => x.1.smResultState = .SMSuspended).map fun x => ⟨x.1.smId, d.key, { d.data with ruleStack := x.2 }⟩

private theorem addMachines_perm (d : SMData app) (results : Machines app) (m : Machine app) :
    (addMachines d results m).machines.Perm (left d results ++ m.machines) := by
  simp only [machines, addMachines, left, map_append, append_assoc]
  apply List.Perm.append_left
  rw [← append_assoc, ← append_assoc]
  exact perm_append_comm.append_right _

private theorem left_distinct (distinct : (results.map fun x => x.1.smId).Nodup) :
    ((left d results).map SMData.smId).Nodup := by
  have others : (results.filter fun x => x.1.smResultState = .SMSuspended).Sublist
      (results.filter fun x => !decide (x.1.smResultState = .SMRunning ∨ x.1.smResultState = .SMFinished)) := by
    apply monotone_filter_right
    intro x suspended
    simp only [decide_eq_true_eq] at suspended
    simp [suspended]
  have whole := filter_append_perm (fun x => decide (x.1.smResultState = .SMRunning ∨ x.1.smResultState = .SMFinished)) results
  have nodup := (whole.map fun x => x.1.smId).nodup_iff.mpr distinct
  rw [left, map_map]
  exact nodup.sublist ((others.append_left _).map _)

theorem mem_left {e : SMData app} {results : Machines app} (member : e ∈ left d results) :
    ∃ x ∈ results, x.1.smResultState ≠ .SMStopped ∧ e = ⟨x.1.smId, d.key, { d.data with ruleStack := x.2 }⟩ := by
  obtain ⟨x, inside, rfl⟩ := mem_map.mp member
  refine ⟨x, ?_, ?_, rfl⟩
  · rcases mem_append.mp inside with active | suspended
    · exact mem_of_mem_filter active
    · exact mem_of_mem_filter suspended
  · intro stopped
    simp [stopped] at inside

theorem returns_execute (returned : Returns (execute fuel d) m w info m' w') :
    ∃ results part, Returns (d.data.ruleStack.execute fuel m.machSubs) m.engineState w results part w' ∧
      m'.machMaxThreadId = part.engineStateMaxId ∧ m'.machines.Perm (left d results ++ m.machines) ∧
      info.ruleResults = (results.map fun x => (x.1.smResultState, x.1.smResultInfo)) ∧
      m' = addMachines d results (setEngineState part m) := by
  rw [execute, returns_get_bind, returns_bind] at returned
  obtain ⟨results, _, _, zoomed, returned⟩ := returned
  rw [returns_modify_bind, returns_pure] at returned
  obtain ⟨part, ran, rfl⟩ := returns_zoom.mp zoomed
  obtain ⟨rfl, rfl, rfl⟩ := returned
  exact ⟨results, part, ran, rfl, addMachines_perm d results _, rfl, rfl⟩

theorem execute_valid (valid : Valid m.machMaxThreadId (d :: pending ++ m.machines))
    (settles : d.data.ruleStack.Settles fuel m.machSubs m.engineState w) (returned : Returns (execute fuel d) m w info m' w') :
    Valid m'.machMaxThreadId (pending ++ m'.machines) := by
  obtain ⟨results, part, ran, limit, kept, _⟩ := returns_execute returned
  rw [limit]
  have first : d ∈ d :: pending ++ m.machines := by simp
  obtain ⟨grows, distinct, ids⟩ := SM.execute_ids (valid.bound d first) (valid.below d first) settles ran
  obtain ⟨_, owned⟩ := SM.execute_isolated settles ran
  have rest (e : SMData app) (member : e ∈ pending ++ m.machines) : e ∈ d :: pending ++ m.machines := mem_cons_of_mem _ member
  have others := nodup_cons.mp valid.distinct
  have next : Valid part.engineStateMaxId (left d results ++ (pending ++ m.machines)) := by
    constructor
    · rw [map_append, nodup_append]
      refine ⟨left_distinct distinct, others.2, ?_⟩
      intro id new other old same
      obtain ⟨e, member, rfl⟩ := mem_map.mp new
      obtain ⟨x, result, _, rfl⟩ := mem_left member
      obtain ⟨f, listed, rfl⟩ := mem_map.mp old
      have equal : x.1.smId = f.smId := same
      rcases (ids x result).2 with own | later
      · apply others.1
        rw [← own, equal]
        exact mem_map_of_mem listed
      · have low := valid.below f (rest f listed)
        have high : m.machMaxThreadId ≤ x.1.smId := later
        omega
    · intro e member
      rcases mem_append.mp member with new | old
      · obtain ⟨x, result, _, rfl⟩ := mem_left new
        exact (ids x result).1
      · exact (valid.below e (rest e old)).trans_le grows
    · intro e member
      rcases mem_append.mp member with new | old
      · obtain ⟨x, result, unstopped, rfl⟩ := mem_left new
        obtain ⟨_, l, b, phs, same⟩ := (owned x result).resolve_left unstopped
        simp [SMData.Bound, same]
      · exact valid.bound e (rest e old)
  refine next.perm ((kept.append_left pending).trans ?_)
  rw [← append_assoc, ← append_assoc]
  exact perm_append_comm.append_right _

theorem Valid.map {f : SMData app → SMData app} (valid : Valid limit listed) (ids : ∀ d, (f d).smId = d.smId)
    (bound : ∀ d, d.Bound → (f d).Bound) : Valid limit (listed.map f) := by
  constructor
  · rw [map_map, map_congr_left fun d _ => show (SMData.smId ∘ f) d = d.smId from ids d]
    exact valid.distinct
  · intro e member
    obtain ⟨d, inside, rfl⟩ := mem_map.mp member
    rw [ids]
    exact valid.below d inside
  · intro e member
    obtain ⟨d, inside, rfl⟩ := mem_map.mp member
    exact bound d (valid.bound d inside)

theorem Valid.grow (valid : Valid limit listed) (grows : limit ≤ more) : Valid more listed :=
  ⟨valid.distinct, fun d member => (valid.below d member).trans_le grows, valid.bound⟩

def TickSettles (fuel : Nat) : List (SMData app) → Machine app → app.World → Prop
  | [], _, _ => True
  | d :: pending, m, w => d.data.ruleStack.Settles fuel m.machSubs m.engineState w ∧
    ∀ info m' w', Returns (execute fuel d) m w info m' w' → TickSettles fuel pending m' w'

private theorem executes_valid (valid : Valid m.machMaxThreadId (pending ++ m.machines)) (settles : TickSettles fuel pending m w)
    (returned : Returns (pending.mapM (execute fuel)) m w infos m' w') : Valid m'.machMaxThreadId m'.machines := by
  induction pending generalizing m w infos with
  | nil =>
    obtain ⟨_, rfl, _⟩ := returns_mapM_nil.mp returned
    exact valid
  | cons d _ ih =>
    obtain ⟨_, _, _, _, ran, later, _⟩ := returns_mapM_cons.mp returned
    apply ih (execute_valid valid settles.1 ran) _ later
    exact settles.2 _ _ _ ran

theorem executeTick_executes (returned : Returns (executeTick fuel) m w infos m' w') :
    ∃ between v g, Returns (m.machRunningSM.mapM (execute fuel)) { m with machRunningSM := [] } w infos between v ∧
      m' = { between with machState := g } := by
  rw [executeTick, returns_get_bind, returns_modify_bind, returns_bind] at returned
  obtain ⟨_, _, v, ran, returned⟩ := returned
  rw [returns_get_bind] at returned
  split at returned
  next =>
    obtain ⟨rfl, rfl, _⟩ := returns_pure.mp returned
    exact ⟨_, v, _, ran, rfl⟩
  next =>
    rw [returns_bind] at returned
    obtain ⟨g, _, _, lifted, returned⟩ := returned
    obtain ⟨_, rfl⟩ := returns_lift.mp lifted
    rw [returns_modify_bind] at returned
    obtain ⟨rfl, rfl, _⟩ := returns_pure.mp returned
    exact ⟨_, v, g, ran, rfl⟩

theorem executeTick_valid (valid : Valid m.machMaxThreadId m.machines)
    (settles : TickSettles fuel m.machRunningSM { m with machRunningSM := [] } w)
    (returned : Returns (executeTick fuel) m w infos m' w') : Valid m'.machMaxThreadId m'.machines := by
  obtain ⟨between, _, _, ran, rfl⟩ := executeTick_executes returned
  have kept : Valid between.machMaxThreadId between.machines := by
    apply executes_valid _ settles ran
    exact valid
  exact kept

theorem split_perm {α : Type} (chosen : α → Bool) (front items : List α) :
    (front ++ items.filter chosen ++ items.filter fun item => !chosen item).Perm (front ++ items) := by
  rw [append_assoc]
  exact (filter_append_perm chosen items).append_left front

theorem wake_rule {P : Machine app → Prop} {ts left c} (initial : P nst)
    (wakes : ∀ {nst running suspended events}, P nst → (running ++ suspended).Perm nst.machines →
      P { st with machRunningSM := running, machSuspendedSM := suspended, machEvents := events }) :
      P (wake st ts left c nst).2 := by
  induction left generalizing c nst with
  | zero => exact initial
  | succ left ih =>
    unfold wake
    split
    next => exact initial
    next key _ =>
      split
      next => exact initial
      next =>
        refine ih (wakes initial ?_)
        have woken := split_perm (fun d : SMData app => decide (key = d.key)) nst.machRunningSM nst.machSuspendedSM
        simpa [machines] using woken

theorem timeoutArrived_valid (valid : Valid st.machMaxThreadId st.machines) :
    Valid (st.timeoutArrived ts).2.machMaxThreadId (st.timeoutArrived ts).2.machines := by
  have kept : (st.timeoutArrived ts).2.machMaxThreadId = st.machMaxThreadId ∧
      Valid st.machMaxThreadId (st.timeoutArrived ts).2.machines :=
    wake_rule (P := fun nst => nst.machMaxThreadId = st.machMaxThreadId ∧ Valid st.machMaxThreadId nst.machines) ⟨rfl, valid⟩
      fun kept same => ⟨rfl, kept.2.perm same⟩
  exact kept.1 ▸ kept.2

private theorem message_bound (msg : Message app.Payload) (bound : d.Bound) :
    SMData.Bound { d with data := { d.data with ruleStack := d.data.ruleStack.message msg } } := by
  unfold SMData.Bound at bound ⊢
  cases found : d.data.ruleStack with
  | bootstrap => exact trivial
  | interpretInput => simpa [found, SM.message] using bound
  | stopped => simp [found] at bound

def offer (st : Machine app) (msg : Message app.Payload) (d : SMData app) : SMData app :=
  if d.key ∈ (st.machTypeMap.lookup msg.fingerprint).getD [] then
    { d with data := { d.data with ruleStack := d.data.ruleStack.message msg } }
  else d

theorem incoming_perm (st : Machine app) (msg : Message app.Payload) :
    (st.incoming msg).2.machines.Perm (st.machines.map (st.offer msg)) := by
  let interested (d : SMData app) : Bool := d.key ∈ (st.machTypeMap.lookup msg.fingerprint).getD []
  let feed (d : SMData app) : SMData app := { d with data := { d.data with ruleStack := d.data.ruleStack.message msg } }
  have offered : st.offer msg = fun d => if interested d then feed d else d := by
    funext d
    simp [offer, interested, feed]
  have fed : (st.machSuspendedSM.filter interested).map feed = (st.machSuspendedSM.filter interested).map (st.offer msg) := by
    rw [offered]
    apply map_congr_left
    intro d member
    simp [(mem_filter.mp member).2]
  have left : (st.machSuspendedSM.filter fun d => !interested d) =
      (st.machSuspendedSM.filter fun d => !interested d).map (st.offer msg) := by
    rw [offered]
    refine (map_id _).symm.trans (map_congr_left ?_)
    intro d member
    have other := (mem_filter.mp member).2
    simp [(Bool.not_eq_true' _).mp other]
  change (st.machRunningSM.map (fun d => if interested d then feed d else d) ++ (st.machSuspendedSM.filter interested).map feed ++
    st.machSuspendedSM.filter fun d => !interested d).Perm (st.machines.map (st.offer msg))
  rw [← offered, fed, left, machines, ← map_append, ← map_append]
  exact (split_perm interested st.machRunningSM st.machSuspendedSM).map (st.offer msg)

theorem incoming_valid (msg : Message app.Payload) (valid : Valid st.machMaxThreadId st.machines) :
    Valid (st.incoming msg).2.machMaxThreadId (st.incoming msg).2.machines := by
  have offered : Valid st.machMaxThreadId (st.machines.map (st.offer msg)) := by
    apply valid.map
    · intro d
      unfold offer
      split <;> rfl
    · intro d bound
      unfold offer
      split
      next => exact message_bound msg bound
      next => exact bound
  exact offered.perm (st.incoming_perm msg)

end Machine
end Halon.Cep
