import Halon.Library.Chain
import Halon.Log.System

/-! The log that the decided values make up, and what the parts of a replica must
have to do with it. A decree is reached when every entry before it is decided, and
its legislature is the one that the reconfigurations among these entries opened. -/

namespace Halon.Log
open Library

variable {A S : Type}

abbrev Ledger (A : Type) := DecreeId → Option (Value A)

def follow (di : DecreeId) (v : Value A) : DecreeId :=
  ⟨if isReconf v then di.decreeLegislatureId + 1 else di.decreeLegislatureId, di.decreeNumber + 1⟩

def Reached (k : Ledger A) (di : DecreeId) : Prop := ∃ n, Chain.walk initialDecreeId follow k n = some di

def Entry (k : Ledger A) (n : Int) (v : Value A) : Prop := ∃ di, Reached k di ∧ di.decreeNumber = n ∧ k di = some v

/-- The membership that the group started with, or that of a reconfiguration in the log. -/
def Configured (k : Ledger A) (legD : DecreeId) (ρs : List Nat) : Prop :=
  legD = ⟨0, -1⟩ ∨ Entry k legD.decreeNumber (.Reconf legD.decreeLegislatureId ρs)

/-- Values are proposed for decrees that were reached, and reconfigurations open the next legislature. -/
def Proposed (k : Ledger A) (di : DecreeId) (v : Value A) : Prop :=
  Reached k di ∧ ∀ leg ρs, v = .Reconf leg ρs → leg = di.decreeLegislatureId + 1

section
variable {k more : Ledger A} {di dj : DecreeId} {n : Int}

private theorem walk_bounds (here : Chain.walk initialDecreeId follow k steps = some di) :
    di.decreeNumber = steps ∧ 0 ≤ di.decreeLegislatureId := by
  refine Chain.walk_invariant (fun steps di => di.decreeNumber = (steps : Int) ∧ 0 ≤ di.decreeLegislatureId) ?_ ?_ here
  · exact ⟨rfl, le_refl 0⟩
  · intro steps position choice kept
    have opened : position.decreeLegislatureId ≤ (follow position choice).decreeLegislatureId := by
      unfold follow
      split <;> dsimp only <;> omega
    have number : (follow position choice).decreeNumber = position.decreeNumber + 1 := rfl
    exact ⟨by omega, by omega⟩

theorem Reached.unique (first : Reached k di) (second : Reached k dj) (same : di.decreeNumber = dj.decreeNumber) : di = dj := by
  obtain ⟨m, here⟩ := first
  obtain ⟨n, there⟩ := second
  have equal : m = n := by
    have left := (walk_bounds here).1
    have right := (walk_bounds there).1
    omega
  subst equal
  exact Option.some.inj (here.symm.trans there)

theorem Reached.initial : Reached k ⟨0, 0⟩ := ⟨0, rfl⟩

theorem Reached.legislature (reached : Reached k di) : 0 ≤ di.decreeLegislatureId := by
  obtain ⟨n, here⟩ := reached
  exact (walk_bounds here).2

theorem Reached.follow (reached : Reached k di) (decided : k di = some v) : Reached k (follow di v) := by
  obtain ⟨n, here⟩ := reached
  exact ⟨n + 1, Chain.walk_succ here decided⟩

theorem Reached.decided (reached : Reached k di) (entry : Entry k di.decreeNumber v) : k di = some v := by
  obtain ⟨dj, also, same, decided⟩ := entry
  rw [reached.unique also same.symm]
  exact decided

theorem Entry.unique (first : Entry k n v) (second : Entry k n other) : v = other := by
  obtain ⟨di, reached, rfl, decided⟩ := first
  exact Option.some.inj (decided.symm.trans (reached.decided second))

theorem Reached.grow (reached : Reached k di) (grows : Chain.Grows k more) : Reached more di := by
  obtain ⟨n, here⟩ := reached
  exact ⟨n, Chain.walk_grows grows here⟩

theorem Entry.grow (entry : Entry k n v) (grows : Chain.Grows k more) : Entry more n v := by
  obtain ⟨di, reached, number, decided⟩ := entry
  exact ⟨di, reached.grow grows, number, grows di v decided⟩

theorem Configured.grow (configured : Configured k di ρs) (grows : Chain.Grows k more) : Configured more di ρs :=
  configured.imp_right fun entry => entry.grow grows

theorem Proposed.grow (proposed : Proposed k di v) (grows : Chain.Grows k more) : Proposed more di v :=
  ⟨proposed.1.grow grows, proposed.2⟩

end

/-- What a ledger must be like: only values that may be proposed are decided. -/
def Ledger.Consistent (k : Ledger A) : Prop := ∀ di v, k di = some v → Proposed k di v

/-- The decree that follows the entry at a reached decree is reached, whichever way a replica computes it. -/
theorem Ledger.Consistent.next (consistent : k.Consistent)
    (reached : Reached k w) (entry : Entry k w.decreeNumber (.Reconf leg ρs)) :
    leg = w.decreeLegislatureId + 1 ∧ Reached k { w with decreeLegislatureId := w.decreeLegislatureId + 1 }.succ := by
  have decided := reached.decided entry
  exact ⟨(consistent w _ decided).2 leg ρs rfl, reached.follow decided⟩

namespace Message

/-- What a message tells about the log is true. A `Max` is not trusted here. -/
def Sound (k : Ledger A) : Message A S → Prop
  | .Decree _ _ di v => Entry k di.decreeNumber v
  | .SnapshotInfo ρs legD _ sref w0 _ => Configured k legD ρs ∧ Reached k w0 ∧ Reached k sref.watermark
  | .Dumped w0 sref => Reached k w0 ∧ Reached k sref.watermark
  | .Passed vi r => Reached k r.prDecree ∧ k r.prDecree = some vi
  | .Query .. | .Max .. | .Status | .Rejected _ => True

theorem Sound.grow {k more : Ledger A} {m : Message A S} (sound : m.Sound k) (grows : Chain.Grows k more) : m.Sound more := by
  cases m with
  | Decree => exact Entry.grow sound grows
  | SnapshotInfo => exact ⟨sound.1.grow grows, sound.2.1.grow grows, sound.2.2.grow grows⟩
  | Dumped => exact ⟨sound.1.grow grows, sound.2.grow grows⟩
  | Passed => exact ⟨sound.1.grow grows, grows _ _ sound.2⟩
  | Query | Max | Status | Rejected => trivial

end Message

def ProposerMsg.Sound (k : Ledger A) : ProposerMsg A → Prop
  | .request r => Proposed k r.prDecree r.prRequest.requestValue
  | .acceptors _ | .watermark _ => True

theorem ProposerMsg.Sound.grow {m : ProposerMsg A} (sound : m.Sound k) (grows : Chain.Grows k more) :
    m.Sound more := by
  cases m with
  | request => exact Proposed.grow sound grows
  | acceptors | watermark => trivial

def EntriesIn (k : Ledger A) (entries : List (Int × Value A)) : Prop := ∀ entry ∈ entries, Entry k entry.1 entry.2

structure ReplicaState.Sound (k : Ledger A) (st : ReplicaState A S) : Prop where
  watermark : Reached k st.stateWatermark
  snapshot : Reached k st.stateSnapshotWatermark
  reference : ∀ sref ∈ st.stateSnapshotRef, Reached k sref.watermark
  configured : Configured k st.stateReconfDecree st.stateReplicas
  log : EntriesIn k st.log.entries

structure Effects.Sound (k : Ledger A) (effects : Effects A S) : Prop where
  sends : ∀ message ∈ effects.sends, message.2.Sound k
  proposer : ∀ message ∈ effects.proposer, message.Sound k
  tasks : ∀ task ∈ effects.tasks, Entry k task.entry.1 task.entry.2
  writes : ∀ write ∈ effects.writes, EntriesIn k write.entries
  dumps : ∀ sn ∈ effects.dumps, Reached k sn.watermark
  fetched : ∀ sn ∈ effects.fetched, Reached k sn.watermark
  memberships : ∀ membership ∈ effects.memberships, Configured k membership.1 membership.2
  executed : EntriesIn k effects.executed

end Halon.Log
