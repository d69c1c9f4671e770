import Halon.Mero.StateDiff
import Halon.Proofs.GraphLinks

/-! State diffs on a board: which are registered, who has answered, what was announced.
The board shows the links of the graph and nothing else of the coordinator's state;
`Change` lists all that the coordinator does to it. -/

namespace Halon.Mero
open Library List

structure Board where
  links : Links Relation Resource
  published : List Notified

namespace Board

section Definitions
variable (b : Board)

def Indexed (e : Nat) (d : StateDiff) : Prop := b.links (.stateDiffIndex e) .Is (.stateDiff d)

def Registered (d : StateDiff) : Prop := b.Indexed d.stateEpoch d

def Awaited (d : StateDiff) (p : ConfObj) : Prop := b.links (.stateDiff d) .ShouldDeliverTo (.conf p)

def Delivered (d : StateDiff) (p : ConfObj) : Prop := b.links (.stateDiff d) .DeliveredTo (.conf p)

def Failed (d : StateDiff) (p : ConfObj) : Prop := b.links (.stateDiff d) .DeliveryFailedTo (.conf p)

def Passed (e : Nat) : Prop := ∃ n, b.links .cluster .Has (.epochId n) ∧ e < n

/-- Each epoch has one state diff at most, and is not used again once it was announced. -/
structure Filed : Prop where
  oneEpoch : ∀ {m n}, b.links .cluster .Has (.epochId m) → b.links .cluster .Has (.epochId n) → m = n
  named : ∀ {e d}, b.Indexed e d → d.stateEpoch = e
  single : ∀ {e d d'}, b.Indexed e d → b.Indexed e d' → d = d'
  passed : ∀ {e d}, b.Indexed e d → b.Passed e
  owned : ∀ {n d}, b.links (.rc n) .Has (.stateDiff d) → b.Registered d
  settled : ∀ n ∈ b.published, b.Passed n.epoch ∧ ∀ d, ¬ b.Indexed n.epoch d
  once : (b.published.map Notified.epoch).Nodup

structure Orderly : Prop extends Filed b where
  known : ∀ {d s c}, b.links (.stateDiff d) s c → b.Passed d.stateEpoch
  awaited : ∀ {d p}, b.Awaited d p → b.Registered d ∧ ¬ b.Delivered d p ∧ ¬ b.Failed d p

structure Lists (d : StateDiff) (n : Notified) : Prop where
  epoch : n.epoch = d.stateEpoch
  distinct : n.okProcesses.Nodup ∧ n.failProcesses.Nodup ∧ n.timeoutProcesses.Nodup
  ok : ∀ p, p ∈ n.okProcesses ↔ b.Delivered d p ∧ p.typeOf = .Process
  fail : ∀ p, p ∈ n.failProcesses ↔ b.Failed d p ∧ p.typeOf = .Process
  timeout : ∀ p, p ∈ n.timeoutProcesses ↔ b.Awaited d p ∧ p.typeOf = .Process

end Definitions

/-- Where state diffs are filed: the cluster's epoch, the index and the coordinator. -/
def Indexing (a : Resource) : Prop := a.typeOf = .Cluster ∨ a.typeOf = .StateDiffIndex ∨ a.typeOf = .RC

variable (exempt : StateDiff → ConfObj → Prop) (b : Board) in
/-- What happens to the board. A process that is recorded as reached may be recorded as failed as well when it is exempt. -/
inductive Change : Board → Prop where
  | answer {links : Links Relation Resource} (d : StateDiff) (p : ConfObj) (known : b.Passed d.stateEpoch)
      (same : ∀ a s c, ¬ (a = .stateDiff d ∧ c = .conf p) → (links a s c ↔ b.links a s c))
      (heard : ¬ Awaited ⟨links, b.published⟩ d p)
      (outcome : ¬ b.Delivered d p ∧ Delivered ⟨links, b.published⟩ d p ∧ ¬ Failed ⟨links, b.published⟩ d p ∨
        Failed ⟨links, b.published⟩ d p ∧ (b.Delivered d p ↔ Delivered ⟨links, b.published⟩ d p) ∧
          ((b.Registered d → ¬ b.Delivered d p) ∨ exempt d p)) : Change ⟨links, b.published⟩
  | announce (d : StateDiff) (n : Notified) (registered : b.Registered d) (lists : b.Lists d n) :
      Change ⟨fun a s c => b.links a s c ∧ a ≠ .stateDiff d ∧ c ≠ .stateDiff d, b.published ++ [n]⟩
  /-- Components without the cluster are taken away. -/
  | collect (gone : Resource → Prop) (closed : ∀ a s c, b.links a s c → (gone a ↔ gone c)) (kept : ¬ gone .cluster) :
      Change ⟨fun a s c => b.links a s c ∧ ¬ gone a, b.published⟩
  /-- A new epoch begins, and its state diff is registered. -/
  | enrol {links : Links Relation Resource} (d : StateDiff) (fresh : ∀ e, b.Passed e → e < d.stateEpoch)
      (epoch : ∀ n, links .cluster .Has (.epochId n) ↔ n = d.stateEpoch + 1)
      (index : ∀ e x, links (.stateDiffIndex e) .Is (.stateDiff x) ↔ b.Indexed e x ∨ e = d.stateEpoch ∧ x = d)
      (owner : ∀ n x, links (.rc n) .Has (.stateDiff x) → b.links (.rc n) .Has (.stateDiff x) ∨ x = d)
      (same : ∀ x s c, links (.stateDiff x) s c ↔ b.links (.stateDiff x) s c) : Change ⟨links, b.published⟩
  /-- A registered state diff is to be delivered to a process that has not answered. -/
  | assign {links : Links Relation Resource} (d : StateDiff) (p : ConfObj) (registered : b.Registered d)
      (silent : ¬ b.Delivered d p ∧ ¬ b.Failed d p)
      (added : ∀ a s c, links a s c ↔ (a = .stateDiff d ∧ s = .ShouldDeliverTo ∧ c = .conf p) ∨ b.links a s c) :
      Change ⟨links, b.published⟩
  /-- Links between configuration objects and states change. -/
  | restate {links : Links Relation Resource} (same : ∀ a s c, (∀ o, a ≠ .conf o) → (links a s c ↔ b.links a s c)) :
      Change ⟨links, b.published⟩

variable {b b' : Board} {exempt : StateDiff → ConfObj → Prop} {links : Links Relation Resource}

theorem Filed.congr (filed : b.Filed) (same : ∀ a s c, Indexing a → (links a s c ↔ b.links a s c)) :
    Filed ⟨links, b.published⟩ := by
  have epoch (n : Nat) : links .cluster .Has (.epochId n) ↔ b.links .cluster .Has (.epochId n) := same _ _ _ (.inl rfl)
  have index (e : Nat) (d : StateDiff) : Indexed ⟨links, b.published⟩ e d ↔ b.Indexed e d := same _ _ _ (.inr (.inl rfl))
  have owner (n : Nat) (d : StateDiff) : links (.rc n) .Has (.stateDiff d) ↔ b.links (.rc n) .Has (.stateDiff d) :=
    same _ _ _ (.inr (.inr rfl))
  have onward (e : Nat) : Passed ⟨links, b.published⟩ e ↔ b.Passed e := exists_congr fun n => and_congr_left fun _ => epoch n
  constructor
  case oneEpoch =>
    intro m n first second
    exact filed.oneEpoch ((epoch m).mp first) ((epoch n).mp second)
  case named =>
    intro e d indexed
    exact filed.named ((index e d).mp indexed)
  case single =>
    intro e d d' first second
    exact filed.single ((index e d).mp first) ((index e d').mp second)
  case passed =>
    intro e d indexed
    exact (onward e).mpr (filed.passed ((index e d).mp indexed))
  case owned =>
    intro n d held
    exact (index _ d).mpr (filed.owned ((owner n d).mp held))
  case settled =>
    intro n member
    obtain ⟨before, unindexed⟩ := filed.settled n member
    exact ⟨(onward _).mpr before, fun d indexed => unindexed d ((index _ d).mp indexed)⟩
  case once => exact filed.once

variable {d : StateDiff}

theorem Filed.registered (filed : b.Filed) (indexed : b.Indexed e d) : b.Registered d := by
  unfold Registered
  rw [filed.named indexed]
  exact indexed

theorem not_indexing_stateDiff : ¬ Indexing (.stateDiff d) := by
  rintro (type | type | type) <;> cases type

theorem not_indexing_conf : ¬ Indexing (.conf o) := by
  rintro (type | type | type) <;> cases o <;> cases type

theorem Change.passed (change : Change exempt b b') (before : b.Passed e) : b'.Passed e := by
  obtain ⟨n, current, less⟩ := before
  cases change with
  | answer d p _ same => exact ⟨n, (same .cluster .Has _ fun edge => nomatch edge.1).mpr current, less⟩
  | announce => exact ⟨n, ⟨current, nofun, nofun⟩, less⟩
  | collect gone _ kept => exact ⟨n, ⟨current, kept⟩, less⟩
  | enrol d fresh epoch => exact ⟨_, (epoch _).mpr rfl, Nat.lt_succ_of_lt (fresh e ⟨n, current, less⟩)⟩
  | assign d p _ _ added => exact ⟨n, (added _ _ _).mpr (.inr current), less⟩
  | restate same => exact ⟨n, (same .cluster .Has _ nofun).mpr current, less⟩

private theorem orderly_answer (orderly : b.Orderly) (known : b.Passed d.stateEpoch)
    (same : ∀ a s c, ¬ (a = .stateDiff d ∧ c = .conf p) → (links a s c ↔ b.links a s c))
    (heard : ¬ Awaited ⟨links, b.published⟩ d p)
    (onward : ∀ {e}, b.Passed e → Passed ⟨links, b.published⟩ e) : Orderly ⟨links, b.published⟩ := by
  have filed : Filed ⟨links, b.published⟩ := by
    apply orderly.toFiled.congr
    intro a s c indexing
    apply same
    rintro ⟨rfl, _⟩
    exact not_indexing_stateDiff indexing
  refine ⟨filed, ?_, ?_⟩
  · intro x s c linked
    by_cases edge : Resource.stateDiff x = .stateDiff d ∧ c = .conf p
    · rw [Resource.stateDiff.inj edge.1]
      exact onward known
    · exact onward (orderly.known ((same _ s c edge).mp linked))
  · intro x q waits
    have apart : ¬ (Resource.stateDiff x = .stateDiff d ∧ Resource.conf q = .conf p) := by
      rintro ⟨diff, process⟩
      rw [Resource.stateDiff.inj diff, Resource.conf.inj process] at waits
      exact heard waits
    obtain ⟨registered, undelivered, unfailed⟩ := orderly.awaited ((same _ _ _ apart).mp waits)
    refine ⟨(same (.stateDiffIndex _) .Is _ fun edge => nomatch edge.1).mpr registered, ?_, ?_⟩
    · exact fun delivered => undelivered ((same _ _ _ apart).mp delivered)
    · exact fun failed => unfailed ((same _ _ _ apart).mp failed)

private theorem orderly_announce (orderly : b.Orderly) (registered : b.Registered d) (lists : b.Lists d n)
    (after : b' = ⟨fun a s c => b.links a s c ∧ a ≠ .stateDiff d ∧ c ≠ .stateDiff d, b.published ++ [n]⟩)
    (onward : ∀ {e}, b.Passed e → b'.Passed e) : b'.Orderly := by
  subst after
  refine ⟨⟨fun first second => orderly.oneEpoch first.1 second.1, fun indexed => orderly.named indexed.1,
    fun first second => orderly.single first.1 second.1, fun indexed => onward (orderly.passed indexed.1),
    fun held => ⟨orderly.owned held.1, nofun, held.2.2⟩, ?_, ?_⟩, fun linked => onward (orderly.known linked.1), ?_⟩
  · intro m member
    rcases mem_append.mp member with earlier | last
    · obtain ⟨before, unindexed⟩ := orderly.settled m earlier
      exact ⟨onward before, fun x indexed => unindexed x indexed.1⟩
    · obtain rfl := mem_singleton.mp last
      rw [lists.epoch]
      refine ⟨onward (orderly.passed registered), ?_⟩
      intro x indexed
      exact indexed.2.2 (congrArg Resource.stateDiff (orderly.single indexed.1 registered))
  · rw [map_append, nodup_append]
    refine ⟨orderly.once, nodup_singleton _, ?_⟩
    intro e earlier e' last
    obtain ⟨m, member, rfl⟩ := mem_map.mp earlier
    rw [mem_singleton.mp last, lists.epoch]
    intro again
    exact (orderly.settled m member).2 d (again ▸ registered)
  · intro x p waits
    obtain ⟨filed, undelivered, unfailed⟩ := orderly.awaited waits.1
    exact ⟨⟨filed, nofun, waits.2.1⟩, fun delivered => undelivered delivered.1, fun failed => unfailed failed.1⟩

private theorem orderly_collect (orderly : b.Orderly) {gone : Resource → Prop}
    (closed : ∀ a s c, b.links a s c → (gone a ↔ gone c))
    (after : b' = ⟨fun a s c => b.links a s c ∧ ¬ gone a, b.published⟩) (onward : ∀ {e}, b.Passed e → b'.Passed e) :
    b'.Orderly := by
  subst after
  -- A state diff that stays keeps its entry in the index.
  have stays {x : StateDiff} (registered : b.Registered x) (here : ¬ gone (.stateDiff x)) :
      Registered ⟨fun a s c => b.links a s c ∧ ¬ gone a, b.published⟩ x :=
    ⟨registered, fun away => here ((closed _ _ _ registered).mp away)⟩
  refine ⟨⟨fun first second => orderly.oneEpoch first.1 second.1, fun indexed => orderly.named indexed.1,
    fun first second => orderly.single first.1 second.1, fun indexed => onward (orderly.passed indexed.1),
    fun held => stays (orderly.owned held.1) fun away => held.2 ((closed _ _ _ held.1).mpr away), ?_, orderly.once⟩,
    fun linked => onward (orderly.known linked.1), ?_⟩
  · intro m member
    obtain ⟨before, unindexed⟩ := orderly.settled m member
    exact ⟨onward before, fun x indexed => unindexed x indexed.1⟩
  · intro x p waits
    obtain ⟨filed, undelivered, unfailed⟩ := orderly.awaited waits.1
    exact ⟨stays filed waits.2, fun delivered => undelivered delivered.1, fun failed => unfailed failed.1⟩

private theorem orderly_enrol (orderly : b.Orderly) (fresh : ∀ e, b.Passed e → e < d.stateEpoch)
    (epoch : ∀ n, links .cluster .Has (.epochId n) ↔ n = d.stateEpoch + 1)
    (index : ∀ e x, links (.stateDiffIndex e) .Is (.stateDiff x) ↔ b.Indexed e x ∨ e = d.stateEpoch ∧ x = d)
    (owner : ∀ n x, links (.rc n) .Has (.stateDiff x) → b.links (.rc n) .Has (.stateDiff x) ∨ x = d)
    (same : ∀ x s c, links (.stateDiff x) s c ↔ b.links (.stateDiff x) s c)
    (onward : ∀ {e}, b.Passed e → Passed ⟨links, b.published⟩ e) :
    Orderly ⟨links, b.published⟩ := by
  have begun : Passed ⟨links, b.published⟩ d.stateEpoch := ⟨_, (epoch _).mpr rfl, Nat.lt_succ_self _⟩
  have unused {x : StateDiff} (indexed : b.Indexed d.stateEpoch x) : False :=
    absurd (fresh _ (orderly.passed indexed)) (Nat.lt_irrefl _)
  have adds {x : StateDiff} (registered : b.Registered x) : Registered ⟨links, b.published⟩ x := (index _ x).mpr (.inl registered)
  refine ⟨⟨?_, ?_, ?_, ?_, ?_, ?_, orderly.once⟩, fun linked => onward (orderly.known ((same _ _ _).mp linked)), ?_⟩
  · intro m n first second
    exact ((epoch m).mp first).trans ((epoch n).mp second).symm
  · intro e x indexed
    rcases (index e x).mp indexed with earlier | ⟨rfl, rfl⟩
    · exact orderly.named earlier
    · rfl
  · intro e x y first second
    rcases (index e x).mp first with earlier | ⟨rfl, rfl⟩
    · rcases (index e y).mp second with earlier' | ⟨rfl, rfl⟩
      · exact orderly.single earlier earlier'
      · exact (unused earlier).elim
    · rcases (index _ y).mp second with earlier' | ⟨_, rfl⟩
      · exact (unused earlier').elim
      · rfl
  · intro e x indexed
    rcases (index e x).mp indexed with earlier | ⟨rfl, rfl⟩
    · exact onward (orderly.passed earlier)
    · exact begun
  · intro n x held
    rcases owner n x held with earlier | rfl
    · exact adds (orderly.owned earlier)
    · exact (index _ x).mpr (.inr ⟨rfl, rfl⟩)
  · intro m member
    obtain ⟨before, unindexed⟩ := orderly.settled m member
    refine ⟨onward before, ?_⟩
    intro x indexed
    rcases (index _ x).mp indexed with earlier | ⟨now, _⟩
    · exact unindexed x earlier
    · exact absurd (fresh _ before) (by omega)
  · intro x p waits
    obtain ⟨filed, undelivered, unfailed⟩ := orderly.awaited ((same _ _ _).mp waits)
    refine ⟨adds filed, ?_, ?_⟩
    · exact fun delivered => undelivered ((same _ _ _).mp delivered)
    · exact fun failed => unfailed ((same _ _ _).mp failed)

private theorem orderly_assign (orderly : b.Orderly) (registered : b.Registered d)
    (silent : ¬ b.Delivered d p ∧ ¬ b.Failed d p)
    (added : ∀ a s c, links a s c ↔ (a = .stateDiff d ∧ s = .ShouldDeliverTo ∧ c = .conf p) ∨ b.links a s c)
    (onward : ∀ {e}, b.Passed e → Passed ⟨links, b.published⟩ e) : Orderly ⟨links, b.published⟩ := by
  have filed : Filed ⟨links, b.published⟩ := by
    apply orderly.toFiled.congr
    intro a s c indexing
    rw [added]
    refine or_iff_right ?_
    rintro ⟨rfl, _⟩
    exact not_indexing_stateDiff indexing
  have adds {x : StateDiff} (held : b.Registered x) : Registered ⟨links, b.published⟩ x := (added _ _ _).mpr (.inr held)
  have delivered (x : StateDiff) (q : ConfObj) : Delivered ⟨links, b.published⟩ x q ↔ b.Delivered x q :=
    (added _ _ _).trans (or_iff_right fun edge => nomatch edge.2.1)
  have failed (x : StateDiff) (q : ConfObj) : Failed ⟨links, b.published⟩ x q ↔ b.Failed x q :=
    (added _ _ _).trans (or_iff_right fun edge => nomatch edge.2.1)
  refine ⟨filed, ?_, ?_⟩
  · intro x s c linked
    rcases (added _ s c).mp linked with ⟨diff, _, _⟩ | earlier
    · rw [Resource.stateDiff.inj diff]
      exact onward (orderly.passed registered)
    · exact onward (orderly.known earlier)
  · intro x q waits
    rw [delivered, failed]
    rcases (added _ _ _).mp waits with ⟨diff, _, process⟩ | earlier
    · rw [Resource.stateDiff.inj diff, Resource.conf.inj process]
      exact ⟨adds registered, silent⟩
    · obtain ⟨held, unanswered⟩ := orderly.awaited earlier
      exact ⟨adds held, unanswered⟩

private theorem orderly_restate (orderly : b.Orderly) (same : ∀ a s c, (∀ o, a ≠ .conf o) → (links a s c ↔ b.links a s c))
    (onward : ∀ {e}, b.Passed e → Passed ⟨links, b.published⟩ e) : Orderly ⟨links, b.published⟩ := by
  have filed : Filed ⟨links, b.published⟩ := by
    apply orderly.toFiled.congr
    intro a s c indexing
    apply same
    rintro o rfl
    exact not_indexing_conf indexing
  refine ⟨filed, fun {x _ _} linked => onward (orderly.known ((same (.stateDiff x) _ _ nofun).mp linked)), ?_⟩
  intro x p waits
  obtain ⟨held, undelivered, unfailed⟩ := orderly.awaited ((same (.stateDiff x) _ _ nofun).mp waits)
  refine ⟨(same (.stateDiffIndex _) .Is _ nofun).mpr held, ?_, ?_⟩
  · exact fun delivered => undelivered ((same (.stateDiff x) _ _ nofun).mp delivered)
  · exact fun failed => unfailed ((same (.stateDiff x) _ _ nofun).mp failed)

theorem Change.orderly (change : Change exempt b b') (orderly : b.Orderly) : b'.Orderly := by
  have onward {e : Nat} : b.Passed e → b'.Passed e := change.passed
  cases change with
  | answer d p known same heard => exact orderly_answer orderly known same heard onward
  | announce d n registered lists => exact orderly_announce orderly registered lists rfl onward
  | collect gone closed => exact orderly_collect orderly closed rfl onward
  | enrol d fresh epoch index owner same => exact orderly_enrol orderly fresh epoch index owner same onward
  | assign d p registered silent added => exact orderly_assign orderly registered silent added onward
  | restate same => exact orderly_restate orderly same onward

abbrev Changes (exempt : StateDiff → ConfObj → Prop) : Board → Board → Prop := Relation.ReflTransGen (Change exempt)

theorem Changes.passed (changes : Changes exempt b b') (before : b.Passed e) : b'.Passed e := by
  induction changes with
  | refl => exact before
  | tail _ change ih => exact change.passed ih

theorem Changes.orderly (changes : Changes exempt b b') (orderly : b.Orderly) : b'.Orderly := by
  induction changes with
  | refl => exact orderly
  | tail _ change ih => exact change.orderly ih

end Board
end Halon.Mero
