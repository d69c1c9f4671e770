import Halon.Proofs.DiffBoard

/-! What becomes of one state diff. Each process that it must be delivered to stands in
exactly one place while the state diff is on the board, and is mentioned once when it is
announced; a process that once stood in two places is mentioned twice. -/

namespace Halon.Mero
open Library

def Notified.mentions (n : Notified) (p : ConfObj) : Nat :=
  n.okProcesses.count p + n.failProcesses.count p + n.timeoutProcesses.count p

namespace Board
variable {b b' : Board} {d x : StateDiff} {p : ConfObj} {n : Notified}

theorem Change.indexed (change : Change exempt b b') (passed : b.Passed e) (indexed : b'.Indexed e x) : b.Indexed e x := by
  cases change with
  | answer y q _ same => exact (same (.stateDiffIndex e) .Is _ fun edge => nomatch edge.1).mp indexed
  | announce | collect => exact indexed.1
  | enrol y fresh _ index =>
    rcases (index e x).mp indexed with earlier | ⟨now, _⟩
    · exact earlier
    · exact absurd (fresh e passed) (by omega)
  | assign y q _ _ added => exact ((added (.stateDiffIndex e) .Is _).mp indexed).resolve_left fun edge => nomatch edge.1
  | restate same => exact (same (.stateDiffIndex e) .Is _ nofun).mp indexed

/-- A message that is new lists the processes of a registered state diff. -/
theorem Change.announced (change : Change exempt b b') (member : n ∈ b'.published) :
    n ∈ b.published ∨ ∃ x, b.Registered x ∧ b.Lists x n := by
  cases change with
  | announce x m registered lists =>
    rcases List.mem_append.mp member with earlier | last
    · exact .inl earlier
    · obtain rfl := List.mem_singleton.mp last
      exact .inr ⟨x, registered, lists⟩
  | _ => exact .inl member

/-- What a change does to the record of one process. -/
inductive Touches (exempt : StateDiff → ConfObj → Prop) (b b' : Board) (d : StateDiff) (p : ConfObj) : Prop where
  | spared (same : ∀ s, b'.links (.stateDiff d) s (.conf p) ↔ b.links (.stateDiff d) s (.conf p))
  | reached (undelivered : ¬ b.Delivered d p) (heard : ¬ b'.Awaited d p) (delivered : b'.Delivered d p)
      (unfailed : ¬ b'.Failed d p)
  | lost (consistent : (b.Registered d → ¬ b.Delivered d p) ∨ exempt d p) (heard : ¬ b'.Awaited d p)
      (unchanged : b.Delivered d p ↔ b'.Delivered d p) (failed : b'.Failed d p)
  | assigned (silent : ¬ b.Delivered d p ∧ ¬ b.Failed d p) (waits : b'.Awaited d p) (still : ¬ b'.Delivered d p ∧ ¬ b'.Failed d p)

theorem Change.touches (change : Change exempt b b') (registered : b'.Registered d) (p : ConfObj) : Touches exempt b b' d p := by
  cases change with
  | answer x q _ same heard outcome =>
    by_cases concerned : x = d ∧ q = p
    · obtain ⟨rfl, rfl⟩ := concerned
      rcases outcome with ⟨undelivered, delivered, unfailed⟩ | ⟨failed, unchanged, consistent⟩
      · exact .reached undelivered heard delivered unfailed
      · exact .lost consistent heard unchanged failed
    · refine .spared fun s => same _ s _ ?_
      rintro ⟨diff, process⟩
      exact concerned ⟨(Resource.stateDiff.inj diff).symm, (Resource.conf.inj process).symm⟩
  | announce => exact .spared fun s => and_iff_left ⟨registered.2.2, nofun⟩
  | collect gone closed => exact .spared fun s => and_iff_left fun away => registered.2 ((closed _ _ _ registered.1).mpr away)
  | enrol x _ _ _ _ same => exact .spared fun s => same d s _
  | assign x q held silent added =>
    have others (s : Relation) (other : s ≠ .ShouldDeliverTo) : _ ↔ b.links (.stateDiff d) s (.conf p) :=
      (added _ s _).trans (or_iff_right fun edge => other edge.2.1)
    by_cases concerned : x = d ∧ q = p
    · obtain ⟨rfl, rfl⟩ := concerned
      exact .assigned silent ((added _ _ _).mpr (.inl ⟨rfl, rfl, rfl⟩))
        ⟨mt (others .DeliveredTo nofun).mp silent.1, mt (others .DeliveryFailedTo nofun).mp silent.2⟩
    · refine .spared fun s => (added _ s _).trans (or_iff_right ?_)
      rintro ⟨diff, _, process⟩
      exact concerned ⟨(Resource.stateDiff.inj diff).symm, (Resource.conf.inj process).symm⟩
  | restate same => exact .spared fun s => same (.stateDiff d) s _ nofun

/-- The epoch of the state diff has begun, and no other state diff has it. -/
structure Own (b : Board) (d : StateDiff) : Prop where
  passed : b.Passed d.stateEpoch
  sole : ∀ x, b.Indexed d.stateEpoch x → x = d

theorem Orderly.own (orderly : b.Orderly) (registered : b.Registered d) : b.Own d :=
  ⟨orderly.passed registered, fun _ indexed => orderly.single indexed registered⟩

theorem Orderly.unannounced (orderly : b.Orderly) (registered : b.Registered d) (member : n ∈ b.published) :
    n.epoch ≠ d.stateEpoch :=
  fun epoch => (orderly.settled n member).2 d (epoch ▸ registered)

theorem Own.change (own : b.Own d) (change : Change exempt b b') : b'.Own d :=
  ⟨change.passed own.passed, fun x indexed => own.sole x (change.indexed own.passed indexed)⟩

/-- A message for the epoch lists the processes of this state diff, or is not new. -/
theorem Own.announced (own : b.Own d) (change : Change exempt b b') (member : n ∈ b'.published) (epoch : n.epoch = d.stateEpoch) :
    n ∈ b.published ∨ b.Registered d ∧ b.Lists d n := by
  rcases change.announced member with earlier | ⟨x, registered, lists⟩
  · exact .inl earlier
  · have indexed : b.Indexed d.stateEpoch x := epoch ▸ lists.epoch ▸ registered
    obtain rfl := own.sole x indexed
    exact .inr ⟨registered, lists⟩

section Standing

inductive Standing (b : Board) (d : StateDiff) (p : ConfObj) : Prop where
  | awaited (waits : b.Awaited d p) (undelivered : ¬ b.Delivered d p) (unfailed : ¬ b.Failed d p)
  | delivered (heard : ¬ b.Awaited d p) (delivered : b.Delivered d p) (unfailed : ¬ b.Failed d p)
  | failed (heard : ¬ b.Awaited d p) (undelivered : ¬ b.Delivered d p) (failed : b.Failed d p)

theorem Standing.congr (standing : b.Standing d p)
    (same : ∀ s, b'.links (.stateDiff d) s (.conf p) ↔ b.links (.stateDiff d) s (.conf p)) : b'.Standing d p := by
  cases standing with
  | awaited waits undelivered unfailed =>
    exact .awaited ((same _).mpr waits) (mt (same _).mp undelivered) (mt (same _).mp unfailed)
  | delivered heard delivered unfailed =>
    exact .delivered (mt (same _).mp heard) ((same _).mpr delivered) (mt (same _).mp unfailed)
  | failed heard undelivered failed => exact .failed (mt (same _).mp heard) (mt (same _).mp undelivered) ((same _).mpr failed)

theorem Standing.touched (standing : b.Standing d p) (touches : Touches exempt b b' d p) (registered : b.Registered d)
    (strict : ¬ exempt d p) : b'.Standing d p := by
  cases touches with
  | spared same => exact standing.congr same
  | reached _ heard delivered unfailed => exact .delivered heard delivered unfailed
  | lost consistent heard unchanged failed =>
    have undelivered := consistent.resolve_right strict registered
    exact .failed heard (mt unchanged.mpr undelivered) failed
  | assigned _ waits still => exact .awaited waits still.1 still.2

private theorem count_listed {xs : List ConfObj} {stands : Prop} (distinct : xs.Nodup) (process : p.typeOf = .Process)
    (listed : p ∈ xs ↔ stands ∧ p.typeOf = .Process) : stands ∧ xs.count p = 1 ∨ ¬ stands ∧ xs.count p = 0 := by
  by_cases stands : stands
  · exact .inl ⟨stands, List.count_eq_one_of_mem distinct (listed.mpr ⟨stands, process⟩)⟩
  · exact .inr ⟨stands, List.count_eq_zero_of_not_mem fun member => stands (listed.mp member).1⟩

theorem Standing.mentions (standing : b.Standing d p) (lists : b.Lists d n) (process : p.typeOf = .Process) :
    n.mentions p = 1 := by
  obtain ⟨ok, fail, timeout⟩ := lists.distinct
  have delivered := count_listed ok process (lists.ok p)
  have failed := count_listed fail process (lists.fail p)
  have awaited := count_listed timeout process (lists.timeout p)
  unfold Notified.mentions
  cases standing with
  | awaited | delivered | failed => grind

end Standing

/-- The processes of a state diff stand as they should, and were announced as they should. -/
structure Tracks (b : Board) (d : StateDiff) (S : List ConfObj) : Prop extends Own b d where
  standing : b.Registered d → ∀ p ∈ S, b.Standing d p
  announced : ∀ n ∈ b.published, n.epoch = d.stateEpoch → ∀ p ∈ S, n.mentions p = 1

theorem Change.tracks (change : Change exempt b b') (tracks : b.Tracks d S) (strict : ∀ p ∈ S, ¬ exempt d p)
    (typed : ∀ p ∈ S, p.typeOf = .Process) : b'.Tracks d S := by
  refine ⟨tracks.toOwn.change change, ?_, ?_⟩
  · intro stays p member
    have registered : b.Registered d := change.indexed tracks.passed stays
    exact (tracks.standing registered p member).touched (change.touches stays p) registered (strict p member)
  · intro n member epoch p inside
    rcases tracks.toOwn.announced change member epoch with earlier | ⟨registered, lists⟩
    · exact tracks.announced n earlier epoch p inside
    · exact (tracks.standing registered p inside).mentions lists (typed p inside)

theorem Changes.tracks (changes : Changes exempt b b') (tracks : b.Tracks d S) (strict : ∀ p ∈ S, ¬ exempt d p)
    (typed : ∀ p ∈ S, p.typeOf = .Process) : b'.Tracks d S := by
  induction changes with
  | refl => exact tracks
  | tail _ change ih => exact change.tracks ih strict typed

/-- A process is recorded both as reached and as failed, and was announced as both. -/
structure Torn (b : Board) (d : StateDiff) (p : ConfObj) : Prop extends Own b d where
  both : b.Registered d → b.Delivered d p ∧ b.Failed d p
  announced : ∀ n ∈ b.published, n.epoch = d.stateEpoch → p ∈ n.okProcesses ∧ p ∈ n.failProcesses

theorem Change.torn (change : Change exempt b b') (torn : b.Torn d p) (process : p.typeOf = .Process) : b'.Torn d p := by
  refine ⟨torn.toOwn.change change, ?_, ?_⟩
  · intro stays
    obtain ⟨delivered, failed⟩ := torn.both (change.indexed torn.passed stays)
    cases change.touches stays p with
    | spared same => exact ⟨(same _).mpr delivered, (same _).mpr failed⟩
    | reached undelivered => exact absurd delivered undelivered
    | lost _ _ unchanged failed' => exact ⟨unchanged.mp delivered, failed'⟩
    | assigned silent => exact absurd delivered silent.1
  · intro n member epoch
    rcases torn.toOwn.announced change member epoch with earlier | ⟨registered, lists⟩
    · exact torn.announced n earlier epoch
    · obtain ⟨delivered, failed⟩ := torn.both registered
      exact ⟨(lists.ok p).mpr ⟨delivered, process⟩, (lists.fail p).mpr ⟨failed, process⟩⟩

theorem Changes.torn (changes : Changes exempt b b') (torn : b.Torn d p) (process : p.typeOf = .Process) : b'.Torn d p := by
  induction changes with
  | refl => exact torn
  | tail _ change ih => exact change.torn ih process

end Board
end Halon.Mero
