import Halon.Proofs.LogHandlers
import Halon.Proofs.LogGaps

/-! The decrees that a leader finds when it recovers. It keeps those that can be executed from its
legislature on, and looks for gaps before it has thrown the others away. -/

namespace Halon.Log
open Library List

variable {A : Type} {w d : DecreeId} {p q : DecreeId × Value A} {dvs kept : List (DecreeId × Value A)}

def numbers (dvs : List (DecreeId × Value A)) : List Int := dvs.map fun p => p.1.decreeNumber

theorem mem_numbers (accepted : caughtUp w dvs) : ∃ top, ∀ n, n ∈ numbers dvs ↔ w.decreeNumber ≤ n ∧ n < top := by
  have placed (n : Int) (i : Nat) : (numbers dvs).eraseDups[i]? = some n → n = w.decreeNumber + i := fun found =>
    of_decide_eq_true (all_eq_true.mp accepted (n, i) (mk_mem_zipIdx_iff_getElem?.mpr found))
  refine ⟨w.decreeNumber + (numbers dvs).eraseDups.length, fun n => ?_⟩
  rw [← mem_eraseDups, mem_iff_getElem?]
  constructor
  · intro listed
    obtain ⟨i, found⟩ := listed
    have number := placed n i found
    have inside := (List.getElem?_eq_some_iff.mp found).1
    omega
  · intro inside
    have short : (n - w.decreeNumber).toNat < (numbers dvs).eraseDups.length := by omega
    have number := placed _ _ (getElem?_eq_getElem short)
    exact ⟨_, (getElem?_eq_getElem short).trans (congrArg some (by omega))⟩

def following (last : DecreeId × Value A) : DecreeId :=
  DecreeId.succ (if isReconf last.2 then { last.1 with decreeLegislatureId := last.1.decreeLegislatureId + 1 } else last.1)

/-- The decrees that are kept can be executed one after another from the watermark on, and the next one is proposed. -/
def InSequence (w d : DecreeId) (kept : List (DecreeId × Value A)) : Prop :=
  ∀ last ∈ kept.getLast?, numbers kept = between (w.decreeNumber - 1) (last.1.decreeNumber + 1) ∧
    recoveryDecree d kept = following last

/-- No reconfiguration was answered before it in its legislature. -/
def Reachable (dvs : List (DecreeId × Value A)) (p : DecreeId × Value A) : Prop :=
  ∀ q ∈ dvs, q.1 < p.1 → q.1.decreeLegislatureId = p.1.decreeLegislatureId → ¬ isReconf q.2
deriving Decidable

variable (dvs) in
theorem reachable_cons (first : q.1 < p.1) : Reachable (q :: dvs) p ↔
    (q.1.decreeLegislatureId = p.1.decreeLegislatureId → ¬ isReconf q.2) ∧ Reachable dvs p := by
  rw [Reachable, forall_mem_cons, forall_prop_of_true first]
  exact Iff.rfl

theorem mem_trimUnreachable (ascending : dvs.Pairwise fun p q => p.1 < q.1) (leg : Int) :
    p ∈ trimUnreachable dvs leg ↔ p ∈ dvs ∧ leg ≤ p.1.decreeLegislatureId ∧ Reachable dvs p := by
  induction dvs generalizing leg with
  | nil => simp [trimUnreachable]
  | cons q rest ih =>
    obtain ⟨first, ascending⟩ := pairwise_cons.mp ascending
    have reached : Reachable (q :: rest) q := by
      refine forall_mem_cons.mpr ⟨fun less => absurd less (lt_irrefl _), fun p member less => ?_⟩
      exact absurd less (first p member).asymm
    have later (member : p ∈ rest) := reachable_cons rest (first p member)
    have above (member : p ∈ rest) : q.1.decreeLegislatureId ≤ p.1.decreeLegislatureId := by
      have less := DecreeId.lt_def.mp (first p member)
      omega
    unfold trimUnreachable
    split
    next below =>
      rw [ih ascending]
      constructor
      · rintro ⟨member, high, free⟩
        exact ⟨mem_cons_of_mem q member, high, (later member).mpr ⟨fun same => absurd high (by omega), free⟩⟩
      · rintro ⟨member, high, free⟩
        have member : p ∈ rest := (mem_cons.mp member).resolve_left (by rintro rfl; omega)
        exact ⟨member, high, ((later member).mp free).2⟩
    next kept =>
      rw [mem_cons, mem_cons, ih ascending]
      constructor
      · rintro (rfl | ⟨member, high, free⟩)
        · exact ⟨.inl rfl, not_lt.mp kept, reached⟩
        · have low := above member
          refine ⟨.inr member, by omega, (later member).mpr ⟨fun same reconf => ?_, free⟩⟩
          rw [if_pos reconf] at high
          omega
      · rintro ⟨rfl | member, high, free⟩
        · exact .inl rfl
        · have low := above member
          obtain ⟨unchanged, free⟩ := (later member).mp free
          refine .inr ⟨member, ?_, free⟩
          split
          next reconf => exact lt_of_le_of_ne low fun same => unchanged same reconf
          next => exact low

/-- The last of the answers is the greatest. -/
theorem mem_getLast?_iff (ascending : kept.Pairwise fun p q => p.1 < q.1) :
    p ∈ kept.getLast? ↔ p ∈ kept ∧ ∀ q ∈ kept, q.1 ≤ p.1 := by
  rcases eq_nil_or_concat' kept with rfl | ⟨earlier, last, rfl⟩
  · simp
  · obtain ⟨-, -, below⟩ := pairwise_append.mp ascending
    rw [getLast?_concat, Option.mem_some_iff]
    constructor
    · rintro rfl
      refine ⟨mem_concat_self, fun q member => ?_⟩
      rcases mem_append.mp member with before | same
      · exact (below q before last (mem_singleton_self _)).le
      · exact (congrArg Prod.fst (mem_singleton.mp same)).le
    · rintro ⟨member, greatest⟩
      rcases mem_append.mp member with before | same
      · exact absurd (below p before last (mem_singleton_self _)) (greatest last mem_concat_self).not_gt
      · exact (mem_singleton.mp same).symm

theorem numbers_ascending_iff (ascending : kept.Pairwise fun p q => p.1 < q.1) : (numbers kept).Pairwise (· < ·) ↔
    ∀ p ∈ kept, ∀ q ∈ kept, p.1.decreeLegislatureId < q.1.decreeLegislatureId → p.1.decreeNumber < q.1.decreeNumber := by
  rw [numbers, pairwise_map]
  constructor
  · intro numbered
    -- Of two answers, that with the lower decree is the earlier one in the list.
    have lower : ∀ ⦃p⦄, p ∈ kept → ∀ ⦃q⦄, q ∈ kept → p.1 < q.1 → p.1.decreeNumber < q.1.decreeNumber := by
      apply Pairwise.forall_of_forall_of_flip
      · exact fun p _ less => absurd less (lt_irrefl _)
      · apply numbered.imp
        exact fun lower _ => lower
      · apply ascending.imp
        exact fun less more => absurd less more.asymm
    intro p first q second earlier
    exact lower first second (DecreeId.lt_def.mpr (.inl earlier))
  · intro lower
    refine ascending.imp_of_mem fun first second less => ?_
    rcases DecreeId.lt_def.mp less with earlier | ⟨-, numbered⟩
    · exact lower _ first _ second earlier
    · exact numbered

/-- What is kept of answers without a gap has no gap either, if it is in order and no number is missing below its last. -/
theorem numbers_eq_between (accepted : caughtUp w dvs) (part : kept ⊆ dvs) (final : p ∈ kept.getLast?) :
    numbers kept = between (w.decreeNumber - 1) (p.1.decreeNumber + 1) ↔ (numbers kept).Pairwise (· < ·) ∧
      ∀ n ∈ numbers dvs, n < p.1.decreeNumber → n ∈ numbers kept := by
  obtain ⟨top, all⟩ := mem_numbers accepted
  have inside (n : Int) (member : n ∈ numbers kept) : n ∈ numbers dvs := map_subset _ part member
  have ending : p.1.decreeNumber ∈ numbers kept := mem_map_of_mem (mem_of_mem_getLast? final)
  constructor
  · intro same
    rw [same]
    refine ⟨between_ascending _ _, fun n member below => mem_between.mpr ?_⟩
    have above := (all n).mp member
    omega
  · rintro ⟨ascending, complete⟩
    have below (n : Int) (member : n ∈ numbers kept) : n ≤ p.1.decreeNumber := by
      have bound := le_getLast (ne_nil_of_mem member) ascending member
      rwa [show (numbers kept).getLast (ne_nil_of_mem member) = p.1.decreeNumber from ?_] at bound
      apply Option.some.inj
      rw [← getLast?_eq_some_getLast, numbers, getLast?_map, final, Option.map_some]
    apply ext_ascending lt_asymm ascending (between_ascending _ _)
    intro n
    rw [mem_between]
    constructor
    · intro member
      have low := (all n).mp (inside n member)
      have high := below n member
      omega
    · intro bounds
      have top := (all _).mp (inside _ ending)
      by_cases final : n = p.1.decreeNumber
      · exact final ▸ ending
      · exact complete n ((all n).mpr (by omega)) (by omega)

/-- Of the answers that can be executed, those in a later legislature have higher numbers; none is missing below
another; and the replica has confirmed no decree after the last. -/
def Sequential (d : DecreeId) (dvs : List (DecreeId × Value A)) : Prop :=
  (∀ p ∈ dvs, ∀ q ∈ dvs, Reachable dvs p → Reachable dvs q →
    p.1.decreeLegislatureId < q.1.decreeLegislatureId → p.1.decreeNumber < q.1.decreeNumber) ∧
  (∀ p ∈ dvs, ∀ q ∈ dvs, Reachable dvs q → p.1.decreeNumber < q.1.decreeNumber →
    ∃ p' ∈ dvs, Reachable dvs p' ∧ p'.1.decreeNumber = p.1.decreeNumber) ∧
  ∀ last ∈ dvs, Reachable dvs last → (∀ p ∈ dvs, Reachable dvs p → p.1 ≤ last.1) → d ≤ following last
deriving Decidable

theorem recovered_in_sequence_iff (ascending : dvs.Pairwise fun p q => p.1 < q.1) (above : ∀ p ∈ dvs, w ≤ p.1)
    (accepted : caughtUp w dvs) (d : DecreeId) :
    InSequence w d (trimUnreachable dvs w.decreeLegislatureId) ↔ Sequential d dvs := by
  have members (p : DecreeId × Value A) : p ∈ trimUnreachable dvs w.decreeLegislatureId ↔ p ∈ dvs ∧ Reachable dvs p := by
    rw [mem_trimUnreachable ascending]
    refine and_congr_right fun member => and_iff_right ?_
    have later := DecreeId.le_def.mp (above p member)
    omega
  have part := trimUnreachable_sublist dvs w.decreeLegislatureId
  generalize trimUnreachable dvs w.decreeLegislatureId = kept at members part
  replace ascending := ascending.sublist part
  constructor
  · intro sequence
    have ends {p : DecreeId × Value A} (member : p ∈ dvs) (free : Reachable dvs p) : ∃ last ∈ kept.getLast?,
        p.1 ≤ last.1 ∧ (numbers kept).Pairwise (· < ·) ∧ ∀ n ∈ numbers dvs, n < last.1.decreeNumber → n ∈ numbers kept := by
      have found := (members p).mpr ⟨member, free⟩
      have final := getLast?_eq_some_getLast (ne_nil_of_mem found)
      exact ⟨_, final, ((mem_getLast?_iff ascending).mp final).2 p found,
        (numbers_eq_between accepted part.subset final).mp (sequence _ final).1⟩
    refine ⟨fun p first q second free free' => ?_, fun p first q second free below => ?_, fun last member free greatest => ?_⟩
    · obtain ⟨-, -, -, numbered, -⟩ := ends first free
      exact (numbers_ascending_iff ascending).mp numbered p ((members p).mpr ⟨first, free⟩) q ((members q).mpr ⟨second, free'⟩)
    · obtain ⟨last, final, before, numbered, complete⟩ := ends second free
      have lower := (numbers_ascending_iff ascending).mp numbered q ((members q).mpr ⟨second, free⟩) last
        (mem_of_mem_getLast? final)
      have most := DecreeId.le_def.mp before
      obtain ⟨p', found, number⟩ := mem_map.mp (complete _ (mem_map_of_mem first) (by omega))
      obtain ⟨listed, free'⟩ := (members p').mp found
      exact ⟨p', listed, free', number⟩
    · have final : last ∈ kept.getLast? := (mem_getLast?_iff ascending).mpr
        ⟨(members last).mpr ⟨member, free⟩, fun q found => (and_imp.mpr (greatest q)) ((members q).mp found)⟩
      have next := (sequence last final).2
      rw [recoveryDecree, final] at next
      exact sup_eq_right.mp next
  · rintro ⟨ordered, complete, confirmed⟩ last final
    obtain ⟨found, greatest⟩ := (mem_getLast?_iff ascending).mp final
    obtain ⟨member, free⟩ := (members last).mp found
    constructor
    · refine (numbers_eq_between accepted part.subset final).mpr ⟨(numbers_ascending_iff ascending).mpr ?_, ?_⟩
      · intro p first q second
        obtain ⟨first, free⟩ := (members p).mp first
        obtain ⟨second, free'⟩ := (members q).mp second
        exact ordered p first q second free free'
      · intro n listed below
        obtain ⟨p, inside, rfl⟩ := mem_map.mp listed
        obtain ⟨p', inside, free, number⟩ := complete p inside last member free below
        exact number ▸ mem_map_of_mem ((members p').mpr ⟨inside, free⟩)
    · rw [recoveryDecree, final]
      exact sup_eq_right.mpr (confirmed last member free fun p inside free => greatest p ((members p).mpr ⟨inside, free⟩))

theorem recovered_in_sequence_reconf :
    InSequence ⟨0, 0⟩ ⟨0, 0⟩
    (trimUnreachable [(⟨0, 0⟩, .Reconf 1 []), (⟨0, 1⟩, .Values [7]), (⟨1, 1⟩, .Values [8])] 0 : List (DecreeId × Value Nat)) :=
  (recovered_in_sequence_iff (by decide) (by decide) (by decide) _).mpr (by decide)

/-- The decree that is missing in the new legislature is not missed, since an unreachable one has its number. -/
theorem recovered_gap : ∃ dvs : List (DecreeId × Value Nat), (dvs.Pairwise fun p q => p.1 < q.1) ∧ caughtUp ⟨0, 0⟩ dvs ∧
    numbers (trimUnreachable dvs 0) = [0, 1, 3] :=
  ⟨[(⟨0, 0⟩, .Reconf 1 []), (⟨0, 1⟩, .Values [7]), (⟨0, 2⟩, .Values [7]), (⟨1, 1⟩, .Values [8]), (⟨1, 3⟩, .Values [8])],
    by decide, by decide, by decide⟩

end Halon.Log
