import Halon.Paxos.Acceptor

/-! Intervals of decrees as sets. Compressing keeps the set, looking up separated
ranges misses nothing, and subtracting misses nothing unless an interval is severed:
the source then keeps the part before the hole and drops the part behind it. -/

namespace Halon.Paxos
open Halon.Library List

section
variable {α : Type} [LinearOrder α]

def Covers (ranges : List (α × α)) (d : α) : Prop := ∃ range ∈ ranges, range.1 ≤ d ∧ d < range.2

/-- No range is empty, and between two ranges at least one element is left out. -/
structure Separate (ranges : List (α × α)) : Prop where
  filled : ∀ range ∈ ranges, range.1 < range.2
  gaps : ranges.Pairwise fun first second => first.2 < second.1

theorem not_covers_nil (d : α) : ¬ Covers [] d := by
  intro covers
  obtain ⟨_, member, _⟩ := covers
  cases member

variable {range : α × α} {ranges xs : List (α × α)}

theorem covers_cons : Covers (range :: ranges) d ↔ range.1 ≤ d ∧ d < range.2 ∨ Covers ranges d := by
  simp only [Covers, mem_cons, or_and_right, exists_or, exists_eq_left]

theorem Separate.tail (separate : Separate (range :: ranges)) : Separate ranges :=
  ⟨fun other member => separate.filled other (mem_cons_of_mem _ member), separate.gaps.of_cons⟩

theorem Separate.cons (filled : range.1 < range.2) (gaps : ∀ other ∈ ranges, range.2 < other.1) (separate : Separate ranges) :
    Separate (range :: ranges) where
  filled := by
    intro other member
    cases member with
    | head => exact filled
    | tail _ later => exact separate.filled other later
  gaps := pairwise_cons.mpr ⟨gaps, separate.gaps⟩

section
variable {succ : α → α} (next : ∀ d x, d < succ x ↔ d ≤ x)
include next

private theorem successor_le (above : x < y) : succ x ≤ y := by
  apply le_of_not_gt
  intro below
  exact absurd above (not_lt.mpr ((next y x).mp below))

private theorem go_spec (zs : List α) (filled : x < y) (least : ∀ z ∈ zs, y ≤ z) (ascending : zs.Pairwise (· < ·)) :
    (∀ d, Covers (intervals.go succ x y zs) d ↔ x ≤ d ∧ d < y ∨ d ∈ zs) ∧ Separate (intervals.go succ x y zs) ∧
      ∀ range ∈ intervals.go succ x y zs, x ≤ range.1 := by
  induction zs generalizing x y with
  | nil =>
    refine ⟨by simp [intervals.go, covers_cons, not_covers_nil], .cons filled nofun ⟨nofun, .nil⟩, ?_⟩
    intro range member
    rw [mem_singleton.mp member]
  | cons z zs ih =>
    obtain ⟨above, rest⟩ := pairwise_cons.mp ascending
    have first : ∀ w ∈ zs, succ z ≤ w := fun w member => successor_le next (above w member)
    have reached := least z mem_cons_self
    have past : z < succ z := (next z z).mpr le_rfl
    rw [intervals.go]
    split
    next same =>
      subst same
      obtain ⟨covers, separate⟩ := ih (filled.trans past) first rest
      refine ⟨?_, separate⟩
      intro d
      have here : x ≤ d ∧ d = y ↔ d = y := and_iff_right_of_imp fun equal => equal ▸ filled.le
      rw [covers, next, mem_cons, le_iff_lt_or_eq (a := d), and_or_left, here, or_assoc]
    next different =>
      obtain ⟨covers, separate, from_z⟩ := ih past first rest
      have gap : y < z := lt_of_le_of_ne reached different
      refine ⟨?_, .cons filled (fun range member => gap.trans_le (from_z range member)) separate, ?_⟩
      · intro d
        rw [covers_cons, covers, next, mem_cons, ← le_antisymm_iff, eq_comm (a := z)]
      · intro range member
        cases member with
        | head => exact le_rfl
        | tail _ later => exact (filled.trans gap).le.trans (from_z range later)

theorem intervals_covers {xs : List α} (ascending : xs.Pairwise (· < ·)) (d : α) : Covers (intervals succ xs) d ↔ d ∈ xs := by
  cases xs with
  | nil => simp [intervals, not_covers_nil]
  | cons x xs =>
    obtain ⟨above, rest⟩ := pairwise_cons.mp ascending
    have past : x < succ x := (next x x).mpr le_rfl
    rw [intervals, (go_spec next xs past (fun z member => successor_le next (above z member)) rest).1, next, mem_cons,
      ← le_antisymm_iff, eq_comm (a := x)]

theorem intervals_separate {xs : List α} (ascending : xs.Pairwise (· < ·)) : Separate (intervals succ xs) := by
  cases xs with
  | nil => exact ⟨nofun, .nil⟩
  | cons x xs =>
    obtain ⟨above, rest⟩ := pairwise_cons.mp ascending
    have past : x < succ x := (next x x).mpr le_rfl
    exact (go_spec next xs past (fun z member => successor_le next (above z member)) rest).2.1

end

/-- On the way of `diffIntervals` through both lists, an interval to be subtracted
lies strictly inside what is left of the interval at hand. -/
def severed : List (α × α) → List (α × α) → Bool
  | _, [] => false
  | [], _ => false
  | (x, x') :: xss, (y, y') :: yss =>
    if x < y' ∧ y < x' then
      if x < y then decide (y' < x') || severed xss ((y, y') :: yss)
      else if x' ≤ y' then severed xss ((y, y') :: yss)
      else severed ((y', x') :: xss) yss
    else severed xss ((y, y') :: yss)
termination_by xs ys => xs.length + ys.length

theorem diffIntervals_covers (whole : severed xs ys = false) (held : Covers xs d) (missing : ¬ Covers ys d) :
    Covers (diffIntervals xs ys) d := by
  induction xs, ys using diffIntervals.induct with
  | case1 =>
    rw [diffIntervals]
    exact held
  | case2 => exact absurd held (not_covers_nil d)
  | case3 x x' xss y y' yss overlap before ih =>
    rw [severed, if_pos overlap, if_pos before, Bool.or_eq_false_iff, decide_eq_false_iff_not, not_lt] at whole
    rw [diffIntervals, if_pos overlap, if_pos before, covers_cons]
    cases covers_cons.mp held with
    | inl here =>
      left
      refine ⟨here.1, ?_⟩
      apply lt_of_not_ge
      intro past
      exact missing (covers_cons.mpr (.inl ⟨past, here.2.trans_le whole.1⟩))
    | inr later => exact .inr (ih whole.2 later missing)
  | case4 x x' xss y y' yss overlap inside ends ih =>
    rw [severed, if_pos overlap, if_neg inside, if_pos ends] at whole
    rw [diffIntervals, if_pos overlap, if_neg inside, if_pos ends]
    cases covers_cons.mp held with
    | inl here => exact absurd (covers_cons.mpr (.inl ⟨(not_lt.mp inside).trans here.1, here.2.trans_le ends⟩)) missing
    | inr later => exact ih whole later missing
  | case5 x x' xss y y' yss overlap inside ends ih =>
    rw [severed, if_pos overlap, if_neg inside, if_neg ends] at whole
    rw [diffIntervals, if_pos overlap, if_neg inside, if_neg ends]
    rw [covers_cons, not_or] at missing
    apply ih whole
    · apply covers_cons.mpr
      apply (covers_cons.mp held).imp_left
      intro here
      refine ⟨?_, here.2⟩
      apply le_of_not_gt
      intro early
      exact missing.1 ⟨(not_lt.mp inside).trans here.1, early⟩
    · exact missing.2
  | case6 x x' xss y y' yss apart ih =>
    rw [severed, if_neg apart] at whole
    rw [diffIntervals, if_neg apart, covers_cons]
    exact (covers_cons.mp held).imp_right fun later => ih whole later missing

private theorem diffIntervals_parts (ys : List (α × α)) (separate : Separate xs) :
    Separate (diffIntervals xs ys) ∧ ∀ range ∈ diffIntervals xs ys, ∃ other ∈ xs, other.1 ≤ range.1 ∧ range.2 ≤ other.2 := by
  have keep {head : α × α} {rest xss : List (α × α)} {x x' : α} (gaps : ∀ other ∈ xss, x' < other.1) (filled : head.1 < head.2)
      (starts : x ≤ head.1) (ends : head.2 ≤ x')
      (tail : Separate rest ∧ ∀ range ∈ rest, ∃ other ∈ xss, other.1 ≤ range.1 ∧ range.2 ≤ other.2) :
      Separate (head :: rest) ∧ ∀ range ∈ head :: rest, ∃ other ∈ (x, x') :: xss, other.1 ≤ range.1 ∧ range.2 ≤ other.2 := by
    refine ⟨.cons filled ?_ tail.1, ?_⟩
    · intro range member
      obtain ⟨other, inside, least, _⟩ := tail.2 range member
      exact ends.trans_lt ((gaps other inside).trans_le least)
    · intro range member
      cases member with
      | head => exact ⟨_, mem_cons_self, starts, ends⟩
      | tail _ later =>
        obtain ⟨other, inside, part⟩ := tail.2 range later
        exact ⟨other, mem_cons_of_mem _ inside, part⟩
  induction xs, ys using diffIntervals.induct with
  | case1 =>
    rw [diffIntervals]
    exact ⟨separate, fun range member => ⟨range, member, le_rfl, le_rfl⟩⟩
  | case2 ys nonempty =>
    rw [diffIntervals]
    · exact ⟨separate, nofun⟩
    · exact nonempty
  | case3 x x' xss y y' yss overlap before ih =>
    rw [diffIntervals, if_pos overlap, if_pos before]
    exact keep (pairwise_cons.mp separate.gaps).1 before le_rfl overlap.2.le (ih separate.tail)
  | case4 x x' xss y y' yss overlap inside ends ih =>
    rw [diffIntervals, if_pos overlap, if_neg inside, if_pos ends]
    obtain ⟨kept, parts⟩ := ih separate.tail
    refine ⟨kept, ?_⟩
    intro range member
    obtain ⟨other, earlier, part⟩ := parts range member
    exact ⟨other, mem_cons_of_mem _ earlier, part⟩
  | case5 x x' xss y y' yss overlap inside ends ih =>
    rw [diffIntervals, if_pos overlap, if_neg inside, if_neg ends]
    obtain ⟨kept, parts⟩ := ih (.cons (not_le.mp ends) (pairwise_cons.mp separate.gaps).1 separate.tail)
    refine ⟨kept, ?_⟩
    intro range member
    obtain ⟨other, earlier, least, most⟩ := parts range member
    cases earlier with
    | head => exact ⟨_, mem_cons_self, overlap.1.le.trans least, most⟩
    | tail _ later => exact ⟨other, mem_cons_of_mem _ later, least, most⟩
  | case6 x x' xss y y' yss apart ih =>
    rw [diffIntervals, if_neg apart]
    exact keep (pairwise_cons.mp separate.gaps).1 (separate.filled _ mem_cons_self) le_rfl le_rfl (ih separate.tail)

theorem diffIntervals_separate (ys : List (α × α)) (separate : Separate xs) :
    Separate (diffIntervals xs ys) := (diffIntervals_parts ys separate).1

theorem covers_of_diffIntervals (separate : Separate xs) (covers : Covers (diffIntervals xs ys) d) :
    Covers xs d := by
  obtain ⟨range, member, least, most⟩ := covers
  obtain ⟨other, inside, starts, ends⟩ := (diffIntervals_parts ys separate).2 range member
  exact ⟨other, inside, starts.trans least, most.trans_le ends⟩

end

section
variable {V : Type} {m : OrderedMap DecreeId V} {entry : DecreeId × V} {range : Interval} {ranges : List Interval}

/-- What is looked up in a range is its start and what follows up to its end. The end is dropped for the ranges that follow. -/
theorem mem_lookupRanges_cons : entry ∈ lookupRanges m (range :: ranges) ↔
    entry ∈ m ∧ (entry.1 = range.1 ∨ range.1 < entry.1 ∧ entry.1 < range.2) ∨
      entry ∈ lookupRanges ((m.above range.1).above range.2) ranges := by
  obtain ⟨d, _⟩ := entry
  simp only [lookupRanges, OrderedMap.splitLookup, mem_append, Option.mem_toList, Option.map_eq_some_iff,
    OrderedMap.lookup_eq_some, Prod.mk.injEq, OrderedMap.above, OrderedMap.below, ← OrderedMap.mem_def, OrderedMap.mem_filter,
    decide_eq_true_eq]
  grind

theorem mem_of_mem_lookupRanges (found : entry ∈ lookupRanges m ranges) : entry ∈ m := by
  induction ranges generalizing m with
  | nil => cases found
  | cons _ rest ih =>
    rcases mem_lookupRanges_cons.mp found with here | later
    · exact here.1
    · exact (OrderedMap.mem_filter.mp (OrderedMap.mem_filter.mp (ih later)).1).1

theorem lookupRanges_sorted (m : OrderedMap DecreeId V) (ranges : List Interval) :
    (lookupRanges m ranges).Pairwise fun first second => first.1 < second.1 := by
  induction ranges generalizing m with
  | nil => exact .nil
  | cons range rest ih =>
    have later {entry : DecreeId × V} (found : entry ∈ lookupRanges ((m.above range.1).above range.2) rest) :
        range.1 < entry.1 ∧ range.2 < entry.1 := by
      obtain ⟨first, second⟩ := OrderedMap.mem_filter.mp (mem_of_mem_lookupRanges found)
      exact ⟨of_decide_eq_true (OrderedMap.mem_filter.mp first).2, of_decide_eq_true second⟩
    refine pairwise_append.mpr ⟨?_, pairwise_append.mpr ⟨OrderedMap.ordered _, ih _, ?_⟩, ?_⟩
    · cases (m.splitLookup range.1).2.1 <;> simp
    · intro first between second after
      exact (of_decide_eq_true (OrderedMap.mem_filter.mp between).2).trans (later after).2
    · intro first here second after
      obtain ⟨_, _, rfl⟩ := Option.map_eq_some_iff.mp (Option.mem_toList.mp here)
      rcases mem_append.mp after with between | after
      · exact of_decide_eq_true (OrderedMap.mem_filter.mp (OrderedMap.mem_filter.mp between).1).2
      · exact (later after).1

/-- No range is empty, and none starts before the end of an earlier one. -/
structure Ascending (ranges : List Interval) : Prop where
  filled : ∀ range ∈ ranges, range.1 < range.2
  ordered : ranges.Pairwise fun first second => first.2 ≤ second.1

/-- What ascending ranges cover is found unless it is the end of a range. -/
theorem mem_lookupRanges_iff (ascending : Ascending ranges) :
    entry ∈ lookupRanges m ranges ↔ entry ∈ m ∧ Covers ranges entry.1 ∧ entry.1 ∉ ranges.map Prod.snd := by
  induction ranges generalizing m with
  | nil => simp [lookupRanges, Covers]
  | cons range ranges ih =>
    have filled := ascending.filled range mem_cons_self
    have tail : Ascending ranges :=
      ⟨fun other member => ascending.filled other (mem_cons_of_mem _ member), ascending.ordered.of_cons⟩
    have after {d : DecreeId} (covers : Covers ranges d) : range.2 ≤ d := by
      obtain ⟨other, member, starts, _⟩ := covers
      exact ((pairwise_cons.mp ascending.ordered).1 other member).trans starts
    have ends {d : DecreeId} (member : d ∈ ranges.map Prod.snd) : range.2 < d := by
      obtain ⟨other, inside, rfl⟩ := mem_map.mp member
      exact ((pairwise_cons.mp ascending.ordered).1 other inside).trans_lt (tail.filled other inside)
    rw [mem_lookupRanges_cons, ih tail, covers_cons, map_cons, mem_cons, not_or]
    simp only [OrderedMap.above, OrderedMap.mem_filter, decide_eq_true_eq]
    constructor
    · intro found
      rcases found with ⟨stored, here⟩ | ⟨⟨⟨stored, _⟩, beyond⟩, covers, apart⟩
      · have inside : range.1 ≤ entry.1 ∧ entry.1 < range.2 :=
          here.elim (fun same => ⟨same.ge, same ▸ filled⟩) fun between => ⟨between.1.le, between.2⟩
        exact ⟨stored, .inl inside, inside.2.ne, fun member => absurd (ends member) inside.2.not_gt⟩
      · exact ⟨stored, .inr covers, beyond.ne', apart⟩
    · intro found
      obtain ⟨stored, inside | later, other, apart⟩ := found
      · exact .inl ⟨stored, inside.1.eq_or_lt.imp Eq.symm fun above => ⟨above, inside.2⟩⟩
      · have beyond := lt_of_le_of_ne (after later) (Ne.symm other)
        exact .inr ⟨⟨⟨stored, filled.trans beyond⟩, beyond⟩, later, apart⟩

/-- A range that covers the end of another one starts there. -/
theorem Ascending.meets (ascending : Ascending ranges) (first : range ∈ ranges) (second : other ∈ ranges)
    (starts : other.1 ≤ range.2) (before : range.2 < other.2) : range.2 = other.1 := by
  have ordered := List.Pairwise.forall_of_forall_of_flip (R := fun x y : Interval => x = y ∨ x.2 ≤ y.1 ∨ y.2 ≤ x.1)
    (fun _ _ => .inl rfl) (ascending.ordered.imp fun less => .inr (.inl less))
      (ascending.ordered.imp fun less => .inr (.inr less))
  rcases ordered first second with rfl | below | above
  · exact absurd before (lt_irrefl _)
  · exact below.antisymm starts
  · exact absurd ((above.trans_lt (ascending.filled range first)).trans before) (lt_irrefl _)

theorem mem_lookupRanges (separate : Separate ranges) (stored : (d, value) ∈ m)
    (covers : Covers ranges d) :
    (d, value) ∈ lookupRanges m ranges := by
  have ascending : Ascending ranges := ⟨separate.filled, separate.gaps.imp le_of_lt⟩
  refine (mem_lookupRanges_iff ascending).mpr ⟨stored, covers, fun ends => ?_⟩
  obtain ⟨first, member, rfl⟩ := mem_map.mp ends
  obtain ⟨second, other, starts, before⟩ := covers
  have meets := ascending.meets member other starts before
  have apart := List.Pairwise.forall_of_forall_of_flip (R := fun x y : Interval => x.2 < y.1 ∨ y.2 ≤ x.2)
    (fun _ _ => .inr le_rfl) (separate.gaps.imp .inl)
    (separate.gaps.imp_of_mem fun _ second less => .inr (less.trans (separate.filled _ second)).le)
  exact (apart member other).elim meets.not_lt before.not_ge

instance (ranges : List Interval) : DecidablePred (Covers ranges) := fun _ =>
  inferInstanceAs (Decidable (∃ _ ∈ ranges, _))

/-- Ascending ranges are looked up exactly unless one starts where another ends and the map has an entry there. -/
theorem lookupRanges_exact_iff (ascending : Ascending ranges) :
    lookupRanges m ranges = m.entries.filter (fun entry => Covers ranges entry.1) ↔
      ∀ first ∈ ranges, ∀ second ∈ ranges, first.2 = second.1 → first.2 ∉ m.keys := by
  constructor
  · intro exact first member second other meets stored
    obtain ⟨value, stored⟩ := OrderedMap.mem_keys.mp stored
    have covers : Covers ranges first.2 := ⟨second, other, meets.ge, meets ▸ ascending.filled second other⟩
    have found : (first.2, value) ∈ lookupRanges m ranges := exact ▸ mem_filter.mpr ⟨stored, decide_eq_true covers⟩
    exact ((mem_lookupRanges_iff ascending).mp found).2.2 (mem_map_of_mem member)
  · intro apart
    apply ext_ascending (fun below => below.asymm) (lookupRanges_sorted m ranges) (m.ordered.filter _)
    intro entry
    rw [mem_filter, decide_eq_true_eq, mem_lookupRanges_iff ascending, ← and_assoc]
    apply and_iff_left_iff_imp.mpr
    intro found ends
    obtain ⟨first, member, same⟩ := mem_map.mp ends
    obtain ⟨stored, second, other, starts, before⟩ := found
    rw [← same] at starts before
    refine apart first member second other (ascending.meets member other starts before) ?_
    exact same ▸ OrderedMap.mem_keys.mpr ⟨entry.2, stored⟩

theorem lookupRanges_exact_apart :
    lookupRanges (.fromList [(⟨0, 2⟩, 'a')]) [(⟨0, 1⟩, ⟨0, 3⟩), (⟨0, 3⟩, ⟨0, 5⟩)] = [(⟨0, 2⟩, 'a')] :=
  (lookupRanges_exact_iff ⟨by decide, by decide⟩).mpr (by decide)

/-- The entry at the bound of two ranges is not found. -/
theorem lookupRanges_misses : Ascending [(⟨0, 1⟩, ⟨0, 3⟩), (⟨0, 3⟩, ⟨0, 5⟩)] ∧
    lookupRanges (.fromList [(⟨0, 3⟩, 'a')]) [(⟨0, 1⟩, ⟨0, 3⟩), (⟨0, 3⟩, ⟨0, 5⟩)] = [] :=
  ⟨⟨by decide, by decide⟩, by decide⟩

end

theorem decree_lt_succ (d x : DecreeId) : d < x.succ ↔ d ≤ x := by
  rw [DecreeId.lt_def, DecreeId.le_def]
  simp only [DecreeId.succ]
  omega

section
variable {π V : Type}

theorem keys_ascending (decrees : Decrees π V) : decrees.keys.Pairwise (· < ·) := pairwise_map.mpr decrees.ordered

theorem advertised_covers (decrees : Decrees π V) (d : DecreeId) :
    Covers (intervals DecreeId.succ decrees.keys) d ↔ d ∈ decrees.keys :=
  intervals_covers decree_lt_succ (keys_ascending decrees) d

theorem advertised_separate (decrees : Decrees π V) : Separate (intervals DecreeId.succ decrees.keys) :=
  intervals_separate decree_lt_succ (keys_ascending decrees)

namespace Acceptor

/-- The intervals that an acceptor subtracts from an advertisement. -/
def own (acceptor : Acceptor π V) : List Interval := ownIntervals acceptor.loop.sd acceptor.store.decrees.entries

/-- From its first decree on, an acceptor stores what it counts as its own. -/
theorem own_stored {acceptor : Acceptor π V} {d : DecreeId} (covers : Covers acceptor.own d)
    (kept : acceptor.loop.sd ≤ d) : d ∈ acceptor.store.decrees.keys := by
  have ascending := keys_ascending acceptor.store.decrees
  unfold own ownIntervals at covers
  split at covers
  next =>
    have later : (acceptor.store.decrees.keys.dropWhile fun d => decide (d < acceptor.loop.sd)).Sublist
        acceptor.store.decrees.keys := (dropWhile_suffix _).sublist
    cases covers_cons.mp covers with
    | inl trimmed => exact absurd trimmed.2 (not_lt.mpr kept)
    | inr held => exact later.subset ((intervals_covers decree_lt_succ (ascending.sublist later) d).mp held)
  next => exact (advertised_covers _ d).mp covers

variable {N : Type} [LinearOrder π] (name : N) {acceptor : Acceptor π V} (κ : ReplyTo π) (α : N) {ds : List Interval}

theorem receive_advertise_known (known : diffIntervals ds acceptor.own = []) :
    acceptor.receive name (.syncAdvertise κ α ds) = (acceptor, [.reply κ (.syncCompleted name)]) := by
  unfold own at known
  simp only [receive, handle, Store.run, if_pos known]

theorem receive_advertise_missing (missing : diffIntervals ds acceptor.own ≠ []) :
    acceptor.receive name (.syncAdvertise κ α ds) =
      (acceptor, [.request α (.syncRequest κ name (diffIntervals ds acceptor.own))]) := by
  unfold own at missing ⊢
  simp only [receive, handle, Store.run, if_neg missing]

theorem receive_request : acceptor.receive name (.syncRequest κ α ds) =
    (acceptor, [.request α (.syncResponse κ (lookupRanges acceptor.store.decrees ds))]) := rfl

theorem receive_response (dvs : List (DecreeId × Vote π V)) : acceptor.receive name (.syncResponse κ dvs) =
    (⟨acceptor.loop, acceptor.store.insert dvs⟩, [.reply κ (.syncCompleted name)]) := rfl

end Acceptor
end
/-- The decrees of a half-open interval in order, `[x .. pred y]`. Only decrees of one legislature are enumerated. -/
def enumerate (range : DecreeId × DecreeId) : List DecreeId :=
  (List.range (range.2.decreeNumber - range.1.decreeNumber).toNat).map fun k : Nat =>
    ⟨range.1.decreeLegislatureId, range.1.decreeNumber + k⟩

variable {x y : DecreeId}

theorem enumerate_succ (same : x.decreeLegislatureId = y.decreeLegislatureId) (filled : x.decreeNumber ≤ y.decreeNumber) :
    enumerate (x, y.succ) = enumerate (x, y) ++ [y] := by
  have longer : (y.succ.decreeNumber - x.decreeNumber).toNat = (y.decreeNumber - x.decreeNumber).toNat + 1 := by
    simp only [DecreeId.succ]
    omega
  have last : (⟨x.decreeLegislatureId, x.decreeNumber + (y.decreeNumber - x.decreeNumber).toNat⟩ : DecreeId) = y := by
    rw [same, Int.toNat_sub_of_le filled, Int.add_comm, Int.sub_add_cancel]
  rw [enumerate, longer, range_succ, map_append, map_singleton, last, enumerate]

theorem enumerate_single (x : DecreeId) : enumerate (x, x.succ) = [x] := by
  have empty : enumerate (x, x) = [] := by
    rw [enumerate, Int.sub_self]
    rfl
  rw [enumerate_succ rfl le_rfl, empty, nil_append]

private theorem go_enumerates (zs : List DecreeId) (same : x.decreeLegislatureId = y.decreeLegislatureId)
    (filled : x.decreeNumber < y.decreeNumber) :
    (∀ range ∈ intervals.go DecreeId.succ x y zs, range.1.decreeLegislatureId = range.2.decreeLegislatureId) ∧
      (intervals.go DecreeId.succ x y zs).flatMap enumerate = enumerate (x, y) ++ zs := by
  induction zs generalizing x y with
  | nil =>
    constructor
    · intro range member
      rw [mem_singleton.mp member]
      exact same
    · rw [intervals.go, flatMap_singleton, append_nil]
  | cons z zs ih =>
    have past : z.decreeNumber < z.succ.decreeNumber := Int.lt_succ _
    rw [intervals.go]
    split
    next reached =>
      subst reached
      obtain ⟨within, enumerated⟩ := ih (y := y.succ) same (filled.trans past)
      refine ⟨within, ?_⟩
      rw [enumerated, enumerate_succ same filled.le, append_assoc, singleton_append]
    next =>
      obtain ⟨within, enumerated⟩ := ih (x := z) (y := z.succ) rfl past
      constructor
      · intro range member
        cases member with
        | head => exact same
        | tail _ later => exact within range later
      · rw [flatMap_cons, enumerated, enumerate_single, singleton_append]

theorem intervals_enumerate {xs : List DecreeId} (ascending : xs.Pairwise (· < ·)) :
    (∀ range ∈ intervals DecreeId.succ xs, range.1 < range.2 ∧ range.1.decreeLegislatureId = range.2.decreeLegislatureId) ∧
    (intervals DecreeId.succ xs).Pairwise (fun first second => first.2 < second.1) ∧
    (intervals DecreeId.succ xs).flatMap enumerate = xs := by
  have separate := intervals_separate decree_lt_succ ascending
  cases xs with
  | nil => exact ⟨nofun, .nil, rfl⟩
  | cons x xs =>
    obtain ⟨within, enumerated⟩ := go_enumerates (x := x) (y := x.succ) xs rfl (Int.lt_succ _)
    refine ⟨fun range member => ⟨separate.filled range member, within range member⟩, separate.gaps, ?_⟩
    rw [intervals, enumerated, enumerate_single, singleton_append]

theorem intervals_enumerate_four : (intervals DecreeId.succ [⟨0, 1⟩, ⟨0, 2⟩, ⟨0, 4⟩, ⟨1, 5⟩]).flatMap enumerate =
    [⟨0, 1⟩, ⟨0, 2⟩, ⟨0, 4⟩, ⟨1, 5⟩] :=
  (intervals_enumerate (by decide)).2.2

end Halon.Paxos
