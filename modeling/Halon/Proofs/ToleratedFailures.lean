import Halon.Mero.PVerGen
import Halon.Proofs.MeroGraph
import Mathlib.Algebra.Group.Action.Defs
import Mathlib.Data.Finset.Max
import Mathlib.Data.Fintype.BigOperators
import Mathlib.Data.Fintype.Fin

/-! The controller failures that a pool version tolerates: the most that cannot take out more
than its parity units, however its units are spread evenly over the controllers. -/

namespace Halon.Mero.PVerGen
open Finset Nat

variable {n k C c q r : Nat}

/-- The units on each controller, spread as evenly as possible. -/
structure Spread (units : Fin C → Nat) (total : Nat) : Prop where
  all : ∑ i, units i = total
  even : ∀ i j, units i ≤ units j + 1

/-- However the units are spread, losing any `c` of the controllers loses at most `k` units. -/
def Tolerates (total k C c : Nat) : Prop :=
  ∀ units : Fin C → Nat, Spread units total → ∀ lost : Finset (Fin C), lost.card = c → ∑ i ∈ lost, units i ≤ k

def high (units : Fin C → Nat) (q : Nat) : Finset (Fin C) := univ.filter fun i => units i = q + 1

variable {units : Fin C → Nat}

theorem sum_units (two : ∀ i, units i = q ∨ units i = q + 1) (lost : Finset (Fin C)) :
    ∑ i ∈ lost, units i = lost.card * q + (lost ∩ high units q).card := by
  have each (i : Fin C) : units i = q + if units i = q + 1 then 1 else 0 := by
    split
    · assumption
    · exact (two i).resolve_right ‹_›
  have members : lost ∩ high units q = lost.filter fun i => units i = q + 1 := by
    ext i
    simp [high]
  rw [sum_congr rfl fun i _ => each i, sum_add_distrib, sum_const, smul_eq_mul, members, card_filter]

/-- An even spread has the quotient on every controller, and one more on as many as the remainder says. -/
theorem spread_two (some : 0 < C) (spread : Spread units total) :
    (∀ i, units i = total / C ∨ units i = total / C + 1) ∧ (high units (total / C)).card = total % C := by
  obtain ⟨least, _, below⟩ := exists_min_image univ units ⟨⟨0, some⟩, mem_univ _⟩
  have two (i : Fin C) : units i = units least ∨ units i = units least + 1 := by
    have low := below i (mem_univ i)
    have even := spread.even i least
    omega
  have sum := sum_units two univ
  rw [spread.all, Finset.card_univ, Fintype.card_fin, univ_inter] at sum
  have few : (high units (units least)).card < C := by
    have apart : least ∉ high units (units least) := by simp [high]
    have part := card_lt_univ_of_notMem apart
    rwa [Fintype.card_fin] at part
  have quotient : total / C = units least := by
    rw [sum, mul_add_div some, div_eq_of_lt few, add_zero]
  rw [quotient]
  refine ⟨two, ?_⟩
  rw [sum, mul_add_mod, mod_eq_of_lt few]

/-- The units that are lost with the `c` fullest of the controllers. -/
def loss (q r c : Nat) : Nat := c * q + min c r

theorem tolerates_iff (some : 0 < C) (within : c ≤ C) :
    Tolerates total k C c ↔ loss (total / C) (total % C) c ≤ k := by
  rw [loss]
  constructor
  · intro tolerates
    -- The first controllers have one unit more, and the first of all are lost.
    let units : Fin C → Nat := fun i => total / C + if i.val < total % C then 1 else 0
    have two (i : Fin C) : units i = total / C ∨ units i = total / C + 1 := by
      simp only [units]
      split <;> omega
    have more : high units (total / C) = univ.filter fun i : Fin C => i.val < total % C := by
      ext i
      simp only [high, units, mem_filter, mem_univ, true_and]
      split <;> omega
    have remainder : total % C < C := Nat.mod_lt _ some
    have spread : Spread units total := by
      constructor
      · rw [sum_units two, more, univ_inter, Fin.card_filter_val_lt, Finset.card_univ, Fintype.card_fin,
          Nat.min_eq_right remainder.le, Nat.div_add_mod]
      · intro i j
        have first := two i
        have second := two j
        omega
    have lost := tolerates units spread (univ.filter fun i : Fin C => i.val < c)
      (by rw [Fin.card_filter_val_lt, Nat.min_eq_right within])
    have both : (univ.filter fun i : Fin C => i.val < c) ∩ high units (total / C) =
        univ.filter fun i : Fin C => i.val < min c (total % C) := by
      ext i
      simp only [more, mem_inter, mem_filter, mem_univ, true_and, Nat.lt_min]
    rw [sum_units two, both, Fin.card_filter_val_lt, Fin.card_filter_val_lt] at lost
    rwa [Nat.min_eq_right within, Nat.min_eq_right (by omega)] at lost
  · intro enough units spread lost size
    obtain ⟨two, count⟩ := spread_two some spread
    rw [sum_units two lost, size]
    have part : (lost ∩ high units (total / C)).card ≤ min c (total % C) := by
      apply Nat.le_min.mpr
      refine ⟨size ▸ card_le_card inter_subset_left, count ▸ card_le_card inter_subset_right⟩
    omega

theorem loss_le (below : c ≤ r) : loss q r c = c * (q + 1) := by
  rw [loss, min_eq_left below, mul_succ]

theorem loss_ge (above : r ≤ c) : loss q r c = c * q + r := by
  rw [loss, min_eq_right above]

theorem fewer_lost (less : k < r * (q + 1)) : loss q r c ≤ k ↔ c ≤ k / (q + 1) := by
  rw [le_div_iff_mul_le (succ_pos q)]
  by_cases below : c ≤ r
  · rw [loss_le below]
  · have whole : r * (q + 1) ≤ c * (q + 1) := mul_le_mul_right _ (by omega)
    have more : r * q ≤ c * q := mul_le_mul_right _ (by omega)
    rw [loss_ge (by omega)]
    rw [mul_succ] at less whole ⊢
    omega

theorem more_lost (filled : 0 < q) (under : r * (q + 1) ≤ k) : loss q r c ≤ k ↔ c ≤ r + (k - r * (q + 1)) / q := by
  by_cases below : c ≤ r
  · have fits : c * (q + 1) ≤ r * (q + 1) := Nat.mul_le_mul_right _ below
    rw [loss_le below]
    exact ⟨fun _ => below.trans (Nat.le_add_right r _), fun _ => fits.trans under⟩
  · obtain ⟨_, rfl⟩ := Nat.exists_eq_add_of_le (Nat.le_of_not_le below)
    rw [loss_ge (by omega), Nat.add_le_add_iff_left, Nat.le_div_iff_mul_le filled, Nat.add_mul]
    rw [Nat.mul_succ] at under ⊢
    omega

theorem ctrlFailures_bounds (some : 0 < C) (units : n ≠ 0 ∨ k ≠ 0) :
    ∃ c, ctrlFailures n k C = .some c ∧ ∀ c', loss ((n + 2 * k) / C) ((n + 2 * k) % C) c' ≤ k ↔ c' ≤ c := by
  have whole := Nat.div_add_mod (n + 2 * k) C
  rw [ctrlFailures, quotRem, if_neg some.ne', Option.bind_eq_bind, Option.bind_some]
  generalize (n + 2 * k) / C = q at *
  generalize (n + 2 * k) % C = r at *
  dsimp only
  by_cases less : k < r * (q + 1)
  · refine ⟨k / (q + 1), ?_, fun _ => fewer_lost less⟩
    rw [if_pos less, quotRem, if_neg (Nat.succ_ne_zero q), Option.map_some]
  · have filled : 0 < q := by
      -- Without a unit on every controller the fullest ones hold all the units.
      apply Nat.pos_of_ne_zero
      intro empty
      rw [empty, Nat.mul_zero] at whole
      rw [empty, Nat.zero_add, Nat.mul_one] at less
      omega
    refine ⟨r + (k - r * (q + 1)) / q, ?_, fun _ => more_lost filled (Nat.le_of_not_lt less)⟩
    rw [if_neg less]
    split
    · rw [quotRem, if_neg filled.ne', Option.map_some]
    · rw [Nat.sub_eq_zero_of_le (by omega), Nat.zero_div, Nat.add_zero]

theorem ctrlFailures_within (some : 0 < C) (units : n ≠ 0 ∨ k ≠ 0)
    (most : ∀ c', loss ((n + 2 * k) / C) ((n + 2 * k) % C) c' ≤ k ↔ c' ≤ c) : c ≤ C := by
  by_contra beyond
  have lost := (most (C + 1)).mpr (by omega)
  have whole := div_add_mod (n + 2 * k) C
  have below := mod_lt (n + 2 * k) some
  rw [loss_ge (by omega), succ_mul] at lost
  generalize (n + 2 * k) / C = q at *
  omega

/-- The tolerated failures are computed without a division by zero, and those of controllers are the most that
are tolerated exactly when there are units at all. -/
theorem toleratedFailures_greatest_iff (K V : Type) [LinearOrder K] [LinearOrder V] (some : 0 < C) :
    ∃ c, ctrlFailures n k C = .some c ∧
    (∀ disks (rg : RG K V), nrCtrls disks rg = .some C → toleratedFailures n k disks rg = .some ⟨0, 0, 0, c, k⟩) ∧
    (IsGreatest { c | c ≤ C ∧ Tolerates (n + 2 * k) k C c } c ↔ n ≠ 0 ∨ k ≠ 0) := by
  have tolerated {c} (computed : ctrlFailures n k C = .some c) (disks : List ConfObj) (rg : RG K V)
      (counted : nrCtrls disks rg = .some C) : toleratedFailures n k disks rg = .some ⟨0, 0, 0, c, k⟩ := by
    simp [toleratedFailures, counted, computed]
  by_cases units : n ≠ 0 ∨ k ≠ 0
  · obtain ⟨c, computed, most⟩ := ctrlFailures_bounds some units
    have within := ctrlFailures_within some units most
    refine ⟨c, computed, tolerated computed, iff_of_true ⟨⟨within, ?_⟩, ?_⟩ units⟩
    · exact (tolerates_iff some within).mpr ((most c).mpr le_rfl)
    · intro c' tolerated
      exact (most c').mp ((tolerates_iff some tolerated.1).mp tolerated.2)
  · obtain ⟨rfl, rfl⟩ : n = 0 ∧ k = 0 := by omega
    have none : ctrlFailures 0 0 C = .some 0 := by
      simp [ctrlFailures, quotRem, some.ne']
    refine ⟨0, none, tolerated none, iff_of_false ?_ units⟩
    intro greatest
    have all := greatest.2 ⟨le_rfl, (tolerates_iff some le_rfl).mpr (by simp [loss])⟩
    omega

open Mero.Example in
/-- Three disks on two controllers. -/
def controllers : RG Resource (Rel Relation Resource) :=
  build ([(1, 1), (1, 2), (2, 3)].map fun e => (.conf (.device .Controller ⟨3, e.1⟩), .IsParentOf, .conf (.disk ⟨5, e.2⟩)))

theorem toleratedFailures_greatest_two : ∃ c, toleratedFailures 1 2 [.disk ⟨5, 1⟩, .disk ⟨5, 2⟩, .disk ⟨5, 3⟩] controllers =
    some ⟨0, 0, 0, c, 2⟩ ∧ (IsGreatest { c | c ≤ 2 ∧ Tolerates (1 + 2 * 2) 2 2 c } c ↔ 1 ≠ 0 ∨ 2 ≠ 0) := by
  obtain ⟨c, _, tolerated, greatest⟩ := toleratedFailures_greatest_iff (n := 1) (k := 2) (C := 2) Resource
    (Rel Relation Resource) (by decide)
  exact ⟨c, tolerated _ _ (by decide +kernel), greatest⟩

/-- Without any units every controller may be lost, but the code says that none may. -/
theorem ctrlFailures_no_units :
    ctrlFailures 0 0 1 = some 0 ∧ IsGreatest { c | c ≤ 1 ∧ Tolerates (0 + 2 * 0) 0 1 c } 1 := by
  refine ⟨by decide, ⟨le_rfl, (tolerates_iff one_pos le_rfl).mpr (by decide)⟩, ?_⟩
  intro c tolerated
  exact tolerated.1

end Halon.Mero.PVerGen
