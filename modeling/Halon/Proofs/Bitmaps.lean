import Halon.Mero.Bitmap
import Mathlib.Data.List.Induction

/-! The bits of a bitmap are those it was made from, and the rest of its last word is empty. -/

namespace Halon.Mero
open List

namespace bitmapFromArray
variable {arr : List Bool}

theorem bits2word_append (xs : List Bool) (a : Bool) :
    bits2word (xs ++ [a]) = if a then setBit (bits2word xs) xs.length else bits2word xs := by
  have pairs : (range (xs ++ [a]).length).zip (xs ++ [a]) = (range xs.length).zip xs ++ [(xs.length, a)] := by
    rw [length_append, length_singleton, range_succ, zip_append length_range]
    rfl
  rw [bits2word, pairs, foldl_append]
  rfl

theorem getLsbD_bits2word (xs : List Bool) (fits : xs.length ≤ 64) (i : Nat) :
    (bits2word xs).getLsbD i = xs[i]?.getD false := by
  induction xs using List.reverseRecOn with
  | nil => simp [bits2word]
  | append_singleton xs a ih =>
    rw [length_append, length_singleton] at fits
    have earlier := ih (by omega)
    have last : (setBit (bits2word xs) xs.length).getLsbD i = ((bits2word xs).getLsbD i || decide (xs.length = i)) := by
      rw [setBit, ← BitVec.twoPow_eq, BitVec.getLsbD_or, BitVec.getLsbD_twoPow, decide_eq_true (by omega : xs.length < 64),
        Bool.true_and]
    rw [bits2word_append, getElem?_append]
    by_cases below : i < xs.length
    · rw [if_pos below, ← earlier]
      cases a <;> simp [last, Nat.ne_of_gt below]
    · have here : [a][i - xs.length]?.getD false = (a && decide (xs.length = i)) := by
        rw [getElem?_singleton]
        split <;> simp <;> omega
      rw [getElem?_eq_none (Nat.not_lt.mp below)] at earlier
      rw [if_neg below, here]
      cases a <;> simp [last, earlier]

theorem go_filled (some : arr ≠ []) : go acc arr = bits2word (arr.take 64) :: go acc (arr.drop 64) := by
  rw [go]
  split
  next empty =>
    rw [splitAt_eq, Prod.mk.injEq, take_eq_nil_iff] at empty
    exact absurd (empty.1.resolve_left (by decide)) some
  next parts =>
    rw [splitAt_eq, Prod.mk.injEq] at parts
    rw [← parts.1, ← parts.2]

theorem go_packs (arr : List Bool) : (go [] arr).length = (arr.length + 63) / 64 ∧
    ∀ i, ((go [] arr)[i / 64]?.getD 0).getLsbD (i % 64) = arr[i]?.getD false := by
  induction size : arr.length using Nat.strongRecOn generalizing arr with
  | ind n ih =>
    by_cases empty : arr = []
    · subst empty
      have nothing : go [] [] = [] := by
        rw [go]
        rfl
      simp [nothing, ← size]
    · have filled := length_pos_iff.mpr empty
      obtain ⟨length, bits⟩ := ih _ (by rw [length_drop]; omega) (arr.drop 64) rfl
      rw [go_filled empty]
      refine ⟨by rw [length_cons, length, length_drop]; omega, fun i => ?_⟩
      by_cases first : i < 64
      · rw [Nat.div_eq_of_lt first, Nat.mod_eq_of_lt first, getElem?_cons_zero, Option.getD_some,
          getLsbD_bits2word _ (length_take_le _ _), getElem?_take_of_lt first]
      · obtain ⟨j, rfl⟩ := Nat.exists_eq_add_of_le (Nat.not_lt.mp first)
        have index : (64 + j) / 64 = j / 64 + 1 := by omega
        rw [index, Nat.add_mod_left, getElem?_cons_succ, bits j, getElem?_drop]

end bitmapFromArray

/-- A bitmap has as many words as its bits need, and all their bits are those of the list, or empty behind its end. -/
theorem bitmap_packs (bs : List Bool) : (bitmapFromArray bs).nr = bs.length ∧
    (bitmapFromArray bs).words.length = (bs.length + 63) / 64 ∧
    ∀ i, ((bitmapFromArray bs).words[i / 64]?.getD 0).getLsbD (i % 64) = bs[i]?.getD false :=
  ⟨rfl, bitmapFromArray.go_packs bs⟩

end Halon.Mero
