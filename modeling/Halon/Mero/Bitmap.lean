import Mathlib.Init

/-! Bitmaps as the configuration has them, in words of 64 bits. -/

namespace Halon.Mero

structure Bitmap where
  nr : Nat
  words : List (BitVec 64)
deriving DecidableEq, Repr

namespace bitmapFromArray

def setBit (bm : BitVec 64) (idx : Nat) : BitVec 64 := bm ||| 1#64 <<< idx

def bits2word (xs : List Bool) : BitVec 64 :=
  ((List.range xs.length).zip xs).foldl (fun bm (idx, a) => if a then setBit bm idx else bm) 0

def go (acc : List (BitVec 64)) (arr : List Bool) : List (BitVec 64) :=
  match _split : arr.splitAt 64 with
  | ([], _) => acc
  | (b :: x, xs) => bits2word (b :: x) :: go acc xs
termination_by arr.length
decreasing_by
  rw [List.splitAt_eq, Prod.mk.injEq] at _split
  rw [← _split.2, List.length_drop]
  have filled := congrArg List.length _split.1
  simp only [List.length_take, List.length_cons] at filled
  omega

end bitmapFromArray

def bitmapFromArray (bs : List Bool) : Bitmap := ⟨bs.length, bitmapFromArray.go [] bs⟩

end Halon.Mero
