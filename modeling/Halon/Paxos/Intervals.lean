import Halon.Library.OrderedMap
import Halon.Paxos.Messages

/-! Decree intervals of the synchronisation exchange: compressing an ascending
list, subtracting one list of intervals from another, and looking ranges up. -/

namespace Halon.Paxos
open Halon.Library

section
variable {α : Type} [DecidableEq α] (succ : α → α)

def intervals.go (x y : α) : List α → List (α × α)
  | [] => [(x, y)]
  | z :: xs => if y = z then go x (succ z) xs else (x, y) :: go z (succ z) xs

def intervals : List α → List (α × α)
  | [] => []
  | x0 :: xs0 => intervals.go succ x0 (succ x0) xs0

end

/-- The source documents `expand xs \\ expand ys == expand (diffIntervals xs ys)`. -/
def diffIntervals {α : Type} [LinearOrder α] : List (α × α) → List (α × α) → List (α × α)
  | xs, [] => xs
  | [], _ => []
  | (x, x') :: xss, (y, y') :: yss =>
    if x < y' ∧ y < x' then
      if x < y then (x, y) :: diffIntervals xss ((y, y') :: yss)
      else if x' ≤ y' then diffIntervals xss ((y, y') :: yss)
      else diffIntervals ((y', x') :: xss) yss
    else (x, x') :: diffIntervals xss ((y, y') :: yss)
termination_by xs ys => xs.length + ys.length

/-- The entries in each range, looked up in the part of the map that the earlier ranges left. -/
def lookupRanges {V : Type} (m : OrderedMap DecreeId V) : List Interval → List (DecreeId × V)
  | [] => []
  | (d0, d1) :: dps =>
    let (_, mv0, m') := m.splitLookup d0
    let mvs := m'.below d1
    let m'' := m'.above d1
    (mv0.map fun v0 => (d0, v0)).toList ++ (mvs.entries ++ lookupRanges m'' dps)

end Halon.Paxos
