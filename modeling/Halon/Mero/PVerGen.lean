import Halon.Mero.Liveness

/-! The failures that a new pool version tolerates, where the configuration does not say. -/

namespace Halon.Mero.PVerGen
variable {K V : Type} [LinearOrder K] [LinearOrder V]

def quotRem (a b : Nat) : Option (Nat × Nat) := if b = 0 then none else some (a / b, a % b)

def ctrlFailures (n k nrCtrls : Nat) : Option Nat := do
  let (q, r) ← quotRem (n + 2 * k) nrCtrls
  let kc := r * (q + 1)
  if kc > k then (quotRem k (q + 1)).map Prod.fst
  else if kc < k then (quotRem (k - kc) q).map fun more => r + more.1
  else some r

/-- There is no result for a disk without a controller. -/
def nrCtrls (disks : List ConfObj) (rg : RG K V) : Option Nat := do
  let ctrls ← disks.mapM fun disk => rg.connectedFromOne .IsParentOf (.Device .Controller) disk
  some (ctrls.map ConfObj.fid).eraseDups.length

def toleratedFailures (n k : Nat) (disks : List ConfObj) (rg : RG K V) : Option Failures := do
  let ctrlFailures ← ctrlFailures n k (← nrCtrls disks rg)
  -- Failures above controllers are not supported.
  some ⟨0, 0, 0, ctrlFailures, k⟩

end Halon.Mero.PVerGen
