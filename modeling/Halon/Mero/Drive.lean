import Halon.Mero.Note

/-! The disk failure vectors: for each pool the order in which its disks failed,
which Mero has to be told again after a restart. -/

namespace Halon.Mero
open Library
variable {K V : Type} [LinearOrder K] [LinearOrder V] (enc : Encoding Relation Resource K V)

namespace RG

def pverOf (diskv : ConfObj) (rg : RG K V) : Option ConfObj := do
  let ctrlv ← rg.connectedFromOne .IsParentOf (.DeviceV .Controller) diskv
  let enclv ← rg.connectedFromOne .IsParentOf (.DeviceV .Enclosure) ctrlv
  let rackv ← rg.connectedFromOne .IsParentOf (.DeviceV .Rack) enclv
  let sitev ← rg.connectedFromOne .IsParentOf (.DeviceV .Site) rackv
  rg.connectedFromOne .IsParentOf .PVer sitev

def poolsOf (disk : Fid) (rg : RG K V) : List ConfObj :=
  ((rg.connectedTo (.disk disk) .IsRealOf (.DeviceV .Disk)).filterMap fun diskv => do
    let pver ← rg.pverOf diskv
    rg.connectedFromOne .IsParentOf .Pool pver).eraseDups

def failureVector (pool : ConfObj) (rg : RG K V) : Option (List Fid) :=
  match Graph.connectedToOne schema (.conf pool) .Has .DiskFailureVector rg with
  | some (.diskFailureVector v) => some v
  | _ => none

def setFailureVector (pool : ConfObj) (v : List Fid) (rg : RG K V) : RG K V :=
  rg.connect enc schema (.conf pool) .Has (.diskFailureVector v)

/-- Change the vector of a pool, unless the change refuses to; a pool without a vector is left to the default. -/
def updateDiskFailure.apply (df : ConfObj → RG K V → RG K V) (f : Fid → List Fid → Option (List Fid)) (disk : Fid) (rg' : RG K V)
    (pool : ConfObj) : RG K V :=
  match rg'.failureVector pool with
  | none => df pool rg'
  | some v =>
    match f disk v with
    | none => rg'
    | some fv => rg'.setFailureVector enc pool fv

def updateDiskFailure (df : ConfObj → RG K V → RG K V) (f : Fid → List Fid → Option (List Fid)) (disk : Fid) (rg : RG K V) :
    Except Failure (RG K V) := do
  let nonMDPools ← rg.getNonMD
  pure ((nonMDPools.filter fun pool => pool ∈ rg.poolsOf disk).foldl (updateDiskFailure.apply enc df f disk) rg)

end RG

def ins (d : Fid) : List Fid → Option (List Fid)
  | [] => some [d]
  | x :: xs => if d = x then none else (ins d xs).map (x :: ·)

def rm (d : Fid) : List Fid → Option (List Fid)
  | [] => none
  | x :: xs => if d = x then some xs else (rm d xs).map (x :: ·)

namespace RG

def rgRecordDiskFailure (disk : Fid) : RG K V → Except Failure (RG K V) :=
  updateDiskFailure enc (fun pool => setFailureVector enc pool [disk]) ins disk

def rgRecordDiskOnline (disk : Fid) : RG K V → Except Failure (RG K V) :=
  updateDiskFailure enc (fun _ rg => rg) rm disk

end RG
end Halon.Mero
