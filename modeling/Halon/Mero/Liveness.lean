import Halon.Mero.Note

/-! Whether the cluster is alive: a quorum of the services that serve the configuration, the
resource manager, the repairs that go on and pool versions that tolerate the failures. -/

namespace Halon.Mero
open Library

/-- The entry point for transactions. Endpoints stand in their encoded form. -/
structure SpielAddress where
  sa_confds_fid : List Fid
  sa_confds_ep : List String
  sa_rm_fid : Fid
  sa_rm_ep : String
  sa_quorum : Nat
deriving DecidableEq, Repr

structure ClusterLiveness where
  clPVers : Bool
  clOngoingSNS : Bool
  clHaveQuorum : Bool
  clPrincipalRM : Bool
deriving DecidableEq, Repr

/-- How many devices of each level have failed. -/
structure Failures where
  f_site : Nat
  f_rack : Nat
  f_encl : Nat
  f_ctrl : Nat
  f_disk : Nat
deriving DecidableEq, Repr

namespace Failures

def mempty : Failures := ⟨0, 0, 0, 0, 0⟩

def mappend (a b : Failures) : Failures :=
  ⟨a.f_site + b.f_site, a.f_rack + b.f_rack, a.f_encl + b.f_encl, a.f_ctrl + b.f_ctrl, a.f_disk + b.f_disk⟩

def mconcat (failures : List Failures) : Failures := failures.foldr mappend mempty

def dfLvl : Level → Failures
  | .Site => { mempty with f_site := 1 }
  | .Rack => { mempty with f_rack := 1 }
  | .Enclosure => { mempty with f_encl := 1 }
  | .Controller => { mempty with f_ctrl := 1 }
  | .Disk => { mempty with f_disk := 1 }

def failuresToList (f : Failures) : List Nat := [f.f_site, f.f_rack, f.f_encl, f.f_ctrl, f.f_disk]

/-- The failures below a device, taken as they are or as the failure of the device. -/
def comb (x : Failures) (xs : List Failures) : List Failures :=
  if mconcat xs = mempty then [mempty] else [x, mconcat xs]

end Failures

/-- All ways to choose one element of each list, those of the first list varying slowest. -/
def sequenceA {α : Type} : List (List α) → List (List α)
  | [] => [[]]
  | xs :: rest => xs.flatMap fun x => (sequenceA rest).map (x :: ·)

namespace ConfObj

def s_type : ConfObj → Option ServiceType
  | .service _ type _ => some type
  | _ => none

def s_endpoints : ConfObj → List String
  | .service _ _ endpoints => endpoints
  | _ => []

end ConfObj

namespace RG
variable {K V : Type} [LinearOrder K] [LinearOrder V] (rg : RG K V)

def getM0Nodes : Except Failure (List ConfObj) := do
  let root ← rg.getM0Root
  pure (rg.connectedTo root .IsParentOf .Node)

def getM0Processes : Except Failure (List ConfObj) := do
  let nodes ← rg.getM0Nodes
  pure (nodes.flatMap fun node => rg.connectedTo node .IsParentOf .Process)

def getM0Services : Except Failure (List ConfObj) := do
  let processes ← rg.getM0Processes
  pure (processes.flatMap fun process => rg.connectedTo process .IsParentOf .Service)

def getM0BootLevelValue : Option Int :=
  match Graph.connectedToOne schema .cluster .RunLevel .BootLevel rg with
  | some (.bootLevel level) => some level
  | _ => none

def principalRM : Option ConfObj := (Graph.connectedFromOne schema .Is .Service .principalRM rg).bind Resource.conf?

def isOnline (svc : ConfObj) : Bool := rg.getState svc = .service .SSOnline

def getPrincipalRM' : Option ConfObj := rg.principalRM.filter rg.isOnline

def rmsHaveStarted : Bool := rg.getM0BootLevelValue.any (0 < ·)

/-- Services that are not online are left out, unless dead ones are allowed. The quorum is half of the services, rounded up: of
those listed or, if dead ones are allowed, of all. -/
def getSpielAddress (b : Bool) : Except Failure (Option SpielAddress) := do
  let svs ← rg.getM0Services
  let confds := svs.filter fun svc => svc.s_type = some .CST_CONFD
  let listed := confds.filter fun svc => b || rg.isOnline svc
  let confdsFid := (listed.map ConfObj.fid).eraseDups
  let confdsEps := (listed.flatMap ConfObj.s_endpoints).eraseDups
  let qsize := if b then confds.length else confdsFid.length
  let rms := svs.filter fun svc =>
    svc.s_type = some .CST_RMS && (!rg.rmsHaveStarted || some svc = rg.getPrincipalRM') &&
      Graph.isConnected (.conf svc) .Is .principalRM rg
  pure (do
    let rmFid ← (rms.map ConfObj.fid).eraseDups.head?
    let rmEp ← (rms.flatMap ConfObj.s_endpoints).eraseDups.head?
    pure ⟨confdsFid, confdsEps, rmFid, rmEp, (qsize + 1) / 2⟩)

def diskIsOK (disk : ConfObj) : Bool := rg.getState disk ∈ [.sdev .SDSOnline, .sdev .SDSUnknown]

def ctrlIsOK (ctrl : ConfObj) : Bool := rg.getState ctrl ≠ .controller .CSTransient

def deviceIsOK (x : ConfObj) : Bool := rg.getConfObjState x = .M0_NC_ONLINE

section Failures
open Failures

def mkDisk (disk : ConfObj) : Failures := if rg.diskIsOK disk then mempty else dfLvl .Disk

def mkCtrl (ctrl : ConfObj) (xs : List Failures) : List Failures :=
  if rg.ctrlIsOK ctrl then comb (dfLvl .Controller) xs else [dfLvl .Controller]

def mkLvl (level : Level) (a : ConfObj) (xs : List (List Failures)) : List Failures :=
  if rg.deviceIsOK a then ((sequenceA xs).flatMap (comb (dfLvl level))).eraseDups else [dfLvl level]

def mkSite : ConfObj → List (List Failures) → List Failures := rg.mkLvl .Site

def mkRack : ConfObj → List (List Failures) → List Failures := rg.mkLvl .Rack

def mkEncl : ConfObj → List (List Failures) → List Failures := rg.mkLvl .Enclosure

def mkPool (xs : List (List Failures)) : List Failures := (sequenceA xs).map mconcat

def children (x : ConfObj) (level : Level) : List ConfObj := rg.connectedTo x .IsParentOf (.Device level)

/-- The failures that there are, at all levels at which they can be counted. -/
def mkFailuresSets : Except Failure (List Failures) := do
  let root ← rg.getM0Root
  pure (mkPool ((rg.children root .Site).map fun site => rg.mkSite site
    ((rg.children site .Rack).map fun rack => rg.mkRack rack
      ((rg.children rack .Enclosure).map fun encl => rg.mkEncl encl
        ((rg.children encl .Controller).map fun ctrl => rg.mkCtrl ctrl
          ((rg.children ctrl .Disk).map fun disk => rg.mkDisk disk))))))

end Failures

def realsOf (x : ConfObj) (level : Level) : List (ConfObj × ConfObj) :=
  (rg.connectedTo x .IsParentOf (.DeviceV level)).filterMap fun deviceV =>
    (rg.connectedFromOne .IsRealOf (.Device level) deviceV).map (deviceV, ·)

/-- All devices of an actual pool version are in order. -/
def checkActual (pver : ConfObj) : Bool :=
  (rg.realsOf pver .Site).all fun (sitev, site) => rg.deviceIsOK site &&
    (rg.realsOf sitev .Rack).all fun (rackv, rack) => rg.deviceIsOK rack &&
      (rg.realsOf rackv .Enclosure).all fun (enclv, encl) => rg.deviceIsOK encl &&
        (rg.realsOf enclv .Controller).all fun (ctrlv, ctrl) => rg.ctrlIsOK ctrl &&
          (rg.realsOf ctrlv .Disk).all fun (_, disk) => rg.diskIsOK disk

/-- A pool version that is in order, or that allows for one of the sets of failures. -/
def pverIsOK (ss : List Failures) : ConfObj → Bool
  | .pver fid (.actual tolerance) => rg.checkActual (.pver fid (.actual tolerance))
  | .pver _ (.formulaic _ _ allowance) => ss.any fun failures => allowance = failures.failuresToList
  | _ => false

def havePVers (pools : List ConfObj) (ss : List Failures) : Bool :=
  ss = [] || ss = [.mempty] || pools.any fun pool => (rg.connectedTo pool .IsParentOf .PVer).any (rg.pverIsOK ss)

def getPoolRepairStatus (pool : ConfObj) : Option PoolRepairStatus :=
  match Graph.connectedToOne schema (.conf pool) .Has .PoolRepairStatus rg with
  | some (.poolRepairStatus status) => some status
  | _ => none

def haveOngoingSNS (pools : List ConfObj) : Bool := pools.all fun pool =>
    (rg.getPoolRepairStatus pool).any PoolRepairStatus.prsPri

def calculateClusterLiveness : Except Failure ClusterLiveness := do
  let address ← rg.getSpielAddress false
  let pools ← rg.getNonMD
  let ss ← rg.mkFailuresSets
  let (haveQuorum, havePrincipalRM) := match address with
    | none => (false, false)
    | some address => (decide (address.sa_quorum < address.sa_confds_fid.length), rg.principalRM.any rg.isOnline)
  pure ⟨rg.havePVers pools ss, rg.haveOngoingSNS pools, haveQuorum, havePrincipalRM⟩

end RG
end Halon.Mero
