import Halon.ResourceGraph
import Mathlib.Data.List.Lex

/-! The configuration objects of Mero in the resource graph, with their states and
the relations that changes of state pass along. -/

namespace Halon.Mero
open Library

structure Fid where
  f_container : Nat
  f_key : Nat
deriving DecidableEq, Repr

inductive ConfObjectState where
  | M0_NC_UNKNOWN
  | M0_NC_ONLINE
  | M0_NC_FAILED
  | M0_NC_TRANSIENT
  | M0_NC_REPAIR
  | M0_NC_REPAIRED
  | M0_NC_REBALANCE
deriving DecidableEq, Repr

inductive SDevState where
  | SDSUnknown
  | SDSOnline
  | SDSFailed
  | SDSRepairing
  | SDSRepaired
  | SDSRebalancing
  | SDSInhibited (state : SDevState)
  | SDSTransient (state : SDevState)
deriving DecidableEq, Repr

inductive ControllerState where
  | CSUnknown
  | CSOnline
  | CSTransient
deriving DecidableEq, Repr

inductive NodeState where
  | NSUnknown
  | NSOffline
  | NSFailedUnrecoverable
  | NSFailed
  | NSRebalance
  | NSOnline
deriving DecidableEq, Repr

inductive ProcessState where
  | PSUnknown
  | PSOffline
  | PSStarting
  | PSOnline
  | PSQuiescing
  | PSStopping
  | PSFailed (reason : String)
  | PSInhibited (state : ProcessState)
deriving DecidableEq, Repr

inductive ServiceState where
  | SSUnknown
  | SSOffline
  | SSFailed
  | SSOnline
  | SSStarting
  | SSStopping
  | SSInhibited (state : ServiceState)
deriving DecidableEq, Repr

inductive ServiceType where
  | CST_MDS | CST_IOS | CST_CONFD | CST_RMS | CST_STATS | CST_HA | CST_SSS | CST_SNS_REP | CST_SNS_REB | CST_ADDB2 | CST_CAS
  | CST_DIX_REP | CST_DIX_REB | CST_DS1 | CST_DS2 | CST_FIS | CST_FDMI | CST_BE | CST_M0T1FS | CST_CLOVIS | CST_ISCS
  | CST_UNKNOWN (code : Int)
deriving DecidableEq, Repr

/-- The levels of the hardware tree, and of the tree of virtual objects under a pool version. -/
inductive Level where
  | Site
  | Rack
  | Enclosure
  | Controller
  | Disk
deriving DecidableEq, Repr

inductive PVerData where
  | formulaic (vf_id : Nat) (vf_base : Fid) (vf_allowance : List Nat)
  | actual (va_tolerance : List Nat)
deriving DecidableEq, Repr

/-- Configuration objects. The five kinds of devices, and of their virtual counterparts, differ in their level only. -/
inductive ConfObj where
  | root (rt_fid rt_mdpool rt_imeta_pver : Fid)
  | node (n_fid : Fid)
  | process (r_fid : Fid)
  | service (s_fid : Fid) (s_type : ServiceType) (s_endpoints : List String)
  | sdev (d_fid : Fid)
  | device (level : Level) (fid : Fid)
  | pool (fid : Fid)
  | pver (v_fid : Fid) (v_data : PVerData)
  | deviceV (level : Level) (fid : Fid)
deriving DecidableEq, Repr

namespace ConfObj

@[match_pattern] abbrev disk (fid : Fid) : ConfObj := .device .Disk fid

def fid : ConfObj → Fid
  | .root f _ _ => f
  | .node f => f
  | .process f => f
  | .service f _ _ => f
  | .sdev f => f
  | .device _ f => f
  | .pool f => f
  | .pver f _ => f
  | .deviceV _ f => f

def rt_mdpool : ConfObj → Option Fid
  | .root _ mdpool _ => some mdpool
  | _ => none

end ConfObj

inductive ObjectState where
  | conf (state : ConfObjectState)
  | sdev (state : SDevState)
  | controller (state : ControllerState)
  | node (state : NodeState)
  | process (state : ProcessState)
  | service (state : ServiceState)
  | noExplicitConfigState
deriving DecidableEq, Repr

inductive PoolRepairType where
  | Repair
  | Rebalance
deriving DecidableEq, Repr

/-- A repair or rebalance of a pool. Of the information about the operation only its presence matters. -/
structure PoolRepairStatus where
  prsType : PoolRepairType
  prsRepairUUID : Nat
  prsPri : Bool
deriving DecidableEq, Repr

inductive OnCommit where
  | DoSyncGraph
deriving DecidableEq, Repr

/-- Changes of state in binary form. -/
abbrev InternalObjectStateChangeMsg := List UInt8

/-- A pending notification to Mero. -/
structure StateDiff where
  stateEpoch : Nat
  stateDiffMsg : InternalObjectStateChangeMsg
  stateDiffOnCommit : List OnCommit
deriving DecidableEq, Repr

abbrev NodeId := String

inductive Resource where
  | cluster
  | conf (object : ConfObj)
  | state (state : ObjectState)
  | diskFailureVector (disks : List Fid)
  | host (name : String)
  | halonNode (nid : NodeId)
  | rc (version : Nat)
  | active
  | epochId (epoch : Nat)
  | stateDiff (diff : StateDiff)
  | stateDiffIndex (epoch : Nat)
  | principalRM
  | bootLevel (level : Int)
  | poolRepairStatus (status : PoolRepairStatus)
  | confUpdateVersion (version : Nat) (hash : Option Int)
deriving DecidableEq, Repr

inductive ResourceType where
  | Cluster
  | Root
  | Node
  | Process
  | Service
  | SDev
  | Device (level : Level)
  | Pool
  | PVer
  | DeviceV (level : Level)
  | ConfObjectState
  | SDevState
  | ControllerState
  | NodeState
  | ProcessState
  | ServiceState
  | NoExplicitConfigState
  | DiskFailureVector
  | Host
  | HalonNode
  | RC
  | Active
  | EpochId
  | StateDiff
  | StateDiffIndex
  | PrincipalRM
  | BootLevel
  | PoolRepairStatus
  | ConfUpdateVersion
deriving DecidableEq, Repr

def ConfObj.typeOf : ConfObj → ResourceType
  | .root _ _ _ => .Root
  | .node _ => .Node
  | .process _ => .Process
  | .service _ _ _ => .Service
  | .sdev _ => .SDev
  | .device level _ => .Device level
  | .pool _ => .Pool
  | .pver _ _ => .PVer
  | .deviceV level _ => .DeviceV level

def ObjectState.typeOf : ObjectState → ResourceType
  | .conf _ => .ConfObjectState
  | .sdev _ => .SDevState
  | .controller _ => .ControllerState
  | .node _ => .NodeState
  | .process _ => .ProcessState
  | .service _ => .ServiceState
  | .noExplicitConfigState => .NoExplicitConfigState

def Resource.typeOf : Resource → ResourceType
  | .cluster => .Cluster
  | .conf object => object.typeOf
  | .state s => s.typeOf
  | .diskFailureVector _ => .DiskFailureVector
  | .host _ => .Host
  | .halonNode _ => .HalonNode
  | .rc _ => .RC
  | .active => .Active
  | .epochId _ => .EpochId
  | .stateDiff _ => .StateDiff
  | .stateDiffIndex _ => .StateDiffIndex
  | .principalRM => .PrincipalRM
  | .bootLevel _ => .BootLevel
  | .poolRepairStatus _ => .PoolRepairStatus
  | .confUpdateVersion _ _ => .ConfUpdateVersion

inductive Relation where
  | Has
  | Is
  | IsParentOf
  | IsRealOf
  | IsOnHardware
  | Runs
  | ShouldDeliverTo
  | DeliveredTo
  | DeliveryFailedTo
  | RunLevel
deriving DecidableEq, Repr

section Order

/-! Resources are ordered by a code that keeps all of their data. -/

def SDevState.code : SDevState → List Nat
  | .SDSInhibited s => 6 :: s.code
  | .SDSTransient s => 7 :: s.code
  | s => [SDevState.ctorIdx s]

theorem SDevState.code_injective {s t : SDevState} (same : s.code = t.code) : s = t := by
  induction s generalizing t with
  | SDSInhibited s ih =>
    cases t with
    | SDSInhibited t => rw [ih (List.cons.inj same).2]
    | _ => cases same
  | SDSTransient s ih =>
    cases t with
    | SDSTransient t => rw [ih (List.cons.inj same).2]
    | _ => cases same
  | _ => cases t <;> first | rfl | cases same

def ProcessState.code : ProcessState → List Nat
  | .PSFailed reason => 6 :: reason.toList.map Char.toNat
  | .PSInhibited s => 7 :: s.code
  | s => [ProcessState.ctorIdx s]

theorem ProcessState.code_injective {s t : ProcessState} (same : s.code = t.code) : s = t := by
  induction s generalizing t with
  | PSFailed reason =>
    cases t with
    | PSFailed other =>
      have letters := List.map_injective_iff.mpr (fun _ _ => Char.toNat_inj.mp) (List.cons.inj same).2
      rw [String.toList_inj.mp letters]
    | _ => cases same
  | PSInhibited s ih =>
    cases t with
    | PSInhibited t => rw [ih (List.cons.inj same).2]
    | _ => cases same
  | _ => cases t <;> first | rfl | cases same

def ServiceState.code : ServiceState → List Nat
  | .SSInhibited s => 6 :: s.code
  | s => [ServiceState.ctorIdx s]

theorem ServiceState.code_injective {s t : ServiceState} (same : s.code = t.code) : s = t := by
  induction s generalizing t with
  | SSInhibited s ih =>
    cases t with
    | SSInhibited t => rw [ih (List.cons.inj same).2]
    | _ => cases same
  | _ => cases t <;> first | rfl | cases same

def ServiceType.code : ServiceType → List Nat
  | .CST_UNKNOWN i => [21, i.toNat, (-i).toNat]
  | t => [ServiceType.ctorIdx t]

theorem ServiceType.code_injective {s t : ServiceType} (same : s.code = t.code) : s = t := by
  cases s with
  | CST_UNKNOWN i =>
    cases t with
    | CST_UNKNOWN j =>
      simp only [code, List.cons.injEq, and_true, true_and] at same
      have : i = j := by omega
      rw [this]
    | _ => cases same
  | _ => cases t <;> first | rfl | cases same

def Fid.code (f : Fid) (rest : List Nat) : List Nat := f.f_container :: f.f_key :: rest

theorem Fid.code_injective {f g : Fid} {rest other} (same : f.code rest = g.code other) : f = g ∧ rest = other := by
  obtain ⟨_, _⟩ := f
  obtain ⟨_, _⟩ := g
  cases same
  exact ⟨rfl, rfl⟩

def PVerData.code : PVerData → List Nat
  | .formulaic id base allowance => 0 :: id :: base.code allowance
  | .actual tolerance => 1 :: tolerance

theorem PVerData.code_injective {d e : PVerData} (same : d.code = e.code) : d = e := by
  cases d with
  | formulaic id base allowance =>
    cases e with
    | formulaic id' base' allowance' =>
      obtain ⟨rfl, rest⟩ := List.cons.inj (List.cons.inj same).2
      obtain ⟨rfl, rfl⟩ := Fid.code_injective rest
      rfl
    | actual _ => cases same
  | actual tolerance =>
    cases e with
    | formulaic _ _ _ => cases same
    | actual tolerance' => rw [(List.cons.inj same).2]

theorem Level.ctorIdx_injective {l m : Level} (same : l.ctorIdx = m.ctorIdx) : l = m := by
  cases l <;> cases m <;> first | rfl | cases same

def codeOfString (s : String) : List Nat := s.toList.map Char.toNat

theorem codeOfString_injective {s t} (same : codeOfString s = codeOfString t) : s = t :=
  String.toList_inj.mp (List.map_injective_iff.mpr (fun _ _ => Char.toNat_inj.mp) same)

def codeOfStrings (texts : List String) : List Nat :=
  texts.foldr (fun text rest => (codeOfString text).length :: (codeOfString text ++ rest)) []

theorem codeOfStrings_injective {texts others} (same : codeOfStrings texts = codeOfStrings others) : texts = others := by
  induction texts generalizing others with
  | nil =>
    cases others with
    | nil => rfl
    | cons other others => cases same
  | cons text texts ih =>
    cases others with
    | nil => cases same
    | cons other others =>
      obtain ⟨length, letters⟩ := List.cons.inj same
      obtain ⟨first, rest⟩ := List.append_inj letters length
      rw [codeOfString_injective first, ih rest]

def ConfObj.code : ConfObj → List Nat
  | .root f m i => 0 :: f.code (m.code (i.code []))
  | .node f => 1 :: f.code []
  | .process f => 2 :: f.code []
  | .service f type endpoints => 3 :: f.code (type.code.length :: (type.code ++ codeOfStrings endpoints))
  | .sdev f => 4 :: f.code []
  | .device level f => 5 :: f.code [level.ctorIdx]
  | .pool f => 6 :: f.code []
  | .pver f data => 7 :: f.code data.code
  | .deviceV level f => 8 :: f.code [level.ctorIdx]

theorem ConfObj.code_injective {o p : ConfObj} (same : o.code = p.code) : o = p := by
  cases o with
  | root f m i =>
    cases p with
    | root =>
      obtain ⟨rfl, rest⟩ := Fid.code_injective (List.cons.inj same).2
      obtain ⟨rfl, last⟩ := Fid.code_injective rest
      rw [(Fid.code_injective last).1]
    | _ => cases same
  | service f type endpoints =>
    cases p with
    | service =>
      obtain ⟨rfl, rest⟩ := Fid.code_injective (List.cons.inj same).2
      obtain ⟨types, texts⟩ := List.append_inj (List.cons.inj rest).2 (List.cons.inj rest).1
      rw [ServiceType.code_injective types, codeOfStrings_injective texts]
    | _ => cases same
  | device level f =>
    cases p with
    | device =>
      obtain ⟨rfl, rest⟩ := Fid.code_injective (List.cons.inj same).2
      rw [Level.ctorIdx_injective (List.cons.inj rest).1]
    | _ => cases same
  | pver f data =>
    cases p with
    | pver =>
      obtain ⟨rfl, rest⟩ := Fid.code_injective (List.cons.inj same).2
      rw [PVerData.code_injective rest]
    | _ => cases same
  | deviceV level f =>
    cases p with
    | deviceV =>
      obtain ⟨rfl, rest⟩ := Fid.code_injective (List.cons.inj same).2
      rw [Level.ctorIdx_injective (List.cons.inj rest).1]
    | _ => cases same
  | _ => cases p <;> first | cases same | rw [(Fid.code_injective (List.cons.inj same).2).1]

def ObjectState.code : ObjectState → List Nat
  | .conf s => [0, s.ctorIdx]
  | .sdev s => 1 :: s.code
  | .controller s => [2, s.ctorIdx]
  | .node s => [3, s.ctorIdx]
  | .process s => 4 :: s.code
  | .service s => 5 :: s.code
  | .noExplicitConfigState => [6]

theorem ObjectState.code_injective {s t : ObjectState} (same : s.code = t.code) : s = t := by
  cases s with
  | sdev s =>
    cases t with
    | sdev t => rw [SDevState.code_injective (List.cons.inj same).2]
    | _ => cases same
  | process s =>
    cases t with
    | process t => rw [ProcessState.code_injective (List.cons.inj same).2]
    | _ => cases same
  | service s =>
    cases t with
    | service t => rw [ServiceState.code_injective (List.cons.inj same).2]
    | _ => cases same
  | noExplicitConfigState => cases t <;> first | rfl | cases same
  | conf s =>
    cases t with
    | conf t => cases s <;> cases t <;> first | rfl | cases same
    | _ => cases same
  | controller s =>
    cases t with
    | controller t => cases s <;> cases t <;> first | rfl | cases same
    | _ => cases same
  | node s =>
    cases t with
    | node t => cases s <;> cases t <;> first | rfl | cases same
    | _ => cases same

/-- The length of the message tells where the actions begin. -/
def StateDiff.code (d : StateDiff) : List Nat :=
  d.stateEpoch :: d.stateDiffMsg.length :: (d.stateDiffMsg.map UInt8.toNat ++ d.stateDiffOnCommit.map OnCommit.ctorIdx)

theorem StateDiff.code_injective {d e : StateDiff} (same : d.code = e.code) : d = e := by
  obtain ⟨_, msg, actions⟩ := d
  obtain ⟨_, msg', actions'⟩ := e
  simp only [code, List.cons.injEq] at same
  obtain ⟨rfl, length, rest⟩ := same
  obtain ⟨bytes, indices⟩ := List.append_inj rest (by simpa using length)
  have messages : msg = msg' := List.map_injective_iff.mpr (fun _ _ => UInt8.toNat_inj.mp) bytes
  have commits : actions = actions' := List.map_injective_iff.mpr (fun a b _ => by cases a; cases b; rfl) indices
  rw [messages, commits]

def codeOfInt (i : Int) : List Nat := [i.toNat, (-i).toNat]

theorem codeOfInt_injective {i j} (same : codeOfInt i = codeOfInt j) : i = j := by
  simp only [codeOfInt, List.cons.injEq, and_true] at same
  omega

def PoolRepairStatus.code (status : PoolRepairStatus) : List Nat :=
  [status.prsType.ctorIdx, status.prsRepairUUID, status.prsPri.toNat]

theorem PoolRepairStatus.code_injective {s t : PoolRepairStatus} (same : s.code = t.code) : s = t := by
  obtain ⟨type, uuid, pri⟩ := s
  obtain ⟨type', uuid', pri'⟩ := t
  simp only [code, List.cons.injEq, and_true] at same
  obtain ⟨types, rfl, present⟩ := same
  have : type = type' := by cases type <;> cases type' <;> first | rfl | cases types
  have : pri = pri' := by cases pri <;> cases pri' <;> first | rfl | cases present
  subst type' pri'
  rfl

def Resource.code : Resource → List Nat
  | .cluster => [0]
  | .conf object => 1 :: object.code
  | .state s => 2 :: s.code
  | .diskFailureVector disks => 3 :: disks.foldr Fid.code []
  | .host name => 4 :: codeOfString name
  | .halonNode nid => 5 :: codeOfString nid
  | .rc version => [6, version]
  | .active => [7]
  | .epochId epoch => [8, epoch]
  | .stateDiff diff => 9 :: diff.code
  | .stateDiffIndex epoch => [10, epoch]
  | .principalRM => [11]
  | .bootLevel level => 12 :: codeOfInt level
  | .poolRepairStatus status => 13 :: status.code
  | .confUpdateVersion version hash => 14 :: version :: (hash.map codeOfInt).getD []

private theorem fids_injective {fs gs : List Fid} (same : fs.foldr Fid.code [] = gs.foldr Fid.code []) : fs = gs := by
  induction fs generalizing gs with
  | nil =>
    cases gs with
    | nil => rfl
    | cons g gs => cases same
  | cons f fs ih =>
    cases gs with
    | nil => cases same
    | cons g gs =>
      obtain ⟨rfl, rest⟩ := Fid.code_injective same
      rw [ih rest]

theorem Resource.code_injective {r s : Resource} (same : r.code = s.code) : r = s := by
  cases r with
  | conf object =>
    cases s with
    | conf other => rw [ConfObj.code_injective (List.cons.inj same).2]
    | _ => cases same
  | state state =>
    cases s with
    | state other => rw [ObjectState.code_injective (List.cons.inj same).2]
    | _ => cases same
  | diskFailureVector disks =>
    cases s with
    | diskFailureVector others => rw [fids_injective (List.cons.inj same).2]
    | _ => cases same
  | host name =>
    cases s with
    | host other => rw [codeOfString_injective (List.cons.inj same).2]
    | _ => cases same
  | halonNode nid =>
    cases s with
    | halonNode other => rw [codeOfString_injective (List.cons.inj same).2]
    | _ => cases same
  | stateDiff diff =>
    cases s with
    | stateDiff other => rw [StateDiff.code_injective (List.cons.inj same).2]
    | _ => cases same
  | bootLevel level =>
    cases s with
    | bootLevel other => rw [codeOfInt_injective (List.cons.inj same).2]
    | _ => cases same
  | poolRepairStatus status =>
    cases s with
    | poolRepairStatus other => rw [PoolRepairStatus.code_injective (List.cons.inj same).2]
    | _ => cases same
  | confUpdateVersion version hash =>
    cases s with
    | confUpdateVersion other hash' =>
      obtain ⟨rfl, hashes⟩ := List.cons.inj (List.cons.inj same).2
      cases hash <;> cases hash' <;> first | rfl | cases hashes | rw [codeOfInt_injective hashes]
    | _ => cases same
  | _ => cases s <;> first | rfl | cases same; rfl | cases same

instance : LinearOrder Resource := LinearOrder.lift' Resource.code fun _ _ => Resource.code_injective

instance : LinearOrder Relation :=
  LinearOrder.lift' Relation.ctorIdx fun r s same => by cases r <;> cases s <;> first | rfl | cases same

end Order

/-- How many sources and targets the relations that are declared may have. -/
def cardinality : Relation → ResourceType → ResourceType → Cardinality × Cardinality
  | .Has, .Cluster, .Root => (.AtMostOne, .AtMostOne)
  | .Has, .Cluster, .RC => (.AtMostOne, .AtMostOne)
  | .Has, .Cluster, .EpochId => (.AtMostOne, .AtMostOne)
  | .Has, .Cluster, .PrincipalRM => (.AtMostOne, .AtMostOne)
  | .Has, .Cluster, .ConfUpdateVersion => (.AtMostOne, .AtMostOne)
  | .Has, .Cluster, .Host => (.AtMostOne, .Unbounded)
  | .Has, .Pool, .PoolRepairStatus => (.AtMostOne, .AtMostOne)
  | .Has, .Pool, .DiskFailureVector => (.Unbounded, .AtMostOne)
  | .Has, .RC, .StateDiff => (.AtMostOne, .Unbounded)
  | .Has, _, _ => (.Unbounded, .Unbounded)
  | .Is, .RC, .Active => (.AtMostOne, .AtMostOne)
  | .Is, .StateDiffIndex, .StateDiff => (.AtMostOne, .AtMostOne)
  | .Is, .Service, .PrincipalRM => (.AtMostOne, .AtMostOne)
  | .Is, _, _ => (.Unbounded, .AtMostOne)
  | .IsParentOf, _, _ => (.AtMostOne, .Unbounded)
  | .IsRealOf, _, _ => (.AtMostOne, .Unbounded)
  | .IsOnHardware, _, _ => (.AtMostOne, .AtMostOne)
  | .Runs, _, _ => (.AtMostOne, .Unbounded)
  | .ShouldDeliverTo, _, _ => (.Unbounded, .Unbounded)
  | .DeliveredTo, _, _ => (.Unbounded, .Unbounded)
  | .DeliveryFailedTo, _, _ => (.Unbounded, .Unbounded)
  | .RunLevel, _, _ => (.AtMostOne, .AtMostOne)

def schema : Schema ResourceType Relation Resource where
  typeOf := Resource.typeOf
  cardinalityFrom r a b := (cardinality r a b).1
  cardinalityTo r a b := (cardinality r a b).2

end Halon.Mero
