import Halon.Library.OrderedSet

/-! The replicated multimap: the updates of its state, and the change log in which
the resource graph collects updates before it sends them. Keys and values are
byte strings in the source; nothing here looks inside them. -/

namespace Halon
open Library

/-- Metadata of the graph's garbage collection, with the root nodes in encoded form. -/
structure MetaInfo (K : Type) where
  miSinceGC : Int
  miGCThreshold : Int
  miRootNodes : List K
deriving DecidableEq, Repr

def defaultMetaInfo {K : Type} : MetaInfo K := ⟨0, 100, []⟩

inductive StoreUpdate (K V : Type) where
  | insertMany (kvs : List (K × List V))
  | deleteValues (kvs : List (K × List V))
  | deleteKeys (ks : List K)
  | setMetaInfo (mi : MetaInfo K)
deriving DecidableEq

variable {K V : Type} [LinearOrder K] [LinearOrder V]

abbrev Multimap (K V : Type) [LinearOrder K] [LinearOrder V] := SetMap K V

namespace Multimap

def toList (mm : Multimap K V) : List (K × List V) := mm.entries.map fun entry => (entry.1, entry.2.elements)

def insertMany (kvs : List (K × List V)) (mm : Multimap K V) : Multimap K V :=
  kvs.foldl (fun mm' entry => mm'.insertWith (fun _ set => set.insertAll entry.2) entry.1 (.fromList entry.2)) mm

def deleteValues (kvs : List (K × List V)) (mm : Multimap K V) : Multimap K V :=
  kvs.foldl (fun mm' entry => mm'.adjust (fun set => set.deleteAll entry.2) entry.1) mm

def deleteKeys (ks : List K) (mm : Multimap K V) : Multimap K V := ks.foldl (fun mm' k => mm'.delete k) mm

end Multimap

def applyUpdate : StoreUpdate K V → Multimap K V → Multimap K V
  | .insertMany kvs => Multimap.insertMany kvs
  | .deleteValues kvs => Multimap.deleteValues kvs
  | .deleteKeys ks => Multimap.deleteKeys ks
  | .setMetaInfo _ => id

def StoreUpdate.metaInfo : StoreUpdate K V → Option (MetaInfo K)
  | .setMetaInfo mi => some mi
  | _ => none

/-- The update function of the replicated state. Of several `SetMetaInfo` in one batch the first counts. -/
abbrev StoreState (K V : Type) [LinearOrder K] [LinearOrder V] := MetaInfo K × Multimap K V

def updateStore (su : List (StoreUpdate K V)) (store : StoreState K V) : StoreState K V :=
  ((su.filterMap StoreUpdate.metaInfo).head?.getD store.1, su.foldl (fun mm u => applyUpdate u mm) store.2)

/-- Insertions, removals of values, removals of keys, and the metadata set last. -/
structure ChangeLog (K V : Type) [LinearOrder K] [LinearOrder V] where
  is : Multimap K V
  dvs : Multimap K V
  dks : OrderedSet K
  mi : Option (MetaInfo K)

def emptyChangeLog : ChangeLog K V := ⟨.empty, .empty, .empty, none⟩

def updateChangeLog (x : StoreUpdate K V) (log : ChangeLog K V) : ChangeLog K V :=
  match x with
  | .insertMany kvs =>
    ⟨Multimap.insertMany kvs log.is, Multimap.deleteValues kvs log.dvs,
      (kvs.map Prod.fst).foldr (fun k dks => dks.delete k) log.dks, log.mi⟩
  | .deleteValues kvs =>
    let kvs' := kvs.filter fun entry => decide (entry.1 ∉ log.dks)
    ⟨Multimap.deleteValues kvs log.is, Multimap.insertMany kvs' log.dvs, log.dks, log.mi⟩
  | .deleteKeys ks =>
    ⟨Multimap.deleteKeys ks log.is, Multimap.deleteKeys ks log.dvs, ks.foldr (fun k dks => dks.insert k) log.dks, log.mi⟩
  | .setMetaInfo mi' => ⟨log.is, log.dvs, log.dks, some mi'⟩

def fromChangeLog (log : ChangeLog K V) : List (StoreUpdate K V) :=
  [.insertMany (Multimap.toList log.is), .deleteValues (Multimap.toList log.dvs), .deleteKeys log.dks.elements] ++
    (log.mi.map StoreUpdate.setMetaInfo).toList

end Halon
