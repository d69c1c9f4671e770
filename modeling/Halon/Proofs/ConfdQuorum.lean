import Halon.Library.Traversal
import Halon.Mero.Liveness
import Halon.Proofs.MeroGraph

/-! The quorum that is reported. It is asked for among the services that are online, so that
two of them are always enough and one never is, however many there are. -/

namespace Halon.Mero
open Library
variable {K V : Type} [LinearOrder K] [LinearOrder V] {rg : RG K V}

namespace RG

def confds (svs : List ConfObj) : List Fid := ((svs.filter fun svc => svc.s_type = some .CST_CONFD).map ConfObj.fid).eraseDups

def onlineConfds (rg : RG K V) (svs : List ConfObj) : List Fid := confds (svs.filter rg.isOnline)

/-- The numbers for which two services online are enough exactly if they are more than half. -/
def SameVerdict (online total : Nat) : Prop := online = 0 ∨ online = 1 ∧ 2 ≤ total ∨ 2 ≤ online ∧ total < 2 * online

theorem getSpielAddress_online (found : rg.getSpielAddress false = .ok (some address)) :
    ∃ svs, rg.getM0Services = .ok svs ∧ address.sa_confds_fid = rg.onlineConfds svs ∧
      address.sa_quorum = ((rg.onlineConfds svs).length + 1) / 2 := by
  obtain ⟨svs, services, rest⟩ := bind_ok found
  have inside := Except.ok.inj rest
  obtain ⟨_, -, inside⟩ := Option.bind_eq_some_iff.mp inside
  obtain ⟨_, -, inside⟩ := Option.bind_eq_some_iff.mp inside
  obtain rfl := Option.some.inj inside
  have same : (svs.filter fun svc => svc.s_type = some .CST_CONFD).filter (fun svc => false || rg.isOnline svc) =
      (svs.filter rg.isOnline).filter fun svc => svc.s_type = some .CST_CONFD := by
    rw [List.filter_filter, List.filter_filter]
    exact List.filter_congr fun svc _ => Bool.and_comm ..
  refine ⟨svs, services, ?_, ?_⟩
  · exact congrArg (fun svs => (svs.map ConfObj.fid).eraseDups) same
  · exact congrArg (fun svs => ((svs.map ConfObj.fid).eraseDups.length + 1) / 2) same

theorem calculateClusterLiveness_quorum (found : rg.getSpielAddress false = .ok (some address)) :
    ∃ liveness, rg.calculateClusterLiveness = .ok liveness ∧
      liveness.clHaveQuorum = decide (address.sa_quorum < address.sa_confds_fid.length) := by
  obtain ⟨svs, services, -⟩ := bind_ok found
  obtain ⟨_, listed, -⟩ := bind_ok services
  obtain ⟨_, below, -⟩ := bind_ok listed
  obtain ⟨_, linked, -⟩ := bind_ok below
  unfold calculateClusterLiveness getNonMD mkFailuresSets
  rw [found, linked]
  exact ⟨_, rfl, rfl⟩

/-- The report says whether a majority of all the services is online for these numbers of services, and for no others. -/
theorem quorum_reported_iff {address : SpielAddress} (found : rg.getSpielAddress false = .ok (some address)) :
    ∃ svs liveness, rg.getM0Services = .ok svs ∧ rg.calculateClusterLiveness = .ok liveness ∧
      ((liveness.clHaveQuorum = true ↔ (confds svs).length < 2 * (rg.onlineConfds svs).length) ↔
        SameVerdict (rg.onlineConfds svs).length (confds svs).length) := by
  obtain ⟨svs, services, listed, quorum⟩ := getSpielAddress_online found
  obtain ⟨liveness, calculated, reported⟩ := calculateClusterLiveness_quorum found
  refine ⟨svs, liveness, services, calculated, ?_⟩
  rw [reported, decide_eq_true_iff, listed, quorum]
  unfold SameVerdict
  omega

end RG

namespace Example

/-- A cluster with a resource manager and the given services for the configuration, of which some are online. -/
def confdEdges (all online : List Nat) : List (Resource × Relation × Resource) :=
  let root : Resource := .conf (.root ⟨0, 0⟩ ⟨6, 9⟩ ⟨7, 9⟩)
  let rm : Resource := .conf (.service ⟨3, 0⟩ .CST_RMS ["rm"])
  let confd (i : Nat) : Resource := .conf (.service ⟨3, i⟩ .CST_CONFD ["confd"])
  [(.cluster, .Has, root), (root, .IsParentOf, .conf (.node ⟨1, 1⟩)),
    (.conf (.node ⟨1, 1⟩), .IsParentOf, .conf (.process ⟨2, 1⟩)),
    (.conf (.process ⟨2, 1⟩), .IsParentOf, rm), (rm, .Is, .principalRM)] ++
  all.map (fun i => (.conf (.process ⟨2, 1⟩), .IsParentOf, confd i)) ++
  online.map fun i => (confd i, .Is, .state (.service .SSOnline))

end Example
open Example

theorem quorum_reported_iff_two : ∃ svs liveness, (build (confdEdges [1, 2, 3] [1, 3])).getM0Services = .ok svs ∧
    (build (confdEdges [1, 2, 3] [1, 3])).calculateClusterLiveness = .ok liveness ∧
      ((liveness.clHaveQuorum = true ↔
      (RG.confds svs).length < 2 * ((build (confdEdges [1, 2, 3] [1, 3])).onlineConfds svs).length) ↔
        RG.SameVerdict ((build (confdEdges [1, 2, 3] [1, 3])).onlineConfds svs).length (RG.confds svs).length) := by
  have found : (build (confdEdges [1, 2, 3] [1, 3])).getSpielAddress false =
      .ok (some ⟨[⟨3, 1⟩, ⟨3, 3⟩], ["confd"], ⟨3, 0⟩, "rm", 1⟩) := by decide +kernel
  exact RG.quorum_reported_iff found

/-- Two services of four are not more than half; one of one is. -/
theorem quorum_misreported :
    ((build (confdEdges [1, 2, 3, 4] [1, 3])).calculateClusterLiveness.map ClusterLiveness.clHaveQuorum = .ok true ∧
      (build (confdEdges [1, 2, 3, 4] [1, 3])).getM0Services.map (fun svs =>
        ((RG.confds svs).length, ((build (confdEdges [1, 2, 3, 4] [1, 3])).onlineConfds svs).length)) = .ok (4, 2)) ∧
    (build (confdEdges [1] [1])).calculateClusterLiveness.map ClusterLiveness.clHaveQuorum = .ok false ∧
      (build (confdEdges [1] [1])).getM0Services.map (fun svs =>
        ((RG.confds svs).length, ((build (confdEdges [1] [1])).onlineConfds svs).length)) = .ok (1, 1) := by
  decide +kernel

end Halon.Mero
