import Halon.Proofs.Bitmaps
import Halon.Proofs.BoundedBuffer
import Halon.Proofs.BoundedPool
import Halon.Proofs.Callbacks
import Halon.Proofs.CascadeRounds
import Halon.Proofs.CepCatch
import Halon.Proofs.CepDriver
import Halon.Proofs.CepEvents
import Halon.Proofs.ConfVersion
import Halon.Proofs.ConfdQuorum
import Halon.Proofs.DeviceLayers
import Halon.Proofs.DiffAcknowledgement
import Halon.Proofs.DispatchArmed
import Halon.Proofs.EventPolling
import Halon.Proofs.Finalization
import Halon.Proofs.GraphSymmetry
import Halon.Proofs.Jobs
import Halon.Proofs.LnetEndpoints
import Halon.Proofs.LogBatcher
import Halon.Proofs.LogCache
import Halon.Proofs.LogDecrees
import Halon.Proofs.LogDurability
import Halon.Proofs.LogProposals
import Halon.Proofs.LogGaps
import Halon.Proofs.LogQueries
import Halon.Proofs.LogRecovery
import Halon.Proofs.NotificationOrder
import Halon.Proofs.PaxosDifference
import Halon.Proofs.PaxosQuery
import Halon.Proofs.PaxosRecovery
import Halon.Proofs.PaxosSyncCalls
import Halon.Proofs.PaxosValidity
import Halon.Proofs.PaxosVotes
import Halon.Proofs.ProposerAnswers
import Halon.Proofs.RefCounts
import Halon.Proofs.SnsRetries
import Halon.Proofs.StoreBatches
import Halon.Proofs.TimeSpecs
import Halon.Proofs.ToleratedFailures
import Halon.Proofs.UniqueChanges
