import Tenure.Address.Arithmetic
import Tenure.Main
import Tenure.Proofs.Addresses
import Tenure.Proofs.MarkPhase
import Tenure.Proofs.Compaction
import Tenure.Proofs.Evacuation
import Tenure.Proofs.CounterPeaks
import Tenure.Proofs.CellMoves
import Tenure.Proofs.ReleasedReferences
import Tenure.Proofs.Relocation
import Tenure.Proofs.Collection
import Tenure.Proofs.Preservation
import Tenure.Proofs.Allocation
import Tenure.Proofs.ReachableStores
import Tenure.Proofs.Requests
import Tenure.Proofs.CellCounts
import Tenure.Proofs.RefusedCollections
import Tenure.Proofs.Ideal
import Tenure.Proofs.Session
import Tenure.Proofs.Mirrors
import Tenure.Proofs.CollectionReport
import Tenure.Proofs.Simulation
import Tenure.Proofs.HostileClients
import Tenure.Proofs.ValueReferences
import Tenure.Proofs.Transparency
import Tenure.Proofs.ReferenceCounts
import Tenure.Proofs.DiscardedCells
import Tenure.Proofs.Holdings
import Tenure.Proofs.Histories
import Tenure.Proofs.Attempts
import Tenure.Proofs.TrackedStores
import Tenure.Proofs.IdealLists
import Tenure.Proofs.SampleStructure
import Tenure.Proofs.RetainedLists
import Tenure.Proofs.WorkloadRun
import Tenure.Proofs.RootLifetimes
import Tenure.Proofs.CellAccount
import Tenure.Proofs.RootedCells
import Tenure.Proofs.SpineLists
import Tenure.Proofs.FilledLists
import Tenure.Proofs.ChainPush
import Tenure.Proofs.ChainClient
import Tenure.Proofs.ValueCounts
import Tenure.Proofs.UnreachableCells
import Tenure.Proofs.KnownCells
import Tenure.Proofs.NewCells
import Tenure.Proofs.SampleConstruction
import Tenure.Proofs.SampleClient
import Tenure.Proofs.MarkCounts
import Tenure.Proofs.RefusedSample
import Tenure.Proofs.BlockRequests
import Tenure.Proofs.CellFlags
import Tenure.Proofs.CellAges
import Tenure.Proofs.CompactionLayout
import Tenure.Proofs.SurvivorOrder
import Tenure.Proofs.RootOrder
import Tenure.Proofs.OldCells
import Tenure.Proofs.RepeatedCollections
import Tenure.Proofs.SettingsTable
import Tenure.Proofs.OptionPrecedence
import Tenure.Proofs.Walks
import Tenure.Proofs.SymbolHandles
import Tenure.Proofs.Verdicts
import Tenure.Proofs.InPlaceWrites
import Tenure.Proofs.Totals
