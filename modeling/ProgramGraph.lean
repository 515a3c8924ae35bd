import ProgramGraph.Delta.Document
import ProgramGraph.Graph.Document
import ProgramGraph.Proofs.Delta.Applied
import ProgramGraph.Proofs.Delta.Copied
import ProgramGraph.Proofs.Query.LeftFold
import ProgramGraph.Proofs.Store.Committing
import ProgramGraph.Proofs.Store.KindIndex
import ProgramGraph.Proofs.Store.Loading
import ProgramGraph.Proofs.Store.Meeting
import ProgramGraph.Proofs.Sync.Convergence
import ProgramGraph.Proofs.Sync.Delivery
import ProgramGraph.Query.Document
import ProgramGraph.Query.Lookup
import ProgramGraph.Store.Catalog
import ProgramGraph.Sync.PathFilter
import ProgramGraph.Sync.Updater
import ProgramGraph.Wire.Failure
import ProgramGraph.Proofs.Graph.Index
import ProgramGraph.Proofs.Graph.Json
import ProgramGraph.Proofs.Query.RoundTrip
import ProgramGraph.Proofs.Outline.Depiction
import ProgramGraph.Proofs.Sync.Run
import ProgramGraph.Proofs.Sync.Interleaving
import ProgramGraph.Proofs.Sync.EdgeHistory
import ProgramGraph.Proofs.Store.Confinement
import ProgramGraph.Proofs.Store.Isolation
import ProgramGraph.Proofs.Graph.Walk
import ProgramGraph.Proofs.Graph.BreadthFirst
import ProgramGraph.Proofs.Graph.DepthFirst
import ProgramGraph.Proofs.Store.Filing
import ProgramGraph.Proofs.Store.KeyedLoading
import ProgramGraph.Proofs.Query.Unused
import ProgramGraph.Proofs.Query.Hierarchy
import ProgramGraph.Proofs.Query.Place
import ProgramGraph.Proofs.Store.Paging
import ProgramGraph.Proofs.Sync.Counting
import ProgramGraph.Proofs.Sync.OwnFile
import ProgramGraph.Proofs.Sync.Accounting
import ProgramGraph.Proofs.Sync.Dropping
import ProgramGraph.Proofs.Property.Normal
import ProgramGraph.Proofs.Store.Comparison
import ProgramGraph.Proofs.Store.Expiry
import ProgramGraph.Proofs.Sync.Watching
import ProgramGraph.Proofs.Outline.RoundTrip
import ProgramGraph.Proofs.Outline.Conformity
import ProgramGraph.Proofs.Store.Batches
import ProgramGraph.Proofs.Graph.Merging
import ProgramGraph.Proofs.Query.Tiling
