import Graft.Path.Lemmas
import Graft.Session.Run
import Graft.Proofs.Catalog.Views
import Graft.Proofs.Catalog.History
import Graft.Proofs.Catalog.Ledger
import Graft.Proofs.Catalog.Protocol
import Graft.Proofs.Path.Within
import Graft.Proofs.Path.Tidy
import Graft.Proofs.Tree.Subtree
import Graft.Proofs.Tree.Accounts
import Graft.Proofs.Catalog.Alike
import Graft.Proofs.Catalog.Callers
import Graft.Proofs.Catalog.Declared
import Graft.Proofs.Batch.Plan
import Graft.Proofs.Batch.Tracking
import Graft.Proofs.Engine.Watched
import Graft.Proofs.Engine.Bootstrap
import Graft.Proofs.Engine.Convergence
import Graft.Proofs.Catalog.Lasting
import Graft.Proofs.Engine.Passes
import Graft.Proofs.Engine.Lifecycle
import Graft.Proofs.Layer.Resolution
import Graft.Proofs.Batch.Orphans
import Graft.Proofs.Tree.Move
import Graft.Proofs.Tree.WellFormed
import Graft.Proofs.Tree.Replay
import Graft.Proofs.Batch.Moves
import Graft.Proofs.Mapping.Inverse
import Graft.Proofs.Catalog.Notices
import Graft.Proofs.Batch.Order
import Graft.Proofs.Batch.Parts
import Graft.Proofs.Engine.Overlap
import Graft.Proofs.Engine.Stragglers
import Graft.Proofs.Engine.Failure
import Graft.Proofs.Mapping.Stable
import Graft.Proofs.Catalog.Rejection
import Graft.Proofs.Batch.LastWord
import Graft.Proofs.Catalog.Sweep
import Graft.Proofs.Catalog.Cancellation
import Graft.Proofs.Repository.Answers
import Graft.Proofs.Batch.Outage
import Graft.Proofs.Mapping.Flaws
import Graft.Proofs.Tree.Relocation
import Graft.Proofs.Tree.Children
import Graft.Proofs.Layer.Listing
import Graft.Proofs.Tree.Markers
import Graft.Proofs.Batch.Markers
import Graft.Proofs.Repository.Feed
import Graft.Proofs.Repository.Reads
import Graft.Proofs.Settings.Watched
import Graft.Proofs.Tree.Growth
import Graft.Proofs.Layer.Overlay
import Graft.Proofs.Path.Order
import Graft.Proofs.Tree.Extraction
import Graft.Proofs.Board.Accounts
import Graft.Proofs.Layer.Stack
