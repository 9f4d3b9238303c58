import NestedGraph.Attribute.Builder
import NestedGraph.Identifier.Descriptor
import NestedGraph.Tree.Walk
import NestedGraph.Tree.Traversal
import NestedGraph.Workspace
import NestedGraph.Catalog
import NestedGraph.Traversal
import NestedGraph.Arena.Space
import NestedGraph.Snapshot
import NestedGraph.Proofs.SlotStore
import NestedGraph.Proofs.Storage
import NestedGraph.Proofs.Paths
import NestedGraph.Proofs.Change
import NestedGraph.Proofs.Layout
import NestedGraph.Proofs.Soundness
import NestedGraph.Proofs.Relocation
import NestedGraph.Proofs.Lookup
import NestedGraph.Proofs.Checks
import NestedGraph.Proofs.Moves
import NestedGraph.Proofs.Evolution
import NestedGraph.Proofs.Replica
import NestedGraph.Proofs.Transplant
import NestedGraph.Proofs.Stepwise
import NestedGraph.Proofs.StepwiseCopy
import NestedGraph.Proofs.Runs
import NestedGraph.Proofs.Hierarchy
import NestedGraph.Proofs.Names
import NestedGraph.Proofs.Placement
import NestedGraph.Proofs.Upkeep
import NestedGraph.Proofs.Growth
import NestedGraph.Proofs.Carriage
import NestedGraph.Proofs.Likeness
import NestedGraph.Proofs.Rooting
import NestedGraph.Proofs.Order
import NestedGraph.Proofs.Alike
import NestedGraph.Proofs.RoundTrip
import NestedGraph.Proofs.Whereabouts
import NestedGraph.Proofs.Consistency
import NestedGraph.Proofs.Contents
import NestedGraph.Proofs.Turnover
import NestedGraph.Proofs.Ledger
import NestedGraph.Proofs.Freshness
import NestedGraph.Proofs.EdgeValues
import NestedGraph.Proofs.Tracking
import NestedGraph.Proofs.Transcript
import NestedGraph.Proofs.Mirror
import NestedGraph.Proofs.Aggregation
import NestedGraph.Proofs.Slots
import NestedGraph.Proofs.Thinning
import NestedGraph.Proofs.Persistence
import NestedGraph.Proofs.Handles
import NestedGraph.Proofs.Survivors
import NestedGraph.Proofs.Compactness
import NestedGraph.Proofs.Departures
import NestedGraph.Proofs.Bundles
import NestedGraph.Proofs.Transfers
import NestedGraph.Proofs.Descent
import NestedGraph.Proofs.Ascent
import NestedGraph.Proofs.Generations
import NestedGraph.Proofs.Meeting
import NestedGraph.Proofs.Connection
import NestedGraph.Proofs.Surroundings
import NestedGraph.Proofs.Conflicts
import NestedGraph.Proofs.Replacement
import NestedGraph.Proofs.Aliases
import NestedGraph.Proofs.Keeping
import NestedGraph.Proofs.Forms
import NestedGraph.Proofs.Sequence
import NestedGraph.Proofs.Visits
import NestedGraph.Proofs.Declarations
import NestedGraph.Proofs.Indices
import NestedGraph.Proofs.Climbing
import NestedGraph.Proofs.Purging
import NestedGraph.Proofs.Descending
import NestedGraph.Proofs.Traversal
import NestedGraph.Proofs.Laying
import NestedGraph.Proofs.Passages
import NestedGraph.Proofs.Jobs
import NestedGraph.Proofs.Writing
import NestedGraph.Proofs.Following
import NestedGraph.Proofs.Growing
import NestedGraph.Proofs.Removing
import NestedGraph.Proofs.Shifting
import NestedGraph.Proofs.Replicating
import NestedGraph.Proofs.Spaces
import NestedGraph.Proofs.Linkage
import NestedGraph.Proofs.Termination
