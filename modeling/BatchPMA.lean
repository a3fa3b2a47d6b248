import BatchPMA.Library.Scan
import BatchPMA.Library.Dyadic
import BatchPMA.Library.Transfer
import BatchPMA.Library.Segments
import BatchPMA.Library.Uniform
import BatchPMA.Library.Ranges
import BatchPMA.Library.KeyedUnion
import BatchPMA.Library.Patches
import BatchPMA.Library.Rounding
import BatchPMA.Model.Block
import BatchPMA.Model.Search
import BatchPMA.Model.Queries
import BatchPMA.Model.Helpers
import BatchPMA.Model.Hierarchy
import BatchPMA.Model.State
import BatchPMA.Model.Rebalancing
import BatchPMA.Model.Insertion
import BatchPMA.Model.OverallocatedBlock
import BatchPMA.Model.InPlace
import BatchPMA.Model.OutOfPlace
import BatchPMA.Model.Validation
import BatchPMA.Block.Valid
import BatchPMA.Block.Insert
import BatchPMA.Queries.SearchSpec
import BatchPMA.Queries.Refinement
import BatchPMA.Hierarchy.Geometry
import BatchPMA.Hierarchy.Pass
import BatchPMA.Hierarchy.Update
import BatchPMA.Hierarchy.Exact
import BatchPMA.Hierarchy.Density
import BatchPMA.Hierarchy.Overflow
import BatchPMA.Hierarchy.Growth
import BatchPMA.Rebalance.Filter
import BatchPMA.Rebalance.Sizing
import BatchPMA.Rebalance.Places
import BatchPMA.Rebalance.Execution
import BatchPMA.Rebalance.Lookup
import BatchPMA.Rebalance.Distribution
import BatchPMA.Rebalance.ToSwap
import BatchPMA.Rebalance.Moving
import BatchPMA.Rebalance.Clearing
import BatchPMA.Rebalance.Rewriting
import BatchPMA.Rebalance.Phase
import BatchPMA.Rebalance.Content
import BatchPMA.Rebalance.Inserted
import BatchPMA.Rebalance.Unsplit
import BatchPMA.Hierarchy.Marks
import BatchPMA.Rebalance.Coverage
import BatchPMA.Rebalance.Rebalanceable
import BatchPMA.Rebalance.Whole
import BatchPMA.Rebalance.Requests
import BatchPMA.Insertion.Routing
import BatchPMA.Insertion.Counts
import BatchPMA.Insertion.Plan
import BatchPMA.Insertion.Sharing
import BatchPMA.Insertion.Partition
import BatchPMA.Insertion.Splitting
import BatchPMA.Insertion.InsertRange
import BatchPMA.Insertion.InsertTask
import BatchPMA.Insertion.InverseMerge
import BatchPMA.Insertion.Widths
import BatchPMA.Insertion.Shares
import BatchPMA.Insertion.Compaction
import BatchPMA.Block.MergeFaster
import BatchPMA.Block.MergeAgreement
import BatchPMA.InPlace.Aggregates
import BatchPMA.InPlace.Shifting
import BatchPMA.InPlace.Placing
import BatchPMA.InPlace.Task
import BatchPMA.InPlace.Turns
import BatchPMA.InPlace.Plan
import BatchPMA.InPlace.Fits
import BatchPMA.Insertion.BulkLoading
import BatchPMA.OutOfPlace.Blocks
import BatchPMA.Block.Neighbours
import BatchPMA.Block.Operations
import BatchPMA.Insertion.Interference
import BatchPMA.Insertion.EmptyRange
import BatchPMA.Insertion.Settled
import BatchPMA.Insertion.Footprint
import BatchPMA.Insertion.Region
import BatchPMA.Insertion.Postprocessing
import BatchPMA.Insertion.Pieces
import BatchPMA.Insertion.Phase
import BatchPMA.Block.Copies
import BatchPMA.InPlace.Copies
import BatchPMA.OutOfPlace.Layout
import BatchPMA.OutOfPlace.Carry
import BatchPMA.OutOfPlace.Plan
import BatchPMA.OutOfPlace.Range
import BatchPMA.OutOfPlace.Start
import BatchPMA.OutOfPlace.Shares
import BatchPMA.OutOfPlace.Tasks
import BatchPMA.OutOfPlace.Region
import BatchPMA.OutOfPlace.Content
import BatchPMA.OutOfPlace.Rewriting
import BatchPMA.OutOfPlace.Cleaning
import BatchPMA.OutOfPlace.Inserted
import BatchPMA.Runs.Sound
import BatchPMA.Runs.Refinement
import BatchPMA.Runs.Validation
import BatchPMA.Runs.Agreement
import BatchPMA.Runs.Batched
import BatchPMA.Runs.Checks
import BatchPMA.Runs.Requests
import BatchPMA.Runs.Space
