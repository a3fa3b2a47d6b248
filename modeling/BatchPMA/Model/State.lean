import BatchPMA.Model.Queries
import BatchPMA.Model.Hierarchy

/-!
# The two data structures

The members of `BatchedSparseArray` (the BBPMA) and of `OverallocatedBatchedSparseArray` (the
GBPMA).  Arrays are functions on the natural numbers; their capacities are separate members, as
in the source, and a freshly allocated array is empty everywhere.
-/

namespace BatchPMA

variable {K α : Type}

/-- Key-only blocks as the test suite instantiates them: the value is its own key, `NULL_KEY = 0`
and `KEY_COMPARE = std::less`. -/
def keyOnlyBlocks (blockSize : ℕ) : BlockParams ℕ ℕ where
  keyOf := id
  nullKey := 0
  zero := 0
  operatorLess a b := decide (a < b)
  blockSize := blockSize

/-- `LogInitialArrayCapacity` of the arrays. -/
def initialArrayCapacity : ℕ := 2 ^ 12

/-! ## BBPMA -/

/-- The template parameters of `BatchedSparseArray`. -/
structure BatchedParams (K α : Type) extends BlockParams K α where
  segmentWidth : ℕ
  maxNumberOfThreads : ℕ
  density : DensityManager

/-- The key-only configuration of the test suite, with its block size and segment width left
open. -/
def keyOnlyBatched (blockSize segmentWidth : ℕ) : BatchedParams ℕ ℕ where
  toBlockParams := keyOnlyBlocks blockSize
  segmentWidth := segmentWidth
  maxNumberOfThreads := 128
  density := densityOne

structure BatchedSparseArray (K α : Type) where
  capacity : ℕ
  swapCapacity : ℕ
  bufferCapacity : ℕ
  size : ℕ
  pma : ℕ → PmaEntry K α
  swapPma : ℕ → PmaEntry K α
  bufferArray : ℕ → PmaEntry K α
  bufferPointers : ℕ → Interval
  rebalancingManager : RebalancingManager
  rebalancingNodes : List RebalancingNode
  recountingNodesMap : BucketMap
  rebalancingTasks : List RebalancingTask
  prefixNumberOfRebalancingBlocks : List ℕ
  tasks : ℕ → TaskInfo
  numberOfThreads : ℕ

namespace BatchedSparseArray

/-- `std::make_unique<PmaEntryType[]>(…)`. -/
def freshArray (p : BlockParams K α) : ℕ → PmaEntry K α := fun _ => PmaEntry.null p

/-- The constructor. -/
def create (p : BatchedParams K α) (numThreads : ℕ) : BatchedSparseArray K α where
  capacity := initialArrayCapacity
  swapCapacity := initialArrayCapacity
  bufferCapacity := initialArrayCapacity
  size := 0
  pma := freshArray p.toBlockParams
  swapPma := freshArray p.toBlockParams
  bufferArray := freshArray p.toBlockParams
  bufferPointers := fun _ => Interval.zero
  rebalancingManager := RebalancingManager.create p.segmentWidth p.density 0
  rebalancingNodes := []
  recountingNodesMap := .clear
  rebalancingTasks := []
  prefixNumberOfRebalancingBlocks := []
  tasks := fun _ => TaskInfo.zero
  numberOfThreads := numThreads

section

variable [DecidableEq K] (p : BatchedParams K α) (s : BatchedSparseArray K α)

/-- Cells at or behind `size` are empty whatever they hold. -/
def empty (index : ℕ) : Bool :=
  if s.size ≤ index then true else decide ((s.pma index).head = p.nullKey)

def numberOfBufferBlocks (index : ℕ) : ℕ :=
  if s.capacity ≤ index then 0 else (s.bufferPointers index).length

/-- What searches and queries read. -/
def view : ArrayView K α := ⟨s.size, s.pma, s.empty p⟩

/-- What the hierarchy reads. -/
def sdsView : SdsView := ⟨s.size, s.empty p, s.numberOfBufferBlocks⟩

end

end BatchedSparseArray

/-! ## GBPMA -/

/-- The template parameters of `OverallocatedBatchedSparseArray`. -/
structure OverallocatedParams (K α : Type) extends BlockParams K α where
  maxNumberOfThreads : ℕ
  allowInPlaceInserts : Bool

/-- The key-only configuration of the test suite. -/
def keyOnlyOverallocated (blockSize : ℕ) : OverallocatedParams ℕ ℕ where
  toBlockParams := keyOnlyBlocks blockSize
  maxNumberOfThreads := 128
  allowInPlaceInserts := true

/-- `HierarchicalBlockSizeManager`: sums of block sizes over runs of `64` cells. -/
structure BlockSizeManager where
  aggregates : ℕ → ℤ
  size : ℕ

structure OverallocatedBatchedSparseArray (K α : Type) where
  capacity : ℕ
  swapCapacity : ℕ
  size : ℕ
  overallocationFactor : ℚ
  pma : ℕ → PmaEntry K α
  swapPma : ℕ → PmaEntry K α
  sizeManager : BlockSizeManager
  tasks : ℕ → TaskInfo

namespace OverallocatedBatchedSparseArray

variable [DecidableEq K] (p : OverallocatedParams K α)
  (s : OverallocatedBatchedSparseArray K α)

def empty (index : ℕ) : Bool := decide ((s.pma index).head = p.nullKey)

/-- What searches and queries read. -/
def view : ArrayView K α := ⟨s.size, s.pma, s.empty p⟩

end OverallocatedBatchedSparseArray

end BatchPMA
