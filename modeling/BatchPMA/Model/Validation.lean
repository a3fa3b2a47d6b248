import BatchPMA.Model.OutOfPlace

/-!
# Validation and counting

The member functions with which the two arrays check themselves, and `deduplicate`, which makes a
batch out of one that repeats keys.  The checks that return early are loops in `Option`: `none` is
the early `return false`.
-/

namespace BatchPMA

variable {K α : Type} [LinearOrder K]

/-- Reads keys of which each has to be above the one before it; the last one that was read. -/
def ascend (current : K) : List K → Option K
  | [] => some current
  | key :: keys => if key < current ∨ key = current then none else ascend key keys

namespace PmaEntry

/-- `KeyOf::keyOfValue(get(j))` for the live cells `j`. -/
def keysRead (p : BlockParams K α) (b : PmaEntry K α) : List K :=
  (List.range b.size).map fun j => p.keyOf (b.get p j)

end PmaEntry

namespace BlockSizeManager

/-- The assertions of `validate`. -/
def validate (m : BlockSizeManager) (blockSize : ℕ → ℕ) (sdsSize : ℕ) : Bool :=
  (List.range (min m.size (aggregateIndex sdsSize + 1))).all fun i =>
    decide (m.aggregates i =
      linearNumberOfElements blockSize (getBlockIndex i) (getBlockIndex (i + 1)))

end BlockSizeManager

namespace OverallocatedBatchedSparseArray

variable (p : OverallocatedParams K α) (s : OverallocatedBatchedSparseArray K α)

/-! ## Counting -/

def numberOfElements : ℕ :=
  (List.range s.size).foldl (fun n i => if s.empty p i = false then n + s.blockSize i else n) 0

def numberOfBlocks : ℕ :=
  (List.range s.size).foldl (fun n i => if s.empty p i = false then n + 1 else n) 0

/-! ## Checks -/

/-- What `isValid` keeps in its local variables. -/
structure ValidityState (K : Type) where
  currentHead : K
  currentElement : K

/-- One iteration of the loop of `isValid`. -/
def validateCell (st : ValidityState K) (i : ℕ) : Option (ValidityState K) :=
  let cell := s.pma i
  if s.empty p i = false then
    if p.blockSize < cell.size ∨ cell.size < p.minBlockSize then none
    else if s.head i < st.currentHead ∨ s.head i = st.currentHead then none
    else if s.head i ≠ p.keyOf (cell.get p.toBlockParams 0) then none
    else (ascend st.currentElement (cell.keysRead p.toBlockParams)).map fun element =>
      ⟨s.head i, element⟩
  else if cell.isEmpty = false ∨ cell.size ≠ 0 then none
  else some st

/-- Heads and keys increase over the whole array, blocks have a legal size, and empty cells are
null. -/
def isValid : Bool :=
  ((List.range s.capacity).foldlM (s.validateCell p) ⟨p.nullKey, p.nullKey⟩).isSome

/-- The assertions of `validateTaskDistribution`.  The sentinel is among the tasks it looks at. -/
def validateTaskDistribution (numberOfThreads batchSize : ℕ) (isInPlace : Bool) : Bool :=
  decide ((s.tasks 0).firstBatchElement = 0) &&
    ((List.range (numberOfThreads + 1)).all fun thread =>
      let task := s.tasks thread
      if isInPlace = false ∧ task.type = .inverseMerge then
        decide (task.mergedTasks < numberOfThreads) &&
          decide (task.mergedTaskIndex < task.mergedTasks)
      else true) &&
    decide ((s.tasks numberOfThreads).firstBatchElement = batchSize) &&
    decide ((s.tasks numberOfThreads).blockForBatchSplitter = s.size)

/-! ## Batches with repetitions -/

/-- `std::unique`: of neighbours with the same key the first one is left. -/
def deduplicate (batch : List α) : List α :=
  batch.destutter fun lhs rhs => p.keyOf lhs ≠ p.keyOf rhs

end OverallocatedBatchedSparseArray

/-! ## The checks of the batched array -/

/-- Whether there is an index in both ranges. -/
def Interval.overlaps (i other : Interval) : Bool := decide (i.cut other ≠ .zero)

namespace RebalancingManager

/-- The assertions of `validate`: every counter of level zero is the number of blocks below
`sdsSize`, and every other one is the sum of those of its children. -/
def validate (m : RebalancingManager) (sds : SdsView) (sdsSize : ℕ) : Bool :=
  ((List.range (m.numberOfAggregatesInLevel 0)).all fun i =>
    decide (m.countLevelZero sds sdsSize i = (m.aggregate i 0).numberOfBlocks)) &&
  (List.range' 1 m.logCapacity).all fun level =>
    (List.range (m.numberOfAggregatesInLevel level)).all fun i =>
      decide (m.aggregateNodeHigherLevel i level = (m.aggregate i level).numberOfBlocks)

end RebalancingManager

namespace BatchedSparseArray

open OverallocatedBatchedSparseArray (ValidityState)

variable (p : BatchedParams K α) (s : BatchedSparseArray K α)

/-- Buffer blocks are not counted. -/
def numberOfElements : ℕ :=
  (List.range s.capacity).foldl (fun n i => if s.empty p i = false then n + (s.pma i).size else n) 0

def numberOfBlocks : ℕ :=
  (List.range s.capacity).foldl (fun n i => if s.empty p i = false then n + 1 else n) 0

/-- What `isValid` checks of a block, in the pma or in the buffer. -/
def validateBlock (p : BlockParams K α) (st : ValidityState K) (b : PmaEntry K α) :
    Option (ValidityState K) :=
  if p.blockSize < b.size ∨ b.size < p.minBlockSize then none
  else if b.head < st.currentHead ∨ b.head = st.currentHead then none
  else if b.head ≠ p.keyOf (b.get p 0) then none
  else (ascend st.currentElement (b.keysRead p)).map fun element => ⟨b.head, element⟩

/-- The first part of an iteration of `isValid`. -/
def validatePmaCell (st : ValidityState K) (i : ℕ) : Option (ValidityState K) :=
  if s.empty p i = false then validateBlock p.toBlockParams st (s.pma i)
  else if (s.pma i).isEmpty = false ∨ (s.pma i).size ≠ 0 then none
  else some st

/-- One iteration of the inner loop of `isValid`. -/
def validateBufferCell (st : ValidityState K) (bufferIndex : ℕ) : Option (ValidityState K) :=
  if (s.bufferArray bufferIndex).size ≠ 0 then
    validateBlock p.toBlockParams st (s.bufferArray bufferIndex)
  else if (s.bufferArray bufferIndex).isEmpty = false ∨ (s.bufferArray bufferIndex).size ≠ 0 then
    none
  else some st

/-- One iteration of `isValid`: the block in the pma, and those in the buffer behind it. -/
def validateCell (st : ValidityState K) (i : ℕ) : Option (ValidityState K) :=
  (s.validatePmaCell p st i).bind fun st' =>
    (List.range' (s.bufferPointers i).left (s.bufferPointers i).length).foldlM
      (s.validateBufferCell p) st'

/-- Heads and keys increase over all blocks, blocks have a legal size, and cells that are not used
are null. -/
def isValid : Bool :=
  ((List.range s.capacity).foldlM (s.validateCell p) ⟨p.nullKey, p.nullKey⟩).isSome

/-- The assertions in front of step B-4: no two rebalancing tasks have the same root, or ranges that
overlap. -/
def validateRebalancingTasks : Bool :=
  (List.range s.rebalancingTasks.length).all fun i =>
    (List.range s.rebalancingTasks.length).all fun j =>
      decide (i = j) ||
        (decide ((s.rebalancingTask i).rootNode ≠ (s.rebalancingTask j).rootNode) &&
          !(s.rebalancingTask i).pmaRange.overlaps (s.rebalancingTask j).pmaRange &&
          !(s.rebalancingTask j).pmaRange.overlaps (s.rebalancingTask i).pmaRange)

/-- The assertions behind steps B-8 and B-9: nothing is left in the buffer. -/
def validateBufferCleared : Bool :=
  ((List.range s.capacity).all fun i =>
    decide ((s.bufferPointers i).left = 0 ∧ (s.bufferPointers i).right = 0)) &&
  (List.range s.bufferCapacity).all fun i => (s.bufferArray i).isEmpty

/-- The assertion behind step B-9: nothing is left in the swap array. -/
def validateSwapCleared : Bool := (List.range s.swapCapacity).all fun i => (s.swapPma i).isEmpty

end BatchedSparseArray

end BatchPMA
