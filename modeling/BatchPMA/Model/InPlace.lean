import BatchPMA.Model.Insertion
import BatchPMA.Model.OverallocatedBlock

/-!
# The overallocated array: distribution and insertion in place

Steps 1 and 2 of `OverallocatedBatchedSparseArray::insertBatch`, the test that decides where the
batch is inserted, and path A, where every task works in its own range of the pma.  A block that
does not fit makes room by shifting its neighbours, to the right if there is a free cell on that
side and to the left otherwise.

The size managers of `blockSizeManager.hpp` come first.  Aggregates are integers, and an inclusive
right end is kept as an exclusive one where it can be `-1`.
-/

namespace BatchPMA

variable {K α : Type}

/-! ## Size managers -/

/-- `LinearBlockSizeManager::getNumberOfElements`. -/
def linearNumberOfElements (blockSize : ℕ → ℕ) (left right : ℕ) : ℤ :=
  ((List.range' left (right - left)).map fun current => (blockSize current : ℤ)).sum

/-- `AggregateWidth` of the size manager. -/
def sizeAggregateWidth : ℕ := 64

namespace BlockSizeManager

/-- `aggregateIndex`, on the only level. -/
def aggregateIndex (blockIndex : ℕ) : ℕ := blockIndex / sizeAggregateWidth

/-- The first aggregate that covers nothing in front of a block. -/
def nextAggregate (blockIndex : ℕ) : ℕ :=
  if blockIndex % sizeAggregateWidth = 0 then aggregateIndex blockIndex
  else aggregateIndex blockIndex + 1

/-- The first block that an aggregate covers. -/
def getBlockIndex (aggregateIndex : ℕ) : ℕ := aggregateIndex * sizeAggregateWidth

/-- The constructor, for an array of the given size. -/
def create (sdsSize : ℕ) : BlockSizeManager := ⟨fun _ => 0, aggregateIndex sdsSize + 1⟩

variable (m : BlockSizeManager)

/-- `aggregates[index].fetch_add(value)`. -/
def fetchAdd (index : ℕ) (value : ℤ) : BlockSizeManager :=
  { m with aggregates := Function.update m.aggregates index (m.aggregates index + value) }

/-- Aggregates where a whole one is covered, block sizes in front of them and behind them. -/
def getNumberOfElements (blockSize : ℕ → ℕ) (left right : ℕ) : ℤ :=
  let aggregateStart := nextAggregate left
  let aggregateEnd := aggregateIndex right
  if aggregateStart < aggregateEnd then
    linearNumberOfElements blockSize left (getBlockIndex aggregateStart) +
      ((List.range' aggregateStart (aggregateEnd - aggregateStart)).map m.aggregates).sum +
      linearNumberOfElements blockSize (getBlockIndex aggregateEnd) right
  else linearNumberOfElements blockSize left right

def adjustBlockSize (blockIndex oldSize newSize : ℕ) : BlockSizeManager :=
  m.fetchAdd (aggregateIndex blockIndex) ((newSize : ℤ) - oldSize)

/-- After blocks have moved from `[left + 1, stop]` to `[left, stop)`: the sizes of those that have
crossed a border. -/
def shiftLeft (blockSize : ℕ → ℕ) (left stop : ℕ) : BlockSizeManager :=
  let aggregateStart := aggregateIndex left + 1
  let aggregateEnd := aggregateIndex stop + 1
  (List.range' aggregateStart (aggregateEnd - aggregateStart)).foldl (fun m current =>
    let shiftedBlock := getBlockIndex current - 1
    (m.fetchAdd current (-blockSize shiftedBlock)).fetchAdd (current - 1)
      (blockSize shiftedBlock)) m

/-- After blocks have moved from `[left - 1, right - 1]` to `[left, right]`. -/
def shiftRight (blockSize : ℕ → ℕ) (left right : ℕ) : BlockSizeManager :=
  let aggregateStart := nextAggregate left
  let aggregateEnd := aggregateIndex right + 1
  (List.range' aggregateStart (aggregateEnd - aggregateStart)).foldl (fun m current =>
    let shiftedBlock := getBlockIndex current
    (m.fetchAdd (current - 1) (-blockSize shiftedBlock)).fetchAdd current
      (blockSize shiftedBlock)) m

/-- Recomputes all aggregates.  The iterations of the parallel loop write different aggregates. -/
def recompute (blockSize : ℕ → ℕ) (sdsSize : ℕ) : BlockSizeManager :=
  let newSize := aggregateIndex sdsSize + 1
  let aggregates := if newSize ≠ m.size then fun _ => 0 else m.aggregates
  { size := newSize
    aggregates := fun i =>
      if i < newSize then
        linearNumberOfElements blockSize (getBlockIndex i) (getBlockIndex (i + 1))
      else aggregates i }

end BlockSizeManager

/-- `FasterMergeMinimum`. -/
def fasterMergeMinimum : ℕ := 3

namespace OverallocatedBatchedSparseArray

variable [LinearOrder K] (p : OverallocatedParams K α) (s : OverallocatedBatchedSparseArray K α)

/-- `InitialOverallocationFactor`. -/
def initialOverallocationFactor : ℚ := double 1.8

section

omit [LinearOrder K]

/-- The constructor. -/
def create : OverallocatedBatchedSparseArray K α where
  capacity := initialArrayCapacity
  swapCapacity := initialArrayCapacity
  size := 0
  overallocationFactor := initialOverallocationFactor
  pma := fun _ => PmaEntry.null p.toBlockParams
  swapPma := fun _ => PmaEntry.null p.toBlockParams
  sizeManager := BlockSizeManager.create 0
  tasks := fun _ => TaskInfo.zero

def head (index : ℕ) : K := (s.pma index).head

def blockSize (index : ℕ) : ℕ := (s.pma index).size

def setTask (thread : ℕ) (f : TaskInfo → TaskInfo) : OverallocatedBatchedSparseArray K α :=
  { s with tasks := Function.update s.tasks thread (f (s.tasks thread)) }

def adjustBlockSize (blockIndex oldSize newSize : ℕ) : OverallocatedBatchedSparseArray K α :=
  { s with sizeManager := s.sizeManager.adjustBlockSize blockIndex oldSize newSize }

end

/-- An upper bound for the number of blocks if all of them are at least half full. -/
def maxRedistributionWidth (numberOfElements newElements : ℕ) : ℕ :=
  if numberOfElements + newElements = 0 then 0
  else (numberOfElements + newElements) / p.minBlockSize + 1

/-! ## Steps 1 and 2: distribution -/

/-- The first index `<= startIndex` whose batch element is `>= blockHead`, or `startIndex + 1`. -/
def findFirstBatchElement (batch : List α) (startIndex : ℕ) (blockHead : K) : ℕ :=
  Scan.scanDown (fun result => decide (blockHead < batchKey p.toBlockParams batch (result - 1) ∨
    batchKey p.toBlockParams batch (result - 1) = blockHead)) (startIndex + 1) (startIndex + 1)

/-- Step 1: splitters, first elements and widths.  Every thread writes only its own task. -/
def findSplitters (batch : List α) (numberOfThreads : ℕ) : OverallocatedBatchedSparseArray K α :=
  let splitterDistance := batch.length / numberOfThreads
  let block (thread : ℕ) : ℕ :=
    (s.view p).findBlockIndex (batchKey p.toBlockParams batch (thread * splitterDistance))
  let firstElement (thread : ℕ) : ℕ :=
    findFirstBatchElement p batch (thread * splitterDistance) (s.head (block thread))
  let assign (thread : ℕ) : TaskInfo :=
    let nextBlock := if thread = numberOfThreads - 1 then s.size else block (thread + 1)
    let nextElement :=
      if thread = numberOfThreads - 1 then batch.length else firstElement (thread + 1)
    { s.tasks thread with
      blockForBatchSplitter := block thread
      firstBatchElement := firstElement thread
      requiredWidth := maxRedistributionWidth p
        (s.sizeManager.getNumberOfElements s.blockSize (block thread) nextBlock).toNat
        (nextElement - firstElement thread) }
  let sentinel : TaskInfo :=
    { s.tasks numberOfThreads with
      blockForBatchSplitter := s.size
      firstBatchElement := batch.length }
  { s with tasks := fun thread =>
      if thread < numberOfThreads then assign thread
      else if thread = numberOfThreads then sentinel
      else s.tasks thread }

section

omit [LinearOrder K]

/-- One iteration of the loop of step 2, with the running number of merged tasks. -/
def mergeTask (acc : OverallocatedBatchedSparseArray K α × ℕ) (thread : ℕ) :
    OverallocatedBatchedSparseArray K α × ℕ :=
  let s := acc.1
  if (s.tasks thread).blockForBatchSplitter = (s.tasks (thread - 1)).blockForBatchSplitter then
    ((s.setTask thread fun task =>
        { task with
          firstBatchElement := (s.tasks (thread - 1)).firstBatchElement
          type := .insertion
          mergedTasks := acc.2 + 1 }).setTask (thread - 1) fun task =>
        { task with
          type := .inverseMerge
          requiredWidth := 0 },
      acc.2 + 1)
  else
    (s.setTask thread fun task =>
      { task with
        type := .insertion
        mergedTasks := 0 }, 0)

/-- Step 2: of the tasks that start at the same block the last one is left. -/
def mergeTasks (numberOfThreads : ℕ) : OverallocatedBatchedSparseArray K α :=
  let s₀ := s.setTask 0 fun task =>
    { task with
      firstBatchElement := 0
      type := .insertion }
  ((List.range' 1 (numberOfThreads - 1)).foldl mergeTask (s₀, 0)).1

/-- `hasMergedTask`: two threads have met at a block. -/
def hasMergedTask (numberOfThreads : ℕ) : Bool :=
  (List.range' 1 (numberOfThreads - 1)).any fun thread =>
    decide ((s.tasks thread).blockForBatchSplitter =
      (s.tasks (thread - 1)).blockForBatchSplitter)

end

/-- The first batch element that does not belong to the merge block any more.  This search uses
`operator<` of the key type. -/
def lastTaskBatchStart (batch : List α) (firstNormalBlock : ℕ) (totalBatchRange : Interval) : ℕ :=
  if s.empty p firstNormalBlock then totalBatchRange.right
  else
    min (Scan.scanUp (fun i => p.operatorLess (batchKey p.toBlockParams batch i)
      (s.head firstNormalBlock)) batch.length 0) totalBatchRange.right

/-- Gives a task of a merge group its part of the batch. -/
def shareTask (mergeBatchRange : Interval) (mergeBlock mergedTasks mergeThread : ℕ)
    (task : TaskInfo) : TaskInfo :=
  let elementsPerThread := mergeBatchRange.length / mergedTasks + 1
  { task with
    firstBatchElement := min
      (mergeBatchRange.left + (mergedTasks - mergeThread) * elementsPerThread)
      mergeBatchRange.right
    blockForBatchSplitter := mergeBlock
    mergedTasks := mergedTasks
    mergedTaskIndex := mergedTasks - mergeThread
    requiredWidth := maxRedistributionWidth p (s.blockSize mergeBlock) elementsPerThread }

/-- Distributes the work of the merge group whose last task is `thread`. -/
def distributeGroup (batch : List α) (s : OverallocatedBatchedSparseArray K α) (thread : ℕ) :
    OverallocatedBatchedSparseArray K α :=
  let task := s.tasks thread
  if task.type = .insertion ∧ 0 < task.mergedTasks then
    let next := s.tasks (thread + 1)
    let mergeBlock := task.blockForBatchSplitter
    let totalBatchRange : Interval := ⟨task.firstBatchElement, next.firstBatchElement⟩
    let firstNormalBlock := (s.view p).findNext mergeBlock next.blockForBatchSplitter
    let mergeBatchRange : Interval :=
      ⟨totalBatchRange.left, s.lastTaskBatchStart p batch firstNormalBlock totalBatchRange⟩
    let s₁ :=
      if mergeBatchRange.right ≠ totalBatchRange.left then
        s.setTask thread fun task =>
          { task with
            firstBatchElement := mergeBatchRange.right
            blockForBatchSplitter := firstNormalBlock }
      else s
    -- `mergeThread` counts down from `mergedTasks` to `1`
    (List.range' 1 task.mergedTasks).reverse.foldl (fun s' mergeThread =>
      s'.setTask (thread - mergeThread)
        (s.shareTask p mergeBatchRange mergeBlock task.mergedTasks mergeThread)) s₁
  else s

def distributeWorkInMergedTasks (batch : List α) (numberOfThreads : ℕ) :
    OverallocatedBatchedSparseArray K α :=
  (List.range' 1 (numberOfThreads - 1)).foldl (distributeGroup p batch) s

/-- Steps 1 and 2. -/
def prepareInsertion (batch : List α) (numberOfThreads : ℕ) :
    OverallocatedBatchedSparseArray K α :=
  ((s.findSplitters p batch numberOfThreads).mergeTasks numberOfThreads).distributeWorkInMergedTasks
    p batch numberOfThreads

/-- The test for the path: no task has to merge inversely, and all of them find their required
width in their own range. -/
def useInPlaceInserts (numberOfThreads : ℕ) : Bool :=
  p.allowInPlaceInserts && (List.range numberOfThreads).all fun thread =>
    decide ((s.tasks thread).blockForBatchSplitter + (s.tasks thread).requiredWidth ≤
      (s.tasks (thread + 1)).blockForBatchSplitter ∧ (s.tasks thread).type ≠ .inverseMerge)

/-! ## Path A: writing a block in place -/

section

omit [LinearOrder K]

/-- `while (shift < right && carry.block != nullptr) { std::swap(pma[shift], carry); ++shift; }`
for `n` cells: the array, what is carried, and `shift`. -/
def swapUp : ℕ → (ℕ → PmaEntry K α) → PmaEntry K α → ℕ → (ℕ → PmaEntry K α) × PmaEntry K α × ℕ
  | 0, pma, carry, shift => (pma, carry, shift)
  | n + 1, pma, carry, shift =>
      if carry.isEmpty then (pma, carry, shift)
      else swapUp n (Function.update pma shift carry) (pma shift) (shift + 1)

/-- The loop in the other direction, from the cell in front of `stop` on, for `n` cells: the array,
what is carried, and the last cell that was written (`stop` if there is none). -/
def swapDown : ℕ → (ℕ → PmaEntry K α) → PmaEntry K α → ℕ → (ℕ → PmaEntry K α) × PmaEntry K α × ℕ
  | 0, pma, carry, stop => (pma, carry, stop)
  | n + 1, pma, carry, stop =>
      if carry.isEmpty then (pma, carry, stop)
      else swapDown n (Function.update pma (stop - 1) carry) (pma (stop - 1)) (stop - 1)

/-- What a call of `writeBlockInPlace` ends with: the array, the index it returns, and what is
carried at the end, which has to be null. -/
structure WriteResult (K α : Type) where
  array : OverallocatedBatchedSparseArray K α
  insertionIndex : ℕ
  carry : PmaEntry K α

/-- `pma` and the aggregates, as the shifts see them: block sizes are read behind the swaps. -/
def withPma (pma : ℕ → PmaEntry K α) (sizeManager : (ℕ → ℕ) → BlockSizeManager) :
    OverallocatedBatchedSparseArray K α :=
  { s with
    pma := pma
    sizeManager := sizeManager fun index => (pma index).size }

end

section

omit [LinearOrder K]

variable [DecidableEq K]

/-- Writes a block in front of the blocks from `targetIndex` on. -/
def writeBlockInPlace (newBlock : PmaEntry K α) (targetIndex : ℕ) (pmaRange : Interval) :
    WriteResult K α :=
  if targetIndex = pmaRange.right then
    -- a new last block: everything in front of it moves to the left
    let (pma, carry, shift) := swapDown (targetIndex - pmaRange.left) s.pma newBlock targetIndex
    ⟨s.withPma pma fun blockSize =>
        (s.sizeManager.adjustBlockSize (targetIndex - 1) 0 newBlock.size).shiftLeft blockSize shift
          (targetIndex - 1),
      targetIndex - 1, carry⟩
  else if s.empty p targetIndex = false then
    let (pma, carry, shift) := swapUp (pmaRange.right - targetIndex) s.pma newBlock targetIndex
    if carry.isEmpty then
      ⟨s.withPma pma fun blockSize =>
          (s.sizeManager.adjustBlockSize targetIndex 0 newBlock.size).shiftRight blockSize
            (targetIndex + 1) (shift - 1),
        targetIndex, carry⟩
    else
      -- no free cell on the right: back again, and one further to the left
      let (pma', carry', shift') := swapDown (pmaRange.right - pmaRange.left) pma carry
        pmaRange.right
      ⟨s.withPma pma' fun blockSize =>
          (s.sizeManager.adjustBlockSize (targetIndex - 1) 0 newBlock.size).shiftLeft blockSize
            shift' (targetIndex - 1),
        targetIndex - 1, carry'⟩
  else
    ⟨s.withPma (Function.update s.pma targetIndex newBlock) fun _ =>
        s.sizeManager.adjustBlockSize targetIndex 0 newBlock.size,
      targetIndex, PmaEntry.null p.toBlockParams⟩

/-- The calls of `writeBlockInPlace` for the parts of a split block, each behind the last one, and
the blocks that were still carried when a call ended. -/
def writeBlocksInPlace (pmaRange : Interval) :
    List (PmaEntry K α) → ℕ → OverallocatedBatchedSparseArray K α →
      OverallocatedBatchedSparseArray K α × List (PmaEntry K α)
  | [], _, s => (s, [])
  | block :: blocks, insertionBlockIndex, s =>
      let result := s.writeBlockInPlace p block insertionBlockIndex pmaRange
      let rest := writeBlocksInPlace pmaRange blocks (result.insertionIndex + 1) result.array
      (rest.1, (if result.carry.isEmpty then [] else [result.carry]) ++ rest.2)

end

/-! ## Path A: a task -/

/-- The first element of the batch, from `batchIndex` on, that does not go into the block in front
of `nextBlockIndex`. -/
def findLastBatchElementForBlock (batch : List α) (batchIndex : ℕ) (batchRange : Interval)
    (nextBlockIndex : ℕ) (pmaRange : Interval) : ℕ :=
  if nextBlockIndex = pmaRange.right then batchRange.right
  else Scan.scanUp (fun i => decide (batchKey p.toBlockParams batch i < s.head nextBlockIndex))
    (batchRange.right - batchIndex) batchIndex

/-- `merge` or `mergeFaster`, by the number of elements. -/
def mergeElements (block : PmaEntry K α) (elements : List α) : PmaEntry K α :=
  if fasterMergeMinimum ≤ elements.length then block.mergeFaster p.toBlockParams elements
  else block.merge p.toBlockParams elements

def insertIntoBlockWithoutSplit (blockIndex : ℕ) (elements : List α) :
    OverallocatedBatchedSparseArray K α :=
  let block := mergeElements p (s.pma blockIndex) elements
  { s with
    pma := Function.update s.pma blockIndex block
    sizeManager := s.sizeManager.adjustBlockSize blockIndex (s.blockSize blockIndex) block.size }

/-- Takes the block out of the pma and writes its parts back, from its own cell on. -/
def insertIntoBlockWithSplit (blockIndex : ℕ) (elements : List α) (pmaRange : Interval) :
    OverallocatedBatchedSparseArray K α × List (PmaEntry K α) :=
  let block := s.pma blockIndex
  writeBlocksInPlace p pmaRange (splitBlocks p.toBlockParams block elements) blockIndex
    { s.adjustBlockSize blockIndex block.size 0 with
      pma := Function.update s.pma blockIndex (PmaEntry.null p.toBlockParams) }

def insertElementsIntoBlock (blockIndex : ℕ) (elements : List α) (pmaRange : Interval) :
    OverallocatedBatchedSparseArray K α × List (PmaEntry K α) :=
  if s.blockSize blockIndex + elements.length ≤ p.blockSize then
    (s.insertIntoBlockWithoutSplit p blockIndex elements, [])
  else s.insertIntoBlockWithSplit p blockIndex elements pmaRange

/-- The local variables of the in-place `insertBatchRange`, and the blocks that calls of
`writeBlockInPlace` have lost. -/
structure InPlaceCursor (K α : Type) where
  batchIndex : ℕ
  blockIndex : ℕ
  lost : List (PmaEntry K α)

/-- One iteration of the loop of `insertBatchRange`. -/
def insertBatchStep (batch : List α) (batchRange pmaRange : Interval)
    (acc : OverallocatedBatchedSparseArray K α × InPlaceCursor K α) :
    OverallocatedBatchedSparseArray K α × InPlaceCursor K α :=
  let s := acc.1
  let cursor := acc.2
  if cursor.batchIndex < batchRange.right then
    let blockIndex := (s.view p).exponentialSearch
      (batchKey p.toBlockParams batch cursor.batchIndex) cursor.blockIndex pmaRange.right
    let nextBlockIndex := (s.view p).findNext blockIndex pmaRange.right
    let lastBlockElement := s.findLastBatchElementForBlock p batch cursor.batchIndex batchRange
      nextBlockIndex pmaRange
    let result := s.insertElementsIntoBlock p blockIndex
      (batchPart batch ⟨cursor.batchIndex, lastBlockElement⟩) pmaRange
    (result.1, ⟨lastBlockElement, blockIndex, cursor.lost ++ result.2⟩)
  else acc

/-- The batch range and the pma range of a task. -/
def taskRanges (thread : ℕ) : Interval × Interval :=
  let task := s.tasks thread
  let next := s.tasks (thread + 1)
  (⟨task.firstBatchElement, next.firstBatchElement⟩,
    ⟨task.blockForBatchSplitter, next.blockForBatchSplitter⟩)

/-- The cursor a task starts with. -/
def startCursor (thread : ℕ) : InPlaceCursor K α :=
  ⟨(s.tasks thread).firstBatchElement, (s.tasks thread).blockForBatchSplitter, []⟩

/-- A thread's turn: one iteration of its loop. -/
def inPlaceTurn (batch : List α)
    (acc : OverallocatedBatchedSparseArray K α × (ℕ → InPlaceCursor K α)) (thread : ℕ) :
    OverallocatedBatchedSparseArray K α × (ℕ → InPlaceCursor K α) :=
  let ranges := acc.1.taskRanges thread
  let result := insertBatchStep p batch ranges.1 ranges.2 (acc.1, acc.2 thread)
  (result.1, Function.update acc.2 thread result.2)

/-- The threads take turns in any order that lets all of them finish; behind `turns`, each one runs
to its end.  An iteration uses up an element of the batch. -/
def runInPlace (batch : List α) (numberOfThreads : ℕ) (turns : List ℕ) :
    OverallocatedBatchedSparseArray K α × (ℕ → InPlaceCursor K α) :=
  (turns.filter (· < numberOfThreads) ++
    (List.range numberOfThreads).flatMap (List.replicate batch.length)).foldl
      (inPlaceTurn p batch) (s, s.startCursor)

end OverallocatedBatchedSparseArray

end BatchPMA
