import BatchPMA.Model.InPlace

/-!
# The overallocated array: insertion with rewriting

Path B of `OverallocatedBatchedSparseArray::insertBatch`.  Every task writes its blocks one after
the other to a range of its own in the swap array; the parts of a merge block are evened out there,
and all blocks are written back, spread over the ranges of their tasks.
-/

namespace BatchPMA

variable {K α : Type} [LinearOrder K]

/-! ## New blocks -/

section Blocks

variable (p : BlockParams K α)

/-- The loop of `insertIntoEmptyRange`, for `n` iterations at most.  It differs from the one of the
other array in the merge it uses. -/
def denseRangeLoop : ℕ → List α → PmaEntry K α → List (PmaEntry K α)
  | 0, _, block => if 0 < block.size then [block] else []
  | _ + 1, [], block => if 0 < block.size then [block] else []
  | n + 1, e :: es, block =>
      let numberOfInsertions := min p.blockSize (es.length + 1)
      if block.size = p.blockSize then
        let (full, newBlock) := nextBlock p block (es.length + 1)
        full :: denseRangeLoop n ((e :: es).drop numberOfInsertions)
          (newBlock.mergeFaster p ((e :: es).take numberOfInsertions))
      else
        denseRangeLoop n ((e :: es).drop numberOfInsertions)
          (block.mergeFaster p ((e :: es).take numberOfInsertions))

/-- The blocks that `insertIntoEmptyRange` writes. -/
def denseRangeBlocks (elements : List α) : List (PmaEntry K α) :=
  denseRangeLoop p elements.length elements ((PmaEntry.null p).allocateBlock p)

namespace MergeState

/-- A full block is written and a new one begun. -/
def flushFull (st : MergeState K α) : MergeState K α :=
  if st.insertionBlock.size = p.blockSize then
    { st with
      written := st.written ++ [st.insertionBlock]
      insertionBlock := (PmaEntry.null p).allocateBlock p }
  else st

/-- Appends an element of the merge block. -/
def appendFromBlock (st : MergeState K α) (x : α) (batch rest : List α) : MergeState K α :=
  { st with
    insertionBlock := (st.insertionBlock.insertWithIndex p x st.insertionBlock.size).1
    lastWrittenKey := p.keyOf x
    batch := batch
    rest := rest }

/-- Skips batch elements with the key written last. -/
def skipWritten (st : MergeState K α) : MergeState K α :=
  { st with batch := st.batch.dropWhile fun y => decide (p.keyOf y = st.lastWrittenKey) }

/-- One iteration of the loop of `inverseMerge`, behind `flushFull`. -/
def mergeStep (st : MergeState K α) : MergeState K α :=
  match st.rest, st.batch with
  | x :: rest, y :: batch =>
      if p.keyOf x < p.keyOf y then st.appendFromBlock p x (y :: batch) rest
      else if p.keyOf x = p.keyOf y then st.appendFromBlock p x batch rest
      else st.takeFromBatch p y batch
  | [], _ => (st.skipWritten p).mergeBatch p
  | _, [] => st.mergeRest p

/-- `while (batchIndex < batchRange.right || readIndex < mergeRange.right)`, for `n` iterations at
most. -/
def mergeLoop : ℕ → MergeState K α → MergeState K α
  | 0, st => st
  | n + 1, st =>
      if st.batch = [] ∧ st.rest = [] then st else mergeLoop n ((st.flushFull p).mergeStep p)

end MergeState

/-- The blocks that `inverseMerge` writes for a part of the batch and a part of the merge block. -/
def mergedBlocks (batch rest : List α) : List (PmaEntry K α) :=
  (MergeState.mergeLoop p (batch.length + rest.length)
    ⟨[], (PmaEntry.null p).allocateBlock p, p.nullKey, batch, rest⟩).finish

end Blocks

namespace OverallocatedBatchedSparseArray

variable (p : OverallocatedParams K α) (s : OverallocatedBatchedSparseArray K α)

/-! ## Steps B-1 and B-2 -/

section

omit [LinearOrder K]

/-- The cells that a required width makes room for, by a product of `double`s. -/
def overallocatedWidth (requiredWidth : ℕ) : ℕ :=
  if p.allowInPlaceInserts then ⌊double (s.overallocationFactor * double requiredWidth)⌋₊
  else requiredWidth

/-- One iteration of the loop of step B-1. -/
def startTask (acc : OverallocatedBatchedSparseArray K α × ℕ) (thread : ℕ) :
    OverallocatedBatchedSparseArray K α × ℕ :=
  let s := acc.1.setTask thread fun task => { task with startIndex := acc.2 }
  (s, acc.2 + s.overallocatedWidth p (s.tasks thread).requiredWidth)

/-- Step B-1: the prefix sums over the widths, behind the blocks that are not touched. -/
def computeStartIndices (numberOfThreads : ℕ) : OverallocatedBatchedSparseArray K α × ℕ :=
  (List.range (numberOfThreads + 1)).foldl (startTask p) (s, (s.tasks 0).blockForBatchSplitter)

/-- Step B-2. -/
def increaseSize (newSize : ℕ) : OverallocatedBatchedSparseArray K α :=
  let s' :=
    if s.swapCapacity ≤ newSize then
      { s with
        swapCapacity := doubleUntil newSize (newSize + 1) s.swapCapacity
        swapPma := fun _ => PmaEntry.null p.toBlockParams }
    else s
  { s' with size := newSize }

/-! ## Step B-3: from the pma to the swap array -/

def writeBlock (block : PmaEntry K α) (outputStart blockNumber : ℕ) :
    OverallocatedBatchedSparseArray K α :=
  { s with
    swapPma := Function.update s.swapPma (getDenseWriteIndex outputStart blockNumber) block }

/-- `writeBlock` for the block of a cell, which is empty afterwards. -/
def writePmaBlock (blockIndex outputStart blockNumber : ℕ) : OverallocatedBatchedSparseArray K α :=
  let s' := s.writeBlock (s.pma blockIndex) outputStart blockNumber
  { s' with pma := Function.update s'.pma blockIndex (PmaEntry.null p.toBlockParams) }

/-- Writes blocks to consecutive cells. -/
def writeBlocks (outputStart : ℕ) (acc : OverallocatedBatchedSparseArray K α × ℕ)
    (blocks : List (PmaEntry K α)) : OverallocatedBatchedSparseArray K α × ℕ :=
  blocks.foldl (fun acc block => (acc.1.writeBlock block outputStart acc.2, acc.2 + 1)) acc

end

/-- `insertElementsIntoBlock` with the swap array as target. -/
def writeElementsIntoBlock (blockIndex : ℕ) (elements : List α) (outputStart outputBlockNumber : ℕ) :
    OverallocatedBatchedSparseArray K α × ℕ :=
  if s.blockSize blockIndex + elements.length ≤ p.blockSize then
    ((s.insertIntoBlockWithoutSplit p blockIndex elements).writePmaBlock p blockIndex outputStart
      outputBlockNumber, outputBlockNumber + 1)
  else
    let block := s.pma blockIndex
    writeBlocks outputStart
      ({ s.adjustBlockSize blockIndex block.size 0 with
        pma := Function.update s.pma blockIndex (PmaEntry.null p.toBlockParams) },
        outputBlockNumber) (splitBlocks p.toBlockParams block elements)

/-- The loop of `insertBatchRange`, for `n` blocks at most. -/
def rewriteLoop (batch : List α) (batchRange pmaInputRange pmaOutputRange : Interval) :
    ℕ → ℕ → ℕ → ℕ → OverallocatedBatchedSparseArray K α × ℕ →
      OverallocatedBatchedSparseArray K α × ℕ
  | 0, _, _, _, acc => acc
  | n + 1, batchIndex, blockIndex, nextBlockIndex, acc =>
      if blockIndex < pmaInputRange.right then
        let s := acc.1
        let followingBlockIndex (s' : OverallocatedBatchedSparseArray K α) : ℕ :=
          (s'.view p).findNext nextBlockIndex pmaInputRange.right
        if batchIndex < batchRange.right ∧
            (batchKey p.toBlockParams batch batchIndex < s.head nextBlockIndex ∨
              s.empty p nextBlockIndex = true) then
          let lastBlockElement := s.findLastBatchElementForBlock p batch batchIndex batchRange
            nextBlockIndex pmaInputRange
          let result := s.writeElementsIntoBlock p blockIndex
            (batchPart batch ⟨batchIndex, lastBlockElement⟩) pmaOutputRange.left acc.2
          rewriteLoop batch batchRange pmaInputRange pmaOutputRange n lastBlockElement
            nextBlockIndex (followingBlockIndex result.1) result
        else
          let result := s.writePmaBlock p blockIndex pmaOutputRange.left acc.2
          rewriteLoop batch batchRange pmaInputRange pmaOutputRange n batchIndex nextBlockIndex
            (followingBlockIndex result) (result, acc.2 + 1)
      else acc

/-- Writes the blocks of `pmaInputRange`, with the batch elements merged into them, to
`pmaOutputRange`; the result says how many blocks there are. -/
def insertBatchRange (batch : List α) (batchRange pmaInputRange pmaOutputRange : Interval) :
    OverallocatedBatchedSparseArray K α × ℕ :=
  let result := rewriteLoop p batch batchRange pmaInputRange pmaOutputRange pmaInputRange.length
    batchRange.left pmaInputRange.left
    ((s.view p).findNext pmaInputRange.left pmaInputRange.right) (s, 0)
  if pmaInputRange.length = 0 then
    writeBlocks pmaOutputRange.left result
      (denseRangeBlocks p.toBlockParams (batchPart batch batchRange))
  else result

/-- The part of the merge block that an inverse merge task works on. -/
def getMergeRange (task : TaskInfo) (batch : List α) (batchRange : Interval) (mergeBlock : ℕ) :
    Interval :=
  let block := s.pma mergeBlock
  let left :=
    if block.size ≠ 0 ∧ task.mergedTaskIndex ≠ 0 then
      block.findIndex p.toBlockParams (batchKey p.toBlockParams batch batchRange.left)
    else 0
  let right :=
    if block.size ≠ 0 ∧ task.mergedTaskIndex + 1 ≠ task.mergedTasks ∧
        batchRange.right ≠ batch.length then
      block.findIndex p.toBlockParams (batchKey p.toBlockParams batch batchRange.right)
    else block.size
  ⟨left, right⟩

/-- The blocks in front of the first task stay at their indices. -/
def copyFrontBlocks (stop : ℕ) : OverallocatedBatchedSparseArray K α :=
  (List.range stop).foldl (fun s blockIndex =>
    if s.empty p blockIndex then s else s.writePmaBlock p blockIndex 0 blockIndex) s

/-- The blocks of a range, one after the other. -/
def copyBlocks (pmaInputRange pmaOutputRange : Interval) : OverallocatedBatchedSparseArray K α × ℕ :=
  (List.range' pmaInputRange.left pmaInputRange.length).foldl (fun acc blockIndex =>
    if acc.1.empty p blockIndex then acc
    else (acc.1.writePmaBlock p blockIndex pmaOutputRange.left acc.2, acc.2 + 1)) (s, 0)

/-- What the task of a thread writes, and the number of its blocks. -/
def outOfPlaceTask (batch : List α) (thread : ℕ) : OverallocatedBatchedSparseArray K α × ℕ :=
  let task := s.tasks thread
  let next := s.tasks (thread + 1)
  let batchRange : Interval := ⟨task.firstBatchElement, next.firstBatchElement⟩
  let pmaInputRange : Interval := ⟨task.blockForBatchSplitter, next.blockForBatchSplitter⟩
  let pmaOutputRange : Interval := ⟨task.startIndex, next.startIndex⟩
  let s := if thread = 0 then s.copyFrontBlocks p pmaInputRange.left else s
  if task.type = .insertion then
    if batchRange.length = 0 then s.copyBlocks p pmaInputRange pmaOutputRange
    else s.insertBatchRange p batch batchRange pmaInputRange pmaOutputRange
  else if batchRange.length = 0 then (s, 0)
  else
    let mergeBlock := pmaInputRange.left
    let mergeRange := s.getMergeRange p task batch batchRange mergeBlock
    writeBlocks pmaOutputRange.left (s, 0) (mergedBlocks p.toBlockParams
      (batchPart batch batchRange) (batchPart (s.pma mergeBlock).cells mergeRange))

def startTaskOutOfPlace (batch : List α) (thread : ℕ) : OverallocatedBatchedSparseArray K α :=
  let result := s.outOfPlaceTask p batch thread
  result.1.setTask thread fun task => { task with numberOfBlocksWritten := result.2 }

/-! ## Between the parallel regions -/

section

omit [LinearOrder K]

/-- `swapPma[index] = block` -/
def setSwap (index : ℕ) (block : PmaEntry K α) : OverallocatedBatchedSparseArray K α :=
  { s with swapPma := Function.update s.swapPma index block }

def addWrittenBlock (thread : ℕ) : OverallocatedBatchedSparseArray K α :=
  s.setTask thread fun task =>
    { task with numberOfBlocksWritten := task.numberOfBlocksWritten + 1 }

/-- The carry block goes to the first block of a task. -/
def mergeCarry (carryBlock : PmaEntry K α) (thread : ℕ) : OverallocatedBatchedSparseArray K α :=
  let start := (s.tasks thread).startIndex
  if (s.swapPma start).size + carryBlock.size < p.blockSize then
    s.setSwap start ((s.swapPma start).mergeSmaller p.toBlockParams carryBlock)
  else
    let (carry, rest) := carryBlock.steal p.toBlockParams (s.swapPma start)
    let previousTaskEnd := (s.tasks (thread - 1)).startIndex +
      (s.tasks (thread - 1)).numberOfBlocksWritten
    ((s.setSwap start rest).setSwap previousTaskEnd carry).addWrittenBlock (thread - 1)

/-- The last block of an inverse merge task becomes the carry block if it is too small. -/
def takeCarry (carryBlock : PmaEntry K α) (thread : ℕ) :
    OverallocatedBatchedSparseArray K α × PmaEntry K α :=
  let task := s.tasks thread
  if task.type = .inverseMerge ∧ 0 < task.numberOfBlocksWritten then
    let lastWrittenBlock := task.startIndex + task.numberOfBlocksWritten - 1
    if (s.swapPma lastWrittenBlock).size < p.minBlockSize then
      ((s.setSwap lastWrittenBlock (PmaEntry.null p.toBlockParams)).setTask thread fun task =>
        { task with numberOfBlocksWritten := task.numberOfBlocksWritten - 1 },
        s.swapPma lastWrittenBlock)
    else (s, carryBlock)
  else (s, carryBlock)

section

variable [DecidableEq K]

/-- The merge block of a group is removed with the last task of the group. -/
def deleteMergeBlock (thread : ℕ) : OverallocatedBatchedSparseArray K α :=
  if 0 < thread ∧ (s.tasks thread).type = .insertion ∧
      (s.tasks (thread - 1)).type = .inverseMerge then
    let mergeBlock := (s.tasks (thread - 1)).blockForBatchSplitter
    if s.empty p mergeBlock then s
    else { s with pma := Function.update s.pma mergeBlock (PmaEntry.null p.toBlockParams) }
  else s

/-- One iteration of the first loop of `postprocessInverseMergeTasks`. -/
def postprocessTask (acc : OverallocatedBatchedSparseArray K α × PmaEntry K α) (thread : ℕ) :
    OverallocatedBatchedSparseArray K α × PmaEntry K α :=
  let (s₁, carry) : OverallocatedBatchedSparseArray K α × PmaEntry K α :=
    if acc.2.isEmpty = false ∧ 0 < (acc.1.tasks thread).numberOfBlocksWritten then
      (acc.1.mergeCarry p acc.2 thread, PmaEntry.null p.toBlockParams)
    else acc
  let (s₂, carry) := s₁.takeCarry p carry thread
  (s₂.deleteMergeBlock p thread, carry)

end

/-- The carry block goes to the last block of a task, which is to its left. -/
def mergeLastCarry (carryBlock : PmaEntry K α) (thread : ℕ) :
    OverallocatedBatchedSparseArray K α :=
  let task := s.tasks thread
  let lastWrittenBlock := task.startIndex + task.numberOfBlocksWritten - 1
  if (s.swapPma lastWrittenBlock).size + carryBlock.size < p.blockSize then
    s.setSwap lastWrittenBlock
      (carryBlock.mergeSmaller p.toBlockParams (s.swapPma lastWrittenBlock))
  else
    let (carry, rest) := carryBlock.stealFromSmaller p.toBlockParams (s.swapPma lastWrittenBlock)
    let s' := s.setSwap lastWrittenBlock rest
    if task.numberOfBlocksWritten < task.requiredWidth then
      (s'.setSwap (task.startIndex + task.numberOfBlocksWritten) carry).addWrittenBlock thread
    else
      (s'.setSwap (s.tasks (thread + 1)).startIndex carry).addWrittenBlock (thread + 1)

/-- The loop over the tasks from the last one down, for the carry block that is left over. -/
def placeCarry (carryBlock : PmaEntry K α) : ℕ → OverallocatedBatchedSparseArray K α →
    OverallocatedBatchedSparseArray K α
  | 0, s => s
  | thread + 1, s =>
      if 0 < (s.tasks thread).numberOfBlocksWritten then s.mergeLastCarry p carryBlock thread
      else placeCarry carryBlock thread s

/-- Merges blocks that are too small and removes the merge blocks. -/
def postprocessInverseMergeTasks [DecidableEq K] (numberOfThreads : ℕ) :
    OverallocatedBatchedSparseArray K α :=
  let (s', carryBlock) := (List.range numberOfThreads).foldl (postprocessTask p)
    (s, PmaEntry.null p.toBlockParams)
  if carryBlock.isEmpty then s' else s'.placeCarry p carryBlock numberOfThreads

def resizeMainPma : OverallocatedBatchedSparseArray K α :=
  if s.swapCapacity ≠ s.capacity then
    { s with
      pma := fun _ => PmaEntry.null p.toBlockParams
      capacity := s.swapCapacity }
  else s

/-! ## Step B-4: from the swap array to the pma -/

/-- Moves a block from the swap array to the pma. -/
def moveToPma (readIndex writeIndex : ℕ) : OverallocatedBatchedSparseArray K α :=
  { s with
    pma := Function.update s.pma writeIndex (s.swapPma readIndex)
    swapPma := Function.update s.swapPma readIndex (PmaEntry.null p.toBlockParams) }

/-- Spreads the first blocks of a range evenly over it. -/
def rewrite (range : Interval) (numberOfBlocks : ℕ) : OverallocatedBatchedSparseArray K α :=
  (List.range numberOfBlocks).foldl (fun s currentBlock =>
    s.moveToPma p (range.left + currentBlock)
      (getUniformWriteIndex range.left currentBlock range.length numberOfBlocks)) s

def startRewritingTask (thread : ℕ) : OverallocatedBatchedSparseArray K α :=
  let s := if thread = 0 then
      (List.range (s.tasks 0).blockForBatchSplitter).foldl (fun s blockIndex =>
        if (s.swapPma blockIndex).isEmpty then s else s.moveToPma p blockIndex blockIndex) s
    else s
  s.rewrite p ⟨(s.tasks thread).startIndex, (s.tasks (thread + 1)).startIndex⟩
    (s.tasks thread).numberOfBlocksWritten

end

/-! ## The operation -/

/-- Path B. -/
def rewriteAll (batch : List α) (numberOfThreads : ℕ) (hasMergedTask : Bool) (sched : Schedule) :
    OverallocatedBatchedSparseArray K α :=
  let (s₁, prefixWidth) := s.computeStartIndices p numberOfThreads
  let s₂ := s₁.increaseSize p prefixWidth
  let s₃ := (sched.threads 0 numberOfThreads).foldl
    (fun s' thread => s'.startTaskOutOfPlace p batch thread) s₂
  let s₄ := if hasMergedTask then s₃.postprocessInverseMergeTasks p numberOfThreads else s₃
  let s₅ := (sched.threads 1 numberOfThreads).foldl
    (fun s' thread => s'.startRewritingTask p thread) (s₄.resizeMainPma p)
  { s₅ with sizeManager := s₅.sizeManager.recompute s₅.blockSize s₅.size }

/-- Inserts a sorted batch.  `turns` is the order in which the tasks of path A take turns. -/
def insertBatch (batch : List α) (numberOfThreads : ℕ) (sched : Schedule) (turns : List ℕ) :
    OverallocatedBatchedSparseArray K α :=
  let s₁ := s.prepareInsertion p batch numberOfThreads
  let s₂ := s₁.setTask numberOfThreads fun task => { task with requiredWidth := 0 }
  if s₁.useInPlaceInserts p numberOfThreads then
    (s₂.runInPlace p batch numberOfThreads turns).1
  else
    s₂.rewriteAll p batch numberOfThreads
      ((s.findSplitters p batch numberOfThreads).hasMergedTask numberOfThreads) sched

end OverallocatedBatchedSparseArray

end BatchPMA
