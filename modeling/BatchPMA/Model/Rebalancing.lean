import BatchPMA.Model.State

/-!
# The rebalancing phase

Steps B-2 to B-10 of `BatchedSparseArray::insertBatch`.  The nodes that `update` has collected are
filtered, the blocks of the remaining tasks are moved to the swap array, and from there they are
written back, spread evenly over the ranges of their tasks.

The blocks of all tasks are numbered consecutively and every thread gets a run of numbers, so that
a thread handles a part of one task, some tasks as a whole, and a part of another one.  A parallel
region runs its threads in the order a `Schedule` gives.
-/

namespace BatchPMA

variable {K α : Type}

namespace RebalancingManager

variable (m : RebalancingManager)

/-- The descent of `findBlockInRebalancingTask`: the leaf that is reached, and how many blocks are
still to be passed there. -/
def descend : ℕ → ℕ → ℕ → ℕ × ℕ
  | 0, index, remainingBlocks => (index, remainingBlocks)
  | level + 1, index, remainingBlocks =>
      let leftChildBlocks := (m.aggregate (leftChild index) level).numberOfBlocks
      if leftChildBlocks < remainingBlocks then
        descend level (rightChild index) (remainingBlocks - leftChildBlocks)
      else descend level (leftChild index) remainingBlocks

/-- The loop over the cells of a leaf. -/
def findBlockInLeaf (sds : SdsView) : ℕ → ℕ → ℕ → ExtendedPmaIndex
  | 0, blockIndex, _ => ⟨blockIndex, none⟩
  | n + 1, blockIndex, remainingBlocks =>
      if remainingBlocks = 0 then ⟨blockIndex, none⟩
      else
        let remainingBlocks' := if sds.empty blockIndex then remainingBlocks
          else remainingBlocks - 1
        if remainingBlocks' < sds.numberOfBufferBlocks blockIndex then
          ⟨blockIndex, some remainingBlocks'⟩
        else
          findBlockInLeaf sds n (blockIndex + 1)
            (remainingBlocks' - sds.numberOfBufferBlocks blockIndex)

/-- Where the block with the given number in the range of a node is.  A leaf has `aggregateWidth`
cells, so its loop ends within one more step. -/
def findBlockInRebalancingTask (sds : SdsView) (rootNode : RebalancingNode) (blockNumber : ℕ) :
    ExtendedPmaIndex :=
  let node : RebalancingNode :=
    if m.logCapacity < rootNode.level then ⟨m.logCapacity, rootNode.index⟩ else rootNode
  if (m.aggregate node.index node.level).numberOfBlocks < blockNumber then
    ⟨(m.rebalancingRange node).right, none⟩
  else
    let leaf := m.descend node.level node.index blockNumber
    findBlockInLeaf sds (m.aggregateWidth + 1) (m.rebalancingRange ⟨0, leaf.1⟩).left leaf.2

end RebalancingManager

/-- `while (capacity <= newSize) capacity *= 2;` -/
def doubleUntil (newSize : ℕ) : ℕ → ℕ → ℕ
  | 0, capacity => capacity
  | n + 1, capacity => if capacity ≤ newSize then doubleUntil newSize n (capacity * 2) else capacity

def getUniformWriteIndex (outputStart blockNumber outputLength numberOfBlocks : ℕ) : ℕ :=
  outputStart + (blockNumber * outputLength) / numberOfBlocks

/-- The blocks a thread moves: `numberOfBlocks / numberOfThreads + 1` consecutive ones. -/
def threadBlockRange (numberOfBlocks numberOfThreads thread : ℕ) : Interval :=
  let blocksPerThread := numberOfBlocks / numberOfThreads + 1
  ⟨thread * blocksPerThread, min numberOfBlocks ((thread + 1) * blocksPerThread)⟩

namespace BatchedSparseArray

/-- `std::inclusive_scan` over the numbers of blocks. -/
def inclusiveScan : ℕ → List RebalancingTask → List ℕ
  | _, [] => []
  | sum, task :: rest => (sum + task.numberOfBlocks) :: inclusiveScan (sum + task.numberOfBlocks) rest

variable [DecidableEq K] (p : BatchedParams K α) (s : BatchedSparseArray K α)

/-! ## Steps B-2 to B-4 -/

def updateHierarchy (sched : Schedule) : BatchedSparseArray K α :=
  let st := UpdateState.update sched (s.sdsView p)
    ⟨s.rebalancingManager, s.recountingNodesMap, s.rebalancingNodes⟩
  { s with
    rebalancingManager := st.manager
    recountingNodesMap := st.recountingNodesMap
    rebalancingNodes := st.rebalancingNodes }

/-- One iteration of step B-3: a node below another rebalancing node is dropped. -/
def filterNode (acc : RebalancingManager × List RebalancingTask) (node : RebalancingNode) :
    RebalancingManager × List RebalancingTask :=
  let (dominated, m) := acc.1.rebalancingNodeDominated node
  if dominated then (m.clearRebalancedFlag node, acc.2)
  else (m, acc.2 ++ [m.getRebalancingTask node])

/-- Step B-3. -/
def createRebalancingTasks : BatchedSparseArray K α :=
  let result := s.rebalancingNodes.foldl filterNode (s.rebalancingManager, [])
  { s with
    rebalancingManager := result.1
    rebalancingNodes := []
    rebalancingTasks := result.2 }

/-- The prefix sums over the tasks, with the last one repeated as a sentinel. -/
def computePrefixSums : BatchedSparseArray K α :=
  let sums := inclusiveScan 0 s.rebalancingTasks
  { s with prefixNumberOfRebalancingBlocks := sums ++ [sums.getLastD 0] }

def numberOfBlocksToRebalance : ℕ :=
  s.prefixNumberOfRebalancingBlocks.getD (s.rebalancingTasks.length - 1) 0

/-- Step B-4: the end of the last task decides. -/
def newPmaSize : ℕ :=
  match s.rebalancingTasks.getLast? with
  | none => s.size
  | some task => max s.size task.pmaRange.right

def increaseSwapPmaSize (newSize : ℕ) : BatchedSparseArray K α :=
  if s.swapCapacity ≤ newSize then
    { s with
      swapCapacity := doubleUntil newSize (newSize + 1) s.swapCapacity
      swapPma := freshArray p.toBlockParams }
  else s

/-! ## Step B-5: from the pma to the swap array -/

/-- `std::lower_bound` over the prefix sums. -/
def findRebalancingTask (blockNumber : ℕ) : ℕ :=
  s.prefixNumberOfRebalancingBlocks.findIdx fun sum => decide (blockNumber ≤ sum)

def rebalancingTask (taskIndex : ℕ) : RebalancingTask :=
  s.rebalancingTasks.getD taskIndex ⟨.zero, 0, ⟨0, 0⟩⟩

/-- The numbers of the blocks of a task among the blocks of all tasks. -/
def taskBlockRange (taskIndex : ℕ) : Interval :=
  ⟨if 0 < taskIndex then s.prefixNumberOfRebalancingBlocks.getD (taskIndex - 1) 0 else 0,
    s.prefixNumberOfRebalancingBlocks.getD taskIndex 0⟩

def getPartialRebalancingRange (taskIndex : ℕ) (globalBlockRange : Interval) :
    PartialRebalancingTask :=
  let taskBlockRange := s.taskBlockRange taskIndex
  let globalBlockRangePart := taskBlockRange.cut globalBlockRange
  if globalBlockRangePart.length = 0 then .zero
  else
    let localBlockRange : Interval :=
      ⟨globalBlockRangePart.left - taskBlockRange.left,
        globalBlockRangePart.right - taskBlockRange.left⟩
    let rootNode := (s.rebalancingTask taskIndex).rootNode
    ⟨s.rebalancingManager.findBlockInRebalancingTask (s.sdsView p) rootNode localBlockRange.left,
      s.rebalancingManager.findBlockInRebalancingTask (s.sdsView p) rootNode localBlockRange.right,
      localBlockRange.left⟩

/-- The part of step B-5(a) in which every thread looks up its share; it writes only the task
information of the thread itself. -/
def assignRebalancingBlocks : BatchedSparseArray K α :=
  let assign (thread : ℕ) : TaskInfo :=
    let blockRange := threadBlockRange s.numberOfBlocksToRebalance s.numberOfThreads thread
    let task := { s.tasks thread with rebalancingBlockRange := blockRange }
    if 0 < blockRange.length then
      let taskStart := s.findRebalancingTask blockRange.left
      let taskEnd := s.findRebalancingTask blockRange.right + 1
      { task with
        rebalancingTaskRange := ⟨taskStart, taskEnd⟩
        firstRebalancingTask := s.getPartialRebalancingRange p taskStart blockRange
        lastRebalancingTask :=
          if 1 < taskEnd - taskStart then s.getPartialRebalancingRange p (taskEnd - 1) blockRange
          else task.lastRebalancingTask }
    else task
  { s with tasks := fun thread => if thread < s.numberOfThreads then assign thread
      else s.tasks thread }

/-- Moves the pma block of a cell to the swap array. -/
def movePmaBlock (blockIndex writeIndex : ℕ) : BatchedSparseArray K α :=
  { s with
    swapPma := Function.update s.swapPma writeIndex (s.pma blockIndex)
    pma := Function.update s.pma blockIndex (PmaEntry.null p.toBlockParams) }

/-- Moves a buffer block to the swap array. -/
def moveBufferBlock (bufferBlockIndex writeIndex : ℕ) : BatchedSparseArray K α :=
  { s with
    swapPma := Function.update s.swapPma writeIndex (s.bufferArray bufferBlockIndex)
    bufferArray := Function.update s.bufferArray bufferBlockIndex (PmaEntry.null p.toBlockParams) }

/-- The inner loop of `rebalanceBlocks`, over `n` cells of the buffer array. -/
def moveBufferBlocks (swapPmaOutputStart : ℕ) : ℕ → ℕ → ℕ → BatchedSparseArray K α →
    BatchedSparseArray K α × ℕ
  | 0, _, swapPmaOutputNumber, s => (s, swapPmaOutputNumber)
  | n + 1, bufferBlockIndex, swapPmaOutputNumber, s =>
      if 0 < (s.bufferArray bufferBlockIndex).size then
        moveBufferBlocks swapPmaOutputStart n (bufferBlockIndex + 1) (swapPmaOutputNumber + 1)
          (s.moveBufferBlock p bufferBlockIndex (swapPmaOutputStart + swapPmaOutputNumber))
      else moveBufferBlocks swapPmaOutputStart n (bufferBlockIndex + 1) swapPmaOutputNumber s

/-- One iteration of the loop of `rebalanceBlocks`: the pma block of the cell, unless the buffer
index says that it is not wanted, and its buffer blocks. -/
def rebalanceCell (swapPmaOutputStart : ℕ) (blockEnd blockIndex : ExtendedPmaIndex)
    (swapPmaOutputNumber : ℕ) (s : BatchedSparseArray K α) : BatchedSparseArray K α × ℕ :=
  let cell := blockIndex.pmaIndex
  let moved : BatchedSparseArray K α × ℕ :=
    if blockIndex.bufferIndex = none ∧ s.empty p cell = false then
      (s.movePmaBlock p cell (swapPmaOutputStart + swapPmaOutputNumber), swapPmaOutputNumber + 1)
    else (s, swapPmaOutputNumber)
  let bufferBlockStart := (s.bufferPointers cell).left + blockIndex.bufferIndex.getD 0
  let bufferBlockEnd :=
    if cell = blockEnd.pmaIndex then
      (s.bufferPointers blockEnd.pmaIndex).left + blockEnd.bufferIndex.getD 0
    else (s.bufferPointers cell).right
  moveBufferBlocks p swapPmaOutputStart (bufferBlockEnd - bufferBlockStart) bufferBlockStart
    moved.2 moved.1

def rebalanceLoop (swapPmaOutputStart : ℕ) (blockEnd : ExtendedPmaIndex) :
    ℕ → ExtendedPmaIndex → ℕ → BatchedSparseArray K α → BatchedSparseArray K α
  | 0, _, _, s => s
  | n + 1, blockIndex, swapPmaOutputNumber, s =>
      if blockIndex.less blockEnd then
        let result := rebalanceCell p swapPmaOutputStart blockEnd blockIndex swapPmaOutputNumber s
        rebalanceLoop swapPmaOutputStart blockEnd n ⟨blockIndex.pmaIndex + 1, none⟩ result.2
          result.1
      else s

/-- Writes the blocks between `blockStart` and `blockEnd` to the output range of the task in the
swap array, from `outputOffset` on. -/
def rebalanceBlocks (taskIndex : ℕ) (blockStart blockEnd : ExtendedPmaIndex)
    (outputOffset : ℕ) : BatchedSparseArray K α :=
  let task := s.rebalancingTask taskIndex
  rebalanceLoop p (task.pmaRange.left + outputOffset) blockEnd
    (blockEnd.pmaIndex + 1 - blockStart.pmaIndex) blockStart 0
    { s with rebalancingManager := s.rebalancingManager.clearRebalancedFlag task.rootNode }

def startPartialRebalancingTask (taskIndex : ℕ) (task : PartialRebalancingTask) :
    BatchedSparseArray K α :=
  s.rebalanceBlocks p taskIndex task.blockStart task.blockEnd task.outputOffset

/-- The cells of a task that can hold blocks at all. -/
def effectiveRange (pmaRange : Interval) : Interval :=
  ⟨pmaRange.left, min pmaRange.right (max 1 s.size)⟩

def startFullRebalancingTask (taskIndex : ℕ) : BatchedSparseArray K α :=
  let pmaRange := s.effectiveRange (s.rebalancingTask taskIndex).pmaRange
  if pmaRange.length = 0 then s
  else s.rebalanceBlocks p taskIndex ⟨pmaRange.left, none⟩ ⟨pmaRange.right, none⟩ 0

/-- The tasks that a thread executes as a whole: all but the first and the last one it touches. -/
def innerTasks (range : Interval) : List ℕ :=
  List.range' (range.left + 1) (range.right - 1 - (range.left + 1))

/-- What one thread does in step B-5(a). -/
def executeRebalancing (thread : ℕ) : BatchedSparseArray K α :=
  let task := s.tasks thread
  if 0 < task.rebalancingBlockRange.length then
    let range := task.rebalancingTaskRange
    let s₁ := s.startPartialRebalancingTask p range.left task.firstRebalancingTask
    let s₂ := (innerTasks range).foldl (fun s' i => s'.startFullRebalancingTask p i) s₁
    if 1 < range.length then
      s₂.startPartialRebalancingTask p (range.right - 1) task.lastRebalancingTask
    else s₂
  else s

/-- One iteration of the loop of `startRebalancingTask`. -/
def rebalanceWholeCell (swapPmaOutputStart : ℕ) (acc : BatchedSparseArray K α × ℕ)
    (blockIndex : ℕ) : BatchedSparseArray K α × ℕ :=
  let moved : BatchedSparseArray K α × ℕ :=
    if acc.1.empty p blockIndex then acc
    else (acc.1.movePmaBlock p blockIndex (swapPmaOutputStart + acc.2), acc.2 + 1)
  let pointers := moved.1.bufferPointers blockIndex
  let result := moveBufferBlocks p swapPmaOutputStart (pointers.right - pointers.left)
    pointers.left moved.2 moved.1
  ({ result.1 with
      bufferPointers := Function.update result.1.bufferPointers blockIndex .zero }, result.2)

/-- A task as a whole, with its buffer pointers. -/
def startRebalancingTask (task : RebalancingTask) : BatchedSparseArray K α :=
  let pmaRange := s.effectiveRange task.pmaRange
  if pmaRange.length = 0 then s
  else ((List.range' pmaRange.left pmaRange.length).foldl
    (rebalanceWholeCell p pmaRange.left) (s, 0)).1

/-- What one thread does in step B-5(b), the variant in which no task is split. -/
def executeWholeTasks (thread : ℕ) : BatchedSparseArray K α :=
  let range := threadBlockRange s.rebalancingTasks.length s.numberOfThreads thread
  (List.range' range.left range.length).foldl (fun s' taskIndex =>
    let task := s'.rebalancingTask taskIndex
    let s'' := s'.startRebalancingTask p task
    { s'' with rebalancingManager := s''.rebalancingManager.clearRebalancedFlag task.rootNode }) s

/-! ## Steps B-6 to B-8 -/

/-- The loop of `clearBufferBlockPointers`: the buffer index of the running index stays what it
is. -/
def clearLoop (blockEnd : ExtendedPmaIndex) : ℕ → ExtendedPmaIndex → BatchedSparseArray K α →
    BatchedSparseArray K α
  | 0, _, s => s
  | n + 1, blockIndex, s =>
      if blockIndex.less blockEnd then
        clearLoop blockEnd n ⟨blockIndex.pmaIndex + 1, blockIndex.bufferIndex⟩
          { s with bufferPointers := Function.update s.bufferPointers blockIndex.pmaIndex .zero }
      else s

def clearBufferBlockPointers (blockStart blockEnd : ExtendedPmaIndex) : BatchedSparseArray K α :=
  clearLoop blockEnd (blockEnd.pmaIndex + 1 - blockStart.pmaIndex) blockStart s

def startPartialClearTask (task : PartialRebalancingTask) : BatchedSparseArray K α :=
  s.clearBufferBlockPointers task.blockStart task.blockEnd

def startFullClearTask (taskIndex : ℕ) : BatchedSparseArray K α :=
  let pmaRange := s.effectiveRange (s.rebalancingTask taskIndex).pmaRange
  if pmaRange.length = 0 then s
  else s.clearBufferBlockPointers ⟨pmaRange.left, none⟩ ⟨pmaRange.right, none⟩

/-- What one thread does in step B-7(a). -/
def executeClearing (thread : ℕ) : BatchedSparseArray K α :=
  let task := s.tasks thread
  if 0 < task.rebalancingBlockRange.length then
    let range := task.rebalancingTaskRange
    let s₁ := s.startPartialClearTask task.firstRebalancingTask
    let s₂ := (innerTasks range).foldl (fun s' i => s'.startFullClearTask i) s₁
    if 1 < range.length then s₂.startPartialClearTask task.lastRebalancingTask else s₂
  else s

def resizeMainPma (newSize : ℕ) : BatchedSparseArray K α :=
  if s.swapCapacity ≠ s.capacity then
    { s with
      size := newSize
      pma := freshArray p.toBlockParams
      bufferPointers := fun _ => .zero
      capacity := s.swapCapacity }
  else { s with size := newSize }

/-! ## Step B-9: from the swap array to the pma -/

def addRecountingNode (blockIndex : ℕ) (needsRebalancing : Bool) : BatchedSparseArray K α :=
  { s with
    recountingNodesMap := s.recountingNodesMap.insert
      (s.rebalancingManager.lowestLevelNodeIndex blockIndex) needsRebalancing }

/-- One iteration of the loop of `rewriteBlocks`. -/
def rewriteBlock (pmaRange : Interval) (numberOfBlocks blockIndex pmaOutputNumber : ℕ) :
    BatchedSparseArray K α :=
  let writeIndex := getUniformWriteIndex pmaRange.left pmaOutputNumber pmaRange.length
    numberOfBlocks
  let s' := s.addRecountingNode writeIndex false
  { s' with
    pma := Function.update s'.pma writeIndex (s'.swapPma blockIndex)
    swapPma := Function.update s'.swapPma blockIndex (PmaEntry.null p.toBlockParams) }

/-- Uniformly distributes `numberOfBlocks` blocks from `swapPmaRange` of the swap array to
`pmaRange` of the pma. -/
def rewriteBlocks (swapPmaRange pmaRange : Interval) (numberOfBlocks : ℕ) :
    BatchedSparseArray K α :=
  (List.range numberOfBlocks).foldl (fun s' i =>
    s'.rewriteBlock p pmaRange numberOfBlocks (swapPmaRange.left + i) i) s

def startPartialRewritingTask (taskIndex : ℕ) (globalBlockRange : Interval) :
    BatchedSparseArray K α :=
  let taskBlockRange := s.taskBlockRange taskIndex
  let globalBlockRangePart := taskBlockRange.cut globalBlockRange
  if globalBlockRangePart.length = 0 then s
  else
    let task := s.rebalancingTask taskIndex
    let swapPmaOffset := globalBlockRangePart.left - taskBlockRange.left
    let numberOfBlocks := globalBlockRangePart.length
    let swapPmaRange : Interval :=
      ⟨task.pmaRange.left + swapPmaOffset, task.pmaRange.left + swapPmaOffset + numberOfBlocks⟩
    let pmaRange : Interval :=
      ⟨getUniformWriteIndex task.pmaRange.left swapPmaOffset task.pmaRange.length
          task.numberOfBlocks,
        getUniformWriteIndex task.pmaRange.left (swapPmaOffset + numberOfBlocks)
          task.pmaRange.length task.numberOfBlocks⟩
    s.rewriteBlocks p swapPmaRange pmaRange numberOfBlocks

def startFullRewritingTask (taskIndex : ℕ) : BatchedSparseArray K α :=
  let task := s.rebalancingTask taskIndex
  s.rewriteBlocks p task.pmaRange task.pmaRange task.numberOfBlocks

/-- What one thread does in step B-9(a). -/
def executeRewriting (thread : ℕ) : BatchedSparseArray K α :=
  let blockRange := threadBlockRange s.numberOfBlocksToRebalance s.numberOfThreads thread
  if 0 < blockRange.length then
    let range : Interval :=
      ⟨s.findRebalancingTask blockRange.left, s.findRebalancingTask blockRange.right + 1⟩
    let s₁ := s.startPartialRewritingTask p range.left blockRange
    let s₂ := (innerTasks range).foldl (fun s' i => s'.startFullRewritingTask p i) s₁
    if 1 < range.length then s₂.startPartialRewritingTask p (range.right - 1) blockRange
    else s₂
  else s

/-! ## The whole phase -/

/-- A parallel region: the threads run one after the other in the order the schedule gives. -/
def parallel (sched : Schedule) (region : ℕ)
    (body : BatchedSparseArray K α → ℕ → BatchedSparseArray K α) : BatchedSparseArray K α :=
  (sched.threads region s.numberOfThreads).foldl body s

/-- Steps B-4 and B-5. -/
def moveToSwap (sched : Schedule) : BatchedSparseArray K α :=
  let s₁ := s.computePrefixSums
  let s₂ := (s₁.increaseSwapPmaSize p s₁.newPmaSize).assignRebalancingBlocks p
  s₂.parallel sched 1 (fun s' thread => s'.executeRebalancing p thread)

/-- Steps B-6 to B-9. -/
def moveBack (sched : Schedule) (newPmaSize : ℕ) : BatchedSparseArray K α :=
  let s₁ := { s with rebalancingManager := s.rebalancingManager.resize newPmaSize }
  let s₂ := s₁.parallel sched 2 (fun s' thread => s'.executeClearing thread)
  let s₃ := s₂.resizeMainPma p newPmaSize
  s₃.parallel sched 3 (fun s' thread => s'.executeRewriting p thread)

/-- Steps B-2 to B-10. -/
def rebalancingPhase (sched : Schedule) : BatchedSparseArray K α :=
  let s₁ := (s.updateHierarchy p sched).createRebalancingTasks
  if s₁.rebalancingTasks = [] then { s₁ with prefixNumberOfRebalancingBlocks := [] }
  else
    let s₂ := (s₁.moveToSwap p sched).moveBack p sched s₁.newPmaSize
    { s₂ with rebalancingTasks := [], prefixNumberOfRebalancingBlocks := [] }

end BatchedSparseArray

end BatchPMA
