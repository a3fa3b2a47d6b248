import BatchPMA.Model.Rebalancing

/-!
# The insertion phase

Steps A-1 to A-7 of `BatchedSparseArray::insertBatch`.  The batch is cut at `numberOfThreads`
splitters, every thread looks for the block its splitter belongs to, and threads that meet at the
same block share its work.  A thread merges its part of the batch into its part of the pma; blocks
that do not fit are written to the buffer array, each thread to a range of its own.

Step A-6 never reads the buffer array.  The calls of `writeToBufferArray` that a task makes are
therefore collected as a list of `BufferWrite`s, in the order of the calls, and carried out when
the task ends.  Indices are natural numbers: a difference that the source clamps at zero is a
truncated one.
-/

namespace BatchPMA

variable {K α : Type}

/-! ## Searching -/

namespace ArrayView

variable [LinearOrder K] (v : ArrayView K α)

/-- The loop of `binarySearch` on the interval `[left, right)`. -/
def binaryLoop (e : K) : ℕ → ℕ → ℕ → Option ℕ → SearchResult
  | 0, left, right, candidate => .narrowed left right candidate
  | n + 1, left, right, candidate =>
      if left + binarySearchCutoff + 1 < right then
        let mid := (left + (right - 1)) / 2
        match v.lastNonEmpty left mid with
        | none => binaryLoop e n (mid + 1) right candidate
        | some prev =>
            if v.head prev = e then .found prev
            else if e < v.head prev then binaryLoop e n left prev candidate
            else binaryLoop e n (mid + 1) right (some prev)
      else .narrowed left right candidate

/-- The last block in `[lower, upper)` with head `<= e`.  Where the source falls back on the
candidate it asserts that there is one. -/
def binarySearch (e : K) (lower upper : ℕ) : ℕ :=
  match v.binaryLoop e (upper - lower) lower upper none with
  | .found prev => prev
  | .narrowed left _ candidate =>
      let result := v.linearSearch e left upper
      if v.empty result = true ∨ (e < v.head result ∧ result ≠ lower) then candidate.getD 0
      else result

/-- The loop of `exponentialSearch`: `start` and `end`. -/
def exponentialLoop (e : K) (upper : ℕ) : ℕ → ℕ → ℕ → ℕ → ℕ × ℕ
  | 0, start, stop, _ => (start, stop)
  | n + 1, start, stop, delta =>
      if stop < upper ∧ (v.head stop < e ∨ v.head stop = e) then
        exponentialLoop e upper n stop (v.findNext (stop + delta) upper) (delta * 2)
      else (start, stop)

/-- The last block in `[lower, upper)` with head `<= e`. -/
def exponentialSearch (e : K) (lower upper : ℕ) : ℕ :=
  let (start, stop) := v.exponentialLoop e upper (upper - lower) lower (v.skipEmpty lower upper) 1
  v.binarySearch e start (min upper stop)

end ArrayView

/-! ## The batch -/

/-- `KeyOf::keyOfValue(batch[index])`. -/
def batchKey (p : BlockParams K α) (batch : List α) (index : ℕ) : K :=
  p.keyOf (batch.getD index p.zero)

/-- `batch + range.left` up to `batch + range.right`. -/
def batchPart (batch : List α) (range : Interval) : List α :=
  (batch.drop range.left).take range.length

section FirstElement

variable [LinearOrder K]

/-- The loop of `batchSorted`; `last` is `NULL_KEY` in the beginning. -/
def batchSorted (p : BlockParams K α) (last : K) : List α → Bool
  | [] => true
  | e :: es => if p.keyOf e < last then false else batchSorted p (p.keyOf e) es

/-- The exponential search of `findFirstBatchElement`: `current` and `delta`. -/
def widenLoop (p : BlockParams K α) (batch : List α) (blockHead : K) : ℕ → ℕ → ℕ → ℕ × ℕ
  | 0, current, delta => (current, delta)
  | n + 1, current, delta =>
      if 0 < current ∧
          (blockHead < batchKey p batch current ∨ blockHead = batchKey p batch current) then
        widenLoop p batch blockHead n (current - delta * 2) (delta * 2)
      else (current, delta)

/-- The first index `<= startIndex` whose batch element is `>= blockHead`, or `startIndex + 1`. -/
def findFirstBatchElement (p : BlockParams K α) (batch : List α) (startIndex : ℕ)
    (blockHead : K) : ℕ :=
  let (current, delta) := widenLoop p batch blockHead startIndex (startIndex - 1) 1
  Scan.scanUp (fun i => decide (batchKey p batch i < blockHead)) (delta + 1) current

end FirstElement

def getRequiredWidth (numberOfNewElements : ℕ) : ℕ := 2 * numberOfNewElements

def getDenseWriteIndex (outputStart blockNumber : ℕ) : ℕ := outputStart + blockNumber

/-! ## New blocks -/

section Blocks

variable [LinearOrder K] (p : BlockParams K α)

/-- What `insertIntoBlockWithSplit` keeps in its local variables, and the blocks it has passed to
`writeToBufferArray`. -/
structure SplitState (K α : Type) where
  written : List (PmaEntry K α)
  insertionBlock : PmaEntry K α
  rightHalf : PmaEntry K α
  lastInsertionIndex : ℕ

namespace SplitState

/-- The next element goes to the right half: the roles of the two blocks are switched. -/
def switch (st : SplitState K α) (e : α) : SplitState K α :=
  if st.rightHalf.isEmpty = false ∧
      (st.rightHalf.head < p.keyOf e ∨ p.keyOf e = st.rightHalf.head) then
    ⟨st.written ++ [st.insertionBlock], st.rightHalf, PmaEntry.null p, 0⟩
  else st

def insert (st : SplitState K α) (e : α) : SplitState K α :=
  let result := st.insertionBlock.insertWithIndex p e st.lastInsertionIndex
  { st with insertionBlock := result.1, lastInsertionIndex := result.2.2 }

/-- The insertion block is full.  Its upper half is the new right half, or, if there is one
already, the new insertion block. -/
def split (st : SplitState K α) : SplitState K α :=
  let (left, newBlock) := st.insertionBlock.split p
  if st.rightHalf.isEmpty then { st with insertionBlock := left, rightHalf := newBlock }
  else ⟨st.written ++ [left], newBlock, st.rightHalf, 0⟩

/-- `while (batchIndex < lastBlockElement)`, for `n` iterations at most. -/
def loop : ℕ → List α → SplitState K α → SplitState K α
  | 0, _, st => st
  | _ + 1, [], st => st
  | n + 1, e :: es, st =>
      let st' := st.switch p e
      if st'.insertionBlock.size < p.blockSize then loop n es (st'.insert p e)
      else loop n (e :: es) (st'.split p)

/-- All blocks that are written. -/
def finish (st : SplitState K α) : List (PmaEntry K α) :=
  st.written ++ st.insertionBlock ::
    (if st.rightHalf.isEmpty then [] else [st.rightHalf])

end SplitState

/-- The blocks that `insertIntoBlockWithSplit` writes: merges until the block is full, splits off
the upper half and goes on.  An element takes at most two iterations. -/
def splitBlocks (block : PmaEntry K α) (elements : List α) : List (PmaEntry K α) :=
  (SplitState.loop p (2 * elements.length) elements ⟨[], block, PmaEntry.null p, 0⟩).finish

/-- A full block is written.  If only few elements remain it is split before. -/
def nextBlock (block : PmaEntry K α) (remainingElements : ℕ) : PmaEntry K α × PmaEntry K α :=
  if 0 < remainingElements ∧ remainingElements < p.minBlockSize then block.split p
  else (block, (PmaEntry.null p).allocateBlock p)

/-- The loop of `insertIntoEmptyRange`, for `n` iterations at most. -/
def emptyRangeLoop : ℕ → List α → PmaEntry K α → List (PmaEntry K α)
  | 0, _, block => if 0 < block.size then [block] else []
  | _ + 1, [], block => if 0 < block.size then [block] else []
  | n + 1, e :: es, block =>
      let numberOfInsertions := min p.blockSize (es.length + 1)
      if block.size = p.blockSize then
        let (full, newBlock) := nextBlock p block (es.length + 1)
        full :: emptyRangeLoop n ((e :: es).drop numberOfInsertions)
          (newBlock.merge p ((e :: es).take numberOfInsertions))
      else
        emptyRangeLoop n ((e :: es).drop numberOfInsertions)
          (block.merge p ((e :: es).take numberOfInsertions))

/-- The blocks that `insertIntoEmptyRange` writes. -/
def emptyRangeBlocks (elements : List α) : List (PmaEntry K α) :=
  emptyRangeLoop p elements.length elements ((PmaEntry.null p).allocateBlock p)

/-- What `inverseMerge` keeps in its local variables: the rest of the batch and of the merge
block, the block it fills, the last key written to it and the blocks it has written. -/
structure MergeState (K α : Type) where
  written : List (PmaEntry K α)
  insertionBlock : PmaEntry K α
  lastWrittenKey : K
  batch : List α
  rest : List α

namespace MergeState

/-- Makes room in the insertion block. -/
def flush (st : MergeState K α) : MergeState K α :=
  if st.insertionBlock.size = p.blockSize then
    let (full, newBlock) := nextBlock p st.insertionBlock (max st.batch.length st.rest.length)
    { st with written := st.written ++ [full], insertionBlock := newBlock }
  else st

/-- Appends an element of the merge block and skips its duplicates in the batch. -/
def takeFromBlock (st : MergeState K α) (x : α) (batch rest : List α) : MergeState K α :=
  { st with
    insertionBlock := (st.insertionBlock.insertWithIndex p x st.insertionBlock.size).1
    lastWrittenKey := p.keyOf x
    batch := batch.dropWhile fun y => decide (p.keyOf y = p.keyOf x)
    rest := rest }

def takeFromBatch (st : MergeState K α) (y : α) (batch : List α) : MergeState K α :=
  if p.keyOf y ≠ st.lastWrittenKey then
    { st with
      insertionBlock := (st.insertionBlock.insertWithIndex p y st.insertionBlock.size).1
      lastWrittenKey := p.keyOf y
      batch := batch }
  else { st with batch := batch }

/-- Merges as many elements of the batch as fit, when the merge block is used up. -/
def mergeBatch (st : MergeState K α) : MergeState K α :=
  let numberOfInsertions := min (p.blockSize - st.insertionBlock.size) st.batch.length
  { st with
    insertionBlock := st.insertionBlock.merge p (st.batch.take numberOfInsertions)
    batch := st.batch.drop numberOfInsertions }

/-- Merges as many elements of the merge block as fit, when the batch is used up. -/
def mergeRest (st : MergeState K α) : MergeState K α :=
  let numberOfInsertions := min (p.blockSize - st.insertionBlock.size) st.rest.length
  { st with
    insertionBlock := st.insertionBlock.merge p (st.rest.take numberOfInsertions)
    rest := st.rest.drop numberOfInsertions }

/-- One iteration of the loop, behind `flush`. -/
def step (st : MergeState K α) : MergeState K α :=
  match st.rest, st.batch with
  | x :: rest, y :: batch =>
      if p.keyOf x < p.keyOf y then st.takeFromBlock p x (y :: batch) rest
      else if p.keyOf x = p.keyOf y then st.takeFromBlock p x batch rest
      else st.takeFromBatch p y batch
  | [], _ => st.mergeBatch p
  | _, [] => st.mergeRest p

/-- `while (batchIndex < batchRange.right || readIndex < mergeRange.right)`, for `n` iterations at
most. -/
def loop : ℕ → MergeState K α → MergeState K α
  | 0, st => st
  | n + 1, st => if st.batch = [] ∧ st.rest = [] then st else loop n ((st.flush p).step p)

def finish (st : MergeState K α) : List (PmaEntry K α) :=
  st.written ++ (if 0 < st.insertionBlock.size then [st.insertionBlock] else [])

end MergeState

/-- The blocks that `inverseMerge` writes for a part of the batch and a part of the merge block.
Every iteration uses up at least one element. -/
def inverseMergeBlocks (batch rest : List α) : List (PmaEntry K α) :=
  (MergeState.loop p (batch.length + rest.length)
    ⟨[], (PmaEntry.null p).allocateBlock p, p.nullKey, batch, rest⟩).finish

end Blocks

/-- One call of `writeToBufferArray`. -/
structure BufferWrite (K α : Type) where
  writeIndex : ℕ
  block : PmaEntry K α
  originBlock : ℕ

/-- The calls that write the given blocks to consecutive cells. -/
def denseWrites (outputStart outputBlockNumber originBlock : ℕ) (blocks : List (PmaEntry K α)) :
    List (BufferWrite K α) :=
  blocks.mapIdx fun i block =>
    ⟨getDenseWriteIndex outputStart (outputBlockNumber + i), block, originBlock⟩

namespace BatchedSparseArray

variable [LinearOrder K] (p : BatchedParams K α) (s : BatchedSparseArray K α)

/-! ## Steps A-1 to A-5 -/

def setTask (thread : ℕ) (f : TaskInfo → TaskInfo) : BatchedSparseArray K α :=
  { s with tasks := Function.update s.tasks thread (f (s.tasks thread)) }

/-- Step A-1: splitters, first elements and widths.  Every thread writes only its own task. -/
def findSplitters (batch : List α) : BatchedSparseArray K α :=
  let splitterDistance := batch.length / s.numberOfThreads
  let block (thread : ℕ) : ℕ :=
    (s.view p).findBlockIndex (batchKey p.toBlockParams batch (thread * splitterDistance))
  let firstElement (thread : ℕ) : ℕ :=
    findFirstBatchElement p.toBlockParams batch (thread * splitterDistance)
      ((s.view p).head (block thread))
  let assign (thread : ℕ) : TaskInfo :=
    let first := if 0 < thread then firstElement thread else 0
    let next := if thread = s.numberOfThreads - 1 then batch.length else firstElement (thread + 1)
    { s.tasks thread with
      blockForBatchSplitter := block thread
      firstBatchElement := first
      requiredWidth := getRequiredWidth (next - first) }
  let sentinel : TaskInfo :=
    { s.tasks s.numberOfThreads with
      blockForBatchSplitter := s.size
      firstBatchElement := batch.length }
  { s with tasks := fun thread =>
      if thread < s.numberOfThreads then assign thread
      else if thread = s.numberOfThreads then sentinel
      else s.tasks thread }

/-- One iteration of the loop of step A-2, with the running number of merged tasks. -/
def mergeTask (acc : BatchedSparseArray K α × ℕ) (thread : ℕ) : BatchedSparseArray K α × ℕ :=
  let s := acc.1
  if (s.tasks thread).blockForBatchSplitter = (s.tasks (thread - 1)).blockForBatchSplitter then
    ((s.setTask thread fun task =>
        { task with
          firstBatchElement := (s.tasks (thread - 1)).firstBatchElement
          type := .insertion
          mergedTasks := acc.2 + 1 }).setTask (thread - 1) fun task =>
        { task with
          type := .inverseMerge
          requiredWidth := 0 },
      acc.2 + 1)
  else
    (s.setTask thread fun task =>
      { task with
        type := .insertion
        mergedTasks := 0 }, 0)

/-- Step A-2: of the tasks that start at the same block the last one is left. -/
def mergeTasks : BatchedSparseArray K α :=
  let s₀ := s.setTask 0 fun task =>
    { task with
      firstBatchElement := 0
      type := .insertion
      mergedTasks := 0 }
  let s₁ := ((List.range' 1 (s.numberOfThreads - 1)).foldl mergeTask (s₀, 0)).1
  s₁.setTask s.numberOfThreads fun task => { task with requiredWidth := 0 }

/-- `hasMergedTask`: two threads have met at a block. -/
def hasMergedTask : Bool :=
  (List.range' 1 (s.numberOfThreads - 1)).any fun thread =>
    decide ((s.tasks thread).blockForBatchSplitter =
      (s.tasks (thread - 1)).blockForBatchSplitter)

/-- The first batch element that does not belong to the merge block any more.  This search uses
`operator<` of the key type. -/
def lastTaskBatchStart (batch : List α) (firstNormalBlock : ℕ) (totalBatchRange : Interval) : ℕ :=
  if s.empty p firstNormalBlock then totalBatchRange.right
  else
    min (Scan.scanUp (fun i => p.operatorLess (batchKey p.toBlockParams batch i)
      ((s.view p).head firstNormalBlock)) batch.length 0) totalBatchRange.right

/-- Makes a task of a merge group do nothing.  The difference that the source stores in
`mergedTaskIndex` wraps; nothing reads it in a task of this type. -/
def idleTask (firstElement mergeBlock mergedTasks : ℕ) (task : TaskInfo) : TaskInfo :=
  { task with
    type := .doNothing
    firstBatchElement := firstElement
    blockForBatchSplitter := mergeBlock
    mergedTasks := mergedTasks
    mergedTaskIndex := 0
    requiredWidth := 0 }

/-- Gives a task of a merge group its part of the batch. -/
def shareTask (mergeBatchRange : Interval) (mergeBlock numberOfTasksWithWork mergeThread : ℕ)
    (task : TaskInfo) : TaskInfo :=
  let elementsPerThread := mergeBatchRange.length / numberOfTasksWithWork
  { task with
    firstBatchElement := min
      (mergeBatchRange.left + (numberOfTasksWithWork - mergeThread) * elementsPerThread)
      mergeBatchRange.right
    blockForBatchSplitter := mergeBlock
    mergedTasks := numberOfTasksWithWork
    mergedTaskIndex := numberOfTasksWithWork - mergeThread
    requiredWidth := getRequiredWidth elementsPerThread }

/-- Distributes the work of the merge group whose last task is `thread`. -/
def distributeGroup (batch : List α) (s : BatchedSparseArray K α) (thread : ℕ) :
    BatchedSparseArray K α :=
  let task := s.tasks thread
  if task.type = .insertion ∧ 0 < task.mergedTasks then
    let next := s.tasks (thread + 1)
    let mergeBlock := task.blockForBatchSplitter
    let totalBatchRange : Interval := ⟨task.firstBatchElement, next.firstBatchElement⟩
    let firstNormalBlock := (s.view p).findNext mergeBlock next.blockForBatchSplitter
    let mergeBatchRange : Interval :=
      ⟨totalBatchRange.left, s.lastTaskBatchStart p batch firstNormalBlock totalBatchRange⟩
    if p.minBlockSize ≤ mergeBatchRange.length then
      let s₁ := s.setTask thread fun task =>
        { task with
          firstBatchElement := mergeBatchRange.right
          blockForBatchSplitter := firstNormalBlock }
      let numberOfTasksWithWork := min task.mergedTasks (mergeBatchRange.length / p.minBlockSize)
      -- `mergeThread` counts down, from `mergedTasks` to `numberOfTasksWithWork + 1` and to `1`
      let idle := (List.range' (numberOfTasksWithWork + 1)
        (task.mergedTasks - numberOfTasksWithWork)).reverse
      let working := (List.range' 1 numberOfTasksWithWork).reverse
      let s₂ := idle.foldl (fun s mergeThread => s.setTask (thread - mergeThread)
        (idleTask mergeBatchRange.left mergeBlock numberOfTasksWithWork)) s₁
      let s₃ := working.foldl (fun s mergeThread => s.setTask (thread - mergeThread)
        (shareTask mergeBatchRange mergeBlock numberOfTasksWithWork mergeThread)) s₂
      working.foldl (fun s mergeThread => s.setTask (thread - mergeThread) fun task =>
        { task with
          requiredWidth := getRequiredWidth
            ((s.tasks (thread - mergeThread + 1)).firstBatchElement - task.firstBatchElement) }) s₃
    else
      -- not enough work for even one merge task
      let idle := (List.range' 1 task.mergedTasks).reverse
      let s₁ := idle.foldl (fun s mergeThread => s.setTask (thread - mergeThread)
        (idleTask mergeBatchRange.left mergeBlock 0)) s
      s₁.setTask thread fun task => { task with mergedTasks := 0 }
  else s

/-- Step A-3. -/
def distributeWorkInMergedTasks (batch : List α) : BatchedSparseArray K α :=
  (List.range' 1 (s.numberOfThreads - 1)).foldl (distributeGroup p batch)
    (s.setTask 0 fun task => { task with mergedTasks := 0 })

/-- One iteration of the loop of step A-4. -/
def startTask (acc : BatchedSparseArray K α × ℕ) (thread : ℕ) : BatchedSparseArray K α × ℕ :=
  let s := acc.1.setTask thread fun task => { task with startIndex := acc.2 }
  let task := s.tasks thread
  if thread < s.numberOfThreads ∧ task.type = .insertion ∧ 0 < task.mergedTasks then
    let mergeBlock := (s.tasks (thread - 1)).blockForBatchSplitter
    ({ s with
        bufferPointers := Function.update s.bufferPointers mergeBlock
          ⟨(s.tasks (thread - task.mergedTasks)).startIndex, task.startIndex⟩ },
      acc.2 + task.requiredWidth)
  else (s, acc.2 + task.requiredWidth)

/-- Step A-4: the prefix sums over the widths, and the width of all tasks. -/
def computeStartIndices : BatchedSparseArray K α × ℕ :=
  (List.range (s.numberOfThreads + 1)).foldl startTask
    (s, (s.tasks 0).blockForBatchSplitter)

/-- Step A-5. -/
def increaseBufferArraySize (newSize : ℕ) : BatchedSparseArray K α :=
  if s.bufferCapacity ≤ newSize then
    { s with
      bufferCapacity := doubleUntil newSize (newSize + 1) s.bufferCapacity
      bufferArray := freshArray p.toBlockParams }
  else s

/-- Steps A-1 to A-5. -/
def prepareInsertion (batch : List α) : BatchedSparseArray K α :=
  let s₁ := ((s.findSplitters p batch).mergeTasks).distributeWorkInMergedTasks p batch
  let (s₂, prefixWidth) := s₁.computeStartIndices
  s₂.increaseBufferArraySize p prefixWidth

/-! ## Step A-6 -/

def writeToBufferArray (w : BufferWrite K α) : BatchedSparseArray K α :=
  addRecountingNode
    { s with bufferArray := Function.update s.bufferArray w.writeIndex w.block } w.originBlock true

/-- The first element of the batch, from `batchIndex` on, that does not go into the block in front
of `nextBlockIndex`. -/
def findLastBatchElementForBlock (batch : List α) (batchIndex : ℕ) (batchRange : Interval)
    (nextBlockIndex : ℕ) (pmaRange : Interval) : ℕ :=
  if nextBlockIndex = pmaRange.right then batchRange.right
  else Scan.scanUp (fun i => decide (batchKey p.toBlockParams batch i <
    (s.view p).head nextBlockIndex)) (batchRange.right - batchIndex) batchIndex

/-- The block moves to the buffer array together with its new blocks. -/
def insertIntoBlockWithSplit (blockIndex : ℕ) (elements : List α) (bufferRange : Interval)
    (outputBlockNumber : ℕ) : BatchedSparseArray K α × List (BufferWrite K α) :=
  let blocks := splitBlocks p.toBlockParams (s.pma blockIndex) elements
  ({ s with
      pma := Function.update s.pma blockIndex (PmaEntry.null p.toBlockParams)
      bufferPointers := Function.update s.bufferPointers blockIndex
        ⟨getDenseWriteIndex bufferRange.left outputBlockNumber,
          getDenseWriteIndex bufferRange.left (outputBlockNumber + blocks.length - 1) + 1⟩ },
    denseWrites bufferRange.left outputBlockNumber blockIndex blocks)

def insertIntoBlockWithoutSplit (blockIndex : ℕ) (elements : List α) : BatchedSparseArray K α :=
  { s with
    pma := Function.update s.pma blockIndex
      ((s.pma blockIndex).merge p.toBlockParams elements) }

def insertElementsIntoBlock (blockIndex : ℕ) (elements : List α) (bufferRange : Interval)
    (outputBlockNumber : ℕ) : BatchedSparseArray K α × List (BufferWrite K α) :=
  if (s.pma blockIndex).size + elements.length ≤ p.blockSize then
    (s.insertIntoBlockWithoutSplit p blockIndex elements, [])
  else s.insertIntoBlockWithSplit p blockIndex elements bufferRange outputBlockNumber

def insertIntoEmptyRange (batch : List α) (batchRange inputRange bufferRange : Interval) :
    BatchedSparseArray K α × List (BufferWrite K α) :=
  let blocks := emptyRangeBlocks p.toBlockParams (batchPart batch batchRange)
  ({ s with
      bufferPointers := Function.update s.bufferPointers inputRange.left
        ⟨getDenseWriteIndex bufferRange.left 0,
          getDenseWriteIndex bufferRange.left (blocks.length - 1) + 1⟩ },
    denseWrites bufferRange.left 0 inputRange.left blocks)

/-- The loop of `insertBatchRange`, for `n` blocks at most, and `batchIndex` when it ends. -/
def insertBatchLoop (batch : List α) (batchRange pmaInputRange bufferRange : Interval) :
    ℕ → ℕ → ℕ → BatchedSparseArray K α × List (BufferWrite K α) →
      (BatchedSparseArray K α × List (BufferWrite K α)) × ℕ
  | 0, batchIndex, _, acc => (acc, batchIndex)
  | n + 1, batchIndex, blockIndex, acc =>
      if batchIndex < batchRange.right then
        let v := acc.1.view p
        let block := v.exponentialSearch (batchKey p.toBlockParams batch batchIndex) blockIndex
          pmaInputRange.right
        let nextBlockIndex := v.findNext block pmaInputRange.right
        let lastBlockElement := acc.1.findLastBatchElementForBlock p batch batchIndex batchRange
          nextBlockIndex pmaInputRange
        let result := acc.1.insertElementsIntoBlock p block
          (batchPart batch ⟨batchIndex, lastBlockElement⟩) bufferRange acc.2.length
        insertBatchLoop batch batchRange pmaInputRange bufferRange n lastBlockElement block
          (result.1, acc.2 ++ result.2)
      else (acc, batchIndex)

/-- Inserts a range of the batch into a range of the pma.  A block takes at least one element. -/
def insertBatchRange (batch : List α) (batchRange pmaInputRange bufferRange : Interval) :
    BatchedSparseArray K α × List (BufferWrite K α) :=
  if pmaInputRange.length = 0 then
    s.insertIntoEmptyRange p batch batchRange pmaInputRange bufferRange
  else
    (insertBatchLoop p batch batchRange pmaInputRange bufferRange batchRange.length
      batchRange.left pmaInputRange.left (s, [])).1

/-- The part of the merge block that an inverse merge task works on. -/
def getMergeRange (task : TaskInfo) (batch : List α) (batchRange : Interval) (mergeBlock : ℕ) :
    Interval :=
  let block := s.pma mergeBlock
  let left :=
    if block.size ≠ 0 ∧ task.mergedTaskIndex ≠ 0 then
      block.findIndex p.toBlockParams (batchKey p.toBlockParams batch batchRange.left)
    else 0
  let right :=
    if block.size ≠ 0 ∧ task.mergedTaskIndex + 1 ≠ task.mergedTasks ∧
        batchRange.right ≠ batch.length then
      block.findIndex p.toBlockParams (batchKey p.toBlockParams batch batchRange.right)
    else block.size
  ⟨left, right⟩

/-- What the task of a thread does to the pma and the buffer pointers, and its calls of
`writeToBufferArray`. -/
def insertionTask (batch : List α) (thread : ℕ) :
    BatchedSparseArray K α × List (BufferWrite K α) :=
  let task := s.tasks thread
  let next := s.tasks (thread + 1)
  let batchRange : Interval := ⟨task.firstBatchElement, next.firstBatchElement⟩
  let pmaInputRange : Interval := ⟨task.blockForBatchSplitter, next.blockForBatchSplitter⟩
  let bufferRange : Interval := ⟨task.startIndex, next.startIndex⟩
  match task.type with
  | .insertion =>
      if batchRange.length = 0 then (s, [])
      else s.insertBatchRange p batch batchRange pmaInputRange bufferRange
  | .inverseMerge =>
      if batchRange.length = 0 then (s, [])
      else
        let mergeBlock := pmaInputRange.left
        let mergeRange := s.getMergeRange p task batch batchRange mergeBlock
        (s, denseWrites bufferRange.left 0 mergeBlock
          (inverseMergeBlocks p.toBlockParams (batchPart batch batchRange)
            (batchPart (s.pma mergeBlock).cells mergeRange)))
  | .doNothing => (s, [])

def startInsertionTask (batch : List α) (thread : ℕ) : BatchedSparseArray K α :=
  let result := s.insertionTask p batch thread
  (result.2.foldl writeToBufferArray result.1).setTask thread fun task =>
    { task with numberOfBlocksWritten := result.2.length }

/-! ## Step A-7 -/

/-- Removes the merge blocks of inverse merge tasks. -/
def postprocessInverseMergeTasks : BatchedSparseArray K α :=
  (List.range s.numberOfThreads).foldl (fun s thread =>
    if 0 < thread ∧ (s.tasks thread).type = .insertion ∧ 0 < (s.tasks thread).mergedTasks ∧
        (s.tasks (thread - 1)).type = .inverseMerge then
      let mergeBlock := (s.tasks (thread - 1)).blockForBatchSplitter
      if s.empty p mergeBlock then s
      else { s with pma := Function.update s.pma mergeBlock (PmaEntry.null p.toBlockParams) }
    else s) s

/-- The merge group that `compactifyBufferBlocks` is working on. -/
structure CompactGroup where
  bufferTargetIndex : ℕ
  mergeBlock : ℕ
  bufferPointerStart : ℕ

/-- `bufferArray[target] = bufferArray[source]; bufferArray[source] = PmaEntryType{};` -/
def moveWithinBuffer (source target : ℕ) : BatchedSparseArray K α :=
  { s with
    bufferArray := Function.update
      (Function.update s.bufferArray target (s.bufferArray source)) source
      (PmaEntry.null p.toBlockParams) }

/-- Moves `n` blocks, from `source` on, to the front. -/
def compactBlocks : ℕ → ℕ → ℕ → BatchedSparseArray K α → BatchedSparseArray K α
  | 0, _, _, s => s
  | n + 1, source, target, s =>
      compactBlocks n (source + 1) (target + 1) (s.moveWithinBuffer p source target)

/-- The blocks of the last task of a group, of which `n` are left; nothing is moved from where the
target has caught up. -/
def compactLastBlocks : ℕ → ℕ → ℕ → ℕ → BatchedSparseArray K α → BatchedSparseArray K α × ℕ
  | 0, _, _, target, s => (s, target)
  | n + 1, numberOfBlocksWritten, source, target, s =>
      if source = target then (s, target + numberOfBlocksWritten)
      else compactLastBlocks n numberOfBlocksWritten (source + 1) (target + 1)
        (s.moveWithinBuffer p source target)

/-- One iteration of the loop of `compactifyBufferBlocks`. -/
def compactTask (acc : BatchedSparseArray K α × Option CompactGroup) (thread : ℕ) :
    BatchedSparseArray K α × Option CompactGroup :=
  let s := acc.1
  let task := s.tasks thread
  if task.type = .inverseMerge ∧ 0 < task.mergedTasks then
    match acc.2 with
    | none => (s, some ⟨task.startIndex + task.numberOfBlocksWritten, task.blockForBatchSplitter,
        task.startIndex⟩)
    | some group =>
        (compactBlocks p task.numberOfBlocksWritten task.startIndex group.bufferTargetIndex s,
          some { group with
            bufferTargetIndex := group.bufferTargetIndex + task.numberOfBlocksWritten })
  else
    match acc.2 with
    | none => (s, none)
    | some group =>
        let (s', target) :=
          if task.blockForBatchSplitter = group.mergeBlock then
            compactLastBlocks p task.numberOfBlocksWritten task.numberOfBlocksWritten
              task.startIndex group.bufferTargetIndex s
          else (s, group.bufferTargetIndex)
        let newBufferPointers : Interval := ⟨group.bufferPointerStart, target⟩
        ({ s' with
            bufferPointers := Function.update s'.bufferPointers group.mergeBlock
              (if newBufferPointers.length = 0 then .zero else newBufferPointers) }, none)

/-- Moves the buffer blocks of every merge group together. -/
def compactifyBufferBlocks : BatchedSparseArray K α :=
  ((List.range s.numberOfThreads).foldl (compactTask p) (s, none)).1

/-! ## The phase and the operation -/

/-- Steps A-1 to A-7. -/
def insertionPhase (batch : List α) (sched : Schedule) : BatchedSparseArray K α :=
  let s₁ := s.prepareInsertion p batch
  let s₂ := s₁.parallel sched 0 (fun s' thread => s'.startInsertionTask p batch thread)
  if (s.findSplitters p batch).hasMergedTask then
    (s₂.postprocessInverseMergeTasks p).compactifyBufferBlocks p
  else s₂

/-- Inserts a sorted batch. -/
def insertBatch (batch : List α) (sched : Schedule) : BatchedSparseArray K α :=
  (s.insertionPhase p batch sched).rebalancingPhase p sched

end BatchedSparseArray

end BatchPMA
