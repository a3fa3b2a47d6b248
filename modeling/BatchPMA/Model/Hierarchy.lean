import BatchPMA.Model.Helpers

/-!
# The rebalancing hierarchy

`binaryRebalancingManager.hpp`: a complete binary tree of block counters over segments of
`AggregateWidth` cells, stored level by level in one flat vector, with a super root behind the
last level.  `update` recounts the nodes the insertion phase has marked, passes changes and
overflows up level by level, and collects the nodes that have to be rebalanced.

Of the array that owns the hierarchy only three things are read: its size, which cells are empty
and how many buffer blocks a cell has.  `SdsView` is that part.
-/

namespace BatchPMA

/-- `BinaryRebalancingManagerEntry`. -/
structure ManagerEntry where
  numberOfBlocks : ℕ
  rebalanced : Bool
  deriving DecidableEq, Repr

def ManagerEntry.zero : ManagerEntry := ⟨0, false⟩

/-- What the hierarchy reads of the array it belongs to. -/
structure SdsView where
  size : ℕ
  empty : ℕ → Bool
  numberOfBufferBlocks : ℕ → ℕ

/-- `BinaryRebalancingManager`.  `aggregateWidth` is its template parameter `SEGMENT_WIDTH`. -/
structure RebalancingManager where
  aggregateWidth : ℕ
  density : DensityManager
  aggregates : ℕ → ManagerEntry
  aggregatesSize : ℕ
  levelStarts : List ℕ
  levelAggregateWidths : List ℕ
  size : ℕ
  logCapacity : ℕ
  logCapacityWithSuperRoot : ℕ
  capacity : ℕ
  nextLevelRecountingNodes : BucketMap

/-- `LogInitialArrayCapacity` of the hierarchy. -/
def logInitialHierarchyCapacity : ℕ := 14

/-- `std::numeric_limits<SizeType>::max()`. -/
def sizeTypeMax : ℕ := 2 ^ 63 - 1

namespace RebalancingManager

variable (m : RebalancingManager)

def lowestLevelNodeIndex (blockIndex : ℕ) : ℕ := blockIndex / m.aggregateWidth

def parent (node : ℕ) : ℕ := node / 2

def leftChild (node : ℕ) : ℕ := node * 2

def rightChild (node : ℕ) : ℕ := node * 2 + 1

def levelStart (level : ℕ) : ℕ := m.levelStarts.getD level 0

def levelAggregateWidth (level : ℕ) : ℕ := m.levelAggregateWidths.getD level 0

/-- The number of aggregates on a level. -/
def numberOfAggregatesInLevel (level : ℕ) : ℕ :=
  if level = 0 then m.capacity else m.capacity / m.levelAggregateWidth level

def aggregateIndex (aggregateNumber level : ℕ) : ℕ := m.levelStart level + aggregateNumber

def aggregate (index level : ℕ) : ManagerEntry := m.aggregates (m.aggregateIndex index level)

/-- The first block that an aggregate of level zero covers. -/
def getBlockIndexLevelZero (aggregateIndex : ℕ) : ℕ := aggregateIndex * m.aggregateWidth

/-- `aggregates[aggregateIndex(index, level)] = entry`. -/
def setAggregate (index level : ℕ) (entry : ManagerEntry) : RebalancingManager :=
  { m with aggregates := Function.update m.aggregates (m.aggregateIndex index level) entry }

/-- The loop of `recomputeLevelInfo`: start and aggregate width of `n` further levels, and the
start behind them. -/
def levelInfo : ℕ → ℕ → ℕ → ℕ → List ℕ × List ℕ × ℕ
  | 0, currentStart, _, _ => ([], [], currentStart)
  | n + 1, currentStart, currentWidth, currentAggregateWidth =>
      let rest := levelInfo n (currentStart + currentWidth) (currentWidth / 2)
        (currentAggregateWidth * 2)
      (currentStart :: rest.1, currentAggregateWidth :: rest.2.1, rest.2.2)

def recomputeLevelInfo : RebalancingManager :=
  let info := levelInfo (m.logCapacity + 1) 0 m.capacity 1
  { m with
    levelStarts := info.1 ++ [info.2.2]
    levelAggregateWidths := info.2.1 ++ [sizeTypeMax] }

/-- `CapacityFactorForAllLevels * newCapacity`. -/
def getSizeForCapacity (newCapacity : ℕ) : ℕ := 2 * newCapacity

/-- The constructor, for an array of the given size. -/
def create (aggregateWidth : ℕ) (density : DensityManager) (sdsSize : ℕ) : RebalancingManager :=
  let m : RebalancingManager :=
    { aggregateWidth := aggregateWidth, density := density, aggregates := fun _ => .zero,
      aggregatesSize := getSizeForCapacity (2 ^ logInitialHierarchyCapacity),
      levelStarts := [], levelAggregateWidths := [], size := 0,
      logCapacity := logInitialHierarchyCapacity,
      logCapacityWithSuperRoot := logInitialHierarchyCapacity + 1,
      capacity := 2 ^ logInitialHierarchyCapacity, nextLevelRecountingNodes := .clear }
  { m.recomputeLevelInfo with size := m.lowestLevelNodeIndex sdsSize + 1 }

/-- `while (capacity <= newSize) { ++logCapacity; ++logCapacityWithSuperRoot; capacity *= 2; }`;
the step count `newSize + 1` used below is never reached. -/
def growLoop (newSize : ℕ) : ℕ → RebalancingManager → RebalancingManager
  | 0, m => m
  | n + 1, m =>
      if m.capacity ≤ newSize then
        growLoop newSize n
          { m with
            logCapacity := m.logCapacity + 1
            logCapacityWithSuperRoot := m.logCapacityWithSuperRoot + 1
            capacity := m.capacity * 2 }
      else m

/-- Grows the tree for an array of the given size; all counters and flags are then zero. -/
def resize (newSdsSize : ℕ) : RebalancingManager :=
  let newSize := m.lowestLevelNodeIndex newSdsSize + 1
  let m' := { m with size := newSize }
  if newSize ≠ m.size ∧ m.capacity < newSize then
    let grown := growLoop newSize (newSize + 1) m'
    RebalancingManager.recomputeLevelInfo
      { grown with aggregates := fun _ => .zero, aggregatesSize := getSizeForCapacity grown.capacity }
  else m'

/-! ## Ranges -/

/-- The number of blocks in a node; the super root has those of the root. -/
def numberOfBlocks (node : RebalancingNode) : ℕ :=
  if node.level = m.logCapacityWithSuperRoot then (m.aggregate 0 (node.level - 1)).numberOfBlocks
  else (m.aggregate node.index node.level).numberOfBlocks

/-- The range in the pma that a rebalancing node corresponds to. -/
def rebalancingRange (node : RebalancingNode) : Interval :=
  if node.level = m.logCapacityWithSuperRoot then
    ⟨0, m.density.minRangeLength (m.aggregate 0 m.logCapacity).numberOfBlocks⟩
  else
    let blocksPerAggregate := m.levelAggregateWidth node.level * m.aggregateWidth
    ⟨node.index * blocksPerAggregate, (node.index + 1) * blocksPerAggregate⟩

def getRebalancingTask (node : RebalancingNode) : RebalancingTask :=
  ⟨m.rebalancingRange node, m.numberOfBlocks node, node⟩

def clearRebalancedFlag (node : RebalancingNode) : RebalancingManager :=
  m.setAggregate node.index node.level
    { m.aggregate node.index node.level with rebalanced := false }

/-- The loop of `rebalancingNodeDominated`: is a flag set on one of the `n` levels from `level`
on, above the node with the given number? -/
def dominatedLoop : ℕ → ℕ → ℕ → Bool
  | 0, _, _ => false
  | n + 1, index, level =>
      (m.aggregate index level).rebalanced || dominatedLoop n (parent index) (level + 1)

/-- Whether a node strictly above the given one is going to be rebalanced; if so, the flag of the
node itself is cleared. -/
def rebalancingNodeDominated (node : RebalancingNode) : Bool × RebalancingManager :=
  if m.dominatedLoop (m.logCapacityWithSuperRoot - node.level) (parent node.index)
      (node.level + 1) then
    (true, m.clearRebalancedFlag node)
  else (false, m)

/-! ## Counting -/

/-- `recompute`, level zero: the blocks of the cells of a node below `sdsSize`. -/
def countLevelZero (sds : SdsView) (sdsSize nodeIndex : ℕ) : ℕ :=
  let first := m.getBlockIndexLevelZero nodeIndex
  let last := min sdsSize (m.getBlockIndexLevelZero (nodeIndex + 1))
  ((List.range' first (last - first)).map fun current =>
    (if sds.empty current then 0 else 1) + sds.numberOfBufferBlocks current).sum

/-- The count of `updateLevelZero`: cell `0` is looked at even in an empty array. -/
def aggregateNodeRangeLevelZero (sds : SdsView) (nodeIndex : ℕ) : ℕ :=
  m.countLevelZero sds (max 1 sds.size) nodeIndex

def aggregateNodeHigherLevel (index level : ℕ) : ℕ :=
  (m.aggregate (leftChild index) (level - 1)).numberOfBlocks +
    (m.aggregate (rightChild index) (level - 1)).numberOfBlocks

def setNumberOfBlocks (index level numberOfBlocks : ℕ) : RebalancingManager :=
  m.setAggregate index level { m.aggregate index level with numberOfBlocks := numberOfBlocks }

/-- Recomputes all counters of all levels. -/
def recompute (sds : SdsView) (sdsSize : ℕ) : RebalancingManager :=
  let m₀ := (List.range (m.numberOfAggregatesInLevel 0)).foldl
    (fun m i => m.setNumberOfBlocks i 0 (m.countLevelZero sds sdsSize i)) m
  (List.range' 1 m.logCapacity).foldl
    (fun m level => (List.range (m.numberOfAggregatesInLevel level)).foldl
      (fun m i => m.setNumberOfBlocks i level (m.aggregateNodeHigherLevel i level)) m) m₀

/-- The largest number of blocks a node of the given level may hold without being passed on. -/
def threshold (level : ℕ) : ℕ :=
  m.density.maxBlocks level m.logCapacity m.aggregateWidth (m.levelAggregateWidth level)

end RebalancingManager

/-! ## The update -/

/-- The part of the state that `update` works on: the hierarchy itself and the two members of the
array that it writes through its back pointer. -/
structure UpdateState where
  manager : RebalancingManager
  recountingNodesMap : BucketMap
  rebalancingNodes : List RebalancingNode

namespace UpdateState

/-- Stores the new number of blocks of a node.  The parent is recounted on the next level when the
value has changed or the node is above its threshold, and a node that has to be rebalanced and is
within its threshold is collected once. -/
def updateNode (st : UpdateState) (index level : ℕ) (needsRebalancing : Bool)
    (newNumberOfBlocks : ℕ) : UpdateState :=
  let withinThreshold := decide (newNumberOfBlocks ≤ st.manager.threshold level)
  let rebalanceNode := needsRebalancing && withinThreshold
  let rebalanceParent := needsRebalancing && !withinThreshold
  let oldValue := (st.manager.aggregate index level).numberOfBlocks
  let st' : UpdateState :=
    if newNumberOfBlocks ≠ oldValue ∨ withinThreshold = false then
      { st with
        manager :=
          { (st.manager.setNumberOfBlocks index level newNumberOfBlocks) with
            nextLevelRecountingNodes := st.manager.nextLevelRecountingNodes.insert
              (RebalancingManager.parent index) rebalanceParent } }
    else st
  if rebalanceNode && !(st'.manager.aggregate index level).rebalanced then
    { st' with
      manager := st'.manager.setAggregate index level
        { st'.manager.aggregate index level with rebalanced := true }
      rebalancingNodes := st'.rebalancingNodes ++ [⟨level, index⟩] }
  else st'

/-- `updateLevelZero`, visiting the entries of the map in the given order. -/
def updateLevelZero (sds : SdsView) (order : List ℕ) (st : UpdateState) : UpdateState :=
  order.foldl (fun st' k => st'.updateNode k 0 (st.recountingNodesMap.flag k)
    (st'.manager.aggregateNodeRangeLevelZero sds k)) st

def updateHigherLevel (order : List ℕ) (level : ℕ) (st : UpdateState) : UpdateState :=
  order.foldl (fun st' k => st'.updateNode k level (st.recountingNodesMap.flag k)
    (st'.manager.aggregateNodeHigherLevel k level)) st

/-- `std::swap(sds->recountingNodesMap, nextLevelRecountingNodes); nextLevelRecountingNodes.clear();` -/
def nextLevel (st : UpdateState) : UpdateState :=
  { st with
    manager := { st.manager with nextLevelRecountingNodes := .clear }
    recountingNodesMap := st.manager.nextLevelRecountingNodes }

/-- One iteration of the loop over the higher levels. -/
def updateLevel (sched : Schedule) (st : UpdateState) (level : ℕ) : UpdateState :=
  let st' := st.nextLevel
  st'.updateHigherLevel (sched.visit level st'.recountingNodesMap.keys) level

/-- The check for a global rebalance at the end of `update`. -/
def checkSuperRoot (st : UpdateState) : UpdateState :=
  let m := st.manager
  if m.aggregateWidth * m.levelAggregateWidth m.logCapacity <
      (m.aggregate 0 m.logCapacity).numberOfBlocks then
    if (m.aggregate 0 (m.logCapacity + 1)).rebalanced then st
    else
      { st with
        manager := m.setAggregate 0 (m.logCapacity + 1)
          { m.aggregate 0 (m.logCapacity + 1) with rebalanced := true }
        rebalancingNodes := st.rebalancingNodes ++ [⟨m.logCapacity + 1, 0⟩] }
  else st

def update (sched : Schedule) (sds : SdsView) (st : UpdateState) : UpdateState :=
  let st₀ := st.updateLevelZero sds (sched.visit 0 st.recountingNodesMap.keys)
  ((List.range' 1 st₀.manager.logCapacity).foldl (updateLevel sched) st₀).checkSuperRoot

end UpdateState

end BatchPMA
