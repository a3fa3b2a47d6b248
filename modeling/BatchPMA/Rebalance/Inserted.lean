import BatchPMA.Rebalance.Phase

/-!
# The state between the two phases

`Inserted` is what the insertion phase leaves behind and the rebalancing phase starts from.  From
it follows what steps B-3 and B-5 need: the nodes that `update` collects have room for their
blocks and begin in the used part of the array, and the kept tasks are disjoint and cover all
buffer blocks, unless an overflow has been dropped at the root.
-/

namespace BatchPMA

open RebalancingManager Dyadic

variable {K α : Type}

/-- The template parameters of the array: even blocks of at least four elements, segments of at
least four cells and a density manager that keeps the bounds of `Hierarchy.Density`. -/
structure BatchedParams.Valid (p : BatchedParams K α) : Prop where
  segmentWidth_ge : 4 ≤ p.segmentWidth
  blockSize_ge : 4 ≤ p.blockSize
  even : 2 ∣ p.blockSize
  density : p.density.Valid p.segmentWidth
  twoThirds : p.density.TwoThirds p.segmentWidth

/-- Each manager of the repository serves every segment width that is exact as a `double`. -/
lemma BatchedParams.valid_of_density {p : BatchedParams K α} (hw : 4 ≤ p.segmentWidth)
    (hexact : p.segmentWidth < 2 ^ 53) (hb : 4 ≤ p.blockSize) (heven : 2 ∣ p.blockSize)
    (hd : p.density = densityOne ∨ p.density = densityTwo ∨ p.density = densityThree) :
    p.Valid := by
  refine ⟨hw, hb, heven, ?_, ?_⟩
  · rcases hd with hd | hd | hd <;> rw [hd]
    · exact densityOne_valid hexact
    · exact densityTwo_valid hexact
    · exact densityThree_valid hexact
  · rcases hd with hd | hd | hd <;> rw [hd]
    · exact densityOne_twoThirds p.segmentWidth
    · exact densityTwo_twoThirds p.segmentWidth
    · exact densityThree_twoThirds p.segmentWidth

namespace BatchedSparseArray

variable [DecidableEq K] {p : BatchedParams K α} {s s' : BatchedSparseArray K α}

/-- The members that `update` works on. -/
def updateState (s : BatchedSparseArray K α) : UpdateState :=
  ⟨s.rebalancingManager, s.recountingNodesMap, s.rebalancingNodes⟩

/-- The hierarchy between two batches and between the two phases: unmarked leaves and sums are
right, no flag is set, and its size is that of the array. -/
structure TreeValid (p : BatchedParams K α) (s : BatchedSparseArray K α) : Prop where
  consistent : s.updateState.Consistent
  flagsClear : s.updateState.FlagsClear
  leaves : ∀ i < 2 ^ s.rebalancingManager.logCapacity, i ∉ s.recountingNodesMap.keys →
    (s.rebalancingManager.aggregate i 0).numberOfBlocks =
      s.rebalancingManager.trueBlocks (s.sdsView p) 0 i
  leftover : ∀ i ∈ s.rebalancingManager.nextLevelRecountingNodes.flagged, i = 0
  width_eq : s.rebalancingManager.aggregateWidth = p.segmentWidth
  density_eq : s.rebalancingManager.density = p.density
  size_eq : s.rebalancingManager.size = s.rebalancingManager.lowestLevelNodeIndex s.size + 1
  size_le : s.rebalancingManager.size ≤ s.rebalancingManager.capacity

/-- What holds between the insertion phase and the rebalancing phase. -/
structure Inserted (p : BatchedParams K α) (s : BatchedSparseArray K α) : Prop where
  tree : s.TreeValid p
  clean : s.Clean p
  swapCapacity_eq : s.swapCapacity = s.capacity
  size_lt : s.size < s.capacity
  behind : ∀ c, max 1 s.size ≤ c → (s.bufferPointers c).length = 0
  buffers_disjoint : ∀ c c' j, (s.bufferPointers c).contains j → (s.bufferPointers c').contains j →
    c = c'
  buffers_full : ∀ c j, (s.bufferPointers c).contains j → 0 < (s.bufferArray j).size
  marked : ∀ c, 0 < (s.bufferPointers c).length →
    s.rebalancingManager.lowestLevelNodeIndex c ∈ s.recountingNodesMap.flagged
  sources : ∀ i ∈ s.recountingNodesMap.flagged, i = 0 ∨ ∃ c,
    s.rebalancingManager.lowestLevelNodeIndex c = i ∧ 0 < (s.bufferPointers c).length
  first : s.cellPlaces p 0 ≠ []
  threads_pos : 0 < s.numberOfThreads

variable {sched : Schedule}

/-! ## After `update` -/

lemma blocksAt_behind (hb : ∀ c, max 1 s.size ≤ c → (s.bufferPointers c).length = 0) (c : ℕ)
    (hc : max 1 s.size ≤ c) : (s.sdsView p).blocksAt c = 0 := by
  have hempty : s.empty p c = true := by rw [empty, if_pos (by omega)]
  have hptr := hb c hc
  have hn : s.numberOfBufferBlocks c = 0 := by
    rw [numberOfBufferBlocks]
    split
    · rfl
    · exact hptr
  simp [SdsView.blocksAt, sdsView, hempty, hn]

lemma TreeValid.levels (h : s.TreeValid p) : s.rebalancingManager.LevelsValid :=
  h.consistent.levels

/-- The tree has room for the array. -/
lemma TreeValid.size_lt (h : s.TreeValid p) (hw : 0 < s.rebalancingManager.aggregateWidth) :
    s.size < 2 ^ s.rebalancingManager.logCapacity * s.rebalancingManager.aggregateWidth := by
  have hle := h.size_le
  rw [h.size_eq, lowestLevelNodeIndex, h.levels.capacity_eq] at hle
  exact (Nat.div_lt_iff_lt_mul hw).mp hle

lemma updateHierarchy_manager (s : BatchedSparseArray K α) (sched : Schedule) :
    (s.updateHierarchy p sched).rebalancingManager =
      (s.updateState.update sched (s.sdsView p)).manager := rfl

lemma Inserted.frame (h : s.Inserted p) (sched : Schedule) :
    ∃ a next, (s.updateHierarchy p sched).rebalancingManager =
      s.rebalancingManager.withCounters a next :=
  h.tree.consistent.frame sched (s.sdsView p)

/-- The counters after `update` are exact. -/
lemma Inserted.countersExact (h : s.Inserted p) (sched : Schedule) :
    (s.updateHierarchy p sched).rebalancingManager.CountersExact (s.sdsView p) :=
  h.tree.consistent.countersExact_update h.tree.leaves (blocksAt_behind h.behind) sched

lemma Inserted.pointersInCapacity (h : s.Inserted p) : s.PointersInCapacity := fun c hc =>
  h.behind c (by have := h.size_lt; omega)

/-- A leaf with a marked block, or the first leaf, has a block in the used part of the array. -/
lemma Inserted.exists_block (h : s.Inserted p) {j : ℕ}
    (hj : j = 0 ∨ j ∈ s.recountingNodesMap.flagged) :
    ∃ c < max 1 s.size, c / s.rebalancingManager.aggregateWidth = j ∧ s.cellPlaces p c ≠ [] := by
  have hzero : ∃ c < max 1 s.size, c / s.rebalancingManager.aggregateWidth = 0 ∧
      s.cellPlaces p c ≠ [] := ⟨0, by omega, Nat.zero_div _, h.first⟩
  rcases hj with rfl | hj
  · exact hzero
  · rcases h.sources j hj with rfl | ⟨c, hc, hpos⟩
    · exact hzero
    · refine ⟨c, ?_, hc, fun hnil => ?_⟩
      · by_contra hge
        have := h.behind c (by omega)
        omega
      · have := length_cellPlaces (p := p) (s := s) c
        rw [hnil] at this
        simp only [List.length_nil] at this
        omega

/-- A collected node has a block, and the first of its cells is in the used part. -/
lemma Inserted.node_block (h : s.Inserted p) {node : RebalancingNode}
    (hn : node ∈ (s.updateHierarchy p sched).rebalancingNodes) :
    ∃ c < max 1 s.size, node.index = c / s.rebalancingManager.aggregateWidth / 2 ^ node.level ∧
      s.cellPlaces p c ≠ [] := by
  have hc := h.tree.consistent
  have hsrc := hc.sourced h.tree.flagsClear sched (s.sdsView p) h.tree.leftover _
    (le_refl s.rebalancingManager.logCapacity)
  have hidx : node.index = 0 ∨ ∃ j ∈ s.recountingNodesMap.flagged,
      node.index = j / 2 ^ node.level := by
    rcases (hc.mem_rebalancingNodes h.tree.flagsClear sched (s.sdsView p)).mp hn with hin | ⟨rfl, -⟩
    · exact (hsrc.collected node hin).1
    · exact Or.inl rfl
  rcases hidx with h0 | ⟨j, hj, hidx⟩
  · obtain ⟨c, hlt, hleaf, hne⟩ := h.exists_block (Or.inl rfl)
    exact ⟨c, hlt, by rw [hleaf, Nat.zero_div, h0], hne⟩
  · obtain ⟨c, hlt, hleaf, hne⟩ := h.exists_block (Or.inr hj)
    exact ⟨c, hlt, by rw [hleaf, hidx], hne⟩

lemma Inserted.collected (h : s.Inserted p) (hw : 0 < s.rebalancingManager.aggregateWidth)
    (hd : s.rebalancingManager.density.Valid s.rebalancingManager.aggregateWidth)
    (sched : Schedule) :
    (s.updateHierarchy p sched).Collected := by
  have hc := h.tree.consistent
  obtain ⟨a, next, hframe⟩ := h.frame sched
  obtain ⟨hmatch, hnodup, hsorted⟩ :=
    hc.rebalancingNodes_update h.tree.flagsClear sched (s.sdsView p)
  have hlevels : (s.updateHierarchy p sched).rebalancingManager.LevelsValid := by
    rw [hframe]
    exact hc.levels.withCounters a next
  refine ⟨hlevels, by rw [hframe]; exact hw, hmatch, hsorted, hnodup, fun node hn => ?_,
    fun node hn => ?_, h.swapCapacity_eq, h.size_lt⟩
  · exact hc.numberOfBlocks_le_length h.tree.flagsClear hd sched hn
  · obtain ⟨c, hlt, hidx, -⟩ := h.node_block hn
    have hnode := hmatch.isNode node hn
    rw [updateHierarchy_manager] at hframe hlevels
    have hcap : (s.updateState.update sched (s.sdsView p)).manager.logCapacity =
        s.rebalancingManager.logCapacity := by rw [hframe]; rfl
    change _ < max 1 s.size
    by_cases hl : node.level ≤ s.rebalancingManager.logCapacity
    · have hcon : ((s.updateState.update sched (s.sdsView p)).manager.rebalancingRange
          node).contains c := by
        rw [hlevels.contains_iff (by rw [hframe]; exact hw) (by rw [hcap]; exact hl), hframe]
        exact hidx
      exact lt_of_le_of_lt hcon.1 hlt
    · -- the super root begins with the first cell
      have hsuper : node.level = (s.updateState.update sched
          (s.sdsView p)).manager.logCapacityWithSuperRoot := by
        rw [hlevels.super_eq]
        have := hnode.1
        omega
      rw [updateHierarchy_manager, rebalancingRange, if_pos hsuper]
      simp only
      omega

/-! ## After step B-3 -/

/-- The state in front of step B-4. -/
def withTasks (p : BatchedParams K α) (s : BatchedSparseArray K α) (sched : Schedule) :
    BatchedSparseArray K α := (s.updateHierarchy p sched).createRebalancingTasks

omit [DecidableEq K] in
/-- The tree range of a node is its rebalancing range, or a part of it for the super root. -/
lemma treeRange_eq {task : RebalancingTask}
    (hl : task.rootNode.level ≤ s.rebalancingManager.logCapacity) :
    s.treeRange task = s.rebalancingManager.rebalancingRange task.rootNode := by
  rw [treeRange, treeNode, if_neg (by omega)]

omit [DecidableEq K] in
/-- The super root reads the cells of the root. -/
lemma treeRange_super (hlevels : s.rebalancingManager.LevelsValid) {task : RebalancingTask}
    (hn : s.rebalancingManager.IsNode task.rootNode.level task.rootNode.index)
    (hl : s.rebalancingManager.logCapacity < task.rootNode.level) : s.treeRange task =
      ⟨0, 2 ^ s.rebalancingManager.logCapacity * s.rebalancingManager.aggregateWidth⟩ := by
  have hlev : task.rootNode.level = s.rebalancingManager.logCapacity + 1 := by
    have := hn.1
    omega
  have hidx : task.rootNode.index = 0 := by
    have := hn.2
    rw [hlev, Nat.sub_eq_zero_of_le (Nat.le_succ _)] at this
    simpa using this
  rw [treeRange, treeNode, if_pos hl, hidx, hlevels.rebalancingRange_eq (le_refl _)]
  simp

omit [DecidableEq K] in
/-- A task begins with its tree range, and what it has behind the tree range is unused. -/
lemma treeRange_bounds (hlevels : s.rebalancingManager.LevelsValid)
    (hroom : s.size < 2 ^ s.rebalancingManager.logCapacity * s.rebalancingManager.aggregateWidth)
    {task : RebalancingTask}
    (heq : task = s.rebalancingManager.getRebalancingTask task.rootNode)
    (hn : s.rebalancingManager.IsNode task.rootNode.level task.rootNode.index)
    (hsuper : s.rebalancingManager.logCapacity < task.rootNode.level →
      2 ^ s.rebalancingManager.logCapacity * s.rebalancingManager.aggregateWidth ≤
        task.pmaRange.right) :
    task.pmaRange.left = (s.treeRange task).left ∧
      (s.treeRange task).right ≤ task.pmaRange.right ∧
        min task.pmaRange.right (max 1 s.size) ≤ (s.treeRange task).right := by
  have hrange : task.pmaRange = s.rebalancingManager.rebalancingRange task.rootNode :=
    congrArg RebalancingTask.pmaRange heq
  rcases Nat.lt_or_ge s.rebalancingManager.logCapacity task.rootNode.level with hl | hl
  · have hlev : task.rootNode.level = s.rebalancingManager.logCapacityWithSuperRoot := by
      have := hn.1
      rw [hlevels.super_eq]
      omega
    rw [treeRange_super hlevels hn hl]
    refine ⟨?_, hsuper hl, ?_⟩
    · rw [hrange, rebalancingRange, if_pos hlev]
    · exact le_trans (min_le_right _ _) (max_le (Nat.zero_lt_of_lt hroom) hroom.le)
  · rw [treeRange_eq hl, ← hrange]
    exact ⟨rfl, le_refl _, min_le_left _ _⟩

lemma Inserted.withTasks_spec (h : s.Inserted p) (hw : 0 < s.rebalancingManager.aggregateWidth)
    (hd : s.rebalancingManager.density.Valid s.rebalancingManager.aggregateWidth)
    (sched : Schedule) :
    (∃ a, (s.withTasks p sched).rebalancingManager =
        (s.updateHierarchy p sched).rebalancingManager.withCounters a
          (s.updateHierarchy p sched).rebalancingManager.nextLevelRecountingNodes) ∧
      (∀ i l, ((s.withTasks p sched).rebalancingManager.aggregate i l).numberOfBlocks =
        ((s.updateHierarchy p sched).rebalancingManager.aggregate i l).numberOfBlocks) ∧
      (∀ l i, s.rebalancingManager.IsNode l i →
        (((s.withTasks p sched).rebalancingManager.aggregate i l).rebalanced = true ↔
          ⟨l, i⟩ ∈ (s.updateHierarchy p sched).keptNodes)) ∧
      (s.withTasks p sched).rebalancingTasks = (s.updateHierarchy p sched).keptNodes.map
        (s.withTasks p sched).rebalancingManager.getRebalancingTask := by
  have hc := h.collected hw hd sched
  obtain ⟨⟨a, hframe⟩, hcounts, hflags⟩ := filtering_createRebalancingTasks hc.levels hc.flags
  obtain ⟨a', next, hframe'⟩ := h.frame sched
  refine ⟨⟨a, hframe⟩, hcounts, fun l i hli => hflags l i (by rw [hframe']; exact hli), ?_⟩
  have htasks := createRebalancingTasks_eq hc.levels hc.flags
  rw [withTasks, htasks]
  refine List.map_congr_left fun node _ => ?_
  exact (getRebalancingTask_congr ⟨a, _, hframe⟩ hcounts node).symm

/-- The hierarchy in front of step B-4 differs from that of the insertion phase in its counters. -/
lemma Inserted.frame_withTasks (h : s.Inserted p)
    (hw : 0 < s.rebalancingManager.aggregateWidth)
    (hd : s.rebalancingManager.density.Valid s.rebalancingManager.aggregateWidth)
    (sched : Schedule) :
    ∃ a next, (s.withTasks p sched).rebalancingManager =
      s.rebalancingManager.withCounters a next := by
  obtain ⟨⟨a, hframe⟩, -⟩ := h.withTasks_spec hw hd sched
  obtain ⟨a', next, hframe'⟩ := h.frame sched
  refine ⟨a, (s.updateHierarchy p sched).rebalancingManager.nextLevelRecountingNodes, ?_⟩
  rw [hframe, hframe']
  rfl

/-- A task in front of step B-4 is that of a kept node, with the range and the number of blocks
that the node had after `update`. -/
lemma Inserted.task_eq (h : s.Inserted p) (hw : 0 < s.rebalancingManager.aggregateWidth)
    (hd : s.rebalancingManager.density.Valid s.rebalancingManager.aggregateWidth)
    {task : RebalancingTask} (ht : task ∈ (s.withTasks p sched).rebalancingTasks) :
    task.rootNode ∈ (s.updateHierarchy p sched).keptNodes ∧
      s.rebalancingManager.IsNode task.rootNode.level task.rootNode.index ∧
        task = (s.withTasks p sched).rebalancingManager.getRebalancingTask task.rootNode ∧
          task = (s.updateHierarchy p sched).rebalancingManager.getRebalancingTask
            task.rootNode := by
  have hc := h.collected hw hd sched
  obtain ⟨⟨a, hframe⟩, hcounts, -, htasks⟩ := h.withTasks_spec hw hd sched
  obtain ⟨a', next, hframe'⟩ := h.frame sched
  rw [htasks] at ht
  obtain ⟨node, hn, rfl⟩ := List.mem_map.mp ht
  have hnode := hc.flags.isNode node (mem_keptNodes.mp hn).1
  rw [hframe'] at hnode
  exact ⟨hn, hnode, rfl, getRebalancingTask_congr ⟨a, _, hframe⟩ hcounts node⟩

/-- The super root is collected when the tree has more blocks than cells. -/
lemma Inserted.tree_lt_of_super (h : s.Inserted p) {node : RebalancingNode}
    (hn : node ∈ (s.updateHierarchy p sched).rebalancingNodes)
    (hl : s.rebalancingManager.logCapacity < node.level) :
    s.rebalancingManager.aggregateWidth * 2 ^ s.rebalancingManager.logCapacity <
      ((s.updateHierarchy p sched).rebalancingManager.aggregate 0
        s.rebalancingManager.logCapacity).numberOfBlocks := by
  have hc := h.tree.consistent
  have hcount := hc.numberOfBlocks_update sched (s.sdsView p)
    (le_refl s.rebalancingManager.logCapacity) (i := 0) (Nat.two_pow_pos _)
  rw [updateHierarchy_manager, hcount]
  rcases (hc.mem_rebalancingNodes h.tree.flagsClear sched (s.sdsView p)).mp hn with hin | ⟨-, hgt⟩
  · -- nodes that are collected on the way up lie in the tree
    have hle := ((hc.climbing h.tree.flagsClear sched (s.sdsView p) _
      (le_refl s.rebalancingManager.logCapacity)).collected node hin).1
    omega
  · exact hgt

/-- Then its range covers the tree. -/
lemma Inserted.super_le (h : s.Inserted p) (hw : 0 < s.rebalancingManager.aggregateWidth)
    (hd : s.rebalancingManager.density.Valid s.rebalancingManager.aggregateWidth)
    {task : RebalancingTask} (ht : task ∈ (s.withTasks p sched).rebalancingTasks)
    (hl : s.rebalancingManager.logCapacity < task.rootNode.level) :
    2 ^ s.rebalancingManager.logCapacity * s.rebalancingManager.aggregateWidth ≤
      task.pmaRange.right := by
  obtain ⟨hn, hnode, -, heq⟩ := h.task_eq hw hd ht
  obtain ⟨a, next, hframe⟩ := h.frame sched
  have hgt := h.tree_lt_of_super (mem_keptNodes.mp hn).1 hl
  have hlev : task.rootNode.level =
      (s.updateHierarchy p sched).rebalancingManager.logCapacityWithSuperRoot := by
    have := hnode.1
    rw [hframe]
    exact le_antisymm (this.trans_eq h.tree.levels.super_eq.symm)
      (h.tree.levels.super_eq.trans_le hl)
  have hcap : (s.updateHierarchy p sched).rebalancingManager.logCapacity =
      s.rebalancingManager.logCapacity := by rw [hframe]; rfl
  have hden : (s.updateHierarchy p sched).rebalancingManager.density =
      s.rebalancingManager.density := by rw [hframe]; rfl
  rw [congrArg RebalancingTask.pmaRange heq]
  change _ ≤ ((s.updateHierarchy p sched).rebalancingManager.rebalancingRange
    task.rootNode).right
  rw [rebalancingRange, if_pos hlev, hcap, hden]
  calc 2 ^ s.rebalancingManager.logCapacity * s.rebalancingManager.aggregateWidth
      = s.rebalancingManager.aggregateWidth * 2 ^ s.rebalancingManager.logCapacity :=
        Nat.mul_comm _ _
    _ ≤ ((s.updateHierarchy p sched).rebalancingManager.aggregate 0
          s.rebalancingManager.logCapacity).numberOfBlocks := hgt.le
    _ ≤ _ := hd.le_minRangeLength _

/-- **Steps B-2 and B-3.**  The state in front of step B-4 is ready for the moves. -/
theorem Inserted.ready (h : s.Inserted p) (hw : 0 < s.rebalancingManager.aggregateWidth)
    (hd : s.rebalancingManager.density.Valid s.rebalancingManager.aggregateWidth)
    (sched : Schedule) :
    (s.withTasks p sched).Ready p := by
  have hc := h.collected hw hd sched
  obtain ⟨-, hcounts, -, htasks⟩ := h.withTasks_spec hw hd sched
  obtain ⟨a, next, hM⟩ := h.frame_withTasks hw hd sched
  obtain ⟨a', next', hM'⟩ := h.frame sched
  have hlevels : (s.withTasks p sched).rebalancingManager.LevelsValid := by
    rw [hM]
    exact h.tree.levels.withCounters _ _
  have hbounds : ∀ task ∈ (s.withTasks p sched).rebalancingTasks,
      task.pmaRange.left = ((s.withTasks p sched).treeRange task).left ∧
        ((s.withTasks p sched).treeRange task).right ≤ task.pmaRange.right ∧
          min task.pmaRange.right (max 1 s.size) ≤
            ((s.withTasks p sched).treeRange task).right := by
    intro task ht
    obtain ⟨-, hnode, heq, -⟩ := h.task_eq hw hd ht
    have hsuper := h.super_le hw hd ht
    refine treeRange_bounds hlevels ?_ heq ?_ ?_ <;> rw [hM]
    · exact h.tree.size_lt hw
    · exact hnode
    · exact hsuper
  have hrange : ∀ node, (s.withTasks p sched).rebalancingManager.rebalancingRange node =
      (s.updateHierarchy p sched).rebalancingManager.rebalancingRange node := by
    intro node
    obtain ⟨⟨b, hframe⟩, -⟩ := h.withTasks_spec hw hd sched
    exact congrArg RebalancingTask.pmaRange
      (getRebalancingTask_congr ⟨b, _, hframe⟩ hcounts node)
  refine
    { levels := hlevels
      width_pos := by rw [hM]; exact hw
      counters := ?_
      capacity := ?_
      isNode := fun task ht => ?_
      numberOfBlocks_eq := fun task ht => ?_
      left_eq := fun task ht => (hbounds task ht).1
      tree_le := fun task ht => (hbounds task ht).2.1
      used_le := fun task ht => (hbounds task ht).2.2
      left_lt := fun task ht => ?_
      fits := fun task ht => ?_
      disjoint := ?_
      behind := h.behind
      buffers_disjoint := h.buffers_disjoint
      buffers_full := h.buffers_full }
  · -- step B-3 leaves the counts of `update` alone
    intro l hl i hi
    have hexact := h.countersExact sched l (by rw [hM']; rw [hM] at hl; exact hl) i
      (by rw [hM']; rw [hM] at hi; exact hi)
    rw [hcounts, hexact, hM', hM]
    rfl
  · have := h.size_lt
    change max 1 s.size ≤ s.capacity
    omega
  · rw [hM]
    exact (h.task_eq hw hd ht).2.1
  · exact congrArg RebalancingTask.numberOfBlocks (h.task_eq hw hd ht).2.2.1
  · obtain ⟨hn, -, -, heq⟩ := h.task_eq hw hd ht
    rw [congrArg RebalancingTask.pmaRange heq]
    exact hc.left_lt _ (mem_keptNodes.mp hn).1
  · obtain ⟨hn, -, -, heq⟩ := h.task_eq hw hd ht
    rw [congrArg RebalancingTask.numberOfBlocks heq, congrArg RebalancingTask.pmaRange heq]
    exact hc.fits _ (mem_keptNodes.mp hn).1
  · rw [htasks, List.pairwise_map]
    refine (hc.nodup.filter _).imp_of_mem ?_
    intro x y hx hy hne c hcx hcy
    refine hne (hc.kept_disjoint hx hy (c := c) ?_ ?_)
    · rw [← hrange]
      exact hcx
    · rw [← hrange]
      exact hcy

end BatchedSparseArray

end BatchPMA
