import BatchPMA.Rebalance.Rebalanceable

/-!
# The rebalancing phase as a whole

Steps B-2 to B-10 in a tree with room at its root: the sequence of blocks is the same as before, and
what the next batch starts from holds again.  In particular the counter of every leaf that is not
marked is right: a leaf in the range of a task gets a block and is marked, the other leaves have been
counted.
-/

namespace BatchPMA

open RebalancingManager Dyadic Ranges Segments

namespace BatchedSparseArray

variable {K α : Type} [DecidableEq K] {p : BatchedParams K α} {s s' : BatchedSparseArray K α}
  {sched : Schedule}

/-- What holds between two calls of `insertBatch`. -/
structure Quiescent (p : BatchedParams K α) (s : BatchedSparseArray K α) : Prop where
  tree : s.TreeValid p
  unmarked : s.rebalancingManager.nextLevelRecountingNodes.flagged = ∅
  flagged : ∀ i ∈ s.recountingNodesMap.flagged, i = 0
  cell_null : ∀ c, s.empty p c = true → s.pma c = PmaEntry.null p.toBlockParams
  swap_null : ∀ i, s.swapPma i = PmaEntry.null p.toBlockParams
  buffer_null : ∀ j, s.bufferArray j = PmaEntry.null p.toBlockParams
  pointers : ∀ c, s.bufferPointers c = .zero
  swapCapacity_eq : s.swapCapacity = s.capacity
  size_lt : s.size < s.capacity
  aligned : s.Aligned p
  first : s.size = 0 ∨ s.empty p 0 = false
  threads_pos : 0 < s.numberOfThreads

/-! ## The tasks -/

/-- The new size is the old one or the right end of a task that covers everything. -/
lemma newPmaSize_cases (s : BatchedSparseArray K α) (sched : Schedule) :
    (s.withTasks p sched).newPmaSize = s.size ∨
    ∃ task ∈ (s.withTasks p sched).rebalancingTasks, s.size < task.pmaRange.right ∧
      (s.withTasks p sched).newPmaSize = task.pmaRange.right := by
  rw [newPmaSize]
  split
  · exact Or.inl rfl
  · rename_i task hlast
    have hsize : (s.withTasks p sched).size = s.size := rfl
    rw [hsize]
    rcases Nat.lt_or_ge s.size task.pmaRange.right with hlt | hge
    · exact Or.inr ⟨task, List.mem_of_getLast? hlast, hlt, Nat.max_eq_right hlt.le⟩
    · exact Or.inl (Nat.max_eq_left hge)

namespace Rebalanceable

section Tasks

variable (h : s.Rebalanceable p)
include h

lemma clean_withTasks (sched : Schedule) : (s.withTasks p sched).Clean p :=
  ⟨h.clean.cell_null, h.clean.head_ne, h.clean.swap_null, h.clean.buffer_null⟩

lemma ready_withTasks (sched : Schedule) : (s.withTasks p sched).Ready p :=
  h.toInserted.ready h.width_pos h.densityValid sched

lemma tasksFit (hne : (s.withTasks p sched).rebalancingTasks ≠ []) :
    (s.withTasks p sched).computePrefixSums.TasksFit :=
  ⟨prefixSummed_computePrefixSums _, hne, (h.ready_withTasks sched).fits,
    (h.ready_withTasks sched).disjoint⟩

/-- The tree range of a task is its range. -/
lemma treeRange_task (sched : Schedule) {task : RebalancingTask}
    (ht : task ∈ (s.withTasks p sched).rebalancingTasks) :
    (s.withTasks p sched).treeRange task = task.pmaRange := by
  have hr := h.ready_withTasks sched
  have hshape := h.taskShape sched ht
  obtain ⟨a, next, hframe⟩ := h.toInserted.frame_withTasks h.width_pos h.densityValid sched
  have hcap : (s.withTasks p sched).rebalancingManager.logCapacity =
      s.rebalancingManager.logCapacity := by rw [hframe]; rfl
  have hwidth : (s.withTasks p sched).rebalancingManager.aggregateWidth = p.segmentWidth := by
    rw [hframe]
    exact h.tree.width_eq
  have hl := hshape.level_le
  rw [treeRange_eq (by rw [hcap]; exact hl), hr.levels.rebalancingRange_eq (by rw [hcap]; exact hl),
    hwidth, hshape.range_eq]

/-- A task that reaches behind the size is the only one. -/
lemma contains_of_behind (sched : Schedule) {task : RebalancingTask}
    (ht : task ∈ (s.withTasks p sched).rebalancingTasks) (hr : s.size < task.pmaRange.right)
    {c : ℕ} (hc : c < max 1 s.size) : task.pmaRange.contains c := by
  have hshape := h.taskShape sched ht
  have h0 := hshape.behind hr
  have hleft : task.pmaRange.left = 0 := by
    rw [hshape.range_eq, h0]
    simp
  exact ⟨by omega, by omega⟩

/-- Step B-4 reserves room for all tasks. -/
lemma right_le_newPmaSize (sched : Schedule) {task : RebalancingTask}
    (ht : task ∈ (s.withTasks p sched).rebalancingTasks) :
    task.pmaRange.right ≤ (s.withTasks p sched).newPmaSize := by
  have hready := h.ready_withTasks sched
  have hsize : (s.withTasks p sched).size = s.size := rfl
  obtain ⟨last, hlast⟩ : ∃ last, (s.withTasks p sched).rebalancingTasks.getLast? = some last :=
    Option.isSome_iff_exists.mp (List.getLast?_isSome.mpr (List.ne_nil_of_mem ht))
  rw [newPmaSize, hlast]
  simp only
  rcases Nat.lt_or_ge s.size task.pmaRange.right with hlt | hle
  · -- both tasks contain the first cell of the last one
    obtain ⟨i, hi, rfl⟩ := List.mem_iff_getElem.mp ht
    obtain ⟨j, hj, rfl⟩ := List.mem_iff_getElem.mp (List.mem_of_getLast? hlast)
    have hleft := hready.left_lt _ (List.getElem_mem hj)
    have hright := hready.left_lt_tree (List.getElem_mem hj)
    rw [h.treeRange_task sched (List.getElem_mem hj)] at hright
    rw [getElem_rebalancingTasks] at *
    obtain rfl := task_unique hready.disjoint hi hj (h.contains_of_behind sched ht hlt hleft)
      ⟨le_refl _, hright⟩
    rw [getElem_rebalancingTasks]
    exact Nat.le_max_right _ _
  · rw [hsize]
    exact le_trans hle (le_max_left _ _)

/-- A marked leaf has a kept node at or above it. -/
lemma exists_keptNode (sched : Schedule) {i : ℕ} (hi : i ∈ s.recountingNodesMap.flagged) :
    ∃ top ∈ (s.updateHierarchy p sched).keptNodes, top.Covers i := by
  have hc := h.toInserted.collected h.width_pos h.densityValid sched
  obtain ⟨node, hn, hcov⟩ := h.tree.consistent.covers_update h.tree.flagsClear sched
    (s.sdsView p) h.rootRoom _ hi
  by_cases hd : Dominated (s.updateHierarchy p sched).rebalancingNodes node
  · obtain ⟨top, htop, habove, hnd⟩ := Dominated.exists_topmost
      (fun other ho => (hc.flags.isNode other ho).1) _ (le_refl _) hd
    refine ⟨top, mem_keptNodes.mpr ⟨htop, hnd⟩, ?_⟩
    have hpow : 2 ^ top.level = 2 ^ node.level * 2 ^ (top.level - node.level) := by
      rw [← pow_add, Nat.add_sub_cancel' habove.1.le]
    rw [RebalancingNode.Covers, habove.2, hcov, Nat.div_div_eq_div_mul, hpow]
  · exact ⟨node, mem_keptNodes.mpr ⟨hn, hd⟩, hcov⟩

/-- The buffer blocks belong to tasks, and when the pma is replaced all its blocks do. -/
lemma covered (sched : Schedule) : (s.withTasks p sched).Covered p := by
  have hc := h.toInserted.collected h.width_pos h.densityValid sched
  refine ⟨fun c hpos => ?_, fun hgrow c he => ?_⟩
  · -- the leaf is marked, and a kept node is above it
    obtain ⟨top, htop, htopcov⟩ := h.exists_keptNode sched (h.marked c hpos)
    have ht : (s.updateHierarchy p sched).rebalancingManager.getRebalancingTask top ∈
        (s.withTasks p sched).rebalancingTasks := by
      rw [withTasks, createRebalancingTasks_eq hc.levels hc.flags]
      exact List.mem_map_of_mem htop
    have hshape := h.taskShape sched ht
    have hl : top.level ≤ s.rebalancingManager.logCapacity := hshape.level_le
    obtain ⟨a, next, hframe⟩ := h.toInserted.frame sched
    have hin : ((s.updateHierarchy p sched).rebalancingManager.rebalancingRange top).contains c := by
      rw [hc.levels.contains_iff hc.width_pos (by rw [hframe]; exact hl), hframe]
      exact htopcov
    exact ⟨_, ht, hin.1, by rw [h.treeRange_task sched ht]; exact hin.2⟩
  · have hcap := h.size_lt
    have hswap : (s.withTasks p sched).swapCapacity = s.capacity := h.swapCapacity_eq
    rcases newPmaSize_cases (p := p) s sched with heq | ⟨task, ht, hlt, -⟩
    · omega
    · refine ⟨task, ht, h.contains_of_behind sched ht hlt ?_⟩
      have hlt : c < s.size := by
        by_contra hge
        have : (s.withTasks p sched).empty p c = true := by
          rw [empty, if_pos (show (s.withTasks p sched).size ≤ c from not_lt.mp hge)]
        rw [this] at he
        exact absurd he (by simp)
      omega

/-- The new size is that of a leftmost node. -/
lemma aligned_newPmaSize (sched : Schedule) : (s.withTasks p sched).newPmaSize = 0 ∨
    ∃ j, (s.withTasks p sched).newPmaSize = 2 ^ j * p.segmentWidth := by
  rcases newPmaSize_cases (p := p) s sched with heq | ⟨task, ht, hlt, heq⟩
  · rw [heq]
    exact h.aligned
  · have hshape := h.taskShape sched ht
    refine Or.inr ⟨task.rootNode.level, ?_⟩
    rw [heq, hshape.range_eq, hshape.behind hlt, Nat.zero_add, Nat.one_mul]

/-- Every leaf of a task gets a block. -/
lemma exists_leaf_target (sched : Schedule) {task : RebalancingTask}
    (ht : task ∈ (s.withTasks p sched).rebalancingTasks) {i c : ℕ}
    (hc : task.pmaRange.contains c) (hi : i = c / p.segmentWidth) :
    ∃ g < (s.withTasks p sched).totalBlocks,
      (s.withTasks p sched).computePrefixSums.rewriteIndex g / p.segmentWidth = i := by
  have hshape := h.taskShape sched ht
  have hseg := h.segment_pos
  obtain ⟨j, hj, rfl⟩ := List.mem_iff_getElem.mp ht
  rw [getElem_rebalancingTasks] at hshape hc
  have hfit := h.tasksFit (List.ne_nil_of_mem ht)
  -- the leaf lies in the range of the task
  have hrange := hshape.range_eq
  have hl : ((s.withTasks p sched).rebalancingTask j).pmaRange.left ≤ i * p.segmentWidth := by
    rw [hrange, ← Nat.mul_assoc] at hc ⊢
    simp only
    rw [hi]
    exact Nat.mul_le_mul_right _ ((Nat.le_div_iff_mul_le hseg).mpr hc.1)
  have hr : i * p.segmentWidth + p.segmentWidth ≤
      ((s.withTasks p sched).rebalancingTask j).pmaRange.right := by
    rw [hrange, ← Nat.mul_assoc] at hc ⊢
    have hlt : c < (((s.withTasks p sched).rebalancingTask j).rootNode.index + 1) *
        (2 ^ ((s.withTasks p sched).rebalancingTask j).rootNode.level * p.segmentWidth) := hc.2
    rw [← Nat.mul_assoc] at hlt
    simp only
    rw [← Nat.succ_mul, ← Nat.mul_assoc, hi]
    exact Nat.mul_le_mul_right _ (Nat.succ_le_of_lt ((Nat.div_lt_iff_lt_mul hseg).mpr hlt))
  have hlen : ((s.withTasks p sched).rebalancingTask j).pmaRange.left +
      ((s.withTasks p sched).rebalancingTask j).pmaRange.length =
        ((s.withTasks p sched).rebalancingTask j).pmaRange.right := by
    rw [Interval.length]
    omega
  obtain ⟨g, h1, h2, h3, h4⟩ := hfit.exists_rewriteIndex h.threads_pos hj hshape.blocks_pos
    hshape.length_le hseg hl (by
      change _ ≤ ((s.withTasks p sched).rebalancingTask j).pmaRange.left +
        ((s.withTasks p sched).rebalancingTask j).pmaRange.length
      omega)
  refine ⟨g, lt_of_lt_of_le h2 (firstBlock_le_total hj), ?_⟩
  refine Nat.div_eq_of_lt_le h3 ?_
  rw [Nat.succ_mul]
  exact h4

end Tasks

/-! ## The hierarchy -/

section Tree

variable (h : s.Rebalanceable p)
include h

/-- The hierarchy in front of step B-4 differs from that of the beginning in counters and flags. -/
lemma frame_withTasks (sched : Schedule) : ∃ a next, (s.withTasks p sched).rebalancingManager =
    s.rebalancingManager.withCounters a next ∧ next.flagged = ∅ ∧ ∀ k ∈ next.keys, k = 0 := by
  obtain ⟨⟨a, hframe⟩, -⟩ := h.toInserted.withTasks_spec h.width_pos h.densityValid sched
  obtain ⟨a', next, hframe'⟩ := h.toInserted.frame sched
  refine ⟨a, (s.updateHierarchy p sched).rebalancingManager.nextLevelRecountingNodes, ?_, ?_, ?_⟩
  · rw [hframe, hframe']
    rfl
  · exact h.tree.consistent.leftover_update h.tree.flagsClear sched (s.sdsView p) h.unmarked
      h.rootRoom
  · exact (h.tree.consistent.keys_update sched (s.sdsView p)).2

lemma keys_withTasks (sched : Schedule) :
    ∀ k ∈ (s.withTasks p sched).recountingNodesMap.keys, k = 0 :=
  (h.tree.consistent.keys_update sched (s.sdsView p)).1

/-- All counters are right in front of step B-4. -/
lemma counts_withTasks (sched : Schedule) {l i : ℕ} (hl : l ≤ s.rebalancingManager.logCapacity)
    (hi : i < 2 ^ (s.rebalancingManager.logCapacity - l)) :
    ((s.withTasks p sched).rebalancingManager.aggregate i l).numberOfBlocks =
      s.rebalancingManager.trueBlocks (s.sdsView p) l i := by
  obtain ⟨-, hcounts, -⟩ := h.toInserted.withTasks_spec h.width_pos h.densityValid sched
  obtain ⟨a, next, hframe⟩ := h.toInserted.frame sched
  rw [hcounts, h.toInserted.countersExact sched l (by rw [hframe]; exact hl) i
    (by rw [hframe]; exact hi), hframe]
  rfl

/-- Only roots of tasks have a flag. -/
lemma flags_withTasks (sched : Schedule) {l i : ℕ} (hli : s.rebalancingManager.IsNode l i)
    (hf : ((s.withTasks p sched).rebalancingManager.aggregate i l).rebalanced = true) :
    ∃ task ∈ (s.withTasks p sched).rebalancingTasks, ⟨l, i⟩ = task.rootNode := by
  obtain ⟨-, -, hflags, htasks⟩ := h.toInserted.withTasks_spec h.width_pos h.densityValid sched
  rw [htasks]
  exact ⟨_, List.mem_map_of_mem ((hflags l i hli).mp hf), rfl⟩

omit [DecidableEq K] h in
lemma sums_of_exact {m m' : RebalancingManager} {sds : SdsView}
    (hcounts : ∀ l ≤ m.logCapacity, ∀ i < 2 ^ (m.logCapacity - l),
      (m.aggregate i l).numberOfBlocks = m'.trueBlocks sds l i) {l : ℕ} (hl : l < m.logCapacity)
    {i : ℕ} (hi : i < 2 ^ (m.logCapacity - (l + 1))) :
    (m.aggregate i (l + 1)).numberOfBlocks = (m.aggregate (i * 2) l).numberOfBlocks +
      (m.aggregate (i * 2 + 1) l).numberOfBlocks := by
  obtain ⟨h1, h2⟩ := children_lt hl hi
  rw [hcounts (l + 1) hl i hi, hcounts l hl.le _ h1, hcounts l hl.le _ h2]
  simp only [trueBlocks_eq_subtotal m' sds (l + 1), trueBlocks_eq_subtotal m' sds l, subtotal_succ]

end Tree

end Rebalanceable

/-! ## The state behind the phase -/

/-- The hierarchy in front of step B-6: all counters are right, and all flags are cleared. -/
structure Swept (p : BatchedParams K α) (s : BatchedSparseArray K α) (m : RebalancingManager) :
    Prop where
  levels : m.LevelsValid
  size_le : m.size ≤ m.capacity
  logCapacity_eq : m.logCapacity = s.rebalancingManager.logCapacity
  width_eq : m.aggregateWidth = p.segmentWidth
  density_eq : m.density = p.density
  unmarked : m.nextLevelRecountingNodes.flagged = ∅
  keys : ∀ k ∈ m.nextLevelRecountingNodes.keys, k = 0
  counts : ∀ l ≤ m.logCapacity, ∀ i < 2 ^ (m.logCapacity - l),
    (m.aggregate i l).numberOfBlocks = s.rebalancingManager.trueBlocks (s.sdsView p) l i
  flags : ∀ l i, m.IsNode l i → (m.aggregate i l).rebalanced = false

namespace Rebalanceable

section Result

variable (h : s.Rebalanceable p) (hb : Rebalanced p (s.withTasks p sched) s')
include h hb

omit hb in
lemma leaf_withTasks (sched : Schedule) (c : ℕ) :
    (s.withTasks p sched).rebalancingManager.lowestLevelNodeIndex c = c / p.segmentWidth := by
  obtain ⟨a, next, hframe, -⟩ := h.frame_withTasks sched
  rw [hframe, lowestLevelNodeIndex]
  exact congrArg _ h.tree.width_eq

/-- Leaves with a cell in a task are marked. -/
lemma not_inTask {i c : ℕ} (hi : i ∉ s'.recountingNodesMap.keys) (hc : c / p.segmentWidth = i) :
    ¬ (s.withTasks p sched).InTask c := by
  rintro ⟨task, ht, hin⟩
  obtain ⟨g, hg, htarget⟩ := h.exists_leaf_target sched ht hin hc.symm
  refine hi ((hb.mem_keys i).mpr (Or.inr ⟨g, hg, ?_⟩))
  rw [h.leaf_withTasks, htarget]

omit h in
lemma trueBlocks_result (hw : s'.rebalancingManager.aggregateWidth = p.segmentWidth) (i : ℕ) :
    s'.rebalancingManager.trueBlocks (s'.sdsView p) 0 i =
      (itemsIn (s'.cellBlocks p) (i * p.segmentWidth) ((i + 1) * p.segmentWidth)).length := by
  have hptr : s'.PointersInCapacity := fun c _ => hb.pointers c
  rw [trueBlocks, hw, pow_zero, Nat.one_mul, hptr.blocksIn_eq, itemsIn_cellBlocks, List.length_map]

omit hb in
lemma trueBlocks_before (i : ℕ) : s.rebalancingManager.trueBlocks (s.sdsView p) 0 i =
    (itemsIn (s.cellBlocks p) (i * p.segmentWidth) ((i + 1) * p.segmentWidth)).length := by
  rw [trueBlocks, h.tree.width_eq, pow_zero, Nat.one_mul, h.pointersInCapacity.blocksIn_eq,
    itemsIn_cellBlocks, List.length_map]

/-- The blocks of a leaf that is not marked are as before. -/
lemma itemsIn_leaf {i : ℕ} (hi : i ∉ s'.recountingNodesMap.keys) :
    itemsIn (s'.cellBlocks p) (i * p.segmentWidth) ((i + 1) * p.segmentWidth) =
      itemsIn (s.cellBlocks p) (i * p.segmentWidth) ((i + 1) * p.segmentWidth) := by
  refine itemsIn_congr fun c h1 h2 => ?_
  have hc : c / p.segmentWidth = i := Nat.div_eq_of_lt_le h1 h2
  have hsame : s'.cellBlocks p c = (s.withTasks p sched).cellBlocks p c :=
    hb.cellBlocks_outside (h.ready_withTasks sched)
      (h.clean_withTasks sched) (h.covered sched) (h.not_inTask hb hi hc)
  exact hsame

/-- When the tree has been replaced, all cells of the array were in the range of a task. -/
lemma itemsIn_leaf_grown (hgrow : 2 ^ s.rebalancingManager.logCapacity * p.segmentWidth ≤ s'.size)
    {i : ℕ} (hi : i ∉ s'.recountingNodesMap.keys) :
    itemsIn (s'.cellBlocks p) (i * p.segmentWidth) ((i + 1) * p.segmentWidth) = [] := by
  have hroom := h.tree.size_lt h.width_pos
  rw [h.tree.width_eq] at hroom
  have hcell : max 1 s.size ≤ i * p.segmentWidth := by
    by_contra hlt
    rcases newPmaSize_cases (p := p) s sched with heq | ⟨task, ht, hright, heq⟩
    · have := hb.size_eq
      omega
    · exact h.not_inTask hb hi (Nat.mul_div_cancel i h.segment_pos)
        ⟨task, ht, h.contains_of_behind sched ht hright (not_le.mp hlt)⟩
  rw [h.itemsIn_leaf hb hi]
  refine itemsIn_eq_nil fun c h1 _ => ?_
  rw [cellBlocks, cellPlaces_behind h.behind (by omega)]
  rfl

omit hb in
lemma swept {m : RebalancingManager} (hm : FlagsCleared (s.withTasks p sched).rebalancingManager
    {node | ∃ task ∈ (s.withTasks p sched).rebalancingTasks, node = task.rootNode} m) :
    s.Swept p m := by
  obtain ⟨a, next, hframe, hnext, hkeys⟩ := h.frame_withTasks sched
  obtain ⟨b, hb⟩ := hm.frame
  have hm' : m = s.rebalancingManager.withCounters b next := by
    rw [hb, hframe]
    rfl
  have hcap : m.logCapacity = s.rebalancingManager.logCapacity := by rw [hm']; rfl
  refine ⟨?_, ?_, hcap, ?_, ?_, ?_, ?_, fun l hl i hi => ?_, fun l i hn => ?_⟩
  · rw [hm']
    exact h.tree.levels.withCounters b next
  · rw [hm']
    exact h.tree.size_le
  · rw [hm']
    exact h.tree.width_eq
  · rw [hm']
    exact h.tree.density_eq
  · rw [hm']
    exact hnext
  · rw [hm']
    exact hkeys
  · rw [hcap] at hl hi
    rw [hm.counts, h.counts_withTasks sched hl hi]
  · have hn' : s.rebalancingManager.IsNode l i := by rwa [hm'] at hn
    have hflag := hm.flags l i (by rw [hframe]; exact hn')
    by_contra hne
    obtain ⟨hset, hno⟩ := hflag.mp (by simpa using hne)
    exact hno (h.flags_withTasks sched hn' hset)

/-- The marks behind the phase are leaves of the new tree. -/
lemma keys_lt {n : ℕ} (hfit : s'.size / p.segmentWidth < 2 ^ n) :
    ∀ i ∈ s'.recountingNodesMap.keys, i < 2 ^ n := by
  intro i hi
  rcases (hb.mem_keys i).mp hi with hold | ⟨g, hg, rfl⟩
  · rw [h.keys_withTasks sched i hold]
    exact Nat.two_pow_pos _
  · have hready := h.ready_withTasks sched
    have hne : (s.withTasks p sched).rebalancingTasks ≠ [] := by
      intro hnil
      rw [totalBlocks, firstBlock, hnil] at hg
      exact absurd hg (Nat.not_lt_zero g)
    obtain ⟨h1, h2, h3⟩ := (h.tasksFit hne).taskOf_spec hg
    have hmem := (h.tasksFit hne).rewriteIndex_mem h.threads_pos h1 h2 h3
    have hright := h.right_le_newPmaSize sched (rebalancingTask_mem h1)
    rw [← hb.size_eq] at hright
    rw [h.leaf_withTasks]
    exact lt_of_le_of_lt (Nat.div_le_div_right (le_trans hmem.2.le hright)) hfit

/-- What is left to show once the new hierarchy is known. -/
lemma treeValid_of {m : RebalancingManager} (hs : s.Swept p m)
    (heq : s'.rebalancingManager = m.resize s'.size)
    (hlevels : (m.resize s'.size).LevelsValid)
    (hsums : ∀ l < (m.resize s'.size).logCapacity,
      ∀ i < 2 ^ ((m.resize s'.size).logCapacity - (l + 1)),
        ((m.resize s'.size).aggregate i (l + 1)).numberOfBlocks =
          ((m.resize s'.size).aggregate (i * 2) l).numberOfBlocks +
            ((m.resize s'.size).aggregate (i * 2 + 1) l).numberOfBlocks)
    (hflags : ∀ l i, (m.resize s'.size).IsNode l i →
      ((m.resize s'.size).aggregate i l).rebalanced = false)
    (hcounts : ∀ i < 2 ^ (m.resize s'.size).logCapacity, i ∉ s'.recountingNodesMap.keys →
      ((m.resize s'.size).aggregate i 0).numberOfBlocks =
        (itemsIn (s'.cellBlocks p) (i * p.segmentWidth) ((i + 1) * p.segmentWidth)).length)
    (hnext : (m.resize s'.size).nextLevelRecountingNodes = m.nextLevelRecountingNodes)
    (hdensity : (m.resize s'.size).density = m.density)
    (hle : m.lowestLevelNodeIndex s'.size + 1 ≤ (m.resize s'.size).capacity) : s'.TreeValid p := by
  have hwidth : (m.resize s'.size).aggregateWidth = p.segmentWidth := by
    rw [aggregateWidth_resize, hs.width_eq]
  have hleaf : (m.resize s'.size).lowestLevelNodeIndex s'.size = m.lowestLevelNodeIndex s'.size := by
    rw [lowestLevelNodeIndex, aggregateWidth_resize, lowestLevelNodeIndex]
  have hfit : s'.size / p.segmentWidth < 2 ^ (m.resize s'.size).logCapacity := by
    rw [lowestLevelNodeIndex, hs.width_eq, hlevels.capacity_eq] at hle
    exact hle
  have htrue := trueBlocks_result hb (by rw [heq, hwidth])
  rw [heq] at htrue
  have hkeys := h.keys_lt hb hfit
  have hmanager : s'.updateState.manager = m.resize s'.size := heq
  refine ⟨⟨by rw [hmanager]; exact hlevels, by rw [hmanager]; exact hsums,
      by rw [hmanager]; exact hkeys, ?_⟩, ⟨by rw [hmanager]; exact hflags, hb.rebalancingNodes_eq⟩,
    ?_, ?_, by rw [heq, hwidth], by rw [heq, hdensity, hs.density_eq],
    by rw [heq, size_resize, hleaf], by rw [heq, size_resize]; exact hle⟩
  · rw [hmanager, hnext]
    intro k hk
    rw [hs.keys k hk]
    exact Nat.two_pow_pos _
  · rw [heq]
    intro i hi hno
    rw [hcounts i hi hno, htrue]
  · rw [heq, hnext, hs.unmarked]
    exact fun k hk => absurd hk (Finset.notMem_empty k)

/-- **The hierarchy behind the phase** is as it was between the calls. -/
theorem treeValid : s'.TreeValid p := by
  obtain ⟨m, hm, hmanager⟩ := hb.manager
  have hs := h.swept hm
  rw [← hb.size_eq] at hmanager
  have hcapacity := hs.levels.capacity_eq
  rcases resize_or_grown hs.levels hs.size_le s'.size with ⟨heq, hle⟩ | ⟨hgrown, hlt, hroom⟩
  · -- the tree is large enough
    refine h.treeValid_of hb hs hmanager ?_ ?_ ?_ ?_ (by rw [heq]) (by rw [heq]) (by rw [heq]; exact hle)
    · rw [heq]
      exact ⟨hs.levels.capacity_eq, hs.levels.super_eq, hs.levels.starts_eq, hs.levels.widths_eq⟩
    · rw [heq]
      exact fun l hl i hi => sums_of_exact hs.counts hl hi
    · rw [heq]
      exact hs.flags
    · rw [heq]
      intro i hi hno
      rw [h.itemsIn_leaf hb hno, ← h.trueBlocks_before]
      exact hs.counts 0 (Nat.zero_le _) i hi
  · -- the tree has been replaced: its counters are zero, and all blocks are in marked leaves
    refine h.treeValid_of hb hs hmanager hgrown.levels ?_ ?_ ?_ hgrown.next_eq hgrown.density_eq
      hroom.le
    · intro l _ i _
      rw [hgrown.zero, hgrown.zero, hgrown.zero]
      rfl
    · intro l i _
      rw [hgrown.zero]
      rfl
    · intro i _ hno
      rw [hgrown.zero, h.itemsIn_leaf_grown hb ?_ hno]
      · rfl
      · rw [lowestLevelNodeIndex, hs.width_eq, hcapacity, hs.logCapacity_eq] at hlt
        exact (Nat.le_div_iff_mul_le h.segment_pos).mp (Nat.lt_succ_iff.mp hlt)

/-! ### The cells -/

/-- The cells the blocks are written to are not empty. -/
lemma not_empty_target {g : ℕ} (hg : g < (s.withTasks p sched).totalBlocks) :
    s'.empty p ((s.withTasks p sched).computePrefixSums.rewriteIndex g) = false := by
  have hne : (s.withTasks p sched).rebalancingTasks ≠ [] := by
    intro hnil
    rw [totalBlocks, firstBlock, hnil] at hg
    exact absurd hg (Nat.not_lt_zero g)
  obtain ⟨h1, h2, h3⟩ := (h.tasksFit hne).taskOf_spec hg
  have hmem := (h.tasksFit hne).rewriteIndex_mem h.threads_pos h1 h2 h3
  have hright := h.right_le_newPmaSize sched (rebalancingTask_mem h1)
  obtain ⟨-, -, c, -, -, hcell⟩ := (h.ready_withTasks sched).exists_cell hg
  have hhead := (h.clean_withTasks sched).head_ne c _ hcell
  have hlt : (s.withTasks p sched).computePrefixSums.rewriteIndex g < s'.size := by
    rw [hb.size_eq]
    exact lt_of_lt_of_le hmem.2 hright
  rw [empty, if_neg (not_le.mpr hlt), hb.target g hg]
  simpa using hhead

/-- Empty cells hold no block. -/
lemma cell_null (c : ℕ) (he : s'.empty p c = true) : s'.pma c = PmaEntry.null p.toBlockParams := by
  by_cases hin : (s.withTasks p sched).InTask c
  · refine hb.hole c hin fun g hg heq => ?_
    rw [← heq, h.not_empty_target hb hg] at he
    exact absurd he (by simp)
  · have hsame := hb.outside c hin
    have hsize := hb.size_le
    have hsize' : (s.withTasks p sched).size = s.size := rfl
    rw [hsame]
    refine h.clean.cell_null c ?_
    rw [empty] at he ⊢
    split
    · rfl
    · rename_i hlt
      rw [hsame] at he
      split at he
      · omega
      · exact he

/-- The first cell is not empty. -/
lemma first_result : s'.empty p 0 = false := by
  by_cases hin : (s.withTasks p sched).InTask 0
  · obtain ⟨task, ht, h1, h2⟩ := hin
    have hpos := (h.taskShape sched ht).blocks_pos
    obtain ⟨i, hi, rfl⟩ := List.mem_iff_getElem.mp ht
    rw [getElem_rebalancingTasks] at h1 hpos
    have hfirst := (h.tasksFit (List.ne_nil_of_mem ht)).rewriteIndex_first h.threads_pos hi hpos
    have hsucc : (s.withTasks p sched).firstBlock (i + 1) = (s.withTasks p sched).firstBlock i +
        ((s.withTasks p sched).rebalancingTask i).numberOfBlocks := firstBlock_succ hi
    have htotal : (s.withTasks p sched).firstBlock (i + 1) ≤ (s.withTasks p sched).totalBlocks :=
      firstBlock_le_total hi
    have hgoal := h.not_empty_target hb (g := (s.withTasks p sched).firstBlock i) (by omega)
    have hzero : (s.withTasks p sched).computePrefixSums.rewriteIndex
        ((s.withTasks p sched).firstBlock i) = 0 :=
      hfirst.trans (Nat.le_zero.mp h1)
    rwa [hzero] at hgoal
  · have hsame := hb.cellBlocks_outside (h.ready_withTasks sched) (h.clean_withTasks sched)
      (h.covered sched) hin
    rw [cellBlocks_of_pointers (hb.pointers 0)] at hsame
    by_contra he
    rw [if_pos (by simpa using he)] at hsame
    exact h.first (List.map_eq_nil_iff.mp hsame.symm)

end Result

end Rebalanceable

/-! ## The phase -/

lemma rebalancingPhase_of_nil (hnil : (s.withTasks p sched).rebalancingTasks = []) :
    s.rebalancingPhase p sched =
      { s.withTasks p sched with prefixNumberOfRebalancingBlocks := [] } := by
  rw [rebalancingPhase]
  exact if_pos hnil

lemma rebalancingPhase_of_ne (hne : (s.withTasks p sched).rebalancingTasks ≠ []) :
    s.rebalancingPhase p sched =
      { ((s.withTasks p sched).moveToSwap p sched).moveBack p sched
          (s.withTasks p sched).newPmaSize with
        rebalancingTasks := []
        prefixNumberOfRebalancingBlocks := [] } := by
  rw [rebalancingPhase]
  exact if_neg hne

namespace Rebalanceable

variable (h : s.Rebalanceable p)
include h

/-- Without tasks there are no buffer blocks, and nothing is to be done. -/
lemma rebalanced_of_nil (hnil : (s.withTasks p sched).rebalancingTasks = []) :
    Rebalanced p (s.withTasks p sched)
      { s.withTasks p sched with prefixNumberOfRebalancingBlocks := [] } := by
  have hptr : ∀ c, (s.bufferPointers c).length = 0 := by
    intro c
    by_contra hpos
    obtain ⟨task, ht, -⟩ := (h.covered sched).buffers c (Nat.pos_of_ne_zero hpos)
    rw [hnil] at ht
    exact absurd ht List.not_mem_nil
  have hsize : (s.withTasks p sched).newPmaSize = s.size := by
    rw [newPmaSize, hnil]
    rfl
  have htotal : (s.withTasks p sched).totalBlocks = 0 := by
    rw [totalBlocks, firstBlock, hnil]
    rfl
  have hmanager : (s.withTasks p sched).rebalancingManager =
      (s.withTasks p sched).rebalancingManager.resize s.size := by
    obtain ⟨a, next, hframe, -⟩ := h.frame_withTasks sched
    have hle := h.tree.size_le
    rw [h.tree.size_eq] at hle
    rw [hframe, resize_of_le (m := s.rebalancingManager.withCounters a next) hle]
    simp only [RebalancingManager.withCounters, RebalancingManager.mk.injEq, true_and, and_true]
    exact h.tree.size_eq
  refine ⟨hsize.symm, h.swapCapacity_eq, h.size_lt, fun g hg => ?_, fun c hc => ?_, fun _ _ => rfl,
    h.clean.swap_null, fun j => ?_, hptr, fun _ => Or.inr rfl,
    ⟨(s.withTasks p sched).rebalancingManager, ?_, ?_⟩, rfl, fun k => ?_, rfl, rfl, rfl⟩
  · omega
  · obtain ⟨task, ht, -⟩ := hc
    rw [hnil] at ht
    exact absurd ht List.not_mem_nil
  · refine h.clean.buffer_null j fun c hc => ?_
    have := hptr c
    rw [Interval.length] at this
    have h1 := hc.1
    have h2 := hc.2
    omega
  · have hset : {node | ∃ task ∈ (s.withTasks p sched).rebalancingTasks, node = task.rootNode} =
        ∅ := by
      rw [Set.eq_empty_iff_forall_notMem]
      rintro node ⟨task, ht, -⟩
      rw [hnil] at ht
      exact absurd ht List.not_mem_nil
    rw [hset]
    exact FlagsCleared.refl _
  · rw [hsize]
    exact hmanager
  · refine ⟨Or.inl, fun hk => hk.resolve_right ?_⟩
    rintro ⟨g, hg, -⟩
    omega

/-- Steps B-4 to B-9 with any number of tasks. -/
lemma rebalanced (sched : Schedule) :
    Rebalanced p (s.withTasks p sched) (s.rebalancingPhase p sched) := by
  by_cases hnil : (s.withTasks p sched).rebalancingTasks = []
  · rw [rebalancingPhase_of_nil hnil]
    exact h.rebalanced_of_nil hnil
  · have hb := (h.ready_withTasks sched).rebalanced (h.clean_withTasks sched) (h.covered sched)
      hnil (fun task ht => (h.taskShape sched ht).blocks_pos) h.swapCapacity_eq h.threads_pos sched
    rw [rebalancingPhase_of_ne hnil]
    exact ⟨hb.size_eq, hb.swapCapacity_eq, hb.size_lt, hb.target, hb.hole, hb.outside,
      hb.swap_null, hb.buffer_null, hb.pointers, hb.pointer, hb.manager, hb.flagged, hb.mem_keys,
      hb.rebalancingNodes_eq, hb.numberOfThreads_eq, hb.bufferCapacity_eq⟩

/-- **The rebalancing phase** keeps the sequence of blocks. -/
theorem blocks_rebalancingPhase (sched : Schedule) :
    (s.rebalancingPhase p sched).blocks p = s.blocks p := by
  by_cases hnil : (s.withTasks p sched).rebalancingTasks = []
  · rw [rebalancingPhase_of_nil hnil]
    rfl
  · have hsame : (s.rebalancingPhase p sched).blocks p = (s.withTasks p sched).blocks p :=
      (h.rebalanced sched).blocks_eq (h.ready_withTasks sched) (h.clean_withTasks sched)
        (h.covered sched) hnil h.threads_pos fun task ht => h.right_le_newPmaSize sched ht
    exact hsame

/-- The tree does not shrink. -/
lemma logCapacity_le (sched : Schedule) : s.rebalancingManager.logCapacity ≤
    (s.rebalancingPhase p sched).rebalancingManager.logCapacity := by
  obtain ⟨m, hm, hmanager⟩ := (h.rebalanced sched).manager
  have hs := h.swept hm
  rw [hmanager, ← hs.logCapacity_eq]
  rcases resize_or_grown hs.levels hs.size_le (s.withTasks p sched).newPmaSize with
    ⟨heq, -⟩ | ⟨hgrown, -⟩
  · rw [heq]
  · exact hgrown.le

/-- **The rebalancing phase** leads back to what holds between two calls. -/
theorem quiescent (sched : Schedule) : (s.rebalancingPhase p sched).Quiescent p := by
  have hb := h.rebalanced sched
  have hflagged : ∀ i ∈ (s.rebalancingPhase p sched).recountingNodesMap.flagged, i = 0 := by
    rw [hb.flagged]
    exact fun i hi => h.keys_withTasks sched i ((s.withTasks p sched).recountingNodesMap.flagged_subset hi)
  refine ⟨h.treeValid hb, ?_, hflagged, h.cell_null hb, hb.swap_null, hb.buffer_null, fun c => ?_,
    hb.swapCapacity_eq, hb.size_lt, ?_, Or.inr (h.first_result hb), ?_⟩
  · obtain ⟨m, hm, hmanager⟩ := hb.manager
    have hs := h.swept hm
    rw [hmanager]
    rcases resize_or_grown hs.levels hs.size_le (s.withTasks p sched).newPmaSize with
      ⟨heq, -⟩ | ⟨hgrown, -⟩
    · rw [heq]
      exact hs.unmarked
    · rw [hgrown.next_eq]
      exact hs.unmarked
  · rcases hb.pointer c with hz | hold
    · exact hz
    · rw [hold]
      refine h.tight c ?_
      have := hb.pointers c
      rwa [hold] at this
  · rw [Aligned, hb.size_eq]
    exact h.aligned_newPmaSize sched
  · rw [hb.numberOfThreads_eq]
    exact h.threads_pos

end Rebalanceable

end BatchedSparseArray

end BatchPMA
