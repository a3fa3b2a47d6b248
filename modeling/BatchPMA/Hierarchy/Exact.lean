import BatchPMA.Hierarchy.Update

/-!
# Exactness of the incremental update

If the counters of the leaves that were not marked are right, `update` makes the counters of the
whole tree right: every node holds the number of pma and buffer blocks in its range, as if
everything had been counted anew by `recompute`.
-/

namespace BatchPMA

open RebalancingManager Dyadic

/-- The pma block and the buffer blocks of a cell. -/
def SdsView.blocksAt (sds : SdsView) (cell : ℕ) : ℕ :=
  (if sds.empty cell then 0 else 1) + sds.numberOfBufferBlocks cell

/-- The number of blocks in the cells `[first, last)`. -/
def SdsView.blocksIn (sds : SdsView) (first last : ℕ) : ℕ :=
  ∑ cell ∈ Finset.Ico first last, sds.blocksAt cell

namespace RebalancingManager

/-- The number of blocks in the range of a node. -/
def trueBlocks (m : RebalancingManager) (sds : SdsView) (level index : ℕ) : ℕ :=
  sds.blocksIn (index * (2 ^ level * m.aggregateWidth)) ((index + 1) * (2 ^ level * m.aggregateWidth))

variable {m : RebalancingManager} {sds : SdsView}

/-- Counting the cells in front of an end behind which there are no blocks. -/
lemma countLevelZero_eq {n : ℕ} (hn : ∀ cell, n ≤ cell → sds.blocksAt cell = 0) (index : ℕ) :
    m.countLevelZero sds n index = m.trueBlocks sds 0 index := by
  have hcount : m.countLevelZero sds n index =
      ∑ cell ∈ Finset.Ico (index * m.aggregateWidth) (min n ((index + 1) * m.aggregateWidth)),
        sds.blocksAt cell := rfl
  rw [hcount, trueBlocks, SdsView.blocksIn, pow_zero, Nat.one_mul]
  refine Finset.sum_subset (Finset.Ico_subset_Ico_right (min_le_right _ _)) fun c hc hout => hn c ?_
  rw [Finset.mem_Ico] at hc hout
  omega

lemma trueBlocks_eq_subtotal (m : RebalancingManager) (sds : SdsView) (l i : ℕ) :
    m.trueBlocks sds l i = subtotal (m.trueBlocks sds 0) l i := by
  have : m.trueBlocks sds 0 = fun j =>
      ∑ c ∈ Finset.Ico (j * m.aggregateWidth) ((j + 1) * m.aggregateWidth), sds.blocksAt c := by
    funext j
    rw [trueBlocks, SdsView.blocksIn, pow_zero, Nat.one_mul]
  rw [this, subtotal_segments]
  rfl

/-! ## Counting everything anew -/

/-- The state of `recompute` in front of node `n` of level `l`. -/
structure Recounted (m : RebalancingManager) (f : ℕ → ℕ) (l n : ℕ) (m' : RebalancingManager) :
    Prop where
  frame : ∃ a next, m' = m.withCounters a next
  below : ∀ l' < l, ∀ i < 2 ^ (m.logCapacity - l'),
    (m'.aggregate i l').numberOfBlocks = subtotal f l' i
  counted : ∀ i < n, (m'.aggregate i l).numberOfBlocks = subtotal f l i

variable {f : ℕ → ℕ} {l n : ℕ} {m' : RebalancingManager}

lemma Recounted.setNumberOfBlocks (hm : m.LevelsValid) (h : Recounted m f l n m')
    (hl : l ≤ m.logCapacity) (hn : n < 2 ^ (m.logCapacity - l)) :
    Recounted m f l (n + 1) (m'.setNumberOfBlocks n l (subtotal f l n)) := by
  obtain ⟨a, next, rfl⟩ := h.frame
  have hnode : m.IsNode l n := IsNode.of_lt hl hn
  refine ⟨⟨_, _, rfl⟩, fun l' hl' i hi => ?_, fun i hi => ?_⟩
  · have hne : m.aggregateIndex i l' ≠ m.aggregateIndex n l := fun heq => by
      have := (hm.aggregateIndex_inj (IsNode.of_lt (by omega) hi) hnode heq).1
      omega
    rw [← h.below l' hl' i hi]
    exact congrArg _ (Function.update_of_ne hne _ _)
  · rcases Nat.eq_or_lt_of_le (Nat.lt_succ_iff.mp hi) with rfl | hlt
    · exact congrArg _ (Function.update_self _ _ _)
    · have hne : m.aggregateIndex i l ≠ m.aggregateIndex n l := fun heq => by
        rw [aggregateIndex, aggregateIndex] at heq
        omega
      rw [← h.counted i hlt]
      exact congrArg _ (Function.update_of_ne hne _ _)

/-- The loop over the nodes of a level. -/
lemma Recounted.foldl (hm : m.LevelsValid) (hl : l ≤ m.logCapacity)
    (count : RebalancingManager → ℕ → ℕ)
    (hcount : ∀ n m', n < 2 ^ (m.logCapacity - l) → Recounted m f l n m' →
      count m' n = subtotal f l n) (h : Recounted m f l 0 m') :
    ∀ n ≤ 2 ^ (m.logCapacity - l), Recounted m f l n
      ((List.range n).foldl (fun m' i => m'.setNumberOfBlocks i l (count m' i)) m')
  | 0, _ => h
  | n + 1, hn => by
      have ih := h.foldl hm hl count hcount n (by omega)
      rw [List.range_succ, List.foldl_append, List.foldl_cons, List.foldl_nil,
        hcount n _ (by omega) ih]
      exact ih.setNumberOfBlocks hm hl (by omega)

lemma Recounted.nextLevel (h : Recounted m f l (2 ^ (m.logCapacity - l)) m') :
    Recounted m f (l + 1) 0 m' where
  frame := h.frame
  below l' hl' i hi := by
    rcases Nat.eq_or_lt_of_le (Nat.lt_succ_iff.mp hl') with rfl | hlt
    · exact h.counted i hi
    · exact h.below l' hlt i hi
  counted i hi := absurd hi (Nat.not_lt_zero i)

lemma Recounted.numberOfAggregatesInLevel (hm : m.LevelsValid) (h : Recounted m f l n m') {l' : ℕ}
    (hl : l' ≤ m.logCapacity) : m'.numberOfAggregatesInLevel l' = 2 ^ (m.logCapacity - l') := by
  obtain ⟨a, next, rfl⟩ := h.frame
  exact (hm.withCounters a next).numberOfAggregatesInLevel_eq hl

/-- The loop over the levels of `recompute`. -/
lemma Recounted.foldl_levels (hm : m.LevelsValid) (h : Recounted m f 1 0 m') :
    ∀ n ≤ m.logCapacity, Recounted m f (n + 1) 0
      ((List.range' 1 n).foldl (fun m level =>
        (List.range (m.numberOfAggregatesInLevel level)).foldl
          (fun m i => m.setNumberOfBlocks i level (m.aggregateNodeHigherLevel i level)) m) m')
  | 0, _ => h
  | n + 1, hn => by
      have ih := h.foldl_levels hm n (by omega)
      rw [List.range'_concat, List.foldl_append, List.foldl_cons, List.foldl_nil, Nat.one_mul,
        Nat.add_comm 1 n, ih.numberOfAggregatesInLevel hm hn]
      refine Recounted.nextLevel (ih.foldl hm hn _ ?_ _ (le_refl _))
      intro i m'' hi h'
      obtain ⟨h1, h2⟩ := children_lt hn hi
      rw [aggregateNodeHigherLevel, leftChild, rightChild, Nat.add_sub_cancel,
        h'.below n (Nat.lt_succ_self n) _ h1, h'.below n (Nat.lt_succ_self n) _ h2, subtotal_succ]

/-- **Recomputing.**  `recompute` gives every node the number of blocks in its range. -/
theorem numberOfBlocks_recompute (hm : m.LevelsValid) (hn : ∀ cell, n ≤ cell → sds.blocksAt cell = 0)
    {l i : ℕ} (hl : l ≤ m.logCapacity) (hi : i < 2 ^ (m.logCapacity - l)) :
    ((m.recompute sds n).aggregate i l).numberOfBlocks = m.trueBlocks sds l i := by
  have hstart : Recounted m (m.trueBlocks sds 0) 0 0 m :=
    ⟨⟨m.aggregates, m.nextLevelRecountingNodes, rfl⟩, fun l' hl' => absurd hl' (Nat.not_lt_zero _),
      fun i hi => absurd hi (Nat.not_lt_zero _)⟩
  have hzero := hstart.foldl hm (Nat.zero_le _) (fun m i => m.countLevelZero sds n i)
    (fun i m' _ h => by
      obtain ⟨a, next, rfl⟩ := h.frame
      rw [subtotal_zero]
      exact countLevelZero_eq hn i) _ (le_refl _)
  have hall := hzero.nextLevel.foldl_levels hm _ (le_refl _)
  rw [trueBlocks_eq_subtotal, recompute, hm.numberOfAggregatesInLevel_eq (Nat.zero_le _)]
  exact hall.below l (Nat.lt_succ_of_le hl) i hi

/-- All counters of the tree are the numbers of blocks in the ranges of their nodes. -/
def CountersExact (m : RebalancingManager) (sds : SdsView) : Prop :=
  ∀ l ≤ m.logCapacity, ∀ i < 2 ^ (m.logCapacity - l),
    (m.aggregate i l).numberOfBlocks = m.trueBlocks sds l i

lemma create_levelsValid (w : ℕ) (d : DensityManager) (n : ℕ) : (create w d n).LevelsValid :=
  ⟨rfl, rfl, rfl, rfl⟩

end RebalancingManager

namespace UpdateState

variable {st : UpdateState} {sds : SdsView}

/-- `update` changes nothing of the hierarchy but the counters and the map. -/
lemma Consistent.frame (h : st.Consistent) (sched : Schedule) (sds : SdsView) :
    ∃ a next, (st.update sched sds).manager = st.manager.withCounters a next := by
  obtain ⟨a, next, hframe⟩ := (h.visited sched sds _ (le_refl _)).frame
  rw [h.update_eq, checkSuperRoot]
  split
  · split
    · exact ⟨a, next, hframe⟩
    · exact ⟨_, next, by rw [hframe]; rfl⟩
  · exact ⟨a, next, hframe⟩

/-- If the unmarked leaves are right, every leaf counts its own blocks. -/
lemma leafCount_eq_trueBlocks
    (hleaves : ∀ i < 2 ^ st.manager.logCapacity, i ∉ st.recountingNodesMap.keys →
      (st.manager.aggregate i 0).numberOfBlocks = st.manager.trueBlocks sds 0 i)
    (hsize : ∀ cell, max 1 sds.size ≤ cell → sds.blocksAt cell = 0)
    {i : ℕ} (hi : i < 2 ^ st.manager.logCapacity) :
    st.leafCount sds i = st.manager.trueBlocks sds 0 i := by
  rw [leafCount]
  split
  · exact countLevelZero_eq hsize i
  · rename_i hout
    exact hleaves i hi hout

lemma subtotal_leafCount
    (hleaves : ∀ i < 2 ^ st.manager.logCapacity, i ∉ st.recountingNodesMap.keys →
      (st.manager.aggregate i 0).numberOfBlocks = st.manager.trueBlocks sds 0 i)
    (hsize : ∀ cell, max 1 sds.size ≤ cell → sds.blocksAt cell = 0)
    {l i : ℕ} (hl : l ≤ st.manager.logCapacity) (hi : i < 2 ^ (st.manager.logCapacity - l)) :
    subtotal (st.leafCount sds) l i = st.manager.trueBlocks sds l i := by
  rw [trueBlocks_eq_subtotal]
  refine subtotal_congr fun j _ hj => leafCount_eq_trueBlocks hleaves hsize ?_
  exact leaf_lt hl hi hj

/-- The counters after `update`. -/
lemma Consistent.numberOfBlocks_update_eq (h : st.Consistent)
    (hleaves : ∀ i < 2 ^ st.manager.logCapacity, i ∉ st.recountingNodesMap.keys →
      (st.manager.aggregate i 0).numberOfBlocks = st.manager.trueBlocks sds 0 i)
    (hsize : ∀ cell, max 1 sds.size ≤ cell → sds.blocksAt cell = 0) (sched : Schedule) {l i : ℕ}
    (hl : l ≤ st.manager.logCapacity) (hi : i < 2 ^ (st.manager.logCapacity - l)) :
    ((st.update sched sds).manager.aggregate i l).numberOfBlocks = st.manager.trueBlocks sds l i := by
  rw [h.numberOfBlocks_update sched sds hl hi, subtotal_leafCount hleaves hsize hl hi]

lemma Consistent.countersExact_update (h : st.Consistent)
    (hleaves : ∀ i < 2 ^ st.manager.logCapacity, i ∉ st.recountingNodesMap.keys →
      (st.manager.aggregate i 0).numberOfBlocks = st.manager.trueBlocks sds 0 i)
    (hsize : ∀ cell, max 1 sds.size ≤ cell → sds.blocksAt cell = 0) (sched : Schedule) :
    (st.update sched sds).manager.CountersExact sds := by
  intro l hl i hi
  obtain ⟨a, next, hframe⟩ := h.frame sched sds
  rw [hframe] at hl hi
  rw [h.numberOfBlocks_update_eq hleaves hsize sched hl hi, hframe]
  rfl

/-- **The incremental update.**  If the leaves that are not marked store their number of blocks
and every other node stores the sum of its children, then after `update` every node stores the
number of blocks in its range, which is what `recompute` would have stored; and counters, flags
and the set of rebalancing nodes do not depend on the order in which nodes are visited. -/
theorem update_exact (st : UpdateState) (sds : SdsView) (h : st.Consistent)
    (hleaves : ∀ i < 2 ^ st.manager.logCapacity, i ∉ st.recountingNodesMap.keys →
      (st.manager.aggregate i 0).numberOfBlocks = st.manager.trueBlocks sds 0 i)
    (hsize : ∀ cell, max 1 sds.size ≤ cell → sds.blocksAt cell = 0) :
    (∀ sched, (st.update sched sds).manager.CountersExact sds ∧
      ∀ n, max 1 sds.size ≤ n → ∀ l ≤ st.manager.logCapacity,
        ∀ i < 2 ^ (st.manager.logCapacity - l),
          ((st.update sched sds).manager.aggregate i l).numberOfBlocks =
            ((st.manager.recompute sds n).aggregate i l).numberOfBlocks) ∧
      ∀ sched sched',
        (st.update sched sds).manager.aggregates = (st.update sched' sds).manager.aggregates ∧
          ∀ node, node ∈ (st.update sched sds).rebalancingNodes ↔
            node ∈ (st.update sched' sds).rebalancingNodes := by
  refine ⟨fun sched => ⟨h.countersExact_update hleaves hsize sched, fun n hn l hl i hi => ?_⟩,
    fun sched sched' => ?_⟩
  · rw [h.numberOfBlocks_update_eq hleaves hsize sched hl hi]
    refine (numberOfBlocks_recompute h.levels (fun cell hc => hsize cell ?_) hl hi).symm
    exact le_trans hn hc
  · have hagree := h.agree_update sched sched' sds
    exact ⟨congrArg _ hagree.manager, fun node => hagree.rebalancingNodes.mem_iff⟩

/-! ## The first batch

On a fresh array all new blocks are buffer blocks of cell `0`, and leaf `0` is marked. -/

def firstBatch (segmentWidth : ℕ) : UpdateState :=
  ⟨create segmentWidth densityOne 0, BucketMap.clear.insert 0 true, []⟩

def firstBatchView (numberOfBlocks : ℕ) : SdsView :=
  ⟨0, fun _ => true, fun cell => if cell = 0 then numberOfBlocks else 0⟩

lemma firstBatch_consistent (w : ℕ) : (firstBatch w).Consistent where
  levels := create_levelsValid _ _ _
  sums l _ i _ := rfl
  keys_lt i hi := by
    obtain rfl : i = 0 := by simpa [firstBatch] using hi
    exact Nat.two_pow_pos _
  leftover_lt i hi := by
    have : i ∈ BucketMap.clear.keys := hi
    simp at this

lemma firstBatchView_blocksAt (n cell : ℕ) :
    (firstBatchView n).blocksAt cell = if cell = 0 then n else 0 :=
  Nat.zero_add _

/-- The blocks of the first batch are in the leftmost node of every level. -/
lemma firstBatchView_trueBlocks {w : ℕ} (hw : 0 < w) (n l i : ℕ) :
    (firstBatch w).manager.trueBlocks (firstBatchView n) l i = if i = 0 then n else 0 := by
  have hpos : 0 < 2 ^ l * w := Nat.mul_pos (Nat.two_pow_pos l) hw
  have hwidth : (firstBatch w).manager.aggregateWidth = w := rfl
  rw [trueBlocks, SdsView.blocksIn, hwidth]
  simp only [firstBatchView_blocksAt, Finset.sum_ite_eq', Finset.mem_Ico, Nat.le_zero,
    Nat.mul_eq_zero, hpos.ne', or_false]
  refine if_congr ⟨fun h => h.1, fun h => ⟨h, ?_⟩⟩ rfl rfl
  rw [h]
  omega

lemma firstBatch_leaves {w : ℕ} (hw : 0 < w) (n : ℕ) :
    (∀ i < 2 ^ (firstBatch w).manager.logCapacity, i ∉ (firstBatch w).recountingNodesMap.keys →
      ((firstBatch w).manager.aggregate i 0).numberOfBlocks =
        (firstBatch w).manager.trueBlocks (firstBatchView n) 0 i) ∧
      ∀ cell, max 1 (firstBatchView n).size ≤ cell → (firstBatchView n).blocksAt cell = 0 := by
  refine ⟨fun i _ hout => ?_, fun cell hc => ?_⟩
  · have hne : i ≠ 0 := by simpa [firstBatch] using hout
    rw [firstBatchView_trueBlocks hw, if_neg hne]
    rfl
  · rw [firstBatchView_blocksAt, if_neg (by omega)]

/-- The update after a first batch of three blocks, for every schedule. -/
theorem update_exact_firstBatch :
    (∀ sched, ((firstBatch 4).update sched (firstBatchView 3)).manager.CountersExact
      (firstBatchView 3)) ∧
      ∀ sched, (((firstBatch 4).update sched (firstBatchView 3)).manager.aggregate 0
        14).numberOfBlocks = 3 := by
  have h := update_exact (firstBatch 4) (firstBatchView 3) (firstBatch_consistent 4)
    (firstBatch_leaves four_pos 3).1 (firstBatch_leaves four_pos 3).2
  refine ⟨fun sched => (h.1 sched).1, fun sched => ?_⟩
  obtain ⟨a, next, hframe⟩ := (firstBatch_consistent 4).frame sched (firstBatchView 3)
  have hroot := (h.1 sched).1 14 (by rw [hframe]; exact le_refl _) 0 (Nat.two_pow_pos _)
  rw [hroot, hframe]
  exact firstBatchView_trueBlocks four_pos 3 14 0

end UpdateState

end BatchPMA
