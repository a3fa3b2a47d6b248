import BatchPMA.Rebalance.Inserted
import BatchPMA.Rebalance.Content
import BatchPMA.Rebalance.Coverage
import BatchPMA.Hierarchy.Marks

/-!
# A tree with room at its root

As long as the blocks stay within the threshold of the root, no mark is lost there, the super root
is not needed, and the size of the array stays a power of two times the segment width.  A range that
reaches behind the size then begins with the first cell, so the two ways in which steps B-4 and B-8
can lose blocks do not occur.
-/

namespace BatchPMA

open RebalancingManager Dyadic Ranges

variable {K α : Type}

namespace BatchedSparseArray

variable [DecidableEq K] {p : BatchedParams K α} {s s' : BatchedSparseArray K α}
  {sched : Schedule}

/-- The size is zero or that of a leftmost node. -/
def Aligned (p : BatchedParams K α) (s : BatchedSparseArray K α) : Prop :=
  s.size = 0 ∨ ∃ j, s.size = 2 ^ j * p.segmentWidth

/-- The blocks are within the threshold of the root. -/
def RootRoom (p : BatchedParams K α) (s : BatchedSparseArray K α) : Prop :=
  (s.blocks p).length ≤ s.rebalancingManager.threshold s.rebalancingManager.logCapacity

/-- What the rebalancing phase starts from when nothing goes wrong. -/
structure Rebalanceable (p : BatchedParams K α) (s : BatchedSparseArray K α) : Prop
    extends s.Inserted p where
  params : p.Valid
  unmarked : s.rebalancingManager.nextLevelRecountingNodes.flagged = ∅
  aligned : s.Aligned p
  room : s.RootRoom p
  tight : ∀ c, (s.bufferPointers c).length = 0 → s.bufferPointers c = .zero

/-! ## The root -/

/-- The root counts all blocks. -/
lemma Inserted.root_eq (h : s.Inserted p) (hw : 0 < s.rebalancingManager.aggregateWidth) :
    subtotal (s.updateState.leafCount (s.sdsView p)) s.rebalancingManager.logCapacity 0 =
      (s.blocks p).length := by
  have hlt := h.tree.size_lt hw
  have hpos : 0 < 2 ^ s.rebalancingManager.logCapacity * s.rebalancingManager.aggregateWidth :=
    Nat.mul_pos (Nat.two_pow_pos _) hw
  have hsum := @UpdateState.subtotal_leafCount s.updateState (s.sdsView p) h.tree.leaves
    (blocksAt_behind h.behind) s.rebalancingManager.logCapacity 0 (le_refl _) (Nat.two_pow_pos _)
  have hmanager : s.updateState.manager = s.rebalancingManager := rfl
  rw [hmanager] at hsum
  rw [hsum, trueBlocks, h.pointersInCapacity.blocksIn_eq, Nat.zero_mul, Nat.zero_add, Nat.one_mul,
    blocks_eq h.behind (show max 1 s.size ≤ 2 ^ s.rebalancingManager.logCapacity *
      s.rebalancingManager.aggregateWidth by omega), itemsIn_cellBlocks, List.length_map]

/-- A node above its threshold fills two thirds of its cells. -/
lemma TreeValid.le_threshold (h : s.TreeValid p) (hp : p.Valid) {l : ℕ}
    (hl : l ≤ s.rebalancingManager.logCapacity) :
    2 * (2 ^ l * p.segmentWidth) ≤ 3 * (s.rebalancingManager.threshold l + 1) := by
  rw [RebalancingManager.threshold, h.levels.levelAggregateWidth_eq hl, h.density_eq, h.width_eq]
  exact hp.twoThirds l s.rebalancingManager.logCapacity hl

/-- A node of the tree may hold twice as many blocks as it has leaves. -/
lemma TreeValid.two_mul_le_threshold (h : s.TreeValid p) (hp : p.Valid) {l : ℕ}
    (hl : l ≤ s.rebalancingManager.logCapacity) :
    2 * 2 ^ l ≤ s.rebalancingManager.threshold l := by
  have hfilled := h.le_threshold hp hl
  have hwidth := Nat.mul_le_mul_left (2 ^ l) hp.segmentWidth_ge
  have hpos := Nat.two_pow_pos l
  omega

namespace Rebalanceable

variable (h : s.Rebalanceable p)
include h

lemma segment_pos : 0 < p.segmentWidth := by
  have := h.params.segmentWidth_ge
  omega

lemma width_pos : 0 < s.rebalancingManager.aggregateWidth := by
  rw [h.tree.width_eq]
  exact h.segment_pos

lemma densityValid : s.rebalancingManager.density.Valid s.rebalancingManager.aggregateWidth := by
  rw [h.tree.density_eq, h.tree.width_eq]
  exact h.params.density

lemma rootRoom : subtotal (s.updateState.leafCount (s.sdsView p))
    s.updateState.manager.logCapacity 0 ≤
      s.updateState.manager.threshold s.updateState.manager.logCapacity := by
  have := h.toInserted.root_eq h.width_pos
  have hroom := h.room
  rw [RootRoom, ← this] at hroom
  exact hroom

lemma rootFits : subtotal (s.updateState.leafCount (s.sdsView p))
    s.updateState.manager.logCapacity 0 ≤
      s.updateState.manager.aggregateWidth * 2 ^ s.updateState.manager.logCapacity := by
  have := h.tree.levels.threshold_le h.densityValid (le_refl s.rebalancingManager.logCapacity)
  refine le_trans h.rootRoom (le_trans this (le_of_eq (Nat.mul_comm _ _)))

/-! ## The nodes that are kept -/

/-- A collected node has at least one block for each of its leaves. -/
lemma collected (sched : Schedule) {node : RebalancingNode}
    (hn : node ∈ (s.updateHierarchy p sched).rebalancingNodes) :
    node.level ≤ s.rebalancingManager.logCapacity ∧
      2 ^ node.level ≤ subtotal (s.updateState.leafCount (s.sdsView p)) node.level node.index := by
  have hc := h.tree.consistent
  obtain ⟨hl, hcrowd⟩ := hc.threshold_lt h.tree.flagsClear sched (s.sdsView p) h.unmarked
    h.rootFits hn
  refine ⟨hl, ?_⟩
  rcases hcrowd with h0 | hover
  · -- a leaf that is collected has a block
    obtain ⟨c, hlt, hidx, hne⟩ := h.toInserted.node_block hn
    have hsize := h.tree.size_lt h.width_pos
    have hleaf : node.index < 2 ^ (s.updateState.manager.logCapacity - 0) := by
      rw [hidx, h0, pow_zero, Nat.div_one]
      refine (Nat.div_lt_iff_lt_mul h.width_pos).mpr ?_
      have hpos : 0 < 2 ^ s.rebalancingManager.logCapacity *
          s.rebalancingManager.aggregateWidth := Nat.mul_pos (Nat.two_pow_pos _) h.width_pos
      change c < 2 ^ s.rebalancingManager.logCapacity * s.rebalancingManager.aggregateWidth
      omega
    have hsum := @UpdateState.subtotal_leafCount s.updateState (s.sdsView p) h.tree.leaves
      (blocksAt_behind h.behind) 0 node.index (Nat.zero_le _) hleaf
    have hmanager : s.updateState.manager = s.rebalancingManager := rfl
    rw [h0, hsum, hmanager, trueBlocks, h.toInserted.pointersInCapacity.blocksIn_eq, pow_zero,
      Nat.one_mul, Nat.one_le_iff_ne_zero, List.length_eq_zero_iff.ne]
    obtain ⟨q, hq⟩ := List.exists_mem_of_ne_nil _ hne
    refine List.ne_nil_of_mem (mem_placesIn.mpr ⟨c, ?_, ?_, hq⟩)
    · rw [hidx, h0, pow_zero, Nat.div_one]
      exact Nat.div_mul_le_self _ _
    · rw [hidx, h0, pow_zero, Nat.div_one]
      exact Nat.lt_mul_of_div_lt (Nat.lt_succ_self _) h.width_pos
  · rcases Nat.eq_zero_or_pos node.level with h0 | hpos
    · rw [h0] at hover ⊢
      have := h.tree.two_mul_le_threshold h.params (Nat.zero_le s.rebalancingManager.logCapacity)
      have hthr : s.updateState.manager.threshold 0 = s.rebalancingManager.threshold 0 := rfl
      rw [Nat.zero_sub, hthr] at hover
      omega
    · obtain ⟨l, hl'⟩ := Nat.exists_eq_succ_of_ne_zero hpos.ne'
      have hll : l ≤ s.rebalancingManager.logCapacity := by
        have hcap : s.updateState.manager.logCapacity = s.rebalancingManager.logCapacity := rfl
        omega
      have := h.tree.two_mul_le_threshold h.params hll
      have hthr : s.updateState.manager.threshold l = s.rebalancingManager.threshold l := rfl
      rw [hl', Nat.succ_sub_one, hthr] at hover
      rw [hl', pow_succ]
      omega

/-- A range that reaches behind the size begins with the first cell. -/
lemma left_eq_zero {l i c : ℕ} (hc : c < max 1 s.size)
    (hi : i = c / s.rebalancingManager.aggregateWidth / 2 ^ l)
    (hr : s.size < (i + 1) * (2 ^ l * s.rebalancingManager.aggregateWidth)) : i = 0 := by
  rcases h.aligned with h0 | ⟨j, hj⟩
  · rw [hi, show c = 0 by omega]
    simp
  · have hw := h.width_pos
    rw [hj, ← h.tree.width_eq] at hc
    have hpos : 0 < 2 ^ j * s.rebalancingManager.aggregateWidth :=
      Nat.mul_pos (Nat.two_pow_pos j) hw
    have hleaf : c / s.rebalancingManager.aggregateWidth < 2 ^ j :=
      (Nat.div_lt_iff_lt_mul hw).mpr (by omega)
    rw [hj, ← h.tree.width_eq, ← Nat.mul_assoc] at hr
    have hlt : 2 ^ j < (i + 1) * 2 ^ l := lt_of_mul_lt_mul_right hr (Nat.zero_le _)
    have hle : i * 2 ^ l ≤ c / s.rebalancingManager.aggregateWidth := by
      rw [hi]
      exact Nat.div_mul_le_self _ _
    rcases Nat.lt_or_ge j l with hjl | hlj
    · -- the range is longer than the array
      have := Nat.pow_lt_pow_right (a := 2) (by norm_num) hjl
      by_contra hne
      have := Nat.le_mul_of_pos_left (2 ^ l) (Nat.pos_of_ne_zero hne)
      omega
    · obtain ⟨d, rfl⟩ := Nat.exists_eq_add_of_le hlj
      rw [pow_add, Nat.mul_comm (2 ^ l)] at hlt hleaf
      have h1 : 2 ^ d < i + 1 := lt_of_mul_lt_mul_right hlt (Nat.zero_le _)
      have h2 : i < 2 ^ d := lt_of_mul_lt_mul_right (lt_of_le_of_lt hle hleaf) (Nat.zero_le _)
      omega

end Rebalanceable

/-- What the tasks of the phase look like. -/
structure TaskShape (p : BatchedParams K α) (s : BatchedSparseArray K α) (task : RebalancingTask) :
    Prop where
  level_le : task.rootNode.level ≤ s.rebalancingManager.logCapacity
  range_eq : task.pmaRange = ⟨task.rootNode.index * (2 ^ task.rootNode.level * p.segmentWidth),
    (task.rootNode.index + 1) * (2 ^ task.rootNode.level * p.segmentWidth)⟩
  blocks_pos : 0 < task.numberOfBlocks
  length_le : task.pmaRange.length ≤ p.segmentWidth * task.numberOfBlocks
  behind : s.size < task.pmaRange.right → task.rootNode.index = 0

namespace Rebalanceable

variable (h : s.Rebalanceable p)
include h

lemma taskShape (sched : Schedule) {task : RebalancingTask}
    (ht : task ∈ (s.withTasks p sched).rebalancingTasks) : s.TaskShape p task := by
  have hc := h.toInserted.collected h.width_pos h.densityValid sched
  obtain ⟨a, next, hframe⟩ := h.toInserted.frame sched
  rw [withTasks, createRebalancingTasks_eq hc.levels hc.flags] at ht
  obtain ⟨node, hn, rfl⟩ := List.mem_map.mp ht
  have hin := (mem_keptNodes.mp hn).1
  obtain ⟨hl, hblocks⟩ := h.collected sched hin
  obtain ⟨c, hlt, hidx, -⟩ := h.toInserted.node_block hin
  have hwidth : (s.updateHierarchy p sched).rebalancingManager.aggregateWidth = p.segmentWidth := by
    rw [hframe]
    exact h.tree.width_eq
  have hcap : (s.updateHierarchy p sched).rebalancingManager.logCapacity =
      s.rebalancingManager.logCapacity := by rw [hframe]; rfl
  have hrange := hc.levels.rebalancingRange_eq (hcap ▸ hl : node.level ≤ _)
  rw [hwidth] at hrange
  have hnode := hc.flags.isNode node hin
  have hnum : (s.updateHierarchy p sched).rebalancingManager.numberOfBlocks node =
      subtotal (s.updateState.leafCount (s.sdsView p)) node.level node.index := by
    have hcount := h.tree.consistent.numberOfBlocks_update sched (s.sdsView p) (l := node.level)
      (i := node.index) hl (by
        have := hnode.2
        rwa [hcap] at this)
    rw [RebalancingManager.numberOfBlocks, hc.levels.super_eq, hcap, if_neg (by omega)]
    exact hcount
  refine ⟨hl, hrange, ?_, ?_, fun hr => ?_⟩
  · change 0 < (s.updateHierarchy p sched).rebalancingManager.numberOfBlocks node
    rw [hnum]
    exact lt_of_lt_of_le (Nat.two_pow_pos _) hblocks
  · change ((s.updateHierarchy p sched).rebalancingManager.rebalancingRange node).length ≤
      p.segmentWidth * (s.updateHierarchy p sched).rebalancingManager.numberOfBlocks node
    rw [hrange, hnum, Interval.length]
    simp only
    rw [Nat.add_mul, Nat.one_mul, Nat.add_sub_cancel_left, Nat.mul_comm]
    exact Nat.mul_le_mul_left _ hblocks
  · refine h.left_eq_zero (l := node.level) hlt hidx ?_
    change s.size < ((s.updateHierarchy p sched).rebalancingManager.rebalancingRange node).right at hr
    rw [hrange, ← h.tree.width_eq] at hr
    exact hr

end Rebalanceable

end BatchedSparseArray

end BatchPMA
