import BatchPMA.Rebalance.Filter
import BatchPMA.Rebalance.Execution

/-!
# Finding a block by its number

`findBlockInRebalancingTask` descends in the tree along the counters and then counts through the
cells of a leaf.  With exact counters it returns the extended index in front of which there are
exactly as many blocks of the range as asked for.
-/

namespace BatchPMA

open RebalancingManager

namespace RebalancingManager

variable {m : RebalancingManager} {sds : SdsView}

/-- The descent passes the blocks of the leaves to the left of the one it ends in. -/
lemma descend_spec (hexact : m.CountersExact sds) : ∀ (l i r : ℕ), l ≤ m.logCapacity →
    i < 2 ^ (m.logCapacity - l) → r ≤ m.trueBlocks sds l i →
    i * 2 ^ l ≤ (m.descend l i r).1 ∧ (m.descend l i r).1 < (i + 1) * 2 ^ l ∧
      (m.descend l i r).2 ≤ m.trueBlocks sds 0 (m.descend l i r).1 ∧
      sds.blocksIn (i * (2 ^ l * m.aggregateWidth)) ((m.descend l i r).1 * m.aggregateWidth) +
        (m.descend l i r).2 = r
  | 0, i, r, _, _, hr => by
      simp only [descend, pow_zero, Nat.mul_one, Nat.one_mul]
      refine ⟨le_refl _, by omega, hr, ?_⟩
      rw [SdsView.blocksIn, Finset.Ico_self, Finset.sum_empty, Nat.zero_add]
  | l + 1, i, r, hl, hi, hr => by
      obtain ⟨h1, h2⟩ := children_lt (by omega : l < m.logCapacity) hi
      have hleft := hexact l (by omega) (i * 2) h1
      have hsum : m.trueBlocks sds (l + 1) i =
          m.trueBlocks sds l (i * 2) + m.trueBlocks sds l (i * 2 + 1) := by
        rw [trueBlocks_eq_subtotal, trueBlocks_eq_subtotal m sds l, trueBlocks_eq_subtotal m sds l,
          Dyadic.subtotal_succ]
      have hp1 : i * 2 ^ (l + 1) = i * 2 * 2 ^ l := by ring
      have hp2 : (i + 1) * 2 ^ (l + 1) = (i * 2 + 1 + 1) * 2 ^ l := by ring
      have hw : i * (2 ^ (l + 1) * m.aggregateWidth) = i * 2 * (2 ^ l * m.aggregateWidth) := by ring
      have hmul : (i * 2) * 2 ^ l ≤ (i * 2 + 1) * 2 ^ l := Nat.mul_le_mul_right _ (by omega)
      have hmul' : (i * 2 + 1) * 2 ^ l ≤ (i * 2 + 1 + 1) * 2 ^ l :=
        Nat.mul_le_mul_right _ (by omega)
      rw [descend, leftChild, rightChild, hleft, hp1, hp2, hw]
      split
      · rename_i hlt
        obtain ⟨g1, g2, g3, g4⟩ := descend_spec hexact l (i * 2 + 1)
          (r - m.trueBlocks sds l (i * 2)) (by omega) h2 (by omega)
        refine ⟨by omega, g2, g3, ?_⟩
        -- the blocks of the left child come first
        have hle : (i * 2 + 1) * (2 ^ l * m.aggregateWidth) ≤
            (m.descend l (i * 2 + 1) (r - m.trueBlocks sds l (i * 2))).1 * m.aggregateWidth := by
          rw [← Nat.mul_assoc]
          exact Nat.mul_le_mul_right _ g1
        have hsplit : sds.blocksIn (i * 2 * (2 ^ l * m.aggregateWidth))
            ((m.descend l (i * 2 + 1) (r - m.trueBlocks sds l (i * 2))).1 * m.aggregateWidth) =
            m.trueBlocks sds l (i * 2) + sds.blocksIn ((i * 2 + 1) * (2 ^ l * m.aggregateWidth))
              ((m.descend l (i * 2 + 1) (r - m.trueBlocks sds l (i * 2))).1 * m.aggregateWidth) :=
          (Finset.sum_Ico_consecutive _ (Nat.mul_le_mul_right _ (by omega)) hle).symm
        rw [hsplit]
        omega
      · obtain ⟨g1, g2, g3, g4⟩ := descend_spec hexact l (i * 2) r (by omega) h1 (by omega)
        exact ⟨g1, by omega, g3, g4⟩

end RebalancingManager

namespace BatchedSparseArray

variable {K α : Type} [DecidableEq K] {p : BatchedParams K α} {s : BatchedSparseArray K α}

lemma rank_add {a b : ℕ} {i : ExtendedPmaIndex} (h1 : a ≤ b) (h2 : b ≤ i.pmaIndex) :
    s.rank p a i = (s.placesIn p a b).length + s.rank p b i := by
  rw [rank, rank, placesIn_append h1 h2, List.length_append]
  omega

/-- Only cells of the array have buffer blocks. -/
def PointersInCapacity (s : BatchedSparseArray K α) : Prop :=
  ∀ c, s.capacity ≤ c → (s.bufferPointers c).length = 0

omit [DecidableEq K] in
lemma PointersInCapacity.numberOfBufferBlocks_eq (h : s.PointersInCapacity) (c : ℕ) :
    s.numberOfBufferBlocks c = (s.bufferPointers c).length := by
  rw [numberOfBufferBlocks]
  split
  · rename_i hc
    exact (h c hc).symm
  · rfl

lemma PointersInCapacity.blocksAt_eq (h : s.PointersInCapacity) (c : ℕ) :
    (s.sdsView p).blocksAt c = (s.cellPlaces p c).length := by
  rw [length_cellPlaces, SdsView.blocksAt]
  simp only [sdsView, h.numberOfBufferBlocks_eq]
  rfl

/-- What the hierarchy counts is the number of places. -/
lemma PointersInCapacity.blocksIn_eq (h : s.PointersInCapacity) (a b : ℕ) :
    (s.sdsView p).blocksIn a b = (s.placesIn p a b).length := by
  have hsum : (s.sdsView p).blocksIn a b =
      ((List.range' a (b - a)).map (s.sdsView p).blocksAt).sum := rfl
  rw [hsum, placesIn, Ranges.itemsIn, List.length_flatMap]
  congr 1
  exact List.map_congr_left fun c _ => h.blocksAt_eq c

/-- The loop over the cells of a leaf. -/
lemma findBlockInLeaf_spec (h : s.PointersInCapacity) : ∀ (fuel c r b : ℕ), c ≤ b → b < c + fuel →
    r ≤ (s.placesIn p c b).length →
    s.EndIn c b (findBlockInLeaf (s.sdsView p) fuel c r) ∧
      s.rank p c (findBlockInLeaf (s.sdsView p) fuel c r) = r
  | 0, c, r, b, h1, h2, _ => by omega
  | fuel + 1, c, r, b, h1, h2, hr => by
      rw [findBlockInLeaf]
      split
      · rename_i h0
        refine ⟨⟨fun y hy => by simp at hy, le_refl c, h1, fun hy => absurd rfl hy⟩, ?_⟩
        rw [rank_none, placesIn_self, h0]
        rfl
      · rename_i h0
        have hcb : c < b := by
          by_contra hge
          obtain rfl : c = b := by omega
          rw [placesIn_self] at hr
          exact h0 (Nat.le_zero.mp hr)
        have hlen : (s.placesIn p c b).length =
            (s.cellPlaces p c).length + (s.placesIn p (c + 1) b).length := by
          rw [placesIn_append (Nat.le_succ c) hcb, placesIn_succ, List.length_append]
        have hcell := length_cellPlaces (p := p) (s := s) c
        have hbuf : (s.sdsView p).numberOfBufferBlocks c = (s.bufferPointers c).length :=
          h.numberOfBufferBlocks_eq c
        have hemp : (s.sdsView p).empty c = s.empty p c := rfl
        rw [hbuf, hemp]
        simp only
        generalize hr' : (if s.empty p c = true then r else r - 1) = r'
        have hrr : (if s.empty p c = true then 0 else 1) + r' = r := by
          rw [← hr']
          split <;> omega
        split
        · rename_i hlt
          refine ⟨⟨fun y hy => ?_, le_refl c, h1, fun _ => hcb⟩, ?_⟩
          · obtain rfl : r' = y := by simpa using hy
            exact hlt
          · rw [rank, placesIn_self, cellOffset]
            simp only [List.length_nil, Nat.zero_add]
            exact hrr
        · rename_i hge
          obtain ⟨g1, g2⟩ := findBlockInLeaf_spec h fuel (c + 1)
            (r' - (s.bufferPointers c).length) b hcb (by omega) (by omega)
          refine ⟨⟨g1.inCell, le_trans (Nat.le_succ c) g1.le, g1.le_right, g1.lt_right⟩, ?_⟩
          rw [rank_add (Nat.le_succ c) g1.le, placesIn_succ, g2]
          omega

/-- The range of the tree that a task reads: that of the root for the super root. -/
def treeNode (m : RebalancingManager) (node : RebalancingNode) : RebalancingNode :=
  if m.logCapacity < node.level then ⟨m.logCapacity, node.index⟩ else node

/-- **Finding a block.**  The index returned has the asked number of blocks in front of it. -/
theorem findBlockInRebalancingTask_spec (h : s.PointersInCapacity)
    (hm : s.rebalancingManager.LevelsValid)
    (hexact : s.rebalancingManager.CountersExact (s.sdsView p)) {node : RebalancingNode}
    (hn : s.rebalancingManager.IsNode node.level node.index) {j : ℕ}
    (hj : j ≤ (s.placesIn p
      (s.rebalancingManager.rebalancingRange (treeNode s.rebalancingManager node)).left
      (s.rebalancingManager.rebalancingRange (treeNode s.rebalancingManager node)).right).length) :
    s.EndIn (s.rebalancingManager.rebalancingRange (treeNode s.rebalancingManager node)).left
        (s.rebalancingManager.rebalancingRange (treeNode s.rebalancingManager node)).right
        (s.rebalancingManager.findBlockInRebalancingTask (s.sdsView p) node j) ∧
      s.rank p (s.rebalancingManager.rebalancingRange (treeNode s.rebalancingManager node)).left
        (s.rebalancingManager.findBlockInRebalancingTask (s.sdsView p) node j) = j := by
  have htl : (treeNode s.rebalancingManager node).level ≤ s.rebalancingManager.logCapacity := by
    rw [treeNode]
    split
    · exact le_refl _
    · omega
  have hti : (treeNode s.rebalancingManager node).index <
      2 ^ (s.rebalancingManager.logCapacity - (treeNode s.rebalancingManager node).level) := by
    rw [treeNode]
    split
    · rename_i hlt
      have := hn.2
      rw [Nat.sub_eq_zero_of_le hlt.le] at this
      simpa using this
    · exact hn.2
  have hfold : s.rebalancingManager.findBlockInRebalancingTask (s.sdsView p) node j =
      if (s.rebalancingManager.aggregate (treeNode s.rebalancingManager node).index
        (treeNode s.rebalancingManager node).level).numberOfBlocks < j then
        ⟨(s.rebalancingManager.rebalancingRange (treeNode s.rebalancingManager node)).right, none⟩
      else
        findBlockInLeaf (s.sdsView p) (s.rebalancingManager.aggregateWidth + 1)
          (s.rebalancingManager.rebalancingRange ⟨0, (s.rebalancingManager.descend
            (treeNode s.rebalancingManager node).level (treeNode s.rebalancingManager node).index
              j).1⟩).left
          (s.rebalancingManager.descend (treeNode s.rebalancingManager node).level
            (treeNode s.rebalancingManager node).index j).2 := rfl
  rw [hfold]
  clear hfold
  generalize treeNode s.rebalancingManager node = t at *
  have hcount : s.rebalancingManager.trueBlocks (s.sdsView p) t.level t.index =
      (s.placesIn p (s.rebalancingManager.rebalancingRange t).left
        (s.rebalancingManager.rebalancingRange t).right).length := by
    rw [hm.rebalancingRange_eq htl, trueBlocks, h.blocksIn_eq]
  rw [hexact t.level htl t.index hti, hcount, if_neg (by omega)]
  rw [← hcount] at hj
  obtain ⟨g1, g2, g3, g4⟩ := descend_spec hexact t.level t.index j htl hti hj
  generalize s.rebalancingManager.descend t.level t.index j = leaf at *
  have hleaf : s.rebalancingManager.rebalancingRange ⟨0, leaf.1⟩ =
      ⟨leaf.1 * s.rebalancingManager.aggregateWidth,
        (leaf.1 + 1) * s.rebalancingManager.aggregateWidth⟩ := by
    rw [hm.rebalancingRange_eq (Nat.zero_le _), pow_zero, Nat.one_mul]
  rw [hm.rebalancingRange_eq htl, hleaf]
  simp only
  have hle : leaf.1 * s.rebalancingManager.aggregateWidth ≤
      (leaf.1 + 1) * s.rebalancingManager.aggregateWidth := Nat.mul_le_mul_right _ (Nat.le_succ _)
  have hr : leaf.2 ≤ (s.placesIn p (leaf.1 * s.rebalancingManager.aggregateWidth)
      ((leaf.1 + 1) * s.rebalancingManager.aggregateWidth)).length := by
    rw [trueBlocks, h.blocksIn_eq, pow_zero, Nat.one_mul] at g3
    exact g3
  obtain ⟨e1, e2⟩ := findBlockInLeaf_spec h (s.rebalancingManager.aggregateWidth + 1)
    (leaf.1 * s.rebalancingManager.aggregateWidth) leaf.2
    ((leaf.1 + 1) * s.rebalancingManager.aggregateWidth) hle (by rw [Nat.add_mul]; omega) hr
  generalize findBlockInLeaf (s.sdsView p) (s.rebalancingManager.aggregateWidth + 1)
    (leaf.1 * s.rebalancingManager.aggregateWidth) leaf.2 = pos at *
  -- the leaf lies in the range of the node
  have hlo : t.index * (2 ^ t.level * s.rebalancingManager.aggregateWidth) ≤
      leaf.1 * s.rebalancingManager.aggregateWidth := by
    rw [← Nat.mul_assoc]
    exact Nat.mul_le_mul_right _ g1
  have hhi : (leaf.1 + 1) * s.rebalancingManager.aggregateWidth ≤
      (t.index + 1) * (2 ^ t.level * s.rebalancingManager.aggregateWidth) := by
    rw [← Nat.mul_assoc]
    exact Nat.mul_le_mul_right _ g2
  refine ⟨⟨e1.inCell, le_trans hlo e1.le, le_trans e1.le_right hhi,
    fun hb => lt_of_lt_of_le (e1.lt_right hb) hhi⟩, ?_⟩
  rw [rank_add hlo e1.le, e2, ← h.blocksIn_eq, g4]

end BatchedSparseArray

end BatchPMA
