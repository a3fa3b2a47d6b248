import BatchPMA.Rebalance.Rewriting

/-!
# No segment stays empty

Step B-9 spreads the blocks of a task so evenly that every run of `w` cells in its range gets one,
if the range has at most `w` cells for each block.  Every leaf of a rebalanced node is therefore
written to, and marked for the next update.
-/

namespace BatchPMA

open Segments Uniform

namespace BatchedSparseArray

variable {K α : Type} {s : BatchedSparseArray K α} {i w g : ℕ}

/-- The first block of a task goes to the first cell. -/
lemma TasksFit.rewriteIndex_first (h : s.TasksFit) (hpos : 0 < s.numberOfThreads)
    (hi : i < s.rebalancingTasks.length) (hn : 0 < (s.rebalancingTask i).numberOfBlocks) :
    s.rewriteIndex (s.firstBlock i) = (s.rebalancingTask i).pmaRange.left := by
  have hsucc := firstBlock_succ hi
  have htotal : s.firstBlock (i + 1) ≤ s.totalBlocks := firstBlock_le_total hi
  have hshare := (shareOf_spec hpos (g := s.firstBlock i) (by omega)).1
  rw [rewriteIndex, h.taskOf_eq hi (le_refl _) (by omega)]
  rw [Nat.max_eq_left hshare, Nat.sub_self, pieceSpread_left, spread_zero, Nat.add_zero]

/-- The next block of a task is at most `w` cells further. -/
lemma TasksFit.rewriteIndex_succ_le (h : s.TasksFit) (hpos : 0 < s.numberOfThreads)
    (hi : i < s.rebalancingTasks.length)
    (hw : (s.rebalancingTask i).pmaRange.length ≤ w * (s.rebalancingTask i).numberOfBlocks)
    (h1 : s.firstBlock i ≤ g) (h2 : g + 1 < s.firstBlock (i + 1)) :
    s.rewriteIndex (g + 1) ≤ s.rewriteIndex g + w := by
  have hg : g + 1 < s.totalBlocks := lt_of_lt_of_le h2 (firstBlock_le_total hi)
  obtain ⟨h3, h4⟩ := shareOf_spec hpos (show g < s.totalBlocks by omega)
  obtain ⟨h5, h6⟩ := shareOf_spec hpos hg
  have hsucc := firstBlock_succ hi
  have hgap := pieceSpread_succ_le (x := max (s.firstBlock i) (s.shareOf g).left - s.firstBlock i)
    (y := min (s.firstBlock (i + 1)) (s.shareOf g).right - s.firstBlock i) hw (by omega)
    (k := g - s.firstBlock i) (by omega) (by omega)
  rw [rewriteIndex, rewriteIndex, h.taskOf_eq hi h1 (by omega), h.taskOf_eq hi (by omega) h2]
  have hk : g + 1 - s.firstBlock i = g - s.firstBlock i + 1 := by omega
  rcases Nat.lt_or_ge (g + 1) (s.shareOf g).right with hin | hout
  · -- the same part of the task
    have hsame : s.shareOf (g + 1) = s.shareOf g := shareOf_eq hpos (by
      rw [shareOf] at h3
      omega) hin
    rw [hsame, hk]
    omega
  · -- the first block of the next part
    have hleft : (s.shareOf (g + 1)).left = g + 1 := by
      by_contra hne
      have : s.shareOf g = s.shareOf (g + 1) := shareOf_eq hpos (by
        rw [shareOf] at h5 hne
        omega) (by
        rw [shareOf] at h6
        omega)
      rw [this] at hout
      omega
    have hright : min (s.firstBlock (i + 1)) (s.shareOf g).right - s.firstBlock i =
        g - s.firstBlock i + 1 := by omega
    rw [hleft, Nat.max_eq_right (by omega), hk, pieceSpread_left, hright]
    rw [hright, pieceSpread_right _ _ (by omega)] at hgap
    omega

/-- The last block of a task is among the last `w` cells. -/
lemma TasksFit.le_rewriteIndex_last (h : s.TasksFit) (hpos : 0 < s.numberOfThreads)
    (hi : i < s.rebalancingTasks.length)
    (hw : (s.rebalancingTask i).pmaRange.length ≤ w * (s.rebalancingTask i).numberOfBlocks)
    (h1 : s.firstBlock i ≤ g) (h2 : g + 1 = s.firstBlock (i + 1)) :
    (s.rebalancingTask i).pmaRange.left + (s.rebalancingTask i).pmaRange.length ≤
      s.rewriteIndex g + w := by
  have hg : g < s.totalBlocks :=
    lt_of_lt_of_le (by omega : g < s.firstBlock (i + 1)) (firstBlock_le_total hi)
  obtain ⟨h3, h4⟩ := shareOf_spec hpos hg
  have hsucc := firstBlock_succ hi
  have hgap := pieceSpread_succ_le (x := max (s.firstBlock i) (s.shareOf g).left - s.firstBlock i)
    (y := min (s.firstBlock (i + 1)) (s.shareOf g).right - s.firstBlock i) hw (by omega)
    (k := g - s.firstBlock i) (by omega) (by omega)
  have hright : min (s.firstBlock (i + 1)) (s.shareOf g).right - s.firstBlock i =
      g - s.firstBlock i + 1 := by omega
  have hn : g - s.firstBlock i + 1 = (s.rebalancingTask i).numberOfBlocks := by omega
  rw [rewriteIndex, h.taskOf_eq hi h1 (by omega)]
  rw [hright, pieceSpread_right _ _ (by omega), hn, spread_self _ (by omega)] at hgap
  rw [hright, hn]
  omega

/-- **Coverage.**  Every run of `w` cells in the range of a task gets a block. -/
theorem TasksFit.exists_rewriteIndex (h : s.TasksFit) (hpos : 0 < s.numberOfThreads)
    (hi : i < s.rebalancingTasks.length) (hn : 0 < (s.rebalancingTask i).numberOfBlocks)
    (hw : (s.rebalancingTask i).pmaRange.length ≤ w * (s.rebalancingTask i).numberOfBlocks)
    (hwpos : 0 < w) {a : ℕ} (ha : (s.rebalancingTask i).pmaRange.left ≤ a)
    (hb : a + w ≤ (s.rebalancingTask i).pmaRange.left + (s.rebalancingTask i).pmaRange.length) :
    ∃ g, s.firstBlock i ≤ g ∧ g < s.firstBlock (i + 1) ∧ a ≤ s.rewriteIndex g ∧
      s.rewriteIndex g < a + w := by
  have hsucc := firstBlock_succ hi
  -- the last block in front of the end of the run
  obtain ⟨k, ⟨hk, hlt⟩, hmax⟩ : ∃ k, (k < (s.rebalancingTask i).numberOfBlocks ∧
      s.rewriteIndex (s.firstBlock i + k) < a + w) ∧
        ∀ j, j < (s.rebalancingTask i).numberOfBlocks →
          s.rewriteIndex (s.firstBlock i + j) < a + w → j ≤ k := by
    have hex : ∃ k, k ≤ (s.rebalancingTask i).numberOfBlocks ∧
        (k < (s.rebalancingTask i).numberOfBlocks ∧
          s.rewriteIndex (s.firstBlock i + k) < a + w) := by
      refine ⟨0, Nat.zero_le _, hn, ?_⟩
      rw [Nat.add_zero, h.rewriteIndex_first hpos hi hn]
      omega
    obtain ⟨k₀, hk₀, hP⟩ := hex
    refine ⟨Nat.findGreatest (fun k => k < (s.rebalancingTask i).numberOfBlocks ∧
      s.rewriteIndex (s.firstBlock i + k) < a + w) (s.rebalancingTask i).numberOfBlocks,
      Nat.findGreatest_spec (P := fun k => k < (s.rebalancingTask i).numberOfBlocks ∧
        s.rewriteIndex (s.firstBlock i + k) < a + w) hk₀ hP, fun j hj hlt => ?_⟩
    exact Nat.le_findGreatest hj.le ⟨hj, hlt⟩
  refine ⟨s.firstBlock i + k, Nat.le_add_right _ _, by omega, ?_, hlt⟩
  rcases Nat.lt_or_ge (k + 1) (s.rebalancingTask i).numberOfBlocks with hnext | hlast
  · have hge : a + w ≤ s.rewriteIndex (s.firstBlock i + (k + 1)) := by
      by_contra hlt'
      have := hmax (k + 1) hnext (not_le.mp hlt')
      omega
    have := h.rewriteIndex_succ_le hpos hi hw (Nat.le_add_right (s.firstBlock i) k) (by omega)
    rw [Nat.add_assoc] at this
    omega
  · have := h.le_rewriteIndex_last hpos hi hw (Nat.le_add_right (s.firstBlock i) k) (by omega)
    omega

end BatchedSparseArray

end BatchPMA
