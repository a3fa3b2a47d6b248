import BatchPMA.Model.Rebalancing
import BatchPMA.Library.Segments

/-!
# Distributing the blocks of the tasks

The blocks of all tasks are numbered consecutively: those of task `i` begin with the number
`firstBlock i`.  The prefix sums hold the ends of these runs, so that `findRebalancingTask` finds
the task of a block, and the shares of the threads are runs of numbers again.
-/

namespace BatchPMA

open Segments

variable {K α : Type}

namespace BatchedSparseArray

/-- The number of the first block of a task among the blocks of all tasks. -/
def firstBlock (s : BatchedSparseArray K α) (i : ℕ) : ℕ :=
  offset RebalancingTask.numberOfBlocks s.rebalancingTasks i

/-- The number of blocks of all tasks. -/
def totalBlocks (s : BatchedSparseArray K α) : ℕ := s.firstBlock s.rebalancingTasks.length

/-- The prefix sums are there, with the sentinel behind the last one. -/
def PrefixSummed (s : BatchedSparseArray K α) : Prop :=
  s.prefixNumberOfRebalancingBlocks =
    (List.range (s.rebalancingTasks.length + 1)).map fun i => s.firstBlock (i + 1)

variable {s : BatchedSparseArray K α}

@[simp] lemma firstBlock_zero : s.firstBlock 0 = 0 := offset_zero _ _

lemma firstBlock_mono : Monotone s.firstBlock := fun _ _ h => offset_mono _ _ h

lemma rebalancingTask_getElem? {i : ℕ} (hi : i < s.rebalancingTasks.length) :
    s.rebalancingTasks[i]? = some (s.rebalancingTask i) := by
  rw [rebalancingTask, List.getD_eq_getElem?_getD, List.getElem?_eq_getElem hi, Option.getD_some]

lemma firstBlock_succ {i : ℕ} (h : i < s.rebalancingTasks.length) :
    s.firstBlock (i + 1) = s.firstBlock i + (s.rebalancingTask i).numberOfBlocks :=
  offset_succ (rebalancingTask_getElem? h)

lemma firstBlock_unique {i j g : ℕ} (h1 : s.firstBlock i ≤ g) (h2 : g < s.firstBlock (i + 1))
    (h3 : s.firstBlock j ≤ g) (h4 : g < s.firstBlock (j + 1)) : i = j := offset_unique h1 h2 h3 h4

lemma firstBlock_le_total {i : ℕ} (h : i ≤ s.rebalancingTasks.length) :
    s.firstBlock i ≤ s.totalBlocks := firstBlock_mono h

lemma rebalancingTask_mem {i : ℕ} (h : i < s.rebalancingTasks.length) :
    s.rebalancingTask i ∈ s.rebalancingTasks := by
  rw [rebalancingTask, List.getD_eq_getElem?_getD, List.getElem?_eq_getElem h, Option.getD_some]
  exact List.getElem_mem h

lemma getElem_rebalancingTasks {i : ℕ} (h : i < s.rebalancingTasks.length) :
    s.rebalancingTasks[i] = s.rebalancingTask i := by
  have := rebalancingTask_getElem? h
  rw [List.getElem?_eq_getElem h] at this
  exact Option.some_inj.mp this

/-- Disjoint tasks: a cell belongs to one of them only. -/
lemma task_unique (hd : s.rebalancingTasks.Pairwise fun a b =>
      ∀ c, a.pmaRange.contains c → ¬ b.pmaRange.contains c) {i j c : ℕ}
    (hi : i < s.rebalancingTasks.length) (hj : j < s.rebalancingTasks.length)
    (hci : (s.rebalancingTask i).pmaRange.contains c)
    (hcj : (s.rebalancingTask j).pmaRange.contains c) : i = j := by
  have hpw := List.pairwise_iff_getElem.mp hd
  rcases Nat.lt_trichotomy i j with hlt | heq | hgt
  · have := hpw i j hi hj hlt
    rw [getElem_rebalancingTasks hi, getElem_rebalancingTasks hj] at this
    exact absurd hcj (this c hci)
  · exact heq
  · have := hpw j i hj hi hgt
    rw [getElem_rebalancingTasks hi, getElem_rebalancingTasks hj] at this
    exact absurd hci (this c hcj)

/-! ## Prefix sums -/

lemma inclusiveScan_eq : ∀ (tasks : List RebalancingTask) (sum : ℕ), inclusiveScan sum tasks =
    (List.range tasks.length).map fun i =>
      sum + offset RebalancingTask.numberOfBlocks tasks (i + 1)
  | [], sum => rfl
  | task :: tasks, sum => by
      rw [inclusiveScan, inclusiveScan_eq tasks, List.length_cons, List.range_succ_eq_map,
        List.map_cons, List.map_map]
      refine congrArg₂ _ (by simp [offset]) (List.map_congr_left fun i _ => ?_)
      simp [offset, Nat.add_assoc]

lemma prefixSummed_computePrefixSums (s : BatchedSparseArray K α) :
    s.computePrefixSums.PrefixSummed := by
  have hlast : (inclusiveScan 0 s.rebalancingTasks).getLastD 0 =
      s.firstBlock (s.rebalancingTasks.length + 1) := by
    rw [firstBlock, offset_of_length_le (Nat.le_succ _), inclusiveScan_eq]
    cases hn : s.rebalancingTasks.length with
    | zero => simp [offset]
    | succ n => rw [List.range_succ]; simp
  have hsums : s.computePrefixSums.prefixNumberOfRebalancingBlocks =
      inclusiveScan 0 s.rebalancingTasks ++ [(inclusiveScan 0 s.rebalancingTasks).getLastD 0] := rfl
  rw [PrefixSummed, hsums, hlast, inclusiveScan_eq]
  simp only [Nat.zero_add]
  rw [List.range_succ, List.map_append]
  rfl

lemma PrefixSummed.getD_eq (h : s.PrefixSummed) {i : ℕ} (hi : i ≤ s.rebalancingTasks.length) :
    s.prefixNumberOfRebalancingBlocks.getD i 0 = s.firstBlock (i + 1) := by
  rw [h, List.getD_eq_getElem?_getD, List.getElem?_map, List.getElem?_range (by omega)]
  rfl

lemma PrefixSummed.numberOfBlocksToRebalance_eq (h : s.PrefixSummed)
    (hne : s.rebalancingTasks ≠ []) : s.numberOfBlocksToRebalance = s.totalBlocks := by
  have hpos := List.length_pos_iff.mpr hne
  rw [numberOfBlocksToRebalance, h.getD_eq (by omega), totalBlocks]
  congr 1
  omega

lemma PrefixSummed.taskBlockRange_eq (h : s.PrefixSummed) {i : ℕ}
    (hi : i < s.rebalancingTasks.length) :
    s.taskBlockRange i = ⟨s.firstBlock i, s.firstBlock (i + 1)⟩ := by
  rw [taskBlockRange, h.getD_eq hi.le]
  split
  · rw [h.getD_eq (by omega), Nat.sub_add_cancel (by omega)]
  · obtain rfl : i = 0 := by omega
    rw [firstBlock_zero]

/-- The task in which the block with a given number is, or ends. -/
lemma PrefixSummed.findRebalancingTask_spec (h : s.PrefixSummed) (hne : s.rebalancingTasks ≠ [])
    {b : ℕ} (hb : b ≤ s.totalBlocks) :
    s.findRebalancingTask b < s.rebalancingTasks.length ∧
      b ≤ s.firstBlock (s.findRebalancingTask b + 1) ∧
      (0 < s.findRebalancingTask b → s.firstBlock (s.findRebalancingTask b) < b) := by
  have hpos := List.length_pos_iff.mpr hne
  have hlen : s.prefixNumberOfRebalancingBlocks.length = s.rebalancingTasks.length + 1 := by
    rw [h, List.length_map, List.length_range]
  have hget : ∀ i (hi : i < s.prefixNumberOfRebalancingBlocks.length),
      s.prefixNumberOfRebalancingBlocks[i] = s.firstBlock (i + 1) := by
    intro i hi
    have := h.getD_eq (i := i) (by omega)
    rwa [List.getD_eq_getElem?_getD, List.getElem?_eq_getElem hi, Option.getD_some] at this
  have hstop : s.findRebalancingTask b ≤ s.rebalancingTasks.length - 1 := by
    refine Nat.le_of_not_lt fun hlt => ?_
    have := List.not_of_lt_findIdx hlt
    rw [hget] at this
    rw [Nat.sub_add_cancel hpos] at this
    exact absurd hb (by simpa [totalBlocks] using this)
  have hin : s.findRebalancingTask b < s.prefixNumberOfRebalancingBlocks.length := by omega
  refine ⟨by omega, ?_, fun h0 => ?_⟩
  · have hfound := List.findIdx_getElem (p := fun sum => decide (b ≤ sum)) (w := hin)
    have hle := of_decide_eq_true hfound
    exact le_of_le_of_eq hle (hget (s.findRebalancingTask b) hin)
  · have hbefore : s.findRebalancingTask b - 1 < s.findRebalancingTask b := by omega
    have := List.not_of_lt_findIdx hbefore
    rw [hget, Nat.sub_add_cancel h0] at this
    simpa using this

/-! ## Shares -/

/-- The tasks that the share of a thread touches. -/
structure Touches (s : BatchedSparseArray K α) (range : Interval) (i j : ℕ) : Prop where
  le : i ≤ j
  lt : j < s.rebalancingTasks.length
  start_le : s.firstBlock i ≤ range.left
  start_lt : range.left ≤ s.firstBlock (i + 1)
  end_le : range.right ≤ s.firstBlock (j + 1)
  end_lt : i < j → s.firstBlock j < range.right

lemma PrefixSummed.touches (h : s.PrefixSummed) (hne : s.rebalancingTasks ≠ []) {range : Interval}
    (hlt : range.left < range.right) (hle : range.right ≤ s.totalBlocks) :
    s.Touches range (s.findRebalancingTask range.left) (s.findRebalancingTask range.right) := by
  obtain ⟨hi, hi1, hi2⟩ := h.findRebalancingTask_spec hne (le_trans hlt.le hle)
  obtain ⟨hj, hj1, hj2⟩ := h.findRebalancingTask_spec hne hle
  generalize s.findRebalancingTask range.left = i at *
  generalize s.findRebalancingTask range.right = j at *
  have hij : i ≤ j := by
    by_contra hgt
    have h1 : s.firstBlock (j + 1) ≤ s.firstBlock i := firstBlock_mono (by omega)
    have h2 := hi2 (by omega)
    omega
  refine ⟨hij, hj, ?_, hi1, hj1, fun hlt => hj2 (by omega)⟩
  rcases Nat.eq_zero_or_pos i with rfl | hpos
  · rw [firstBlock_zero]
    exact Nat.zero_le _
  · exact (hi2 hpos).le

/-- The part of a task that lies in a share. -/
lemma cut_eq {a b c d : ℕ} (h : max a c < min b d) :
    Interval.cut ⟨a, b⟩ ⟨c, d⟩ = ⟨max a c, min b d⟩ := by
  rw [Interval.cut, if_neg]
  exact not_le.mpr h

lemma cut_length_eq_zero {a b c d : ℕ} (h : min b d ≤ max a c) :
    (Interval.cut ⟨a, b⟩ ⟨c, d⟩).length = 0 := by
  rw [Interval.cut, if_pos h]
  rfl

/-- **A share.**  What a thread does with the tasks that its share touches: it deals with a part of
the first, with the ones in between as a whole, and with a part of the last. -/
lemma PrefixSummed.run_share (h : s.PrefixSummed) (hne : s.rebalancingTasks ≠ [])
    {Inv : Set ℕ → BatchedSparseArray K α → Prop}
    (part full : BatchedSparseArray K α → ℕ → BatchedSparseArray K α) {range : Interval}
    (hlt : range.left < range.right) (hle : range.right ≤ s.totalBlocks)
    (hpart : ∀ i < s.rebalancingTasks.length, ∀ D s', Inv D s' →
      (∀ g ∈ Set.Ico (max (s.firstBlock i) range.left) (min (s.firstBlock (i + 1)) range.right),
        g ∉ D) →
      Inv (D ∪ Set.Ico (max (s.firstBlock i) range.left)
        (min (s.firstBlock (i + 1)) range.right)) (part s' i))
    (hfull : ∀ i < s.rebalancingTasks.length, range.left ≤ s.firstBlock i →
      s.firstBlock (i + 1) ≤ range.right → ∀ D s', Inv D s' →
      (∀ g ∈ Set.Ico (s.firstBlock i) (s.firstBlock (i + 1)), g ∉ D) →
      Inv (D ∪ Set.Ico (s.firstBlock i) (s.firstBlock (i + 1))) (full s' i))
    {D : Set ℕ} {s' : BatchedSparseArray K α} (hs' : Inv D s')
    (hD : ∀ g ∈ Set.Ico range.left range.right, g ∉ D) :
    Inv (D ∪ Set.Ico range.left range.right)
      (if 1 < (⟨s.findRebalancingTask range.left,
          s.findRebalancingTask range.right + 1⟩ : Interval).length then
        part ((innerTasks ⟨s.findRebalancingTask range.left,
          s.findRebalancingTask range.right + 1⟩).foldl full
            (part s' (s.findRebalancingTask range.left))) (s.findRebalancingTask range.right)
      else (innerTasks ⟨s.findRebalancingTask range.left,
          s.findRebalancingTask range.right + 1⟩).foldl full
            (part s' (s.findRebalancingTask range.left))) := by
  have htouch := h.touches hne hlt hle
  generalize s.findRebalancingTask range.left = i at *
  generalize s.findRebalancingTask range.right = j at *
  have hiff : (1 < (⟨i, j + 1⟩ : Interval).length) ↔ i < j := by
    simp only [Interval.length]
    omega
  simp only [hiff, innerTasks, Nat.add_sub_cancel]
  have hrun := run_pieces firstBlock_mono (fun s => part s i) (fun s => part s j) full htouch.le
    htouch.start_lt htouch.end_le (fun hij => (htouch.end_lt hij).le) ?_ ?_ ?_ hs' hD
  · exact hrun
  · intro D' s'' h' hD'
    have := hpart i (lt_of_le_of_lt htouch.le htouch.lt) D' s'' h'
    rw [max_eq_right htouch.start_le, min_comm] at this
    exact this hD'
  · intro k h1 h2 D' s'' h' hD'
    have hl : s.firstBlock (i + 1) ≤ s.firstBlock k := firstBlock_mono h1
    have hr : s.firstBlock (k + 1) ≤ s.firstBlock j := firstBlock_mono h2
    have hj := htouch.end_lt (lt_trans h1 h2)
    exact hfull k (lt_trans h2 htouch.lt) (le_trans htouch.start_lt hl) (by omega) D' s'' h' hD'
  · intro hij D' s'' h' hD'
    have hmid : s.firstBlock (i + 1) ≤ s.firstBlock j := firstBlock_mono hij
    have := hpart j htouch.lt D' s'' h'
    rw [max_eq_left (le_trans htouch.start_lt hmid), min_eq_right htouch.end_le] at this
    exact this hD'

lemma share_eq_threadBlockRange (n k t : ℕ) :
    share n k t = Set.Ico (threadBlockRange n k t).left (threadBlockRange n k t).right := rfl

end BatchedSparseArray

end BatchPMA
