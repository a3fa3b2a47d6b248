import BatchPMA.Rebalance.ToSwap
import BatchPMA.Library.Uniform

/-!
# Step B-9: from the swap array back to the pma

The blocks of a task are spread evenly over its range.  A thread that has only a part of the
blocks of a task spreads this part over the corresponding part of the range, so where a block goes
depends on the shares of the threads; but the order of the blocks of a task is kept, and different
blocks go to different cells.
-/

namespace BatchPMA

open Segments Uniform

namespace BatchedSparseArray

variable {K α : Type} {p : BatchedParams K α} {s s₀ : BatchedSparseArray K α} {D : Set ℕ}

/-- The tasks are disjoint and have room for their blocks. -/
structure TasksFit (s : BatchedSparseArray K α) : Prop where
  prefixSummed : s.PrefixSummed
  nonempty : s.rebalancingTasks ≠ []
  fits : ∀ task ∈ s.rebalancingTasks, task.numberOfBlocks ≤ task.pmaRange.length
  disjoint : s.rebalancingTasks.Pairwise fun a b =>
    ∀ c, a.pmaRange.contains c → ¬ b.pmaRange.contains c

/-- The task of the block with number `g`. -/
def taskOf (s : BatchedSparseArray K α) (g : ℕ) : ℕ := s.findRebalancingTask (g + 1)

/-- The share that the block with number `g` belongs to. -/
def shareOf (s : BatchedSparseArray K α) (g : ℕ) : Interval :=
  threadBlockRange s.totalBlocks s.numberOfThreads (g / (s.totalBlocks / s.numberOfThreads + 1))

/-- The cell that the block with number `g` is written to. -/
def rewriteIndex (s : BatchedSparseArray K α) (g : ℕ) : ℕ :=
  let first := s.firstBlock (s.taskOf g)
  let task := s.rebalancingTask (s.taskOf g)
  task.pmaRange.left + pieceSpread task.pmaRange.length task.numberOfBlocks
    (max first (s.shareOf g).left - first)
    (min (s.firstBlock (s.taskOf g + 1)) (s.shareOf g).right - first) (g - first)

def rewriteTarget (s : BatchedSparseArray K α) (g : ℕ) : Place := .pma (s.rewriteIndex g)

/-! ## Where blocks go -/

lemma TasksFit.taskOf_spec (h : s.TasksFit) {g : ℕ} (hg : g < s.totalBlocks) :
    s.taskOf g < s.rebalancingTasks.length ∧ s.firstBlock (s.taskOf g) ≤ g ∧
      g < s.firstBlock (s.taskOf g + 1) := by
  obtain ⟨h1, h2, h3⟩ := h.prefixSummed.findRebalancingTask_spec h.nonempty (Nat.succ_le_of_lt hg)
  refine ⟨h1, ?_, h2⟩
  rcases Nat.eq_zero_or_pos (s.taskOf g) with h0 | hpos
  · rw [h0, firstBlock_zero]
    exact Nat.zero_le g
  · exact Nat.lt_succ_iff.mp (h3 hpos)

lemma TasksFit.taskOf_eq (h : s.TasksFit) {g i : ℕ} (hi : i < s.rebalancingTasks.length)
    (h1 : s.firstBlock i ≤ g) (h2 : g < s.firstBlock (i + 1)) : s.taskOf g = i := by
  have hg : g < s.totalBlocks := lt_of_lt_of_le h2 (firstBlock_le_total hi)
  obtain ⟨-, h3, h4⟩ := h.taskOf_spec hg
  exact offset_unique h3 h4 h1 h2

lemma shareOf_spec (hpos : 0 < s.numberOfThreads) {g : ℕ} (hg : g < s.totalBlocks) :
    (s.shareOf g).left ≤ g ∧ g < (s.shareOf g).right := by
  obtain ⟨-, h2, h3⟩ := share_of hpos hg
  exact ⟨h2, lt_min hg h3⟩

lemma shareOf_eq (hpos : 0 < s.numberOfThreads) {g t : ℕ}
    (h1 : (threadBlockRange s.totalBlocks s.numberOfThreads t).left ≤ g)
    (h2 : g < (threadBlockRange s.totalBlocks s.numberOfThreads t).right) :
    s.shareOf g = threadBlockRange s.totalBlocks s.numberOfThreads t := by
  have hg : g < s.totalBlocks := lt_of_lt_of_le h2 (min_le_left _ _)
  obtain ⟨-, h3, h4⟩ := share_of hpos hg
  have : g / (s.totalBlocks / s.numberOfThreads + 1) = t :=
    share_unique h3 h4 h1 (lt_of_lt_of_le h2 (min_le_right _ _))
  rw [shareOf, this]

/-- The target of a block of a part of a task. -/
lemma TasksFit.rewriteIndex_eq (h : s.TasksFit) (hpos : 0 < s.numberOfThreads) {g i t : ℕ}
    (hi : i < s.rebalancingTasks.length) (h1 : s.firstBlock i ≤ g) (h2 : g < s.firstBlock (i + 1))
    (h3 : (threadBlockRange s.totalBlocks s.numberOfThreads t).left ≤ g)
    (h4 : g < (threadBlockRange s.totalBlocks s.numberOfThreads t).right) :
    s.rewriteIndex g = (s.rebalancingTask i).pmaRange.left +
      pieceSpread (s.rebalancingTask i).pmaRange.length (s.rebalancingTask i).numberOfBlocks
        (max (s.firstBlock i) (threadBlockRange s.totalBlocks s.numberOfThreads t).left -
          s.firstBlock i)
        (min (s.firstBlock (i + 1)) (threadBlockRange s.totalBlocks s.numberOfThreads t).right -
          s.firstBlock i) (g - s.firstBlock i) := by
  rw [rewriteIndex, h.taskOf_eq hi h1 h2, shareOf_eq hpos h3 h4]

/-- Blocks of a task stay in its range. -/
lemma TasksFit.rewriteIndex_mem (h : s.TasksFit) (hpos : 0 < s.numberOfThreads) {g i : ℕ}
    (hi : i < s.rebalancingTasks.length) (h1 : s.firstBlock i ≤ g)
    (h2 : g < s.firstBlock (i + 1)) :
    (s.rebalancingTask i).pmaRange.contains (s.rewriteIndex g) := by
  have hg : g < s.totalBlocks := lt_of_lt_of_le h2 (firstBlock_le_total hi)
  obtain ⟨h3, h4⟩ := shareOf_spec hpos hg
  have hfit := h.fits _ (rebalancingTask_mem hi)
  have hsucc := firstBlock_succ hi
  have hn : 0 < (s.rebalancingTask i).numberOfBlocks := by omega
  have hlt := pieceSpread_lt_right (k := g - s.firstBlock i) hfit hn
    (x := max (s.firstBlock i) (s.shareOf g).left - s.firstBlock i)
    (y := min (s.firstBlock (i + 1)) (s.shareOf g).right - s.firstBlock i) (by omega) (by omega)
  have hle := spread_mono (s.rebalancingTask i).pmaRange.length
    (s.rebalancingTask i).numberOfBlocks
    (show min (s.firstBlock (i + 1)) (s.shareOf g).right - s.firstBlock i ≤
      (s.rebalancingTask i).numberOfBlocks by omega)
  rw [spread_self _ hn] at hle
  rw [rewriteIndex, h.taskOf_eq hi h1 h2, Interval.contains]
  rw [Interval.length] at *
  exact ⟨Nat.le_add_right _ _, by omega⟩

/-- The order of the blocks of a task is kept. -/
lemma TasksFit.rewriteIndex_lt (h : s.TasksFit) (hpos : 0 < s.numberOfThreads) {g g' i : ℕ}
    (hi : i < s.rebalancingTasks.length) (h1 : s.firstBlock i ≤ g) (hlt : g < g')
    (h2 : g' < s.firstBlock (i + 1)) : s.rewriteIndex g < s.rewriteIndex g' := by
  have hg' : g' < s.totalBlocks := lt_of_lt_of_le h2 (firstBlock_le_total hi)
  obtain ⟨h3, h4⟩ := shareOf_spec hpos (lt_trans hlt hg')
  obtain ⟨h5, h6⟩ := shareOf_spec hpos hg'
  have hfit := h.fits _ (rebalancingTask_mem hi)
  have hsucc := firstBlock_succ hi
  have hn : 0 < (s.rebalancingTask i).numberOfBlocks := by omega
  rw [rewriteIndex, rewriteIndex, h.taskOf_eq hi h1 (by omega), h.taskOf_eq hi (by omega) h2]
  refine Nat.add_lt_add_left ?_ _
  rcases Nat.lt_or_ge g' (s.shareOf g).right with hin | hout
  · -- the same part of the task
    have hsame : s.shareOf g' = s.shareOf g := shareOf_eq hpos (by
      rw [shareOf] at h3
      omega) hin
    rw [hsame]
    exact pieceSpread_lt hfit hn (by omega) (by omega) (by omega)
  · -- the part of `g` ends in front of the part of `g'`
    have hle : (s.shareOf g).right ≤ (s.shareOf g').left := by
      by_contra hgt
      rcases Nat.lt_or_ge g (s.shareOf g').left with hb | hb
      · have hfirst : s.shareOf (s.shareOf g').left = s.shareOf g := shareOf_eq hpos (by
          rw [shareOf] at h3
          omega) (not_le.mp hgt)
        have hsecond : s.shareOf (s.shareOf g').left = s.shareOf g' :=
          shareOf_eq hpos (le_refl _) (lt_of_le_of_lt h5 h6)
        rw [← hfirst, hsecond] at hout
        omega
      · have : s.shareOf g = s.shareOf g' := shareOf_eq hpos hb (by
          rw [shareOf] at h6
          omega)
        rw [this] at hout
        omega
    refine lt_of_lt_of_le (pieceSpread_lt_right hfit hn (by omega) (by omega)) ?_
    refine le_trans (spread_mono _ _ ?_) (le_pieceSpread _ _ _ _ _)
    omega

/-! ## The moves -/

/-- The state of step B-9 after the moves with numbers in `D`, made from the state `s₀`: the
leaves of all cells that were written are marked. -/
structure Rewriting (p : BatchedParams K α) (s₀ : BatchedSparseArray K α) (D : Set ℕ)
    (s : BatchedSparseArray K α) : Prop where
  done : Transfer.Done s₀.swapTarget s₀.rewriteTarget s₀.totalBlocks
    (PmaEntry.null p.toBlockParams) s₀.memory D s.memory
  frame : s = { s₀ with
    pma := s.pma
    swapPma := s.swapPma
    recountingNodesMap := s.recountingNodesMap }
  flagged : s.recountingNodesMap.flagged = s₀.recountingNodesMap.flagged
  mem_keys : ∀ k, k ∈ s.recountingNodesMap.keys ↔ k ∈ s₀.recountingNodesMap.keys ∨
    ∃ g ∈ D, k = s₀.rebalancingManager.lowestLevelNodeIndex (s₀.rewriteIndex g)

lemma Rewriting.refl (p : BatchedParams K α) (s : BatchedSparseArray K α) :
    Rewriting p s ∅ s :=
  ⟨Transfer.Done.refl _ _ _ _ _, rfl, rfl, fun k => by simp⟩

lemma memory_rewriteBlock (pmaRange : Interval) (n b k : ℕ) :
    (s.rewriteBlock p pmaRange n b k).memory =
      Transfer.move (PmaEntry.null p.toBlockParams) s.memory (.swap b)
        (.pma (getUniformWriteIndex pmaRange.left k pmaRange.length n)) := by
  funext q
  cases q <;>
    simp [memory, rewriteBlock, addRecountingNode, Transfer.move, Function.update_apply]

/-- The moves of step B-9 do not get in each other's way. -/
lemma TasksFit.rewritePlan (h : s.TasksFit) (hpos : 0 < s.numberOfThreads)
    (hswap : s.swapPlaces.Nodup) :
    Transfer.Plan s.swapTarget s.rewriteTarget s.totalBlocks := by
  refine ⟨fun g g' hg hg' heq => ?_, fun g g' hg hg' heq => ?_, fun g g' hg _ heq => ?_⟩
  · rw [← length_swapPlaces] at hg hg'
    exact getD_inj hswap hg hg' heq
  · have hsame := Place.pma.inj heq
    obtain ⟨h1, h2, h3⟩ := h.taskOf_spec hg
    obtain ⟨h1', h2', h3'⟩ := h.taskOf_spec hg'
    have hc := h.rewriteIndex_mem hpos h1 h2 h3
    have hc' := h.rewriteIndex_mem hpos h1' h2' h3'
    rw [hsame] at hc
    have htask : s.taskOf g = s.taskOf g' := task_unique h.disjoint h1 h1' hc hc'
    rw [htask] at h1 h2 h3
    rcases Nat.lt_trichotomy g g' with hlt | heq' | hgt
    · have := h.rewriteIndex_lt hpos h1 h2 hlt h3'
      omega
    · exact heq'
    · have := h.rewriteIndex_lt hpos h1 h2' hgt h3
      omega
  · obtain ⟨task, -, k, -, htarget⟩ := exists_swapTarget hg
    rw [htarget] at heq
    exact absurd heq (by simp [rewriteTarget])

/-- One iteration of the loop of `rewriteBlocks`. -/
lemma Rewriting.rewriteBlock (hplan : Transfer.Plan s₀.swapTarget s₀.rewriteTarget s₀.totalBlocks)
    (h : Rewriting p s₀ D s) {g b k n : ℕ} {pmaRange : Interval} (hg : g < s₀.totalBlocks)
    (hout : g ∉ D) (hsrc : s₀.swapTarget g = .swap b)
    (hdst : s₀.rewriteIndex g = getUniformWriteIndex pmaRange.left k pmaRange.length n) :
    Rewriting p s₀ (insert g D) (s.rewriteBlock p pmaRange n b k) where
  done := by
    have hmove := h.done.move hplan hg hout
    rw [hsrc, rewriteTarget, hdst] at hmove
    rw [memory_rewriteBlock]
    exact hmove
  frame := by
    have hf := h.frame
    rw [BatchedSparseArray.rewriteBlock, addRecountingNode]
    rw [hf]
  flagged := h.flagged
  mem_keys k' := by
    have hm : s.rebalancingManager = s₀.rebalancingManager := by rw [h.frame]
    have hkeys : (s.rewriteBlock p pmaRange n b k).recountingNodesMap.keys =
        insert (s₀.rebalancingManager.lowestLevelNodeIndex (s₀.rewriteIndex g))
          s.recountingNodesMap.keys := by
      rw [hdst, ← hm]
      rfl
    rw [hkeys, Finset.mem_insert, h.mem_keys]
    constructor
    · rintro (rfl | hk | ⟨g', hg', rfl⟩)
      · exact Or.inr ⟨g, Set.mem_insert _ _, rfl⟩
      · exact Or.inl hk
      · exact Or.inr ⟨g', Set.mem_insert_of_mem _ hg', rfl⟩
    · rintro (hk | ⟨g', hg', rfl⟩)
      · exact Or.inr (Or.inl hk)
      · rcases hg' with rfl | hg'
        · exact Or.inl rfl
        · exact Or.inr (Or.inr ⟨g', hg', rfl⟩)

/-- `rewriteBlocks` makes the moves of a run of numbers. -/
lemma Rewriting.rewriteBlocks
    (hplan : Transfer.Plan s₀.swapTarget s₀.rewriteTarget s₀.totalBlocks) (h : Rewriting p s₀ D s)
    {g n : ℕ} (swapPmaRange pmaRange : Interval) (hle : g + n ≤ s₀.totalBlocks)
    (hsrc : ∀ j < n, s₀.swapTarget (g + j) = .swap (swapPmaRange.left + j))
    (hdst : ∀ j < n, s₀.rewriteIndex (g + j) =
      getUniformWriteIndex pmaRange.left j pmaRange.length n)
    (hD : ∀ g' ∈ Set.Ico g (g + n), g' ∉ D) :
    Rewriting p s₀ (D ∪ Set.Ico g (g + n)) (s.rewriteBlocks p swapPmaRange pmaRange n) := by
  have hrun : ∀ m ≤ n, Rewriting p s₀ (D ∪ Set.Ico g (g + m))
      ((List.range m).foldl (fun s' i =>
        s'.rewriteBlock p pmaRange n (swapPmaRange.left + i) i) s) := by
    intro m
    induction m with
    | zero => intro _; simpa using h
    | succ m ih =>
        intro hm
        rw [List.range_succ, List.foldl_append]
        have hstep := (ih (by omega)).rewriteBlock hplan (g := g + m) (k := m) (n := n) (by omega)
          (fun hin => by
            rcases hin with hin | hin
            · exact hD _ ⟨by omega, by omega⟩ hin
            · exact absurd hin.2 (lt_irrefl _))
          (hsrc m (by omega)) (hdst m (by omega))
        have hset : insert (g + m) (D ∪ Set.Ico g (g + m)) = D ∪ Set.Ico g (g + (m + 1)) := by
          ext i
          simp only [Set.mem_insert_iff, Set.mem_union, Set.mem_Ico]
          by_cases hi : i ∈ D
          · simp [hi]
          · simp only [hi, false_or]
            omega
        rw [hset] at hstep
        exact hstep
  exact hrun n (le_refl n)

lemma Rewriting.rebalancingTask_eq (h : Rewriting p s₀ D s) (i : ℕ) :
    s.rebalancingTask i = s₀.rebalancingTask i := by
  rw [h.frame]
  rfl

lemma Rewriting.taskBlockRange_eq (h : Rewriting p s₀ D s) (i : ℕ) :
    s.taskBlockRange i = s₀.taskBlockRange i := by
  rw [h.frame]
  rfl

/-- A part of a task. -/
lemma Rewriting.startPartial (ht : s₀.TasksFit) (hpos : 0 < s₀.numberOfThreads)
    (hplan : Transfer.Plan s₀.swapTarget s₀.rewriteTarget s₀.totalBlocks) (h : Rewriting p s₀ D s)
    {t i : ℕ} (hi : i < s₀.rebalancingTasks.length) {range : Interval}
    (hrange : range = threadBlockRange s₀.totalBlocks s₀.numberOfThreads t)
    (hD : ∀ g ∈ Set.Ico (max (s₀.firstBlock i) range.left)
      (min (s₀.firstBlock (i + 1)) range.right), g ∉ D) :
    Rewriting p s₀ (D ∪ Set.Ico (max (s₀.firstBlock i) range.left)
      (min (s₀.firstBlock (i + 1)) range.right)) (s.startPartialRewritingTask p i range) := by
  rw [startPartialRewritingTask, h.taskBlockRange_eq, ht.prefixSummed.taskBlockRange_eq hi,
    h.rebalancingTask_eq]
  simp only
  rcases Nat.lt_or_ge (max (s₀.firstBlock i) range.left)
    (min (s₀.firstBlock (i + 1)) range.right) with hlt | hge
  · have hsucc := firstBlock_succ hi
    have htotal : s₀.firstBlock (i + 1) ≤ s₀.totalBlocks := firstBlock_le_total hi
    rw [cut_eq hlt, if_neg (by simp only [Interval.length]; omega)]
    simp only [Interval.length]
    generalize hx : max (s₀.firstBlock i) range.left = lo at *
    generalize hy : min (s₀.firstBlock (i + 1)) range.right = hi' at *
    have hmain := h.rewriteBlocks hplan (g := lo) (n := hi' - lo)
      ⟨(s₀.rebalancingTask i).pmaRange.left + (lo - s₀.firstBlock i),
        (s₀.rebalancingTask i).pmaRange.left + (lo - s₀.firstBlock i) + (hi' - lo)⟩
      ⟨getUniformWriteIndex (s₀.rebalancingTask i).pmaRange.left
          (lo - s₀.firstBlock i) ((s₀.rebalancingTask i).pmaRange.right -
            (s₀.rebalancingTask i).pmaRange.left) (s₀.rebalancingTask i).numberOfBlocks,
        getUniformWriteIndex (s₀.rebalancingTask i).pmaRange.left
          (lo - s₀.firstBlock i + (hi' - lo)) ((s₀.rebalancingTask i).pmaRange.right -
            (s₀.rebalancingTask i).pmaRange.left) (s₀.rebalancingTask i).numberOfBlocks⟩
      (by omega) (fun j hj => ?_) (fun j hj => ?_) ?_
    · rw [Nat.add_sub_cancel' hlt.le] at hmain
      exact hmain
    · have := swapTarget_eq hi (k := lo - s₀.firstBlock i + j) (by omega)
      rw [← Nat.add_assoc, ← Nat.add_assoc, Nat.add_sub_cancel' (by omega)] at this
      exact this
    · rw [ht.rewriteIndex_eq hpos hi (by omega) (by omega) (t := t) (by rw [← hrange]; omega)
        (by rw [← hrange]; omega), ← hrange, hx, hy, pieceSpread]
      have h1 : lo - s₀.firstBlock i + (hi' - lo) = hi' - s₀.firstBlock i := by omega
      have h2 : hi' - s₀.firstBlock i - (lo - s₀.firstBlock i) = hi' - lo := by omega
      have h3 : lo + j - s₀.firstBlock i - (lo - s₀.firstBlock i) = j := by omega
      simp only [getUniformWriteIndex, Interval.length, spread, h1, h2, h3]
      rw [Nat.add_sub_add_left, Nat.add_assoc]
    · rw [Nat.add_sub_cancel' hlt.le]
      exact hD
  · rw [if_pos (cut_length_eq_zero hge), Set.Ico_eq_empty (not_lt.mpr hge), Set.union_empty]
    exact h

/-- A whole task. -/
lemma Rewriting.startFull (ht : s₀.TasksFit) (hpos : 0 < s₀.numberOfThreads)
    (hplan : Transfer.Plan s₀.swapTarget s₀.rewriteTarget s₀.totalBlocks) (h : Rewriting p s₀ D s)
    {t i : ℕ} (hi : i < s₀.rebalancingTasks.length)
    (hleft : (threadBlockRange s₀.totalBlocks s₀.numberOfThreads t).left ≤ s₀.firstBlock i)
    (hright : s₀.firstBlock (i + 1) ≤
      (threadBlockRange s₀.totalBlocks s₀.numberOfThreads t).right)
    (hD : ∀ g ∈ Set.Ico (s₀.firstBlock i) (s₀.firstBlock (i + 1)), g ∉ D) :
    Rewriting p s₀ (D ∪ Set.Ico (s₀.firstBlock i) (s₀.firstBlock (i + 1)))
      (s.startFullRewritingTask p i) := by
  have hsucc := firstBlock_succ hi
  have htotal : s₀.firstBlock (i + 1) ≤ s₀.totalBlocks := firstBlock_le_total hi
  rw [startFullRewritingTask, h.rebalancingTask_eq]
  rw [hsucc] at hD htotal hright ⊢
  refine h.rewriteBlocks hplan _ _ htotal (fun j hj => swapTarget_eq hi hj) (fun j hj => ?_) hD
  rw [ht.rewriteIndex_eq hpos hi (by omega) (by omega) (t := t) (by omega) (by omega),
    max_eq_left hleft, hsucc, min_eq_left hright, Nat.sub_self, Nat.add_sub_cancel_left,
    Nat.add_sub_cancel_left, pieceSpread_whole (by omega)]
  rfl

/-- What one thread does in step B-9. -/
lemma Rewriting.executeRewriting (ht : s₀.TasksFit) (hpos : 0 < s₀.numberOfThreads)
    (hplan : Transfer.Plan s₀.swapTarget s₀.rewriteTarget s₀.totalBlocks) (h : Rewriting p s₀ D s)
    {t : ℕ} (hD : ∀ g ∈ share s₀.totalBlocks s₀.numberOfThreads t, g ∉ D) :
    Rewriting p s₀ (D ∪ share s₀.totalBlocks s₀.numberOfThreads t) (s.executeRewriting p t) := by
  have htotal : s.numberOfBlocksToRebalance = s₀.totalBlocks := by
    rw [← ht.prefixSummed.numberOfBlocksToRebalance_eq ht.nonempty, h.frame]
    rfl
  have hthreads : s.numberOfThreads = s₀.numberOfThreads := by rw [h.frame]
  have hfind : ∀ b, s.findRebalancingTask b = s₀.findRebalancingTask b := fun b => by
    rw [h.frame]
    rfl
  rw [share_eq_threadBlockRange] at hD ⊢
  rw [BatchedSparseArray.executeRewriting, htotal, hthreads]
  simp only [hfind, Nat.add_sub_cancel]
  split
  · rename_i hlen
    exact ht.prefixSummed.run_share ht.nonempty
      (fun s i => s.startPartialRewritingTask p i
        (threadBlockRange s₀.totalBlocks s₀.numberOfThreads t))
      (fun s i => s.startFullRewritingTask p i)
      (by rw [Interval.length] at hlen; omega) (min_le_left _ _)
      (fun i hi D' s' h' hD' => h'.startPartial ht hpos hplan hi rfl hD')
      (fun i hi hl hr D' s' h' hD' => h'.startFull ht hpos hplan hi hl hr hD') h hD
  · rename_i hlen
    rw [Interval.length] at hlen
    rw [Set.Ico_eq_empty (by omega), Set.union_empty]
    exact h

/-- **Step B-9.**  All blocks are written back, whatever the order of the threads. -/
theorem TasksFit.executeRewriting_all (ht : s.TasksFit) (hswap : s.swapPlaces.Nodup)
    (hpos : 0 < s.numberOfThreads) {order : List ℕ}
    (hperm : order.Perm (List.range s.numberOfThreads)) :
    Rewriting p s (Set.Iio s.totalBlocks)
      (order.foldl (fun s' t => s'.executeRewriting p t) s) :=
  run_shares _ hpos (fun _ _ _ _ h hD =>
    h.executeRewriting ht hpos (ht.rewritePlan hpos hswap) hD) hperm (Rewriting.refl p s)

/-! ## Step B-9 as a whole -/

/-- The divisors of the calls of `getUniformWriteIndex` that `startPartialRewritingTask` makes:
two for the ends of the range and one for every block. -/
def partialRewritingDivisors (s : BatchedSparseArray K α) (taskIndex : ℕ)
    (globalBlockRange : Interval) : List ℕ :=
  let numberOfBlocks := ((s.taskBlockRange taskIndex).cut globalBlockRange).length
  let task := s.rebalancingTask taskIndex
  if numberOfBlocks = 0 then []
  else task.numberOfBlocks :: task.numberOfBlocks :: List.replicate numberOfBlocks numberOfBlocks

def fullRewritingDivisors (s : BatchedSparseArray K α) (taskIndex : ℕ) : List ℕ :=
  let task := s.rebalancingTask taskIndex
  List.replicate task.numberOfBlocks task.numberOfBlocks

/-- All divisors of one thread in step B-9(a). -/
def rewritingDivisors (s : BatchedSparseArray K α) (thread : ℕ) : List ℕ :=
  let blockRange := threadBlockRange s.numberOfBlocksToRebalance s.numberOfThreads thread
  s.numberOfThreads ::
    if 0 < blockRange.length then
      let range : Interval :=
        ⟨s.findRebalancingTask blockRange.left, s.findRebalancingTask blockRange.right + 1⟩
      s.partialRewritingDivisors range.left blockRange ++
        (innerTasks range).flatMap s.fullRewritingDivisors ++
        if 1 < range.length then s.partialRewritingDivisors (range.right - 1) blockRange else []
    else []

lemma PrefixSummed.partialRewritingDivisors_pos (h : s.PrefixSummed) (i : ℕ) (range : Interval) :
    ∀ d ∈ s.partialRewritingDivisors i range, 0 < d := by
  intro d hd
  rw [partialRewritingDivisors] at hd
  split at hd
  · exact absurd hd (by simp)
  · rename_i hne
    have hpart : 0 < (s.taskBlockRange i).length := by
      by_contra hzero
      refine hne ?_
      rw [Interval.cut]
      simp only [Interval.length] at hzero ⊢
      rw [if_pos (by omega)]
      rfl
    -- behind the last task there are no blocks
    have hi : i < s.rebalancingTasks.length := by
      by_contra hge
      rw [Interval.length, taskBlockRange] at hpart
      simp only at hpart
      rcases Nat.eq_or_lt_of_le (not_lt.mp hge) with heq | hlt
      · have hlast : s.firstBlock (s.rebalancingTasks.length + 1) = s.totalBlocks := by
          rw [totalBlocks, firstBlock, firstBlock, offset_of_length_le (Nat.le_succ _)]
        rw [← heq, h.getD_eq (le_refl _), hlast] at hpart
        split at hpart
        · rw [h.getD_eq (by omega), Nat.sub_add_cancel (by omega), totalBlocks] at hpart
          omega
        · have hz : s.rebalancingTasks.length = 0 := by omega
          rw [totalBlocks, hz, firstBlock_zero] at hpart
          omega
      · have hnone : s.prefixNumberOfRebalancingBlocks.getD i 0 = 0 := by
          rw [h, List.getD_eq_getElem?_getD, List.getElem?_eq_none (by simp; omega)]
          rfl
        rw [hnone] at hpart
        omega
    have hpos : 0 < (s.rebalancingTask i).numberOfBlocks := by
      have hsucc := firstBlock_succ hi
      rw [h.taskBlockRange_eq hi, Interval.length] at hpart
      simp only at hpart
      omega
    rcases List.mem_cons.mp hd with rfl | hd
    · exact hpos
    · rcases List.mem_cons.mp hd with rfl | hd
      · exact hpos
      · rw [List.eq_of_mem_replicate hd]
        omega

lemma PrefixSummed.rewritingDivisors_pos (h : s.PrefixSummed) (hpos : 0 < s.numberOfThreads)
    (thread : ℕ) : ∀ d ∈ s.rewritingDivisors thread, 0 < d := by
  intro d hd
  rw [rewritingDivisors] at hd
  simp only at hd
  rcases List.mem_cons.mp hd with rfl | hd
  · exact hpos
  · split at hd
    · rcases List.mem_append.mp hd with hd | hd
      · rcases List.mem_append.mp hd with hd | hd
        · exact h.partialRewritingDivisors_pos _ _ d hd
        · obtain ⟨i, -, hd⟩ := List.mem_flatMap.mp hd
          rw [fullRewritingDivisors, List.mem_replicate] at hd
          omega
      · split at hd
        · exact h.partialRewritingDivisors_pos _ _ d hd
        · exact absurd hd (by simp)
    · exact absurd hd (by simp)

/-- What step B-9(a) does: the `k`-th block of task `i` goes to `cell i k`. -/
structure PlacedOnce (p : BatchedParams K α) (s s' : BatchedSparseArray K α)
    (cell : ℕ → ℕ → ℕ) : Prop where
  mem_range : ∀ i < s.rebalancingTasks.length, ∀ k < (s.rebalancingTask i).numberOfBlocks,
    (s.rebalancingTask i).pmaRange.contains (cell i k)
  increasing : ∀ i < s.rebalancingTasks.length, ∀ k k', k < k' →
    k' < (s.rebalancingTask i).numberOfBlocks → cell i k < cell i k'
  injective : ∀ i < s.rebalancingTasks.length, ∀ k < (s.rebalancingTask i).numberOfBlocks,
    ∀ i' < s.rebalancingTasks.length, ∀ k' < (s.rebalancingTask i').numberOfBlocks,
      cell i k = cell i' k' → i = i' ∧ k = k'
  placed : ∀ i < s.rebalancingTasks.length, ∀ k < (s.rebalancingTask i).numberOfBlocks,
    s'.pma (cell i k) = s.swapPma ((s.rebalancingTask i).pmaRange.left + k) ∧
      s'.swapPma ((s.rebalancingTask i).pmaRange.left + k) = PmaEntry.null p.toBlockParams ∧
      s.rebalancingManager.lowestLevelNodeIndex (cell i k) ∈ s'.recountingNodesMap.keys
  pma_other : ∀ c, (∀ i < s.rebalancingTasks.length,
    ∀ k < (s.rebalancingTask i).numberOfBlocks, cell i k ≠ c) → s'.pma c = s.pma c
  swap_other : ∀ j, (∀ i < s.rebalancingTasks.length,
    ∀ k < (s.rebalancingTask i).numberOfBlocks,
      (s.rebalancingTask i).pmaRange.left + k ≠ j) → s'.swapPma j = s.swapPma j

lemma TasksFit.placedOnce (ht : s.TasksFit) (hpos : 0 < s.numberOfThreads) {order : List ℕ}
    (hperm : order.Perm (List.range s.numberOfThreads)) :
    PlacedOnce p s (order.foldl (fun s' t => s'.executeRewriting p t) s)
      fun i k => s.rewriteIndex (s.firstBlock i + k) := by
  have hw := ht.executeRewriting_all (p := p) (nodup_swapPlaces_of_fits ht.fits ht.disjoint) hpos
    hperm
  generalize order.foldl (fun s' t => s'.executeRewriting p t) s = s' at *
  have hnum : ∀ {i k}, i < s.rebalancingTasks.length → k < (s.rebalancingTask i).numberOfBlocks →
      s.firstBlock i + k < s.firstBlock (i + 1) ∧ s.firstBlock i + k < s.totalBlocks := by
    intro i k hi hk
    have h1 := firstBlock_succ hi
    have h2 : s.firstBlock (i + 1) ≤ s.totalBlocks := firstBlock_le_total hi
    omega
  -- a number is that of a block of a task
  have hsplit : ∀ g < s.totalBlocks, ∃ i < s.rebalancingTasks.length,
      ∃ k < (s.rebalancingTask i).numberOfBlocks, g = s.firstBlock i + k := by
    intro g hg
    obtain ⟨h1, h2, h3⟩ := ht.taskOf_spec hg
    have h4 := firstBlock_succ h1
    exact ⟨s.taskOf g, h1, g - s.firstBlock (s.taskOf g), by omega, by omega⟩
  have hmem : ∀ i < s.rebalancingTasks.length, ∀ k < (s.rebalancingTask i).numberOfBlocks,
      (s.rebalancingTask i).pmaRange.contains (s.rewriteIndex (s.firstBlock i + k)) :=
    fun i hi k hk => ht.rewriteIndex_mem hpos hi (Nat.le_add_right _ _) (hnum hi hk).1
  have hlt : ∀ i < s.rebalancingTasks.length, ∀ k k', k < k' →
      k' < (s.rebalancingTask i).numberOfBlocks →
        s.rewriteIndex (s.firstBlock i + k) < s.rewriteIndex (s.firstBlock i + k') :=
    fun i hi k k' hkk hk' => ht.rewriteIndex_lt hpos hi (Nat.le_add_right _ _) (by omega)
      (hnum hi hk').1
  refine ⟨hmem, hlt, fun i hi k hk i' hi' k' hk' heq => ?_, fun i hi k hk => ⟨?_, ?_, ?_⟩,
    fun c hc => ?_, fun j hj => ?_⟩
  · have hci := hmem i hi k hk
    rw [heq] at hci
    obtain rfl : i = i' := task_unique ht.disjoint hi hi' hci (hmem i' hi' k' hk')
    refine ⟨rfl, ?_⟩
    rcases Nat.lt_trichotomy k k' with h | h | h
    · have := hlt i hi k k' h hk'
      omega
    · exact h
    · have := hlt i hi k' k h hk
      omega
  · have h := hw.done.target _ (hnum hi hk).2
    rw [swapTarget_eq hi hk] at h
    exact h
  · have h := hw.done.source _ (hnum hi hk).2
    rw [swapTarget_eq hi hk] at h
    exact h
  · exact (hw.mem_keys _).mpr (Or.inr ⟨_, (hnum hi hk).2, rfl⟩)
  · refine hw.done.other (.pma c) fun g hg => ⟨fun heq => ?_, fun heq => ?_⟩
    · obtain ⟨task, -, k, -, hk⟩ := exists_swapTarget hg
      rw [hk] at heq
      exact absurd heq (by simp)
    · obtain ⟨i, hi, k, hk, rfl⟩ := hsplit g hg
      exact hc i hi k hk (Place.pma.inj heq).symm
  · refine hw.done.other (.swap j) fun g hg => ⟨fun heq => ?_, by simp [rewriteTarget]⟩
    obtain ⟨i, hi, k, hk, rfl⟩ := hsplit g hg
    rw [swapTarget_eq hi hk] at heq
    exact hj i hi k hk (Place.swap.inj heq).symm

/-- **Step B-9.**  For every list of disjoint tasks with room for their blocks, every number of
threads and every order of the threads, every block is placed once and in order, and no division
is by zero. -/
theorem executeRewriting_places_once (p : BatchedParams K α) (s : BatchedSparseArray K α)
    (hfits : ∀ task ∈ s.rebalancingTasks, task.numberOfBlocks ≤ task.pmaRange.length)
    (hdisjoint : s.rebalancingTasks.Pairwise fun a b =>
      ∀ c, a.pmaRange.contains c → ¬ b.pmaRange.contains c)
    (hpos : 0 < s.numberOfThreads) (order : List ℕ)
    (hperm : order.Perm (List.range s.numberOfThreads)) :
    (∃ cell, PlacedOnce p s.computePrefixSums
      (order.foldl (fun s' t => s'.executeRewriting p t) s.computePrefixSums) cell) ∧
      ∀ thread, ∀ d ∈ s.computePrefixSums.rewritingDivisors thread, 0 < d := by
  have hsum := prefixSummed_computePrefixSums s
  refine ⟨?_, fun thread => hsum.rewritingDivisors_pos hpos thread⟩
  by_cases hne : s.rebalancingTasks = []
  · -- without tasks no thread has anything to do
    have hstep : ∀ t, s.computePrefixSums.executeRewriting p t = s.computePrefixSums := by
      intro t
      have htotal : s.computePrefixSums.numberOfBlocksToRebalance = 0 := by
        simp [numberOfBlocksToRebalance, computePrefixSums, inclusiveScan, hne]
      rw [executeRewriting]
      simp only [htotal, threadBlockRange, Interval.length]
      simp
    have hall : ∀ l : List ℕ, l.foldl (fun s' t => s'.executeRewriting p t)
        s.computePrefixSums = s.computePrefixSums := by
      intro l
      induction l with
      | nil => rfl
      | cons t l ih => rw [List.foldl_cons, hstep, ih]
    have hlen : s.computePrefixSums.rebalancingTasks.length = 0 := by
      simp [computePrefixSums, hne]
    rw [hall]
    exact ⟨fun _ _ => 0, fun i hi => by omega, fun i hi => by omega, fun i hi => by omega,
      fun i hi => by omega, fun _ _ => rfl, fun _ _ => rfl⟩
  · exact ⟨_, TasksFit.placedOnce ⟨hsum, hne, hfits, hdisjoint⟩ hpos hperm⟩

/-- Three blocks of the swap array for a range of four cells and two for a range of two. -/
def swappedBlocks : BatchedSparseArray ℕ ℕ :=
  { create (keyOnlyBatched 4 4) 2 with
    swapPma := fun c =>
      if c = 4 then ⟨some [30, 40, 0, 0], 30, 2⟩ else if c = 5 then ⟨some [50, 60, 0, 0], 50, 2⟩
      else if c = 6 then ⟨some [70, 80, 0, 0], 70, 2⟩
      else if c = 0 then ⟨some [10, 15, 0, 0], 10, 2⟩
      else if c = 1 then ⟨some [20, 25, 0, 0], 20, 2⟩ else PmaEntry.null (keyOnlyBlocks 4)
    rebalancingTasks := [⟨⟨4, 8⟩, 3, ⟨0, 1⟩⟩, ⟨⟨0, 2⟩, 2, ⟨0, 0⟩⟩] }

/-- The second of two threads runs first. -/
theorem executeRewriting_places_fiveBlocks :
    let p := keyOnlyBatched 4 4
    let s := swappedBlocks.computePrefixSums
    let s' := [1, 0].foldl (fun s' t => s'.executeRewriting p t) s
    (∃ cell, PlacedOnce p s s' cell) ∧
      (List.range 8).map (fun c => (s'.pma c).live) =
        [[10, 15], [20, 25], [], [], [30, 40], [50, 60], [70, 80], []] ∧
      (List.range 8).map (fun c => (s'.swapPma c).live) = List.replicate 8 [] := by
  have hdisjoint : swappedBlocks.rebalancingTasks.Pairwise fun a b =>
      ∀ c, a.pmaRange.contains c → ¬ b.pmaRange.contains c := by
    refine List.pairwise_pair.mpr fun c h1 h2 => ?_
    have h3 : 4 ≤ c := h1.1
    have h4 : c < 2 := h2.2
    omega
  refine ⟨(executeRewriting_places_once (keyOnlyBatched 4 4) swappedBlocks (by decide) hdisjoint
    (by decide) [1, 0] (List.Perm.swap 0 1 [])).1, ?_, ?_⟩
  · decide
  · decide

end BatchedSparseArray

end BatchPMA
