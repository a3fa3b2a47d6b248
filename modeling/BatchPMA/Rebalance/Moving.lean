import BatchPMA.Rebalance.ToSwap

/-!
# The threads of step B-5

Every part of the step makes the moves of a run of numbers and clears the flag of its task.
-/

namespace BatchPMA

open RebalancingManager Segments

/-- The hierarchy `m` with the flags of some nodes cleared. -/
structure FlagsCleared (m : RebalancingManager) (nodes : Set RebalancingNode)
    (m' : RebalancingManager) : Prop where
  frame : ∃ a, m' = m.withCounters a m.nextLevelRecountingNodes
  counts : ∀ i l, (m'.aggregate i l).numberOfBlocks = (m.aggregate i l).numberOfBlocks
  flags : ∀ l i, m.IsNode l i →
    ((m'.aggregate i l).rebalanced = true ↔ (m.aggregate i l).rebalanced = true ∧ ⟨l, i⟩ ∉ nodes)

lemma FlagsCleared.refl (m : RebalancingManager) : FlagsCleared m ∅ m :=
  ⟨⟨m.aggregates, rfl⟩, fun _ _ => rfl, fun _ _ _ => by simp⟩

lemma FlagsCleared.clear {m m' : RebalancingManager} {nodes : Set RebalancingNode}
    (hm : m.LevelsValid) (h : FlagsCleared m nodes m') {node : RebalancingNode}
    (hn : m.IsNode node.level node.index) :
    FlagsCleared m (insert node nodes) (m'.clearRebalancedFlag node) := by
  obtain ⟨a, rfl⟩ := h.frame
  have hm' := hm.withCounters a m.nextLevelRecountingNodes
  refine ⟨⟨_, by rw [clearRebalancedFlag_eq]; rfl⟩, fun i l => ?_, fun l i hli => ?_⟩
  · rw [numberOfBlocks_clearRebalancedFlag, h.counts]
  · rw [rebalanced_clearRebalancedFlag hm' hn hli, h.flags l i hli, Set.mem_insert_iff, not_or,
      and_assoc]
    exact and_congr_right fun _ => and_comm

namespace BatchedSparseArray

variable {K α : Type} [DecidableEq K] {p : BatchedParams K α} {s s₀ : BatchedSparseArray K α}
  {D : Set ℕ}

/-- The state of step B-5 after the moves with numbers in `D`: the flags of the tasks that have
been touched are cleared. -/
structure Moving (p : BatchedParams K α) (s₀ : BatchedSparseArray K α) (D : Set ℕ)
    (s : BatchedSparseArray K α) : Prop where
  running : Running p s₀ (s₀.source p) s₀.swapTarget s₀.totalBlocks D s
  flags : ∃ nodes, FlagsCleared s₀.rebalancingManager nodes s.rebalancingManager ∧
    (∀ node ∈ nodes, ∃ task ∈ s₀.rebalancingTasks, node = task.rootNode) ∧
    ∀ g ∈ D, ∀ i < s₀.rebalancingTasks.length, s₀.firstBlock i ≤ g → g < s₀.firstBlock (i + 1) →
      (s₀.rebalancingTask i).rootNode ∈ nodes

lemma Moving.refl (p : BatchedParams K α) (s : BatchedSparseArray K α) : Moving p s ∅ s where
  running := ⟨Transfer.Done.refl _ _ _ _ _, _, _, _, _, rfl⟩
  flags := ⟨∅, FlagsCleared.refl _, fun _ h => absurd h (Set.notMem_empty _),
    fun _ h => absurd h (Set.notMem_empty _)⟩

/-! ## The loop leaves the hierarchy alone -/

omit [DecidableEq K] in
lemma rebalancingManager_moveBufferBlocks (start : ℕ) : ∀ (n i out : ℕ)
    (s : BatchedSparseArray K α),
      (moveBufferBlocks p start n i out s).1.rebalancingManager = s.rebalancingManager
  | 0, _, _, _ => rfl
  | n + 1, i, out, s => by
      rw [moveBufferBlocks]
      split
      · exact rebalancingManager_moveBufferBlocks start n _ _ _
      · exact rebalancingManager_moveBufferBlocks start n _ _ _

lemma rebalancingManager_rebalanceLoop (start : ℕ) (e : ExtendedPmaIndex) : ∀ (fuel : ℕ)
    (i : ExtendedPmaIndex) (out : ℕ) (s : BatchedSparseArray K α),
      (rebalanceLoop p start e fuel i out s).rebalancingManager = s.rebalancingManager
  | 0, _, _, _ => rfl
  | fuel + 1, i, out, s => by
      rw [rebalanceLoop]
      split
      · rw [rebalancingManager_rebalanceLoop start e fuel, rebalanceCell,
          rebalancingManager_moveBufferBlocks]
        split <;> rfl
      · rfl

/-! ## Parts of tasks -/

/-- Clearing the flag of a task that is about to be touched. -/
lemma Moving.clearFlag (hr : s₀.Ready p) (h : Moving p s₀ D s) {i : ℕ}
    (hi : i < s₀.rebalancingTasks.length) {D' : Set ℕ} {s' : BatchedSparseArray K α}
    (hrun : Running p s₀ (s₀.source p) s₀.swapTarget s₀.totalBlocks (D ∪ D') s')
    (hD : ∀ g ∈ D', s₀.firstBlock i ≤ g ∧ g < s₀.firstBlock (i + 1))
    (hm : s'.rebalancingManager =
      s.rebalancingManager.clearRebalancedFlag (s₀.rebalancingTask i).rootNode) :
    Moving p s₀ (D ∪ D') s' := by
  obtain ⟨nodes, hc, hroots, htouched⟩ := h.flags
  have hin := rebalancingTask_mem hi
  refine ⟨hrun, insert (s₀.rebalancingTask i).rootNode nodes, ?_, fun node hn => ?_,
    fun g hg k hk h1 h2 => ?_⟩
  · rw [hm]
    exact hc.clear hr.levels (hr.isNode _ hin)
  · rcases hn with rfl | hn
    · exact ⟨_, hin, rfl⟩
    · exact hroots node hn
  · rcases hg with hg | hg
    · exact Set.mem_insert_of_mem _ (htouched g hg k hk h1 h2)
    · obtain ⟨h3, h4⟩ := hD g hg
      rw [offset_unique h1 h2 h3 h4]
      exact Set.mem_insert _ _

omit [DecidableEq K] in
lemma Running.rebalancingTask_eq {src dst : ℕ → Place} {n : ℕ} (h : Running p s₀ src dst n D s)
    (i : ℕ) : s.rebalancingTask i = s₀.rebalancingTask i := by
  obtain ⟨a, b, c, m, rfl⟩ := h.frame
  rfl

/-- `rebalanceBlocks` makes the moves between the ranks of its two ends. -/
lemma Moving.rebalanceBlocks (hr : s₀.Ready p) (h : Moving p s₀ D s) {i : ℕ}
    (hi : i < s₀.rebalancingTasks.length) {b e : ExtendedPmaIndex} {x : ℕ}
    (hb : s₀.InCell b) (hbl : (s₀.rebalancingTask i).pmaRange.left ≤ b.pmaIndex)
    (hx : s₀.rank p (s₀.rebalancingTask i).pmaRange.left b = x)
    (he : s₀.EndIn (s₀.rebalancingTask i).pmaRange.left
      (s₀.treeRange (s₀.rebalancingTask i)).right e)
    (hD : ∀ g ∈ Set.Ico (s₀.firstBlock i + x)
      (s₀.firstBlock i + s₀.rank p (s₀.rebalancingTask i).pmaRange.left e), g ∉ D) :
    Moving p s₀ (D ∪ Set.Ico (s₀.firstBlock i + x)
      (s₀.firstBlock i + s₀.rank p (s₀.rebalancingTask i).pmaRange.left e))
      (s.rebalanceBlocks p i b e x) := by
  have hplan := hr.taskPlan hi
  have hle := he.rank_le (p := p)
  rw [hr.length_placesIn (rebalancingTask_mem hi)] at hle
  refine h.clearFlag hr hi ?_ (fun g hg => ?_) ?_
  · have hstart : Running p s₀ (s₀.source p) s₀.swapTarget s₀.totalBlocks D
        (s.withBlocks s.pma s.swapPma s.bufferArray
          (s.rebalancingManager.clearRebalancedFlag (s.rebalancingTask i).rootNode)) := by
      refine ⟨h.running.done, ?_⟩
      obtain ⟨a, b, c, m, rfl⟩ := h.running.frame
      exact ⟨a, b, c, _, rfl⟩
    have hloop := Running.rebalanceLoop hr.swapPlan hplan he (x := x)
      (e.pmaIndex + 1 - b.pmaIndex) b 0 D _ hstart hbl hb (by omega) hx.symm
      (fun g h1 h2 => hD g ⟨by omega, h2⟩)
    rw [hx] at hloop
    rw [BatchedSparseArray.rebalanceBlocks]
    simp only [h.running.rebalancingTask_eq] at hloop ⊢
    exact hloop
  · rw [firstBlock_succ hi]
    exact ⟨by have := hg.1; omega, by have := hg.2; omega⟩
  · rw [BatchedSparseArray.rebalanceBlocks, rebalancingManager_rebalanceLoop,
      h.running.rebalancingTask_eq]

/-- The state in front of the threads of step B-5: every thread has looked up its share. -/
structure Assigned (p : BatchedParams K α) (s : BatchedSparseArray K α) : Prop where
  prefixSummed : s.PrefixSummed
  nonempty : s.rebalancingTasks ≠ []
  blockRange : ∀ t < s.numberOfThreads, (s.tasks t).rebalancingBlockRange =
    threadBlockRange s.totalBlocks s.numberOfThreads t
  taskRange : ∀ t < s.numberOfThreads, 0 < (s.tasks t).rebalancingBlockRange.length →
    (s.tasks t).rebalancingTaskRange =
      ⟨s.findRebalancingTask (s.tasks t).rebalancingBlockRange.left,
        s.findRebalancingTask (s.tasks t).rebalancingBlockRange.right + 1⟩
  first : ∀ t < s.numberOfThreads, 0 < (s.tasks t).rebalancingBlockRange.length →
    (s.tasks t).firstRebalancingTask = s.getPartialRebalancingRange p
      (s.tasks t).rebalancingTaskRange.left (s.tasks t).rebalancingBlockRange
  last : ∀ t < s.numberOfThreads, 0 < (s.tasks t).rebalancingBlockRange.length →
    1 < (s.tasks t).rebalancingTaskRange.length →
    (s.tasks t).lastRebalancingTask = s.getPartialRebalancingRange p
      ((s.tasks t).rebalancingTaskRange.right - 1) (s.tasks t).rebalancingBlockRange

lemma assigned_assignRebalancingBlocks (h : s.PrefixSummed) (hne : s.rebalancingTasks ≠ []) :
    (s.assignRebalancingBlocks p).Assigned p := by
  have htotal := h.numberOfBlocksToRebalance_eq hne
  have htask : ∀ t < s.numberOfThreads, (s.assignRebalancingBlocks p).tasks t =
      if 0 < (threadBlockRange s.totalBlocks s.numberOfThreads t).length then
        { s.tasks t with
          rebalancingBlockRange := threadBlockRange s.totalBlocks s.numberOfThreads t
          rebalancingTaskRange :=
            ⟨s.findRebalancingTask (threadBlockRange s.totalBlocks s.numberOfThreads t).left,
              s.findRebalancingTask (threadBlockRange s.totalBlocks s.numberOfThreads t).right + 1⟩
          firstRebalancingTask := s.getPartialRebalancingRange p
            (s.findRebalancingTask (threadBlockRange s.totalBlocks s.numberOfThreads t).left)
            (threadBlockRange s.totalBlocks s.numberOfThreads t)
          lastRebalancingTask :=
            if 1 < s.findRebalancingTask
                (threadBlockRange s.totalBlocks s.numberOfThreads t).right + 1 -
                s.findRebalancingTask
                  (threadBlockRange s.totalBlocks s.numberOfThreads t).left then
              s.getPartialRebalancingRange p (s.findRebalancingTask
                (threadBlockRange s.totalBlocks s.numberOfThreads t).right + 1 - 1)
                (threadBlockRange s.totalBlocks s.numberOfThreads t)
            else (s.tasks t).lastRebalancingTask }
      else { s.tasks t with
        rebalancingBlockRange := threadBlockRange s.totalBlocks s.numberOfThreads t } := by
    intro t ht
    rw [← htotal]
    exact if_pos ht
  have hrange : ∀ t < s.numberOfThreads,
      ((s.assignRebalancingBlocks p).tasks t).rebalancingBlockRange =
        threadBlockRange s.totalBlocks s.numberOfThreads t := by
    intro t ht
    rw [htask t ht]
    split <;> rfl
  refine ⟨h, hne, hrange, fun t ht hpos => ?_, fun t ht hpos => ?_, fun t ht hpos hlen => ?_⟩
  · rw [hrange t ht] at hpos ⊢
    rw [htask t ht, if_pos hpos]
    rfl
  · rw [hrange t ht] at hpos
    rw [htask t ht, if_pos hpos]
    rfl
  · rw [hrange t ht] at hpos
    rw [htask t ht, if_pos hpos] at hlen ⊢
    exact if_pos hlen

/-- The ends of a part of a task. -/
lemma Ready.getPartialRebalancingRange_spec (hr : s.Ready p) (hs : s.PrefixSummed) {i : ℕ}
    (hi : i < s.rebalancingTasks.length) {range : Interval}
    (hlt : max (s.firstBlock i) range.left < min (s.firstBlock (i + 1)) range.right) :
    let part := s.getPartialRebalancingRange p i range
    let left := (s.rebalancingTask i).pmaRange.left
    let right := (s.treeRange (s.rebalancingTask i)).right
    s.EndIn left right part.blockStart ∧ s.EndIn left right part.blockEnd ∧
      s.rank p left part.blockStart = part.outputOffset ∧
      s.firstBlock i + part.outputOffset = max (s.firstBlock i) range.left ∧
      s.firstBlock i + s.rank p left part.blockEnd = min (s.firstBlock (i + 1)) range.right := by
  have hin := rebalancingTask_mem hi
  have hlen := hr.length_placesIn hin
  have hsucc := firstBlock_succ hi
  have hcut := hs.taskBlockRange_eq hi
  have hpart : s.getPartialRebalancingRange p i range =
      ⟨s.rebalancingManager.findBlockInRebalancingTask (s.sdsView p) (s.rebalancingTask i).rootNode
          (max (s.firstBlock i) range.left - s.firstBlock i),
        s.rebalancingManager.findBlockInRebalancingTask (s.sdsView p)
          (s.rebalancingTask i).rootNode
          (min (s.firstBlock (i + 1)) range.right - s.firstBlock i),
        max (s.firstBlock i) range.left - s.firstBlock i⟩ := by
    rw [getPartialRebalancingRange, hcut]
    simp only
    rw [cut_eq hlt, if_neg]
    simp only [Interval.length]
    omega
  have hfind : ∀ j, j ≤ (s.rebalancingTask i).numberOfBlocks →
      s.EndIn (s.rebalancingTask i).pmaRange.left (s.treeRange (s.rebalancingTask i)).right
          (s.rebalancingManager.findBlockInRebalancingTask (s.sdsView p)
            (s.rebalancingTask i).rootNode j) ∧
        s.rank p (s.rebalancingTask i).pmaRange.left
          (s.rebalancingManager.findBlockInRebalancingTask (s.sdsView p)
            (s.rebalancingTask i).rootNode j) = j := by
    intro j hj
    have hspec := findBlockInRebalancingTask_spec (p := p) hr.pointersInCapacity hr.levels
      hr.counters (hr.isNode _ hin) (j := j)
    rw [hr.left_eq _ hin] at hlen ⊢
    exact hspec (by rw [treeRange] at hlen; omega)
  obtain ⟨h1, h2⟩ := hfind (max (s.firstBlock i) range.left - s.firstBlock i) (by omega)
  obtain ⟨h3, h4⟩ := hfind (min (s.firstBlock (i + 1)) range.right - s.firstBlock i) (by omega)
  simp only [hpart]
  exact ⟨h1, h3, h2, by omega, by rw [h4]; omega⟩

/-- A part of a task that contains no block. -/
lemma getPartialRebalancingRange_of_le (hs : s.PrefixSummed) {i : ℕ}
    (hi : i < s.rebalancingTasks.length) {range : Interval}
    (hle : min (s.firstBlock (i + 1)) range.right ≤ max (s.firstBlock i) range.left) :
    s.getPartialRebalancingRange p i range = .zero := by
  rw [getPartialRebalancingRange, hs.taskBlockRange_eq hi]
  simp only
  rw [if_pos (cut_length_eq_zero hle)]

/-- A part of a task. -/
lemma Moving.startPartial (hr : s₀.Ready p) (hs : s₀.PrefixSummed) (h : Moving p s₀ D s) {i : ℕ}
    (hi : i < s₀.rebalancingTasks.length) {range : Interval}
    (hD : ∀ g ∈ Set.Ico (max (s₀.firstBlock i) range.left)
      (min (s₀.firstBlock (i + 1)) range.right), g ∉ D) :
    Moving p s₀ (D ∪ Set.Ico (max (s₀.firstBlock i) range.left)
      (min (s₀.firstBlock (i + 1)) range.right))
      (s.startPartialRebalancingTask p i (s₀.getPartialRebalancingRange p i range)) := by
  rcases Nat.lt_or_ge (max (s₀.firstBlock i) range.left)
    (min (s₀.firstBlock (i + 1)) range.right) with hlt | hge
  · obtain ⟨h1, h2, h3, h4, h5⟩ := hr.getPartialRebalancingRange_spec hs hi hlt
    rw [← h4, ← h5] at hD ⊢
    exact h.rebalanceBlocks hr hi h1.inCell h1.le h3 h2 hD
  · -- nothing to move, but the flag is cleared
    rw [getPartialRebalancingRange_of_le hs hi hge, Set.Ico_eq_empty (not_lt.mpr hge)]
    have hstop : ∀ start s', rebalanceLoop p start PartialRebalancingTask.zero.blockEnd
        (PartialRebalancingTask.zero.blockEnd.pmaIndex + 1 -
          PartialRebalancingTask.zero.blockStart.pmaIndex)
        PartialRebalancingTask.zero.blockStart 0 s' = s' :=
      fun start s' => rebalanceLoop_of_not_less start rfl _ _ s'
    refine h.clearFlag hr hi ?_ (fun g hg => absurd hg (Set.notMem_empty _)) ?_
    · rw [startPartialRebalancingTask, BatchedSparseArray.rebalanceBlocks, hstop, Set.union_empty]
      refine ⟨h.running.done, ?_⟩
      obtain ⟨a, b, c, m, rfl⟩ := h.running.frame
      exact ⟨a, b, c, _, rfl⟩
    · rw [startPartialRebalancingTask, BatchedSparseArray.rebalanceBlocks, hstop,
        h.running.rebalancingTask_eq]

/-- A whole task. -/
lemma Moving.startFull (hr : s₀.Ready p) (h : Moving p s₀ D s) {i : ℕ}
    (hi : i < s₀.rebalancingTasks.length)
    (hD : ∀ g ∈ Set.Ico (s₀.firstBlock i) (s₀.firstBlock (i + 1)), g ∉ D) :
    Moving p s₀ (D ∪ Set.Ico (s₀.firstBlock i) (s₀.firstBlock (i + 1)))
      (s.startFullRebalancingTask p i) := by
  have hin := rebalancingTask_mem hi
  have hl := hr.left_lt _ hin
  have hu := hr.used_le _ hin
  have htree := hr.tree_le _ hin
  have hlr := hr.left_lt_tree hin
  have heff : s.effectiveRange (s.rebalancingTask i).pmaRange =
      ⟨(s₀.rebalancingTask i).pmaRange.left,
        min (s₀.rebalancingTask i).pmaRange.right (max 1 s₀.size)⟩ := by
    rw [effectiveRange, h.running.rebalancingTask_eq, h.running.size_eq]
  rw [startFullRebalancingTask]
  simp only [heff]
  rw [if_neg (by simp only [Interval.length]; omega)]
  have hend : s₀.EndIn (s₀.rebalancingTask i).pmaRange.left
      (s₀.treeRange (s₀.rebalancingTask i)).right
      ⟨min (s₀.rebalancingTask i).pmaRange.right (max 1 s₀.size), none⟩ :=
    ⟨fun y hy => by simp at hy, by simp only; omega, hu, fun hy => absurd rfl hy⟩
  have hrank : s₀.rank p (s₀.rebalancingTask i).pmaRange.left
      ⟨min (s₀.rebalancingTask i).pmaRange.right (max 1 s₀.size), none⟩ =
        (s₀.rebalancingTask i).numberOfBlocks := by
    rw [rank_none, hr.placesIn_used hin, hr.length_placesIn hin]
  have hmove := h.rebalanceBlocks hr hi (b := ⟨(s₀.rebalancingTask i).pmaRange.left, none⟩)
    (x := 0) (fun y hy => by simp at hy) (le_refl _) (by rw [rank_none, placesIn_self]; rfl) hend
  rw [hrank, Nat.add_zero, ← firstBlock_succ hi] at hmove
  exact hmove hD

/-! ## Threads -/

omit [DecidableEq K] in
lemma Running.tasks_eq {src dst : ℕ → Place} {n : ℕ} (h : Running p s₀ src dst n D s) :
    s.tasks = s₀.tasks := by
  obtain ⟨a, b, c, m, rfl⟩ := h.frame
  rfl

/-- What a thread does with its share, in terms of the tasks that the share touches.  `part` is
what happens to a part of a task, `full` to a whole one. -/
lemma Assigned.run_thread (ha : s₀.Assigned p) {t : ℕ} (ht : t < s₀.numberOfThreads)
    {Inv : Set ℕ → BatchedSparseArray K α → Prop}
    (part : BatchedSparseArray K α → ℕ → PartialRebalancingTask → BatchedSparseArray K α)
    (full : BatchedSparseArray K α → ℕ → BatchedSparseArray K α)
    (hpart : ∀ i < s₀.rebalancingTasks.length, ∀ (range : Interval) D s, Inv D s →
      (∀ g ∈ Set.Ico (max (s₀.firstBlock i) range.left) (min (s₀.firstBlock (i + 1)) range.right),
        g ∉ D) →
      Inv (D ∪ Set.Ico (max (s₀.firstBlock i) range.left)
        (min (s₀.firstBlock (i + 1)) range.right))
        (part s i (s₀.getPartialRebalancingRange p i range)))
    (hfull : ∀ i < s₀.rebalancingTasks.length, ∀ D s, Inv D s →
      (∀ g ∈ Set.Ico (s₀.firstBlock i) (s₀.firstBlock (i + 1)), g ∉ D) →
      Inv (D ∪ Set.Ico (s₀.firstBlock i) (s₀.firstBlock (i + 1))) (full s i))
    (h : Inv D s) (hD : ∀ g ∈ share s₀.totalBlocks s₀.numberOfThreads t, g ∉ D) :
    Inv (D ∪ share s₀.totalBlocks s₀.numberOfThreads t)
      (if 0 < (s₀.tasks t).rebalancingBlockRange.length then
        if 1 < (s₀.tasks t).rebalancingTaskRange.length then
          part ((innerTasks (s₀.tasks t).rebalancingTaskRange).foldl full
            (part s (s₀.tasks t).rebalancingTaskRange.left (s₀.tasks t).firstRebalancingTask))
            ((s₀.tasks t).rebalancingTaskRange.right - 1) (s₀.tasks t).lastRebalancingTask
        else (innerTasks (s₀.tasks t).rebalancingTaskRange).foldl full
          (part s (s₀.tasks t).rebalancingTaskRange.left (s₀.tasks t).firstRebalancingTask)
      else s) := by
  have hrange := ha.blockRange t ht
  rw [share_eq_threadBlockRange, ← hrange] at hD ⊢
  split
  · rename_i hpos
    have hlt : (s₀.tasks t).rebalancingBlockRange.left <
        (s₀.tasks t).rebalancingBlockRange.right := by
      rw [Interval.length] at hpos
      omega
    have hle : (s₀.tasks t).rebalancingBlockRange.right ≤ s₀.totalBlocks := by
      rw [hrange]
      exact min_le_left _ _
    have hrun := ha.prefixSummed.run_share ha.nonempty
      (fun s i => part s i
        (s₀.getPartialRebalancingRange p i (s₀.tasks t).rebalancingBlockRange)) full hlt hle
      (fun i hi D' s' h' hD' => hpart i hi _ D' s' h' hD')
      (fun i hi _ _ D' s' h' hD' => hfull i hi D' s' h' hD') h hD
    have hfirst := ha.first t ht hpos
    have hlast := ha.last t ht hpos
    have htasks := ha.taskRange t ht hpos
    rw [htasks] at hfirst hlast ⊢
    simp only [Nat.add_sub_cancel] at hfirst hlast ⊢
    split
    · rename_i hlen
      rw [hfirst, hlast hlen]
      rw [if_pos hlen] at hrun
      exact hrun
    · rename_i hlen
      rw [hfirst]
      rw [if_neg hlen] at hrun
      exact hrun
  · rename_i hpos
    have hle : (s₀.tasks t).rebalancingBlockRange.right ≤
        (s₀.tasks t).rebalancingBlockRange.left := by
      rw [Interval.length] at hpos
      omega
    rw [Set.Ico_eq_empty (not_lt.mpr hle), Set.union_empty]
    exact h

/-- What one thread does in step B-5. -/
lemma Moving.executeRebalancing (hr : s₀.Ready p) (ha : s₀.Assigned p) {t : ℕ}
    (ht : t < s₀.numberOfThreads) (h : Moving p s₀ D s)
    (hD : ∀ g ∈ share s₀.totalBlocks s₀.numberOfThreads t, g ∉ D) :
    Moving p s₀ (D ∪ share s₀.totalBlocks s₀.numberOfThreads t) (s.executeRebalancing p t) := by
  rw [BatchedSparseArray.executeRebalancing, h.running.tasks_eq]
  exact ha.run_thread ht (fun s i task => s.startPartialRebalancingTask p i task)
    (fun s i => s.startFullRebalancingTask p i)
    (fun i hi range D' s' h' hD' => h'.startPartial hr ha.prefixSummed hi hD')
    (fun i hi D' s' h' hD' => h'.startFull hr hi hD') h hD

/-- **Step B-5.**  All blocks of all tasks are moved, whatever the order of the threads. -/
theorem Ready.executeRebalancing_all (hr : s.Ready p) (ha : s.Assigned p)
    (hpos : 0 < s.numberOfThreads) {order : List ℕ}
    (hperm : order.Perm (List.range s.numberOfThreads)) :
    Moving p s (Set.Iio s.totalBlocks)
      (order.foldl (fun s' t => s'.executeRebalancing p t) s) :=
  run_shares _ hpos (fun _ ht _ _ h hD => h.executeRebalancing hr ha ht hD) hperm (Moving.refl p s)

end BatchedSparseArray

end BatchPMA
