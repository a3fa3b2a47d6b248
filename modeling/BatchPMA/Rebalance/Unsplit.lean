import BatchPMA.Rebalance.Inserted

/-!
# Split and whole rebalancing tasks

Step B-5 has two variants.  In the one that is used the blocks of all tasks are cut into shares of
equal size; in the other one every task is executed as a whole.  Both leave the pma, the buffer
array and the swap array in the same state.
-/

namespace BatchPMA

open RebalancingManager Segments

namespace BatchedSparseArray

variable {K α : Type} [DecidableEq K] {p : BatchedParams K α} {s s₀ : BatchedSparseArray K α}

/-! ## A whole task -/

/-- The same blocks with other buffer pointers and another hierarchy. -/
def withPointers (s : BatchedSparseArray K α) (f : ℕ → Interval) (m : RebalancingManager) :
    BatchedSparseArray K α :=
  { s with
    bufferPointers := f
    rebalancingManager := m }

omit [DecidableEq K] in
lemma moveBufferBlocks_withPointers (start : ℕ) (f : ℕ → Interval) (m : RebalancingManager) :
    ∀ (n i out : ℕ) (s : BatchedSparseArray K α),
      moveBufferBlocks p start n i out (s.withPointers f m) =
        ((moveBufferBlocks p start n i out s).1.withPointers f m,
          (moveBufferBlocks p start n i out s).2)
  | 0, _, _, _ => rfl
  | n + 1, i, out, s => by
      rw [moveBufferBlocks, moveBufferBlocks]
      have hsize : ((s.withPointers f m).bufferArray i).size = (s.bufferArray i).size := rfl
      rw [hsize]
      split
      · exact moveBufferBlocks_withPointers start f m n (i + 1) (out + 1)
          (s.moveBufferBlock p i (start + out))
      · exact moveBufferBlocks_withPointers start f m n (i + 1) out s

omit [DecidableEq K] in
lemma bufferPointers_moveBufferBlocks (start : ℕ) : ∀ (n i out : ℕ) (s : BatchedSparseArray K α),
    (moveBufferBlocks p start n i out s).1.bufferPointers = s.bufferPointers
  | 0, _, _, _ => rfl
  | n + 1, i, out, s => by
      rw [moveBufferBlocks]
      split
      · rw [bufferPointers_moveBufferBlocks start n]
        rfl
      · exact bufferPointers_moveBufferBlocks start n _ _ s

/-- A cell that is not the last one is treated in the same way in both variants. -/
lemma rebalanceWholeCell_eq (start : ℕ) {c stop : ℕ} (hc : c ≠ stop) (out : ℕ)
    (f : ℕ → Interval) (m : RebalancingManager) (hf : f c = s.bufferPointers c) :
    let r := rebalanceCell p start ⟨stop, none⟩ ⟨c, none⟩ out s
    rebalanceWholeCell p start (s.withPointers f m, out) c =
      (r.1.withPointers (Function.update f c .zero) m, r.2) := by
  have hempty : (s.withPointers f m).empty p c = s.empty p c := rfl
  simp only [rebalanceWholeCell, rebalanceCell, hempty, true_and]
  rw [if_neg hc]
  cases he : s.empty p c with
  | true =>
      simp only [if_true, Bool.true_eq_false, if_false]
      rw [show (s.withPointers f m).bufferPointers c = s.bufferPointers c from hf,
        moveBufferBlocks_withPointers]
      rfl
  | false =>
      simp only [Bool.false_eq_true, if_false, if_true]
      rw [show ((s.withPointers f m).movePmaBlock p c (start + out)) =
        (s.movePmaBlock p c (start + out)).withPointers f m from rfl,
        show ((s.movePmaBlock p c (start + out)).withPointers f m).bufferPointers c =
          s.bufferPointers c from hf, moveBufferBlocks_withPointers]
      rfl

lemma bufferPointers_rebalanceCell (start : ℕ) (e i : ExtendedPmaIndex) (out : ℕ)
    (s : BatchedSparseArray K α) :
    (rebalanceCell p start e i out s).1.bufferPointers = s.bufferPointers := by
  rw [rebalanceCell]
  rw [bufferPointers_moveBufferBlocks]
  split <;> rfl

/-- All cells of a task. -/
lemma foldl_rebalanceWholeCell (start : ℕ) (m : RebalancingManager) :
    ∀ (n c out : ℕ) (f : ℕ → Interval) (s : BatchedSparseArray K α),
      (∀ x, c ≤ x → x < c + n → f x = s.bufferPointers x) → ∃ k,
        (List.range' c n).foldl (rebalanceWholeCell p start) (s.withPointers f m, out) =
          ((rebalanceLoop p start ⟨c + n, none⟩ (n + 1) ⟨c, none⟩ out s).withPointers
            (fun x => if c ≤ x ∧ x < c + n then .zero else f x) m, k)
  | 0, c, out, f, s, _ => by
      refine ⟨out, ?_⟩
      have hf : (fun x => if c ≤ x ∧ x < c + 0 then Interval.zero else f x) = f := by
        funext x
        rw [if_neg (by omega)]
      rw [hf, rebalanceLoop, if_neg (by simp [ExtendedPmaIndex.less])]
      rfl
  | n + 1, c, out, f, s, hf => by
      have hcell := @rebalanceWholeCell_eq _ _ _ p _ start _ (c + (n + 1)) (by omega) out f m
        (hf c (le_refl _) (by omega))
      obtain ⟨k, ih⟩ := foldl_rebalanceWholeCell start m n (c + 1)
        (rebalanceCell p start ⟨c + (n + 1), none⟩ ⟨c, none⟩ out s).2
        (Function.update f c .zero)
        (rebalanceCell p start ⟨c + (n + 1), none⟩ ⟨c, none⟩ out s).1 (fun x h1 h2 => by
          rw [bufferPointers_rebalanceCell, Function.update_of_ne (by omega)]
          exact hf x (by omega) (by omega))
      refine ⟨k, ?_⟩
      have hidx : c + 1 + n = c + (n + 1) := by omega
      have hless : (ExtendedPmaIndex.mk c none).less ⟨c + (n + 1), none⟩ = true := by
        simp [ExtendedPmaIndex.less]
      have hptr : (fun x => if c + 1 ≤ x ∧ x < c + 1 + n then Interval.zero
          else Function.update f c .zero x) =
          fun x => if c ≤ x ∧ x < c + (n + 1) then .zero else f x := by
        funext x
        rw [Function.update_apply]
        by_cases hx : x = c
        · rw [if_neg (by omega), if_pos hx, if_pos (by omega)]
        · rw [if_neg hx]
          refine if_congr ?_ rfl rfl
          omega
      rw [hptr, hidx] at ih
      rw [List.range'_succ, List.foldl_cons, hcell, ih]
      conv_rhs => rw [rebalanceLoop, if_pos hless]

/-! ## All tasks -/

/-- The numbers of the blocks of some tasks. -/
def blocksOf (s : BatchedSparseArray K α) (D : Set ℕ) : Set ℕ :=
  {g | ∃ i ∈ D, s.firstBlock i ≤ g ∧ g < s.firstBlock (i + 1)}

omit [DecidableEq K] in
lemma blocksOf_insert (s : BatchedSparseArray K α) (D : Set ℕ) (i : ℕ) :
    s.blocksOf (D ∪ Set.Ico i (i + 1)) =
      s.blocksOf D ∪ Set.Ico (s.firstBlock i) (s.firstBlock (i + 1)) := by
  ext g
  simp only [blocksOf, Set.mem_union, Set.mem_ofPred_eq, Set.mem_Ico, or_and_right, exists_or]
  refine or_congr_right ?_
  constructor
  · rintro ⟨j, h, hg⟩
    obtain rfl : j = i := by omega
    exact hg
  · intro hg
    exact ⟨i, by omega, hg⟩

omit [DecidableEq K] in
lemma blocksOf_all (s : BatchedSparseArray K α) :
    s.blocksOf (Set.Iio s.rebalancingTasks.length) = Set.Iio s.totalBlocks := by
  ext g
  constructor
  · rintro ⟨i, hi, -, h2⟩
    exact lt_of_lt_of_le h2 (firstBlock_le_total hi)
  · intro hg
    obtain ⟨i, hi, h1, h2⟩ := exists_segment hg
    exact ⟨i, hi, h1, h2⟩

/-- The state of step B-5(b) after the tasks with numbers in `D`. -/
structure MovingWhole (p : BatchedParams K α) (s₀ : BatchedSparseArray K α) (D : Set ℕ)
    (s : BatchedSparseArray K α) : Prop where
  moving : ∃ r, Moving p s₀ (s₀.blocksOf D) r ∧
    s = r.withPointers s.bufferPointers s.rebalancingManager
  pointers : ∀ i < s₀.rebalancingTasks.length, i ∉ D → ∀ c,
    (s₀.rebalancingTask i).pmaRange.contains c → s.bufferPointers c = s₀.bufferPointers c

lemma MovingWhole.refl (p : BatchedParams K α) (s : BatchedSparseArray K α) :
    MovingWhole p s ∅ s := by
  refine ⟨⟨s, ?_, rfl⟩, fun _ _ _ _ _ => rfl⟩
  have hempty : s.blocksOf ∅ = ∅ := by
    ext g
    simp [blocksOf]
  rw [hempty]
  exact Moving.refl p s

/-- One task as a whole. -/
lemma MovingWhole.step {D : Set ℕ} (hr : s₀.Ready p) (h : MovingWhole p s₀ D s) {i : ℕ}
    (hi : i < s₀.rebalancingTasks.length) (hD : i ∉ D) (f : RebalancingManager → RebalancingManager) :
    MovingWhole p s₀ (D ∪ Set.Ico i (i + 1))
      { s.startRebalancingTask p (s.rebalancingTask i) with
        rebalancingManager :=
          f (s.startRebalancingTask p (s.rebalancingTask i)).rebalancingManager } := by
  obtain ⟨⟨r, hmove, hs⟩, hptr⟩ := h
  have hin := rebalancingTask_mem hi
  have hl := hr.left_lt _ hin
  have hlr := hr.left_lt_tree hin
  have htree := hr.tree_le _ hin
  have htask : s.rebalancingTask i = s₀.rebalancingTask i := by
    rw [hs]
    exact hmove.running.rebalancingTask_eq i
  have hsize : s.size = s₀.size := by
    rw [hs]
    exact hmove.running.size_eq
  have hrtask : r.rebalancingTask i = s₀.rebalancingTask i := hmove.running.rebalancingTask_eq i
  have hpos : (s₀.rebalancingTask i).pmaRange.left <
      min (s₀.rebalancingTask i).pmaRange.right (max 1 s₀.size) := by omega
  obtain ⟨n, hn⟩ := Nat.exists_eq_add_of_lt hpos
  have hn' : min (s₀.rebalancingTask i).pmaRange.right (max 1 s₀.size) =
      (s₀.rebalancingTask i).pmaRange.left + (n + 1) := by omega
  -- the same task in the variant that splits
  have hfull : r.startFullRebalancingTask p i =
      rebalanceLoop p (s₀.rebalancingTask i).pmaRange.left
        ⟨(s₀.rebalancingTask i).pmaRange.left + (n + 1), none⟩ (n + 1 + 1)
        ⟨(s₀.rebalancingTask i).pmaRange.left, none⟩ 0
        { r with
          rebalancingManager := r.rebalancingManager.clearRebalancedFlag
            (s₀.rebalancingTask i).rootNode } := by
    have heff : r.effectiveRange (r.rebalancingTask i).pmaRange =
        ⟨(s₀.rebalancingTask i).pmaRange.left, (s₀.rebalancingTask i).pmaRange.left + (n + 1)⟩ := by
      rw [effectiveRange, hrtask, hmove.running.size_eq, hn']
    rw [startFullRebalancingTask]
    simp only [heff]
    rw [if_neg (by simp only [Interval.length]; omega), rebalanceBlocks]
    simp only [hrtask]
    congr 1
    omega
  have hrun := foldl_rebalanceWholeCell (p := p) (s₀.rebalancingTask i).pmaRange.left
    s.rebalancingManager (n + 1) (s₀.rebalancingTask i).pmaRange.left 0 s.bufferPointers
    { r with
      rebalancingManager := r.rebalancingManager.clearRebalancedFlag
        (s₀.rebalancingTask i).rootNode } (fun x h1 h2 => by
      refine (hptr i hi hD x ⟨h1, ?_⟩).trans ?_
      · have := min_le_left (s₀.rebalancingTask i).pmaRange.right (max 1 s₀.size)
        omega
      · exact congrFun hmove.running.bufferPointers_eq.symm x)
  obtain ⟨k, hrun⟩ := hrun
  have hwhole : s.startRebalancingTask p (s.rebalancingTask i) =
      (r.startFullRebalancingTask p i).withPointers
        (fun x => if (s₀.rebalancingTask i).pmaRange.left ≤ x ∧
          x < (s₀.rebalancingTask i).pmaRange.left + (n + 1) then .zero else s.bufferPointers x)
        s.rebalancingManager := by
    have hwith : s = ({ r with
        rebalancingManager := r.rebalancingManager.clearRebalancedFlag
          (s₀.rebalancingTask i).rootNode } : BatchedSparseArray K α).withPointers
            s.bufferPointers s.rebalancingManager := hs
    rw [startRebalancingTask]
    simp only [effectiveRange, htask, hsize, hn', Interval.length]
    rw [if_neg (by omega), Nat.add_sub_cancel_left, hfull]
    rw [← hwith] at hrun
    rw [hrun]
  rw [hwhole]
  refine ⟨⟨r.startFullRebalancingTask p i, ?_, rfl⟩, fun j hj hjD c hc => ?_⟩
  · rw [blocksOf_insert]
    refine hmove.startFull hr hi fun g hg hin => ?_
    obtain ⟨j, hj, h1, h2⟩ := hin
    exact hD (firstBlock_unique hg.1 hg.2 h1 h2 ▸ hj)
  · rw [Set.mem_union, not_or] at hjD
    have hne : i ≠ j := fun heq => hjD.2 ⟨heq.le, by omega⟩
    have hout : ¬ ((s₀.rebalancingTask i).pmaRange.left ≤ c ∧
        c < (s₀.rebalancingTask i).pmaRange.left + (n + 1)) := by
      rintro ⟨h1, h2⟩
      have := min_le_left (s₀.rebalancingTask i).pmaRange.right (max 1 s₀.size)
      exact hne (task_unique hr.disjoint hi hj ⟨h1, by omega⟩ hc)
    exact (if_neg hout).trans (hptr j hj hjD.1 c hc)

/-- What one thread does in step B-5(b). -/
lemma MovingWhole.executeWholeTasks {D : Set ℕ} (hr : s₀.Ready p) {t : ℕ}
    (h : MovingWhole p s₀ D s)
    (hD : ∀ i ∈ share s₀.rebalancingTasks.length s₀.numberOfThreads t, i ∉ D) :
    MovingWhole p s₀ (D ∪ share s₀.rebalancingTasks.length s₀.numberOfThreads t)
      (s.executeWholeTasks p t) := by
  have hframe : s.rebalancingTasks = s₀.rebalancingTasks ∧
      s.numberOfThreads = s₀.numberOfThreads := by
    obtain ⟨⟨r, hmove, hs⟩, -⟩ := h
    obtain ⟨a, b, c, m, rfl⟩ := hmove.running.frame
    rw [hs]
    exact ⟨rfl, rfl⟩
  rw [BatchedSparseArray.executeWholeTasks, hframe.1, hframe.2]
  rw [share_eq_threadBlockRange] at hD ⊢
  rcases Nat.le_total (threadBlockRange s₀.rebalancingTasks.length s₀.numberOfThreads t).left
    (threadBlockRange s₀.rebalancingTasks.length s₀.numberOfThreads t).right with hle | hge
  · have hend := Nat.add_sub_cancel' hle
    have hrun := @run_segments (BatchedSparseArray K α) (MovingWhole p s₀) id monotone_id
      (fun s' taskIndex =>
        let task := s'.rebalancingTask taskIndex
        let s'' := s'.startRebalancingTask p task
        { s'' with
          rebalancingManager := s''.rebalancingManager.clearRebalancedFlag task.rootNode })
      (threadBlockRange s₀.rebalancingTasks.length s₀.numberOfThreads t).left
      (threadBlockRange s₀.rebalancingTasks.length s₀.numberOfThreads t).length
      (fun i _ h2 D' s' h' hD' => by
        have hright : (threadBlockRange s₀.rebalancingTasks.length s₀.numberOfThreads t).right ≤
            s₀.rebalancingTasks.length := min_le_left _ _
        refine h'.step hr (i := i) ?_ (hD' i ⟨le_refl _, Nat.lt_succ_self i⟩)
          (fun m => m.clearRebalancedFlag (s'.rebalancingTask i).rootNode)
        rw [Interval.length] at h2
        omega) D s h
    simp only [id_eq, Interval.length, hend] at hrun
    exact hrun hD
  · rw [Interval.length, Nat.sub_eq_zero_of_le hge, Set.Ico_eq_empty (not_lt.mpr hge),
      Set.union_empty]
    exact h

/-! ## Both variants -/

/-- What step B-5 is given: exact counters, tasks of nodes of the tree with disjoint ranges, at
least one block and room for all their blocks, and buffer pointers that delimit blocks. -/
structure RebalancingInput (p : BatchedParams K α) (s : BatchedSparseArray K α) : Prop where
  levels : s.rebalancingManager.LevelsValid
  width_pos : 0 < s.rebalancingManager.aggregateWidth
  counters : s.rebalancingManager.CountersExact (s.sdsView p)
  size_lt : s.size < s.capacity
  room : s.size < 2 ^ s.rebalancingManager.logCapacity * s.rebalancingManager.aggregateWidth
  task_eq : ∀ task ∈ s.rebalancingTasks,
    task = s.rebalancingManager.getRebalancingTask task.rootNode
  isNode : ∀ task ∈ s.rebalancingTasks,
    s.rebalancingManager.IsNode task.rootNode.level task.rootNode.index
  blocks_pos : ∀ task ∈ s.rebalancingTasks, 0 < task.numberOfBlocks
  fits : ∀ task ∈ s.rebalancingTasks, task.numberOfBlocks ≤ task.pmaRange.length
  /-- The super root is rebalanced only when the tree has become too small. -/
  super_le : ∀ task ∈ s.rebalancingTasks,
    s.rebalancingManager.logCapacity < task.rootNode.level →
      2 ^ s.rebalancingManager.logCapacity * s.rebalancingManager.aggregateWidth ≤
        task.pmaRange.right
  disjoint : s.rebalancingTasks.Pairwise fun a b =>
    ∀ c, a.pmaRange.contains c → ¬ b.pmaRange.contains c
  behind : ∀ c, max 1 s.size ≤ c → (s.bufferPointers c).length = 0
  buffers_disjoint : ∀ c c' j, (s.bufferPointers c).contains j → (s.bufferPointers c').contains j →
    c = c'
  buffers_full : ∀ c j, (s.bufferPointers c).contains j → 0 < (s.bufferArray j).size
  pointers_zero : ∀ c, (s.bufferPointers c).length = 0 → s.bufferPointers c = .zero

lemma RebalancingInput.bounds (h : s.RebalancingInput p) {task : RebalancingTask}
    (ht : task ∈ s.rebalancingTasks) :
    task.pmaRange.left = (s.treeRange task).left ∧
      (s.treeRange task).right ≤ task.pmaRange.right ∧
        min task.pmaRange.right (max 1 s.size) ≤ (s.treeRange task).right :=
  treeRange_bounds h.levels h.room (h.task_eq task ht) (h.isNode task ht) (h.super_le task ht)

/-- A task of a node of the tree begins in the used part of the array. -/
lemma RebalancingInput.left_lt (h : s.RebalancingInput p) {task : RebalancingTask}
    (ht : task ∈ s.rebalancingTasks) : task.pmaRange.left < max 1 s.size := by
  rcases Nat.lt_or_ge s.rebalancingManager.logCapacity task.rootNode.level with hl | hl
  · rw [(h.bounds ht).1, treeRange_super h.levels (h.isNode task ht) hl]
    exact lt_of_lt_of_le Nat.zero_lt_one (le_max_left 1 s.size)
  · by_contra hge
    have hin : s.PointersInCapacity := fun c hc => h.behind c (by
      have := h.size_lt
      omega)
    have hblocks : task.numberOfBlocks = 0 := by
      have hleft : task.pmaRange.left = task.rootNode.index *
          (2 ^ task.rootNode.level * s.rebalancingManager.aggregateWidth) := by
        conv_lhs => rw [h.task_eq task ht, getRebalancingTask, h.levels.rebalancingRange_eq hl]
      have hplaces : s.placesIn p task.pmaRange.left ((task.rootNode.index + 1) *
          (2 ^ task.rootNode.level * s.rebalancingManager.aggregateWidth)) = [] :=
        placesIn_behind h.behind (not_lt.mp hge)
      rw [h.task_eq task ht, getRebalancingTask, RebalancingManager.numberOfBlocks,
        h.levels.super_eq, if_neg (by omega), h.counters _ hl _ (h.isNode task ht).2, trueBlocks,
        hin.blocksIn_eq, ← hleft, hplaces]
      rfl
    exact absurd hblocks (h.blocks_pos task ht).ne'

lemma RebalancingInput.ready (h : s.RebalancingInput p) : s.Ready p where
  levels := h.levels
  width_pos := h.width_pos
  counters := h.counters
  capacity := by
    have := h.size_lt
    omega
  isNode := h.isNode
  numberOfBlocks_eq := fun task ht => congrArg RebalancingTask.numberOfBlocks (h.task_eq task ht)
  left_eq := fun _ ht => (h.bounds ht).1
  tree_le := fun _ ht => (h.bounds ht).2.1
  used_le := fun _ ht => (h.bounds ht).2.2
  left_lt := fun _ ht => h.left_lt ht
  fits := h.fits
  disjoint := h.disjoint
  behind := h.behind
  buffers_disjoint := h.buffers_disjoint
  buffers_full := h.buffers_full

/-! ### What the phase establishes -/

/-- A kept task has a block. -/
lemma Inserted.blocks_pos (h : s.Inserted p) (hw : 0 < s.rebalancingManager.aggregateWidth)
    (hd : s.rebalancingManager.density.Valid s.rebalancingManager.aggregateWidth)
    (sched : Schedule) {task : RebalancingTask}
    (ht : task ∈ (s.withTasks p sched).rebalancingTasks) : 0 < task.numberOfBlocks := by
  have hr := h.ready hw hd sched
  obtain ⟨a, next, hframe⟩ := h.frame_withTasks hw hd sched
  have hwidth : (s.withTasks p sched).rebalancingManager.aggregateWidth =
      s.rebalancingManager.aggregateWidth := by rw [hframe]; rfl
  have hleft := hr.left_eq task ht
  have hnode := hr.isNode task ht
  -- the cell with a block that the root of the task lies above
  obtain ⟨c, hc, hidx, hne⟩ := h.node_block (mem_keptNodes.mp (h.task_eq hw hd ht).1).1
  have hin : ((s.withTasks p sched).treeRange task).contains c := by
    rcases Nat.lt_or_ge (s.withTasks p sched).rebalancingManager.logCapacity task.rootNode.level
      with hl | hl
    · rw [treeRange_super hr.levels hnode hl]
      have htree := h.tree.size_lt hw
      have hcap : (s.withTasks p sched).rebalancingManager.logCapacity =
          s.rebalancingManager.logCapacity := by rw [hframe]; rfl
      have hpos : 0 < 2 ^ s.rebalancingManager.logCapacity *
          s.rebalancingManager.aggregateWidth := Nat.mul_pos (Nat.two_pow_pos _) hw
      rw [hcap, hwidth]
      exact ⟨Nat.zero_le _, lt_of_lt_of_le hc (max_le hpos htree.le)⟩
    · rw [treeRange_eq hl, hr.levels.contains_iff hr.width_pos hl, hwidth]
      exact hidx
  obtain ⟨q, hq⟩ := List.exists_mem_of_ne_nil _ hne
  have hplace : q ∈ (s.withTasks p sched).placesIn p task.pmaRange.left
      ((s.withTasks p sched).treeRange task).right :=
    mem_placesIn.mpr ⟨c, by rw [hleft]; exact hin.1, hin.2, hq⟩
  rw [← hr.length_placesIn ht]
  exact List.length_pos_of_mem hplace

/-- **Steps B-2 and B-3.**  What `update` collects and step B-3 keeps is a valid input of step
B-5, in every state that the insertion phase leaves behind. -/
theorem Inserted.rebalancingInput (h : s.Inserted p)
    (hw : 0 < s.rebalancingManager.aggregateWidth)
    (hd : s.rebalancingManager.density.Valid s.rebalancingManager.aggregateWidth)
    (htight : ∀ c, (s.bufferPointers c).length = 0 → s.bufferPointers c = .zero)
    (sched : Schedule) : (s.withTasks p sched).RebalancingInput p := by
  have hr := h.ready hw hd sched
  obtain ⟨a, next, hframe⟩ := h.frame_withTasks hw hd sched
  exact
    { levels := hr.levels
      width_pos := hr.width_pos
      counters := hr.counters
      size_lt := h.size_lt
      room := by
        rw [hframe]
        exact h.tree.size_lt hw
      task_eq := fun _ ht => (h.task_eq hw hd ht).2.2.1
      isNode := hr.isNode
      blocks_pos := fun _ ht => h.blocks_pos hw hd sched ht
      fits := hr.fits
      super_le := fun task ht hl => by
        rw [hframe] at hl ⊢
        exact h.super_le hw hd ht hl
      disjoint := hr.disjoint
      behind := hr.behind
      buffers_disjoint := hr.buffers_disjoint
      buffers_full := hr.buffers_full
      pointers_zero := htight }

/-! ### What the moves leave behind -/

/-- The blocks of a task in their order: for every cell its pma block and then its buffer
blocks. -/
def taskPlaces (p : BatchedParams K α) (s : BatchedSparseArray K α) (task : RebalancingTask) :
    List Place :=
  s.placesIn p task.pmaRange.left task.pmaRange.right

lemma Ready.taskPlaces_eq (h : s.Ready p) {task : RebalancingTask}
    (ht : task ∈ s.rebalancingTasks) :
    s.taskPlaces p task = s.placesIn p task.pmaRange.left (s.treeRange task).right := by
  have htree := h.tree_le task ht
  have hu := h.used_le task ht
  have hlr := h.left_lt_tree ht
  rw [taskPlaces]
  rcases Nat.eq_or_lt_of_le htree with heq | hlt
  · rw [heq]
  · have hbehind : s.placesIn p (s.treeRange task).right task.pmaRange.right = [] :=
      placesIn_behind h.behind (by omega)
    rw [placesIn_append hlr.le htree, hbehind, List.append_nil]

/-- Every block of every task has been moved once: the `k`-th one to the `k`-th cell of the range
of the task in the swap array. -/
structure MovedOnce (p : BatchedParams K α) (s s' : BatchedSparseArray K α) : Prop where
  number : ∀ task ∈ s.rebalancingTasks, (s.taskPlaces p task).length = task.numberOfBlocks
  sources_nodup : (s.rebalancingTasks.flatMap (s.taskPlaces p)).Nodup
  targets_nodup : s.swapPlaces.Nodup
  target : ∀ task ∈ s.rebalancingTasks, ∀ k q, (s.taskPlaces p task)[k]? = some q →
    s'.swapPma (task.pmaRange.left + k) = s.memory q
  source : ∀ task ∈ s.rebalancingTasks, ∀ q ∈ s.taskPlaces p task,
    s'.memory q = PmaEntry.null p.toBlockParams
  other : ∀ q, (∀ task ∈ s.rebalancingTasks, q ∉ s.taskPlaces p task ∧
    ∀ k < task.numberOfBlocks, q ≠ .swap (task.pmaRange.left + k)) → s'.memory q = s.memory q

lemma Moving.movedOnce (hr : s₀.Ready p) (h : Moving p s₀ (Set.Iio s₀.totalBlocks) s) :
    MovedOnce p s₀ s := by
  have hsources : s₀.rebalancingTasks.flatMap (s₀.taskPlaces p) = s₀.sourcePlaces p := by
    rw [sourcePlaces]
    exact List.flatMap_congr fun task ht => hr.taskPlaces_eq ht
  have hnum : ∀ i < s₀.rebalancingTasks.length, ∀ k < (s₀.rebalancingTask i).numberOfBlocks,
      s₀.firstBlock i + k < s₀.totalBlocks := by
    intro i hi k hk
    have h1 := firstBlock_succ hi
    have h2 : s₀.firstBlock (i + 1) ≤ s₀.totalBlocks := firstBlock_le_total hi
    omega
  have hsrc : ∀ i < s₀.rebalancingTasks.length, ∀ k q,
      (s₀.taskPlaces p (s₀.rebalancingTask i))[k]? = some q →
        k < (s₀.rebalancingTask i).numberOfBlocks ∧ s₀.source p (s₀.firstBlock i + k) = q := by
    intro i hi k q hq
    have hin := rebalancingTask_mem hi
    rw [hr.taskPlaces_eq hin] at hq
    obtain ⟨hk, -⟩ := List.getElem?_eq_some_iff.mp hq
    refine ⟨by rw [← hr.length_placesIn hin]; exact hk, ?_⟩
    rw [(hr.taskPlan hi).src_eq k hk] at hq
    exact Option.some.inj hq
  refine ⟨fun task ht => ?_, ?_, hr.nodup_swapPlaces, fun task ht k q hq => ?_,
    fun task ht q hq => ?_, fun q hq => ?_⟩
  · rw [hr.taskPlaces_eq ht, hr.length_placesIn ht]
  · rw [hsources]
    exact hr.nodup_sourcePlaces
  · obtain ⟨i, hi, rfl⟩ := List.mem_iff_getElem.mp ht
    rw [getElem_rebalancingTasks hi] at hq ⊢
    obtain ⟨hk, hs⟩ := hsrc i hi k q hq
    have htarget := h.running.done.target _ (hnum i hi k hk)
    rw [swapTarget_eq hi hk, hs] at htarget
    exact htarget
  · obtain ⟨i, hi, rfl⟩ := List.mem_iff_getElem.mp ht
    rw [getElem_rebalancingTasks hi] at hq
    obtain ⟨k, hk⟩ := List.mem_iff_getElem?.mp hq
    obtain ⟨hk, hs⟩ := hsrc i hi k q hk
    have hnull := h.running.done.source _ (hnum i hi k hk)
    rw [hs] at hnull
    exact hnull
  · refine h.running.done.other q fun g hg => ⟨fun heq => ?_, fun heq => ?_⟩
    · have hin : q ∈ s₀.rebalancingTasks.flatMap (s₀.taskPlaces p) := by
        rw [hsources, heq]
        exact hr.source_mem hg
      obtain ⟨task, ht, hq'⟩ := List.mem_flatMap.mp hin
      exact (hq task ht).1 hq'
    · obtain ⟨task, ht, k, hk, htarget⟩ := exists_swapTarget hg
      exact (hq task ht).2 k hk (heq.trans htarget)

/-- Either only the size of the hierarchy changes, or all nodes are fresh. -/
lemma resize_cases (m : RebalancingManager) (n : ℕ) :
    (∃ k, m.resize n = { m with size := k }) ∨ ∀ i l, (m.resize n).aggregate i l = .zero := by
  rw [resize]
  simp only
  split
  · exact Or.inr fun _ _ => rfl
  · exact Or.inl ⟨_, rfl⟩

/-- The flags of all tasks have been cleared. -/
lemma Moving.flags_clear (h : Moving p s₀ (Set.Iio s₀.totalBlocks) s)
    (hblocks : ∀ task ∈ s₀.rebalancingTasks, 0 < task.numberOfBlocks)
    (hroots : ∀ l i, s₀.rebalancingManager.IsNode l i →
      (s₀.rebalancingManager.aggregate i l).rebalanced = true →
        ∃ task ∈ s₀.rebalancingTasks, (⟨l, i⟩ : RebalancingNode) = task.rootNode) (l i : ℕ)
    (hli : s₀.rebalancingManager.IsNode l i) :
    (s.rebalancingManager.aggregate i l).rebalanced = false := by
  obtain ⟨nodes, hc, -, htouched⟩ := h.flags
  by_contra htrue
  obtain ⟨hold, hout⟩ := (hc.flags l i hli).mp (by simpa using htrue)
  obtain ⟨task, ht, hroot⟩ := hroots l i hli hold
  obtain ⟨j, hj, rfl⟩ := List.mem_iff_getElem.mp ht
  rw [getElem_rebalancingTasks hj] at hroot
  have hpos := hblocks _ (rebalancingTask_mem hj)
  have hsucc := firstBlock_succ hj
  have hle : s₀.firstBlock (j + 1) ≤ s₀.totalBlocks := firstBlock_le_total hj
  refine hout (hroot ▸ htouched (s₀.firstBlock j) ?_ j hj (le_refl _) (by omega))
  rw [Set.mem_Iio]
  omega

/-- What is left of the bookkeeping after step B-7. -/
structure Forgotten (s s' : BatchedSparseArray K α) : Prop where
  pointers : ∀ task ∈ s.rebalancingTasks, ∀ c, task.pmaRange.contains c →
    s'.bufferPointers c = .zero
  flags : (∀ l i, s.rebalancingManager.IsNode l i →
      (s.rebalancingManager.aggregate i l).rebalanced = true →
        ∃ task ∈ s.rebalancingTasks, (⟨l, i⟩ : RebalancingNode) = task.rootNode) →
    ∀ l i, s'.rebalancingManager.IsNode l i →
      (s'.rebalancingManager.aggregate i l).rebalanced = false

omit [DecidableEq K] in
lemma foldl_of_forall_eq {f : BatchedSparseArray K α → ℕ → BatchedSparseArray K α} :
    ∀ l : List ℕ, (∀ t ∈ l, f s t = s) → l.foldl f s = s
  | [], _ => rfl
  | t :: l, h => by
      rw [List.foldl_cons, h t List.mem_cons_self]
      exact foldl_of_forall_eq l fun t' ht' => h t' (List.mem_cons_of_mem _ ht')

/-- Without tasks no thread has a share. -/
lemma length_assigned_of_nil (h : s.rebalancingTasks = []) {t : ℕ} (ht : t < s.numberOfThreads) :
    ((s.computePrefixSums.assignRebalancingBlocks p).tasks t).rebalancingBlockRange.length = 0 := by
  have htotal : s.computePrefixSums.numberOfBlocksToRebalance = 0 := by
    simp [numberOfBlocksToRebalance, computePrefixSums, inclusiveScan, h]
  have hlen : (threadBlockRange 0 s.numberOfThreads t).length = 0 := by
    simp [threadBlockRange, Interval.length]
  have hthreads : s.computePrefixSums.numberOfThreads = s.numberOfThreads := rfl
  simp only [assignRebalancingBlocks, htotal, hthreads, if_pos ht, hlen, Nat.lt_irrefl, if_false]

/-- The bookkeeping after steps B-6 and B-7. -/
lemma Moving.forgotten {s₁ : BatchedSparseArray K α} (h : s.RebalancingInput p)
    (ha : (s.computePrefixSums.assignRebalancingBlocks p).Assigned p)
    (hm : Moving p (s.computePrefixSums.assignRebalancingBlocks p) (Set.Iio s.totalBlocks) s₁)
    (hpos : 0 < s.numberOfThreads) {order : List ℕ}
    (hperm : order.Perm (List.range s.numberOfThreads)) (n : ℕ) :
    Forgotten s (order.foldl (fun s' t => s'.executeClearing t)
      { s₁ with rebalancingManager := s₁.rebalancingManager.resize n }) := by
  have hr : Ready p (s.computePrefixSums.assignRebalancingBlocks p) := h.ready.congr
  obtain ⟨a, b, c, m, hframe⟩ := hm.running.frame
  obtain ⟨f, heq, hold, hzero⟩ := hr.executeClearing_all
    { s₁ with rebalancingManager := s₁.rebalancingManager.resize n } ha (by rw [hframe]; rfl)
    (by rw [hframe]; rfl) (by rw [hframe]; rfl) (by rw [hframe]; rfl) hpos hperm
  rw [heq]
  refine ⟨fun task ht c hc => ?_, fun hroots l i hli => ?_⟩
  · rcases hold c with hc' | hc'
    · exact hc'
    · refine hc'.trans (h.pointers_zero c ?_)
      rcases Nat.lt_or_ge c (s.treeRange task).right with hlt | hge
      · have := hzero task ht c hc.1 hlt
        rw [hc'] at this
        exact this
      · have hu := h.ready.used_le task ht
        have hright := hc.2
        exact h.behind c (by omega)
  · rcases resize_cases s₁.rebalancingManager n with ⟨k, hk⟩ | hz
    · have hnode : s.rebalancingManager.IsNode l i := by
        have hli' : (s₁.rebalancingManager.resize n).IsNode l i := hli
        obtain ⟨nodes, hc, -⟩ := hm.flags
        obtain ⟨g, hg⟩ := hc.frame
        rw [hk, hg] at hli'
        exact hli'
      have hclear := hm.flags_clear h.blocks_pos hroots l i hnode
      change ((s₁.rebalancingManager.resize n).aggregate i l).rebalanced = false
      rw [hk]
      exact hclear
    · change ((s₁.rebalancingManager.resize n).aggregate i l).rebalanced = false
      rw [hz]
      rfl

/-- **Step B-5 with and without splitting.**  For every list of tasks in any order, every number
of threads and every order of the threads in the three parallel regions, the variant that cuts the
blocks of all tasks into shares leaves the three arrays as the variant that executes every task as
a whole does: every block is moved once, to its place in the swap array.  After step B-7 the ranges
of the tasks are without buffer pointers and the flags are cleared. -/
theorem split_rebalancing_eq_whole (p : BatchedParams K α) (s : BatchedSparseArray K α)
    (h : s.RebalancingInput p) (hpos : 0 < s.numberOfThreads) (order order' order'' : List ℕ)
    (hperm : order.Perm (List.range s.numberOfThreads))
    (hperm' : order'.Perm (List.range s.numberOfThreads))
    (hperm'' : order''.Perm (List.range s.numberOfThreads)) :
    let split := order.foldl (fun s' t => s'.executeRebalancing p t)
      (s.computePrefixSums.assignRebalancingBlocks p)
    let whole := order'.foldl (fun s' t => s'.executeWholeTasks p t) s
    (split.pma = whole.pma ∧ split.bufferArray = whole.bufferArray ∧
      split.swapPma = whole.swapPma) ∧
    MovedOnce p s split ∧
    ∀ newPmaSize, Forgotten s (order''.foldl (fun s' t => s'.executeClearing t)
      { split with rebalancingManager := split.rebalancingManager.resize newPmaSize }) := by
  intro split whole
  have hlt : ∀ {l : List ℕ}, l.Perm (List.range s.numberOfThreads) →
      ∀ t ∈ l, t < s.numberOfThreads :=
    fun hl t ht => List.mem_range.mp (hl.mem_iff.mp ht)
  by_cases hne : s.rebalancingTasks = []
  · -- without tasks nothing happens
    have hsplit : split = s.computePrefixSums.assignRebalancingBlocks p := by
      refine foldl_of_forall_eq order fun t ht => ?_
      rw [executeRebalancing]
      simp only
      rw [if_neg (by rw [length_assigned_of_nil hne (hlt hperm t ht)]; omega)]
    have hwhole : whole = s := by
      refine foldl_of_forall_eq order' fun t _ => ?_
      rw [executeWholeTasks]
      simp only [hne, List.length_nil, threadBlockRange, Nat.zero_div, Nat.zero_add,
        Nat.mul_one, Interval.length, Nat.zero_min, Nat.zero_sub, List.range'_zero,
        List.foldl_nil]
    have hclear : ∀ n, order''.foldl (fun s' t => s'.executeClearing t)
        { split with rebalancingManager := split.rebalancingManager.resize n } =
          { split with rebalancingManager := split.rebalancingManager.resize n } := by
      intro n
      refine foldl_of_forall_eq order'' fun t ht => ?_
      rw [executeClearing, hsplit]
      simp only
      rw [if_neg (by rw [length_assigned_of_nil hne (hlt hperm'' t ht)]; omega)]
    have htask : ∀ task, task ∉ s.rebalancingTasks := by
      intro task ht
      rw [hne] at ht
      exact List.not_mem_nil ht
    have hswap : s.swapPlaces = [] := by rw [swapPlaces, hne]; rfl
    rw [hwhole]
    refine ⟨by rw [hsplit]; exact ⟨rfl, rfl, rfl⟩,
      ⟨fun task ht => absurd ht (htask task), by rw [hne]; exact List.nodup_nil,
        by rw [hswap]; exact List.nodup_nil, fun task ht => absurd ht (htask task),
        fun task ht => absurd ht (htask task), fun q _ => by rw [hsplit]; rfl⟩, fun n => ?_⟩
    rw [hclear]
    refine ⟨fun task ht => absurd ht (htask task), fun hroots l i hli => ?_⟩
    rcases resize_cases split.rebalancingManager n with ⟨k, hk⟩ | hz
    · simp only [hk] at hli ⊢
      rw [hsplit] at hli ⊢
      by_contra htrue
      obtain ⟨task, ht, -⟩ := hroots l i hli (Bool.of_not_eq_false htrue)
      exact htask task ht
    · simp only [hz]
      rfl
  · have hr : Ready p (s.computePrefixSums.assignRebalancingBlocks p) := h.ready.congr
    have ha := assigned_assignRebalancingBlocks (p := p)
      (prefixSummed_computePrefixSums s) hne
    have hm := hr.executeRebalancing_all ha hpos hperm
    have hw := run_shares (fun s' t => executeWholeTasks p s' t) hpos
      (fun _ _ _ _ h' hD => h'.executeWholeTasks h.ready hD) hperm' (MovingWhole.refl p s)
    obtain ⟨⟨r, hmove, heq⟩, -⟩ := hw
    rw [blocksOf_all] at hmove
    have hmem : split.memory = r.memory := hm.running.done.unique hmove.running.done
    have hwhole : whole = r.withPointers whole.bufferPointers whole.rebalancingManager := heq
    refine ⟨⟨?_, ?_, ?_⟩, ?_, fun n => hm.forgotten h ha hpos hperm'' n⟩
    · rw [hwhole]
      exact funext fun i => congrFun hmem (.pma i)
    · rw [hwhole]
      exact funext fun i => congrFun hmem (.buffer i)
    · rw [hwhole]
      exact funext fun i => congrFun hmem (.swap i)
    · have hmoved := hm.movedOnce hr
      exact ⟨hmoved.number, hmoved.sources_nodup, hmoved.targets_nodup, hmoved.target,
        hmoved.source, hmoved.other⟩

/-- A hierarchy of two segments with three blocks in the first and two in the second one, both
flagged. -/
def twoSegments : RebalancingManager :=
  RebalancingManager.recomputeLevelInfo
    { aggregateWidth := 4
      density := densityOne
      aggregates := fun i => [⟨3, true⟩, ⟨2, true⟩, ⟨5, false⟩].getD i ManagerEntry.zero
      aggregatesSize := 4
      levelStarts := []
      levelAggregateWidths := []
      size := 2
      logCapacity := 1
      logCapacityWithSuperRoot := 2
      capacity := 2
      nextLevelRecountingNodes := .clear }

/-- Five blocks in two tasks, of which the right one comes first: two blocks with a buffer block
between them, and a block with a buffer block. -/
def fiveBlocks : BatchedSparseArray ℕ ℕ :=
  { create (keyOnlyBatched 4 4) 2 with
    size := 7
    pma := fun c =>
      if c = 0 then ⟨some [10, 20, 0, 0], 10, 2⟩ else if c = 2 then ⟨some [50, 60, 0, 0], 50, 2⟩
      else if c = 5 then ⟨some [70, 80, 0, 0], 70, 2⟩ else PmaEntry.null (keyOnlyBlocks 4)
    bufferArray := fun j =>
      if j = 0 then ⟨some [30, 40, 0, 0], 30, 2⟩ else if j = 3 then ⟨some [90, 95, 0, 0], 90, 2⟩
      else PmaEntry.null (keyOnlyBlocks 4)
    bufferPointers := fun c =>
      if c = 0 then ⟨0, 1⟩ else if c = 5 then ⟨3, 4⟩ else .zero
    rebalancingManager := twoSegments
    rebalancingTasks := [twoSegments.getRebalancingTask ⟨0, 1⟩,
      twoSegments.getRebalancingTask ⟨0, 0⟩] }

lemma fiveBlocks_input : fiveBlocks.RebalancingInput (keyOnlyBatched 4 4) := by
  have hptr : ∀ c, fiveBlocks.bufferPointers c =
      if c = 0 then ⟨0, 1⟩ else if c = 5 then ⟨3, 4⟩ else .zero := fun _ => rfl
  refine
    { levels := ⟨rfl, rfl, rfl, rfl⟩
      width_pos := by decide
      counters := ?_
      size_lt := by decide
      room := by decide
      task_eq := ?_
      isNode := ?_
      blocks_pos := by decide
      fits := by decide
      super_le := by decide
      disjoint := ?_
      behind := ?_
      buffers_disjoint := ?_
      buffers_full := ?_
      pointers_zero := ?_ }
  · have hall : ∀ l < 2, ∀ i < 2 ^ (1 - l), (fiveBlocks.rebalancingManager.aggregate i l).numberOfBlocks =
        fiveBlocks.rebalancingManager.trueBlocks (fiveBlocks.sdsView (keyOnlyBatched 4 4)) l i := by
      decide
    exact fun l hl => hall l (Nat.lt_succ_of_le hl)
  · intro task ht
    simp only [fiveBlocks, List.mem_cons, List.not_mem_nil, or_false] at ht
    rcases ht with rfl | rfl <;> rfl
  · intro task ht
    simp only [fiveBlocks, List.mem_cons, List.not_mem_nil, or_false] at ht
    rcases ht with rfl | rfl <;> exact ⟨by decide, by decide⟩
  · refine List.pairwise_pair.mpr fun c h1 h2 => ?_
    have h3 : 4 ≤ c := h1.1
    have h4 : c < 4 := h2.2
    omega
  · intro c hc
    have : 7 ≤ c := le_trans (by decide) hc
    rw [hptr, if_neg (by omega), if_neg (by omega)]
    rfl
  · intro c c' j hc hc'
    rw [hptr] at hc hc'
    simp only [Interval.contains] at hc hc'
    split_ifs at hc hc' <;> simp only [Interval.zero] at hc hc' <;> omega
  · intro c j hj
    rw [hptr] at hj
    simp only [Interval.contains] at hj
    split_ifs at hj
    · obtain rfl : j = 0 := Nat.lt_one_iff.mp hj.2
      decide
    · obtain rfl : j = 3 := Nat.le_antisymm (Nat.le_of_lt_succ hj.2) hj.1
      decide
    · simp only [Interval.zero] at hj
      omega
  · intro c hc
    rw [hptr] at hc ⊢
    split_ifs at hc ⊢
    · exact absurd hc (by decide)
    · exact absurd hc (by decide)
    · rfl

/-- The second thread runs first; the fourth block is the one that the two shares meet at. -/
theorem split_rebalancing_eq_whole_fiveBlocks :
    let p := keyOnlyBatched 4 4
    let split := [1, 0].foldl (fun s' t => s'.executeRebalancing p t)
      (fiveBlocks.computePrefixSums.assignRebalancingBlocks p)
    (split.swapPma = ([0, 1].foldl (fun s' t => s'.executeWholeTasks p t) fiveBlocks).swapPma) ∧
      (List.range 8).map (fun i => (split.swapPma i).live) =
        [[10, 20], [30, 40], [50, 60], [], [70, 80], [90, 95], [], []] := by
  refine ⟨(split_rebalancing_eq_whole (keyOnlyBatched 4 4) fiveBlocks fiveBlocks_input
    (by decide) [1, 0] [0, 1] [0, 1] (List.Perm.swap 0 1 []) (List.Perm.refl _)
    (List.Perm.refl _)).1.2.2, ?_⟩
  decide

end BatchedSparseArray

end BatchPMA
