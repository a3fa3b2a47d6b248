import BatchPMA.Rebalance.Clearing
import BatchPMA.Rebalance.Sizing
import BatchPMA.Hierarchy.Growth
import BatchPMA.Rebalance.Rewriting

/-!
# Steps B-4 to B-9 together

What the pma, the swap array and the buffer array hold after the blocks of all tasks have been
moved out and written back.  `Rebalanced` is stated without reference to the order of the threads.
-/

namespace BatchPMA

open RebalancingManager Segments

namespace BatchedSparseArray

variable {K α : Type} [DecidableEq K] {p : BatchedParams K α} {s s' : BatchedSparseArray K α}

/-- The cells of a task. -/
def InTask (s : BatchedSparseArray K α) (c : ℕ) : Prop :=
  ∃ task ∈ s.rebalancingTasks, task.pmaRange.contains c

/-- Empty cells hold nothing, blocks have a head, and nothing is left over in the other arrays. -/
structure Clean (p : BatchedParams K α) (s : BatchedSparseArray K α) : Prop where
  cell_null : ∀ c, s.empty p c = true → s.pma c = PmaEntry.null p.toBlockParams
  head_ne : ∀ c, ∀ q ∈ s.cellPlaces p c, (s.memory q).head ≠ p.nullKey
  swap_null : ∀ i, s.swapPma i = PmaEntry.null p.toBlockParams
  buffer_null : ∀ j, (∀ c, ¬ (s.bufferPointers c).contains j) →
    s.bufferArray j = PmaEntry.null p.toBlockParams

/-! ## Step B-5 -/

/-- The same state with another swap array and another distribution of the work. -/
def withShares (s : BatchedSparseArray K α) (swapPma : ℕ → PmaEntry K α) (swapCapacity : ℕ)
    (tasks : ℕ → TaskInfo) (sums : List ℕ) : BatchedSparseArray K α :=
  { s with
    swapPma := swapPma
    swapCapacity := swapCapacity
    tasks := tasks
    prefixNumberOfRebalancingBlocks := sums }

/-- The members that step B-5 does not read may differ. -/
lemma Ready.congr (h : s.Ready p) {a : ℕ → PmaEntry K α} {b : ℕ} {c : ℕ → TaskInfo} {d : List ℕ} :
    (s.withShares a b c d).Ready p where
  levels := h.levels
  width_pos := h.width_pos
  counters := h.counters
  capacity := h.capacity
  isNode := h.isNode
  numberOfBlocks_eq := h.numberOfBlocks_eq
  left_eq := h.left_eq
  tree_le := h.tree_le
  used_le := h.used_le
  left_lt := h.left_lt
  fits := h.fits
  disjoint := h.disjoint
  behind := h.behind
  buffers_disjoint := h.buffers_disjoint
  buffers_full := h.buffers_full

omit [DecidableEq K] in
lemma increaseSwapPmaSize_spec (hswap : ∀ i, s.swapPma i = PmaEntry.null p.toBlockParams)
    (hpos : 0 < s.swapCapacity) (n : ℕ) :
    ∃ a b, s.increaseSwapPmaSize p n = { s with swapPma := a, swapCapacity := b } ∧
      (∀ i, a i = PmaEntry.null p.toBlockParams) ∧ n < b ∧
      (b ≠ s.swapCapacity ↔ s.swapCapacity ≤ n) := by
  rw [increaseSwapPmaSize]
  split
  · rename_i hle
    have hlt := lt_doubleUntil (n := n + 1) hpos (show n < s.swapCapacity + (n + 1) by omega)
    exact ⟨_, _, rfl, fun _ => rfl, hlt, fun _ => hle, fun _ => by omega⟩
  · rename_i hle
    exact ⟨s.swapPma, s.swapCapacity, rfl, hswap, by omega, fun h => absurd rfl h,
      fun h => absurd h hle⟩

/-- The state of the threads' step, and all moves made. -/
lemma Ready.moveToSwap (h : s.Ready p) (hne : s.rebalancingTasks ≠ [])
    (hswap : ∀ i, s.swapPma i = PmaEntry.null p.toBlockParams) (hpos : 0 < s.swapCapacity)
    (hthreads : 0 < s.numberOfThreads) (sched : Schedule) :
    ∃ s₀ : BatchedSparseArray K α, s₀.Ready p ∧ s₀.Assigned p ∧
      Moving p s₀ (Set.Iio s₀.totalBlocks) (s.moveToSwap p sched) ∧
      (∃ a b c, s₀ = s.withShares a b c s.computePrefixSums.prefixNumberOfRebalancingBlocks) ∧
      (∀ i, s₀.swapPma i = PmaEntry.null p.toBlockParams) ∧ s.newPmaSize < s₀.swapCapacity ∧
      (s₀.swapCapacity ≠ s.swapCapacity ↔ s.swapCapacity ≤ s.newPmaSize) := by
  obtain ⟨a, b, heq, hnull, hlt, hgrow⟩ := increaseSwapPmaSize_spec (p := p)
    (s := s.computePrefixSums) hswap hpos s.newPmaSize
  have hsum : PrefixSummed (s.computePrefixSums.increaseSwapPmaSize p s.newPmaSize) := by
    rw [heq]
    exact prefixSummed_computePrefixSums s
  refine ⟨(s.computePrefixSums.increaseSwapPmaSize p s.newPmaSize).assignRebalancingBlocks p,
    ?_, ?_, ?_, ?_, ?_, ?_, ?_⟩
  · rw [heq]
    exact h.congr
  · exact assigned_assignRebalancingBlocks hsum (by rw [heq]; exact hne)
  · have hr : Ready p ((s.computePrefixSums.increaseSwapPmaSize p
        s.newPmaSize).assignRebalancingBlocks p) := by
      rw [heq]
      exact h.congr
    have ha := assigned_assignRebalancingBlocks (p := p) hsum (by rw [heq]; exact hne)
    exact hr.executeRebalancing_all ha (by rw [heq]; exact hthreads) (sched.threads_perm 1 _)
  · rw [heq]
    exact ⟨_, _, _, rfl⟩
  · rw [heq]
    exact hnull
  · rw [heq]
    exact hlt
  · rw [heq]
    exact hgrow

/-! ## All steps -/

omit [DecidableEq K] in
/-- Where blocks are written depends only on the tasks and the threads. -/
lemma rewriteIndex_congr (h1 : s'.rebalancingTasks = s.rebalancingTasks)
    (h2 : s'.prefixNumberOfRebalancingBlocks = s.prefixNumberOfRebalancingBlocks)
    (h3 : s'.numberOfThreads = s.numberOfThreads) : s'.rewriteIndex = s.rewriteIndex := by
  funext g
  simp only [rewriteIndex, taskOf, shareOf, firstBlock, rebalancingTask, findRebalancingTask,
    totalBlocks, h1, h2, h3]

omit [DecidableEq K] in
lemma swapTarget_congr (h : s'.rebalancingTasks = s.rebalancingTasks) :
    s'.swapTarget = s.swapTarget := by
  funext g
  simp only [swapTarget, swapPlaces, h]

/-- The state after steps B-4 to B-9. -/
structure Rebalanced (p : BatchedParams K α) (s s' : BatchedSparseArray K α) : Prop where
  size_eq : s'.size = s.newPmaSize
  swapCapacity_eq : s'.swapCapacity = s'.capacity
  size_lt : s'.size < s'.capacity
  target : ∀ g < s.totalBlocks,
    s'.pma (s.computePrefixSums.rewriteIndex g) = s.memory (s.source p g)
  hole : ∀ c, s.InTask c → (∀ g < s.totalBlocks, s.computePrefixSums.rewriteIndex g ≠ c) →
    s'.pma c = PmaEntry.null p.toBlockParams
  outside : ∀ c, ¬ s.InTask c → s'.pma c = s.pma c
  swap_null : ∀ i, s'.swapPma i = PmaEntry.null p.toBlockParams
  buffer_null : ∀ j, s'.bufferArray j = PmaEntry.null p.toBlockParams
  pointers : ∀ c, (s'.bufferPointers c).length = 0
  pointer : ∀ c, s'.bufferPointers c = .zero ∨ s'.bufferPointers c = s.bufferPointers c
  manager : ∃ m, FlagsCleared s.rebalancingManager
      {node | ∃ task ∈ s.rebalancingTasks, node = task.rootNode} m ∧
    s'.rebalancingManager = m.resize s.newPmaSize
  flagged : s'.recountingNodesMap.flagged = s.recountingNodesMap.flagged
  mem_keys : ∀ k, k ∈ s'.recountingNodesMap.keys ↔ k ∈ s.recountingNodesMap.keys ∨
    ∃ g < s.totalBlocks, k = s.rebalancingManager.lowestLevelNodeIndex
      (s.computePrefixSums.rewriteIndex g)
  rebalancingNodes_eq : s'.rebalancingNodes = s.rebalancingNodes
  numberOfThreads_eq : s'.numberOfThreads = s.numberOfThreads
  bufferCapacity_eq : s'.bufferCapacity = s.bufferCapacity

/-- What is needed for it: all buffer blocks belong to a task, and when the pma is replaced all
its blocks do. -/
structure Covered (p : BatchedParams K α) (s : BatchedSparseArray K α) : Prop where
  buffers : ∀ c, 0 < (s.bufferPointers c).length →
    ∃ task ∈ s.rebalancingTasks, task.pmaRange.left ≤ c ∧ c < (s.treeRange task).right
  growth : s.swapCapacity ≤ s.newPmaSize → ∀ c, s.empty p c = false → s.InTask c

/-- A block of the pma in the range of a task is one of the blocks of the task. -/
lemma Ready.exists_source (h : s.Ready p) {task : RebalancingTask}
    (ht : task ∈ s.rebalancingTasks) {c : ℕ} (h1 : task.pmaRange.left ≤ c)
    (h2 : c < (s.treeRange task).right) {q : Place} (hq : q ∈ s.cellPlaces p c) :
    ∃ g < s.totalBlocks, s.source p g = q := by
  have hin : q ∈ s.sourcePlaces p :=
    List.mem_flatMap.mpr ⟨task, ht, mem_placesIn.mpr ⟨c, h1, h2, hq⟩⟩
  obtain ⟨g, hg, heq⟩ := List.mem_iff_getElem.mp hin
  refine ⟨g, by rw [← h.length_sourcePlaces]; exact hg, ?_⟩
  rw [source, List.getD_eq_getElem?_getD, List.getElem?_eq_getElem hg, heq, Option.getD_some]

lemma Ready.lt_tree_of_not_empty (h : s.Ready p) {task : RebalancingTask}
    (ht : task ∈ s.rebalancingTasks) {c : ℕ} (hc : task.pmaRange.contains c)
    (he : s.empty p c = false) : c < (s.treeRange task).right := by
  have hlt : c < s.size := by
    by_contra hge
    rw [empty, if_pos (by omega)] at he
    exact absurd he (by simp)
  have := h.used_le task ht
  have := hc.2
  omega

/-- The pma after step B-5: the cells of the tasks are empty, the others are as before. -/
lemma Moving.pma_eq (hr : s.Ready p) (hnull : ∀ c, s.empty p c = true →
      s.pma c = PmaEntry.null p.toBlockParams)
    (h : Moving p s (Set.Iio s.totalBlocks) s') (c : ℕ) :
    (s.InTask c → s'.pma c = PmaEntry.null p.toBlockParams) ∧
      (¬ s.InTask c → s'.pma c = s.pma c) := by
  have hplan := hr.swapPlan
  -- a cell without a block to move is left alone
  have hkeep : (∀ g < s.totalBlocks, s.source p g ≠ .pma c) → s'.pma c = s.pma c := by
    intro hno
    refine h.running.done.other (.pma c) fun g hg => ⟨fun heq => hno g hg heq.symm, fun heq => ?_⟩
    obtain ⟨i, hi⟩ := hplan.dst_swap g hg
    rw [hi] at heq
    exact absurd heq (by simp)
  constructor
  · rintro ⟨task, ht, hc⟩
    cases he : s.empty p c with
    | true =>
        rw [hkeep fun g hg heq => ?_]
        · exact hnull c he
        · rw [hplan.src_pma g hg c heq] at he
          exact absurd he (by simp)
    | false =>
        have hmem : Place.pma c ∈ s.cellPlaces p c := mem_cellPlaces.mpr (Or.inl ⟨rfl, he⟩)
        obtain ⟨g, hg, heq⟩ := hr.exists_source ht hc.1 (hr.lt_tree_of_not_empty ht hc he) hmem
        have hsrc := h.running.done.source g hg
        rw [heq] at hsrc
        exact hsrc
  · intro hout
    refine hkeep fun g hg heq => hout ?_
    obtain ⟨task, ht, c', h1, h2, hc'⟩ := hr.exists_cell hg
    rw [heq] at hc'
    rcases mem_cellPlaces.mp hc' with ⟨hcc, -⟩ | ⟨j, hcc, -⟩
    · rw [Place.pma.inj hcc]
      exact ⟨task, ht, h1, lt_of_lt_of_le h2 (hr.tree_le task ht)⟩
    · exact absurd hcc (by simp)

/-- The buffer array after step B-5. -/
lemma Moving.bufferArray_eq (hr : s.Ready p)
    (hnull : ∀ j, (∀ c, ¬ (s.bufferPointers c).contains j) →
      s.bufferArray j = PmaEntry.null p.toBlockParams)
    (hcov : ∀ c, 0 < (s.bufferPointers c).length →
      ∃ task ∈ s.rebalancingTasks, task.pmaRange.left ≤ c ∧ c < (s.treeRange task).right)
    (h : Moving p s (Set.Iio s.totalBlocks) s') (j : ℕ) :
    s'.bufferArray j = PmaEntry.null p.toBlockParams := by
  have hplan := hr.swapPlan
  by_cases hj : ∃ c, (s.bufferPointers c).contains j
  · obtain ⟨c, hc⟩ := hj
    have hpos : 0 < (s.bufferPointers c).length := by
      rw [Interval.length]
      have h1 := hc.1
      have h2 := hc.2
      omega
    obtain ⟨task, ht, h1, h2⟩ := hcov c hpos
    obtain ⟨g, hg, heq⟩ := hr.exists_source ht h1 h2 (q := .buffer j)
      (mem_cellPlaces.mpr (Or.inr ⟨j, rfl, hc⟩))
    have hsrc := h.running.done.source g hg
    rw [heq] at hsrc
    exact hsrc
  · have hno : ∀ c, ¬ (s.bufferPointers c).contains j := fun c hc => hj ⟨c, hc⟩
    have hkeep : s'.bufferArray j = s.bufferArray j := by
      refine h.running.done.other (.buffer j) fun g hg => ⟨fun heq => ?_, fun heq => ?_⟩
      · obtain ⟨-, -, c', -, -, hc'⟩ := hr.exists_cell hg
        rw [← heq] at hc'
        rcases mem_cellPlaces.mp hc' with ⟨hcc, -⟩ | ⟨j', hcc, hj'⟩
        · exact absurd hcc (by simp)
        · rw [← Place.buffer.inj hcc] at hj'
          exact hno c' hj'
      · obtain ⟨i, hi⟩ := hplan.dst_swap g hg
        rw [hi] at heq
        exact absurd heq (by simp)
    rw [hkeep]
    exact hnull j hno

/-- The swap array after step B-5 holds the blocks of the tasks and nothing else. -/
lemma Moving.swapPma_eq (hr : s.Ready p) (hnull : ∀ i, s.swapPma i = PmaEntry.null p.toBlockParams)
    (h : Moving p s (Set.Iio s.totalBlocks) s') {i : ℕ}
    (hi : ∀ g < s.totalBlocks, s.swapTarget g ≠ .swap i) :
    s'.swapPma i = PmaEntry.null p.toBlockParams := by
  have hkeep : s'.swapPma i = s.swapPma i := by
    refine h.running.done.other (.swap i) fun g hg => ⟨fun heq => ?_, fun heq => hi g hg heq.symm⟩
    exact hr.swapPlan.src_ne_swap g hg i heq.symm
  rw [hkeep]
  exact hnull i

/-- What holds in front of step B-9. -/
structure Emptied (p : BatchedParams K α) (s s' : BatchedSparseArray K α) : Prop where
  size_eq : s'.size = s.newPmaSize
  swapCapacity_eq : s'.swapCapacity = s'.capacity
  size_lt : s'.size < s'.capacity
  pma_eq : ∀ c, (s.InTask c → s'.pma c = PmaEntry.null p.toBlockParams) ∧
    (¬ s.InTask c → s'.pma c = s.pma c)
  swap_eq : ∀ g < s.totalBlocks, s'.memory (s.swapTarget g) = s.memory (s.source p g)
  swap_other : ∀ i, (∀ g < s.totalBlocks, s.swapTarget g ≠ .swap i) →
    s'.swapPma i = PmaEntry.null p.toBlockParams
  buffer_null : ∀ j, s'.bufferArray j = PmaEntry.null p.toBlockParams
  pointers : ∀ c, (s'.bufferPointers c).length = 0
  pointer : ∀ c, s'.bufferPointers c = .zero ∨ s'.bufferPointers c = s.bufferPointers c
  manager : ∃ m, FlagsCleared s.rebalancingManager
      {node | ∃ task ∈ s.rebalancingTasks, node = task.rootNode} m ∧
    s'.rebalancingManager = m.resize s.newPmaSize
  recountingNodesMap_eq : s'.recountingNodesMap = s.recountingNodesMap
  rebalancingNodes_eq : s'.rebalancingNodes = s.rebalancingNodes
  rebalancingTasks_eq : s'.rebalancingTasks = s.rebalancingTasks
  sums_eq : s'.prefixNumberOfRebalancingBlocks =
    s.computePrefixSums.prefixNumberOfRebalancingBlocks
  numberOfThreads_eq : s'.numberOfThreads = s.numberOfThreads
  bufferCapacity_eq : s'.bufferCapacity = s.bufferCapacity

/-- The part of `moveBack` in front of step B-9. -/
def clearAndResize (p : BatchedParams K α) (s : BatchedSparseArray K α) (sched : Schedule)
    (newPmaSize : ℕ) : BatchedSparseArray K α :=
  (parallel { s with rebalancingManager := s.rebalancingManager.resize newPmaSize } sched 2
    (fun s' thread => s'.executeClearing thread)).resizeMainPma p newPmaSize

omit [DecidableEq K] in
lemma moveBack_eq (s : BatchedSparseArray K α) (sched : Schedule) (n : ℕ) : s.moveBack p sched n =
    (s.clearAndResize p sched n).parallel sched 3
      (fun s' thread => s'.executeRewriting p thread) := rfl

/-- Every task with a block has been touched, so all flags of the tasks are cleared. -/
lemma Moving.flagsCleared (h : Moving p s (Set.Iio s.totalBlocks) s')
    (hblocks : ∀ task ∈ s.rebalancingTasks, 0 < task.numberOfBlocks) :
    FlagsCleared s.rebalancingManager {node | ∃ task ∈ s.rebalancingTasks, node = task.rootNode}
      s'.rebalancingManager := by
  obtain ⟨nodes, hc, hroots, htouched⟩ := h.flags
  have hset : nodes = {node | ∃ task ∈ s.rebalancingTasks, node = task.rootNode} := by
    refine Set.Subset.antisymm (fun node hn => hroots node hn) ?_
    rintro node ⟨task, ht, rfl⟩
    obtain ⟨i, hi, rfl⟩ := List.mem_iff_getElem.mp ht
    have hpos := hblocks _ ht
    have hsucc := firstBlock_succ hi
    rw [getElem_rebalancingTasks hi] at hpos ⊢
    have htotal : s.firstBlock (i + 1) ≤ s.totalBlocks := firstBlock_le_total hi
    have hlt : s.firstBlock i < s.totalBlocks := by omega
    exact htouched (s.firstBlock i) hlt i hi (le_refl _) (by omega)
  rw [← hset]
  exact hc

lemma Ready.emptied (h : s.Ready p) (hc : s.Clean p) (hcov : s.Covered p)
    (hne : s.rebalancingTasks ≠ []) (hblocks : ∀ task ∈ s.rebalancingTasks, 0 < task.numberOfBlocks)
    (hcap : s.swapCapacity = s.capacity) (hthreads : 0 < s.numberOfThreads) (sched : Schedule) :
    Emptied p s ((s.moveToSwap p sched).clearAndResize p sched s.newPmaSize) := by
  have hcappos : 0 < s.swapCapacity := by
    have := h.capacity
    omega
  obtain ⟨s₀, hr, ha, hmv, ⟨a, b, c, hs₀⟩, hswap, hlt, hgrow⟩ :=
    h.moveToSwap hne hc.swap_null hcappos hthreads sched
  have htasks : s₀.rebalancingTasks = s.rebalancingTasks := by rw [hs₀]; rfl
  have htotal : s₀.totalBlocks = s.totalBlocks := by rw [totalBlocks, firstBlock, htasks]; rfl
  have hsource : s₀.source p = s.source p := by rw [hs₀]; rfl
  have hin : ∀ c, s₀.InTask c ↔ s.InTask c := fun c => by rw [InTask, htasks]; rfl
  have hflags := hmv.flagsCleared (by rw [htasks]; exact hblocks)
  have hpma : ∀ c, (s.InTask c → (s.moveToSwap p sched).pma c = PmaEntry.null p.toBlockParams) ∧
      (¬ s.InTask c → (s.moveToSwap p sched).pma c = s.pma c) := by
    intro c
    have hmoved := hmv.pma_eq hr (by rw [hs₀]; exact hc.cell_null) c
    rw [hin c, hs₀] at hmoved
    exact hmoved
  have hbuf := hmv.bufferArray_eq hr (by rw [hs₀]; exact hc.buffer_null)
    (by rw [hs₀]; exact hcov.buffers)
  have hswapped : ∀ g < s.totalBlocks,
      (s.moveToSwap p sched).memory (s.swapTarget g) = s.memory (s.source p g) := by
    intro g hg
    rw [← swapTarget_congr htasks, ← hsource]
    have hto := hmv.running.done.target g (by rw [htotal]; exact hg)
    rw [hto]
    -- the blocks to move are not in the swap array
    have hnot := hr.swapPlan.src_ne_swap g (by rw [htotal]; exact hg)
    rw [hs₀] at hnot ⊢
    cases hq : (s.withShares a b c s.computePrefixSums.prefixNumberOfRebalancingBlocks).source p g with
    | pma i => rfl
    | buffer i => rfl
    | swap i => exact absurd hq (hnot i)
  have hother : ∀ i, (∀ g < s.totalBlocks, s.swapTarget g ≠ .swap i) →
      (s.moveToSwap p sched).swapPma i = PmaEntry.null p.toBlockParams := by
    intro i hi
    refine hmv.swapPma_eq hr hswap fun g hg => ?_
    rw [swapTarget_congr htasks]
    exact hi g (by rw [← htotal]; exact hg)
  obtain ⟨a', b', c', m, hs₃⟩ := hmv.running.frame
  have hf : FlagsCleared s.rebalancingManager
      {node | ∃ task ∈ s.rebalancingTasks, node = task.rootNode}
        (s.moveToSwap p sched).rebalancingManager := by
    rw [htasks, hs₀] at hflags
    exact hflags
  generalize s.moveToSwap p sched = s₃ at *
  have hthreads₃ : s₃.numberOfThreads = s₀.numberOfThreads := by rw [hs₃]; rfl
  have hperm : (sched.threads 2 s₃.numberOfThreads).Perm (List.range s₀.numberOfThreads) := by
    rw [hthreads₃]
    exact sched.threads_perm 2 _
  obtain ⟨f, hclear, hold, hzero⟩ := hr.executeClearing_all
    { s₃ with rebalancingManager := s₃.rebalancingManager.resize s.newPmaSize } ha
    (by rw [hs₃]; rfl) (by rw [hs₃]; rfl) (by rw [hs₃]; rfl) (by rw [hs₃]; rfl)
    (by rw [hs₀]; exact hthreads) hperm
  have hptr : ∀ c, (f c).length = 0 := by
    intro c
    rcases Nat.eq_zero_or_pos (s.bufferPointers c).length with h0 | hpos
    · rcases hold c with hz | hz
      · rw [hz]; rfl
      · rw [hz, hs₀]; exact h0
    · obtain ⟨task, ht, h1, h2⟩ := hcov.buffers c hpos
      exact hzero task (by rw [htasks]; exact ht) c h1 (by rw [hs₀]; exact h2)
  have hkept : ∀ c, f c = .zero ∨ f c = s.bufferPointers c := by
    rw [hs₀] at hold
    exact hold
  have hs₅ : (parallel { s₃ with rebalancingManager := s₃.rebalancingManager.resize s.newPmaSize }
      sched 2 (fun s' thread => s'.executeClearing thread)) =
      { s₃ with
        rebalancingManager := s₃.rebalancingManager.resize s.newPmaSize
        bufferPointers := f } := hclear
  have hsc₃ : s₃.swapCapacity = s₀.swapCapacity := by rw [hs₃]; rfl
  have hcap₃ : s₃.capacity = s.capacity := by rw [hs₃, hs₀]; rfl
  have htasks₃ : s₃.rebalancingTasks = s.rebalancingTasks := by rw [hs₃]; exact htasks
  have hmap₃ : s₃.recountingNodesMap = s.recountingNodesMap := by rw [hs₃, hs₀]; rfl
  have hnodes₃ : s₃.rebalancingNodes = s.rebalancingNodes := by rw [hs₃, hs₀]; rfl
  have hsums₃ : s₃.prefixNumberOfRebalancingBlocks =
      s.computePrefixSums.prefixNumberOfRebalancingBlocks := by rw [hs₃, hs₀]; rfl
  have hbcap₃ : s₃.bufferCapacity = s.bufferCapacity := by rw [hs₃, hs₀]; rfl
  have hth₃ : s₃.numberOfThreads = s.numberOfThreads := by rw [hs₃, hs₀]; rfl
  rw [clearAndResize, hs₅, resizeMainPma]
  simp only [hsc₃, hcap₃]
  split
  · rename_i hgrew
    -- the pma is replaced; what was not moved was empty
    have hle := hgrow.mp (by rw [hcap]; exact hgrew)
    exact ⟨rfl, rfl, hlt, fun c => ⟨fun _ => rfl, fun hout => by
        refine (hc.cell_null c ?_).symm
        by_contra he
        exact hout (hcov.growth hle c (by simpa using he))⟩,
      fun g hg => by
        obtain ⟨task, -, k, -, hk⟩ := exists_swapTarget hg
        have := hswapped g hg
        rw [hk] at this ⊢
        exact this,
      hother, hbuf, fun _ => rfl, fun _ => Or.inl rfl, ⟨_, hf, rfl⟩, hmap₃, hnodes₃, htasks₃, hsums₃, hth₃, hbcap₃⟩
  · rename_i hsame
    simp only [ne_eq, not_not] at hsame
    exact ⟨rfl, hsame, lt_of_lt_of_eq hlt hsame, hpma,
      fun g hg => by
        obtain ⟨task, -, k, -, hk⟩ := exists_swapTarget hg
        have := hswapped g hg
        rw [hk] at this ⊢
        exact this,
      hother, hbuf, hptr, hkept, ⟨_, hf, rfl⟩, hmap₃, hnodes₃, htasks₃, hsums₃, hth₃, hbcap₃⟩

/-- **Steps B-4 to B-9.**  The blocks of the tasks are where `rewriteIndex` says, in whatever
order the threads run; everything else is as before, and the other arrays are empty. -/
theorem Ready.rebalanced (h : s.Ready p) (hc : s.Clean p) (hcov : s.Covered p)
    (hne : s.rebalancingTasks ≠ []) (hblocks : ∀ task ∈ s.rebalancingTasks, 0 < task.numberOfBlocks)
    (hcap : s.swapCapacity = s.capacity) (hthreads : 0 < s.numberOfThreads) (sched : Schedule) :
    Rebalanced p s ((s.moveToSwap p sched).moveBack p sched s.newPmaSize) := by
  have he := h.emptied hc hcov hne hblocks hcap hthreads sched
  rw [moveBack_eq, parallel]
  generalize (s.moveToSwap p sched).clearAndResize p sched s.newPmaSize = s₀ at *
  have hindex : s₀.rewriteIndex = s.computePrefixSums.rewriteIndex :=
    rewriteIndex_congr he.rebalancingTasks_eq he.sums_eq he.numberOfThreads_eq
  have htarget : s₀.swapTarget = s.swapTarget := swapTarget_congr he.rebalancingTasks_eq
  have htotal : s₀.totalBlocks = s.totalBlocks := by
    rw [totalBlocks, firstBlock, he.rebalancingTasks_eq]
    rfl
  have hfit : s₀.TasksFit := by
    refine ⟨?_, by rw [he.rebalancingTasks_eq]; exact hne,
      by rw [he.rebalancingTasks_eq]; exact h.fits,
      by rw [he.rebalancingTasks_eq]; exact h.disjoint⟩
    have hsum := prefixSummed_computePrefixSums s
    rw [PrefixSummed] at hsum ⊢
    rw [he.sums_eq, he.rebalancingTasks_eq, hsum]
    simp only [firstBlock, he.rebalancingTasks_eq]
    rfl
  have hnodup : s₀.swapPlaces.Nodup := by
    rw [swapPlaces, he.rebalancingTasks_eq]
    exact h.nodup_swapPlaces
  have hpos : 0 < s₀.numberOfThreads := by rw [he.numberOfThreads_eq]; exact hthreads
  have hw := hfit.executeRewriting_all (p := p) hnodup hpos (sched.threads_perm 3 _)
  generalize (sched.threads 3 s₀.numberOfThreads).foldl
    (fun s' t => s'.executeRewriting p t) s₀ = s' at *
  have hdone := hw.done
  rw [htotal, htarget] at hdone
  -- a cell that is not written keeps its content
  have hkeep : ∀ c, (∀ g < s.totalBlocks, s.computePrefixSums.rewriteIndex g ≠ c) →
      s'.pma c = s₀.pma c := by
    intro c hc'
    refine hdone.other (.pma c) fun g hg => ⟨fun heq => ?_, fun heq => hc' g hg ?_⟩
    · obtain ⟨task, -, k, -, hk⟩ := exists_swapTarget hg
      rw [hk] at heq
      exact absurd heq (by simp)
    · rw [← hindex]
      exact (Place.pma.inj heq).symm
  -- the cells that are written are in tasks
  have hin : ∀ g < s.totalBlocks, s.InTask (s.computePrefixSums.rewriteIndex g) := by
    intro g hg
    obtain ⟨h1, h2, h3⟩ := hfit.taskOf_spec (g := g) (by rw [htotal]; exact hg)
    have hmem := hfit.rewriteIndex_mem hpos h1 h2 h3
    rw [hindex] at hmem
    exact ⟨_, by rw [← he.rebalancingTasks_eq]; exact rebalancingTask_mem h1, hmem⟩
  have hsize : s'.size = s₀.size := by rw [hw.frame]
  have hcapacity : s'.capacity = s₀.capacity := by rw [hw.frame]
  obtain ⟨m, hm, hmeq⟩ := he.manager
  refine ⟨hsize.trans he.size_eq, ?_, ?_, fun g hg => ?_, fun c hc' hout => ?_, fun c hc' => ?_,
    fun i => ?_, fun j => ?_, fun c => ?_, fun c => ?_, ⟨m, hm, ?_⟩, ?_, fun k => ?_, ?_, ?_, ?_⟩
  · rw [hcapacity, ← he.swapCapacity_eq, hw.frame]
  · rw [hcapacity, hsize]
    exact he.size_lt
  · have hto := hdone.target g hg
    rw [rewriteTarget, hindex, he.swap_eq g hg] at hto
    exact hto
  · rw [hkeep c hout]
    exact (he.pma_eq c).1 hc'
  · rw [hkeep c fun g hg heq => hc' (heq ▸ hin g hg)]
    exact (he.pma_eq c).2 hc'
  · by_cases hi : ∃ g < s.totalBlocks, s.swapTarget g = .swap i
    · obtain ⟨g, hg, heq⟩ := hi
      have hsrc := hdone.source g hg
      rw [heq] at hsrc
      exact hsrc
    · have hno : ∀ g < s.totalBlocks, s.swapTarget g ≠ .swap i := fun g hg heq => hi ⟨g, hg, heq⟩
      have hsame : s'.swapPma i = s₀.swapPma i :=
        hdone.other (.swap i) fun g hg => ⟨fun heq => hno g hg heq.symm, by simp [rewriteTarget]⟩
      rw [hsame]
      exact he.swap_other i hno
  · have hsame : s'.bufferArray = s₀.bufferArray := by rw [hw.frame]
    rw [hsame]
    exact he.buffer_null j
  · have hsame : s'.bufferPointers = s₀.bufferPointers := by rw [hw.frame]
    rw [hsame]
    exact he.pointers c
  · have hsame : s'.bufferPointers = s₀.bufferPointers := by rw [hw.frame]
    rw [hsame]
    exact he.pointer c
  · rw [← hmeq, hw.frame]
  · rw [hw.flagged, he.recountingNodesMap_eq]
  · have hleaf : ∀ b, s₀.rebalancingManager.lowestLevelNodeIndex b =
        s.rebalancingManager.lowestLevelNodeIndex b := by
      intro b
      obtain ⟨a, rfl⟩ := hm.frame
      rw [hmeq, lowestLevelNodeIndex, lowestLevelNodeIndex, aggregateWidth_resize]
      rfl
    rw [hw.mem_keys, he.recountingNodesMap_eq, htotal, hindex]
    simp only [hleaf]
    rfl
  · rw [← he.rebalancingNodes_eq, hw.frame]
  · rw [← he.numberOfThreads_eq, hw.frame]
  · rw [← he.bufferCapacity_eq, hw.frame]

end BatchedSparseArray

end BatchPMA
