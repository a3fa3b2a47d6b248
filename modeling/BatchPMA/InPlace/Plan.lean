import BatchPMA.InPlace.Task
import BatchPMA.Insertion.Partition

/-!
# The plan of the tasks of the overallocated array

Steps 1 and 2 in closed form, up to the distribution of the work of merge groups.  The searches are
those of the other array, so what is known about its splitters is used here: `asBatched` is the
other array with the same blocks.
-/

namespace BatchPMA

open KeyedUnion Ranges

variable {K α : Type} [LinearOrder K]

/-! ## Valid states -/

namespace OverallocatedBatchedSparseArray

/-- The blocks of the array, in order. -/
def blocks (s : OverallocatedBatchedSparseArray K α) : List (PmaEntry K α) :=
  rangeBlocks s.pma 0 s.size

/-- The state invariant of the overallocated array.  Dead cells of a block may hold keys of its own
live cells, but otherwise only keys of later blocks. -/
structure Valid (p : OverallocatedParams K α) (s : OverallocatedBatchedSparseArray K α) :
    Prop where
  cells : CellsIn p.toBlockParams s.pma 0 s.size
  outside : ∀ c, s.size ≤ c → s.pma c = PmaEntry.null p.toBlockParams
  ordered : Ordered p.keyOf (elements s.blocks)
  stale : StaleOk p.toBlockParams True (fun _ => False) s.blocks
  large : (∀ b ∈ s.blocks, p.minBlockSize ≤ b.size) ∨ s.blocks.length = 1

/-- The aggregates are those of the array. -/
structure AggregatesExact (s : OverallocatedBatchedSparseArray K α) : Prop where
  size : s.sizeManager.size = BlockSizeManager.aggregateIndex s.size + 1
  exact : s.sizeManager.Exact s.blockSize

variable {p : OverallocatedParams K α} {s : OverallocatedBatchedSparseArray K α} {batch : List α}
  {numberOfThreads : ℕ}

lemma Valid.cell (h : s.Valid p) (c : ℕ) :
    s.pma c = PmaEntry.null p.toBlockParams ∨ (s.pma c).Valid p.toBlockParams := by
  rcases Nat.lt_or_ge c s.size with hlt | hge
  · exact h.cells c (Nat.zero_le _) hlt
  · exact Or.inl (h.outside c hge)

lemma Valid.empty_eq (h : s.Valid p) (c : ℕ) : s.empty p c = (s.pma c).isEmpty :=
  empty_eq_isEmpty (h.cell c)

lemma Valid.lt_size (h : s.Valid p) {c : ℕ} (hc : (s.pma c).isEmpty = false) : c < s.size := by
  by_contra hge
  rw [h.outside c (not_lt.mp hge)] at hc
  exact absurd hc (by simp)

lemma Valid.cellsIn (h : s.Valid p) (a b : ℕ) : CellsIn p.toBlockParams s.pma a b :=
  fun c _ _ => h.cell c

omit [LinearOrder K] in
lemma blocks_eq {a b : ℕ} (hab : a ≤ b) (hb : b ≤ s.size) :
    s.blocks = rangeBlocks s.pma 0 a ++ (rangeBlocks s.pma a b ++ rangeBlocks s.pma b s.size) := by
  rw [blocks, rangeBlocks_append (Nat.zero_le a) (le_trans hab hb), rangeBlocks_append hab hb]

lemma Valid.view (h : s.Valid p) : (s.view p).Valid p.toBlockParams where
  empty_iff := fun i => by
    change s.empty p i = true ↔ s.size ≤ i ∨ s.pma i = _
    rw [h.empty_eq]
    constructor
    · intro hemp
      refine Or.inr ((h.cell i).resolve_right fun hv => ?_)
      rw [hv.isEmpty_eq] at hemp
      exact absurd hemp (by simp)
    · rintro (hge | hnull)
      · rw [h.outside i hge]
        rfl
      · rw [hnull]
        rfl
  entry := fun i hi => by
    change s.empty p i = false at hi
    rw [h.empty_eq] at hi
    exact (h.cells.valid (Nat.zero_le i) (h.lt_size hi) hi)
  ordered := fun i j hij hi hj => by
    change s.empty p i = false at hi
    change s.empty p j = false at hj
    rw [h.empty_eq] at hi hj
    exact rangeBlocks_lt h.ordered (Nat.zero_le i) hij (h.lt_size hj) hi hj

/-! ## The other array with the same blocks -/

/-- The parameters of the other array. -/
def batchedParams (p : OverallocatedParams K α) : BatchedParams K α where
  toBlockParams := p.toBlockParams
  segmentWidth := 0
  maxNumberOfThreads := p.maxNumberOfThreads
  density := densityOne

def asBatched (p : OverallocatedParams K α) (s : OverallocatedBatchedSparseArray K α)
    (numberOfThreads : ℕ) : BatchedSparseArray K α :=
  { BatchedSparseArray.create (batchedParams p) numberOfThreads with
    size := s.size
    pma := s.pma }

lemma Valid.view_asBatched (h : s.Valid p) :
    (s.asBatched p numberOfThreads).view (batchedParams p) = s.view p := by
  have hempty : (s.asBatched p numberOfThreads).empty (batchedParams p) = s.empty p := by
    funext c
    rw [BatchedSparseArray.empty]
    change (if s.size ≤ c then true else decide ((s.pma c).head = p.nullKey)) = s.empty p c
    split
    · rename_i hge
      rw [h.empty_eq, h.outside c hge]
      rfl
    · rfl
  rw [BatchedSparseArray.view, hempty]
  rfl

/-- A valid array and a sorted batch with an element for every thread. -/
structure Insertable (p : OverallocatedParams K α) (s : OverallocatedBatchedSparseArray K α)
    (batch : List α) (numberOfThreads : ℕ) : Prop where
  valid : s.Valid p
  increasing : Increasing p.toBlockParams batch
  null_lt : ∀ x ∈ batch, p.nullKey < p.keyOf x
  threads_pos : 0 < numberOfThreads
  threads_le : numberOfThreads ≤ batch.length

lemma Insertable.asBatched (h : s.Insertable p batch numberOfThreads) :
    (s.asBatched p numberOfThreads).Insertable (batchedParams p) batch where
  valid := by
    rw [h.valid.view_asBatched]
    exact h.valid.view
  increasing := h.increasing
  threads_pos := h.threads_pos
  threads_le := h.threads_le

/-! ## Splitters -/

/-- The block of a thread's splitter, with the sentinel. -/
def splitterBlock (p : OverallocatedParams K α) (s : OverallocatedBatchedSparseArray K α)
    (batch : List α) (numberOfThreads : ℕ) : ℕ → ℕ :=
  (s.asBatched p numberOfThreads).splitterBlock (batchedParams p) batch

/-- The first batch element of a thread, with the sentinel. -/
def splitterFirst (p : OverallocatedParams K α) (s : OverallocatedBatchedSparseArray K α)
    (batch : List α) (numberOfThreads : ℕ) : ℕ → ℕ :=
  (s.asBatched p numberOfThreads).splitterFirst (batchedParams p) batch

/-- The linear search gives the same first element as the other array's search. -/
lemma findFirstBatchElement_eq_min (h : NonDecreasing p.toBlockParams batch) {start : ℕ}
    (hstart : start < batch.length) (blockHead : K) :
    findFirstBatchElement p batch start blockHead =
      min (countBelow p.toBlockParams batch blockHead) (start + 1) := by
  have hskip : ∀ i, i < batch.length →
      (decide (blockHead < batchKey p.toBlockParams batch i ∨
        batchKey p.toBlockParams batch i = blockHead) = true ↔
          countBelow p.toBlockParams batch blockHead ≤ i) := by
    intro i hi
    rw [decide_eq_true_eq, ← not_lt, h.lt_countBelow_iff hi, not_lt, le_iff_lt_or_eq]
    exact or_congr_right eq_comm
  rw [findFirstBatchElement]
  refine Scan.scanDown_eq (min_le_right _ _) (by omega) (fun i h1 h2 => ?_) fun hlt => ?_
  · exact (hskip (i - 1) (by omega)).mpr (by omega)
  · rw [← Bool.not_eq_true, hskip _ (by omega)]
    omega

/-- The positions of the batch that the loop of the other array's search looks at. -/
def widenReads (p : BlockParams K α) (batch : List α) (blockHead : K) : ℕ → ℕ → ℕ → List ℕ
  | 0, _, _ => []
  | n + 1, current, delta =>
      if 0 < current then
        current :: if blockHead < batchKey p batch current ∨ blockHead = batchKey p batch current then
          widenReads p batch blockHead n (current - delta * 2) (delta * 2)
        else []
      else []

/-- All positions that the search looks at: those of its loop, and the range that `lower_bound`
works on. -/
def firstBatchElementReads (p : BlockParams K α) (batch : List α) (startIndex : ℕ)
    (blockHead : K) : List ℕ :=
  let (current, delta) := widenLoop p batch blockHead startIndex (startIndex - 1) 1
  widenReads p batch blockHead startIndex (startIndex - 1) 1 ++ List.range' current (delta + 1)

lemma widenReads_le {p : BlockParams K α} {blockHead : K} : ∀ {n current delta i : ℕ},
    i ∈ widenReads p batch blockHead n current delta → i ≤ current
  | 0, _, _, _, hi => absurd hi List.not_mem_nil
  | n + 1, current, delta, i, hi => by
      rw [widenReads] at hi
      split at hi
      · rcases List.mem_cons.mp hi with rfl | hi
        · exact le_refl _
        · split at hi
          · exact le_trans (widenReads_le hi) (Nat.sub_le _ _)
          · exact absurd hi List.not_mem_nil
      · exact absurd hi List.not_mem_nil

/-- **The two searches for the first batch element agree**: the one with doubling steps and the one
that goes step by step find the first element that is not below the head, and the former stays
within the batch up to `startIndex`. -/
theorem findFirstBatchElement_fast_eq_plain (p : OverallocatedParams K α) (batch : List α)
    (startIndex : ℕ) (blockHead : K) (hsorted : NonDecreasing p.toBlockParams batch)
    (hpos : 1 ≤ startIndex) (hstart : startIndex < batch.length) :
    let fast := BatchPMA.findFirstBatchElement p.toBlockParams batch startIndex blockHead
    fast = findFirstBatchElement p batch startIndex blockHead ∧
      fast ≤ startIndex + 1 ∧
      (∀ i < fast, batchKey p.toBlockParams batch i < blockHead) ∧
      (fast ≤ startIndex → blockHead ≤ batchKey p.toBlockParams batch fast) ∧
      ∀ i ∈ firstBatchElementReads p.toBlockParams batch startIndex blockHead, i ≤ startIndex := by
  intro fast
  have hfast : fast = min (countBelow p.toBlockParams batch blockHead) (startIndex + 1) :=
    hsorted.findFirstBatchElement_eq hpos hstart blockHead
  refine ⟨hfast.trans (findFirstBatchElement_eq_min hsorted hstart blockHead).symm, by omega,
    fun i hi => ?_, fun hle => ?_, fun i hi => ?_⟩
  · exact (hsorted.lt_countBelow_iff (by omega)).mp (by omega)
  · have := (hsorted.lt_countBelow_iff (i := fast) (k := blockHead) (by omega)).not.mp (by omega)
    exact not_lt.mp this
  · obtain ⟨hsum, -, -⟩ := @widenLoop_spec _ _ _ _ _ hsorted blockHead _ hstart startIndex
      (startIndex - 1) 1 (by omega) (by omega) (by omega) (Or.inr (by omega))
    rw [firstBatchElementReads] at hi
    simp only at hi
    rcases List.mem_append.mp hi with hi | hi
    · exact le_trans (widenReads_le hi) (Nat.sub_le _ _)
    · have := List.mem_range'_1.mp hi
      omega

/-- A run of equal keys at the end of a batch. -/
theorem findFirstBatchElement_fast_eq_plain_run :
    BatchPMA.findFirstBatchElement (keyOnlyBlocks 4) [1, 3, 5, 5, 5, 5, 5] 6 5 =
      findFirstBatchElement (keyOnlyOverallocated 4) [1, 3, 5, 5, 5, 5, 5] 6 5 ∧
    BatchPMA.findFirstBatchElement (keyOnlyBlocks 4) [1, 3, 5, 5, 5, 5, 5] 6 5 = 2 :=
  ⟨(findFirstBatchElement_fast_eq_plain (keyOnlyOverallocated 4) [1, 3, 5, 5, 5, 5, 5] 6 5
    (by simp [NonDecreasing, keyOnlyOverallocated, keyOnlyBlocks]) (by decide) (by decide)).1,
    by decide⟩

lemma Insertable.splitter_lt (h : s.Insertable p batch numberOfThreads) {t : ℕ}
    (ht : t < numberOfThreads) : t * (batch.length / numberOfThreads) < batch.length :=
  h.asBatched.splitter_lt ht

lemma splitterFirst_zero : s.splitterFirst p batch numberOfThreads 0 = 0 := by
  rw [splitterFirst, BatchedSparseArray.splitterFirst, if_pos rfl]

lemma Insertable.splitterFirst_last (h : s.Insertable p batch numberOfThreads) :
    s.splitterFirst p batch numberOfThreads numberOfThreads = batch.length :=
  BatchedSparseArray.splitterFirst_last h.asBatched

lemma splitterBlock_last : s.splitterBlock p batch numberOfThreads numberOfThreads = s.size :=
  BatchedSparseArray.splitterBlock_last (s := s.asBatched p numberOfThreads)

/-- The number of cells that step 1 asks for, for the blocks and the batch elements of a thread. -/
def splitterWidth (p : OverallocatedParams K α) (s : OverallocatedBatchedSparseArray K α)
    (batch : List α) (numberOfThreads thread : ℕ) : ℕ :=
  maxRedistributionWidth p
    (s.sizeManager.getNumberOfElements s.blockSize (s.splitterBlock p batch numberOfThreads thread)
      (s.splitterBlock p batch numberOfThreads (thread + 1))).toNat
    (s.splitterFirst p batch numberOfThreads (thread + 1) -
      if thread = 0 then findFirstBatchElement p batch 0
        (s.head (s.splitterBlock p batch numberOfThreads 0))
      else s.splitterFirst p batch numberOfThreads thread)

/-- The task of a thread after step 1 and the first assignment of step 2. -/
def splitterTask (p : OverallocatedParams K α) (s : OverallocatedBatchedSparseArray K α)
    (batch : List α) (numberOfThreads thread : ℕ) : TaskInfo :=
  { s.tasks thread with
    blockForBatchSplitter := s.splitterBlock p batch numberOfThreads thread
    firstBatchElement := s.splitterFirst p batch numberOfThreads thread
    requiredWidth := if thread < numberOfThreads then
      s.splitterWidth p batch numberOfThreads thread else (s.tasks thread).requiredWidth
    type := if thread = 0 then .insertion else (s.tasks thread).type }

lemma tasks_findSplitters (h : s.Insertable p batch numberOfThreads) {t : ℕ}
    (ht : t ≤ numberOfThreads) :
    ((s.findSplitters p batch numberOfThreads).setTask 0 fun task =>
      { task with
        firstBatchElement := 0
        type := .insertion }).tasks t = s.splitterTask p batch numberOfThreads t := by
  have hT := h.threads_pos
  have hblock : ∀ i < numberOfThreads, (s.view p).findBlockIndex
      (batchKey p.toBlockParams batch (i * (batch.length / numberOfThreads))) =
        s.splitterBlock p batch numberOfThreads i := by
    intro i hi
    rw [splitterBlock, BatchedSparseArray.splitterBlock, h.valid.view_asBatched]
    exact (if_pos hi).symm
  have hlast := @splitterBlock_last _ _ _ p s batch numberOfThreads
  have hlastFirst := h.splitterFirst_last
  have hfirst : ∀ i, 0 < i → i < numberOfThreads →
      findFirstBatchElement p batch (i * (batch.length / numberOfThreads))
        (s.head (s.splitterBlock p batch numberOfThreads i)) =
          s.splitterFirst p batch numberOfThreads i := by
    intro i hpos hi
    have hd : 0 < batch.length / numberOfThreads := Nat.div_pos h.threads_le hT
    rw [findFirstBatchElement_eq_min h.increasing.nonDecreasing (h.splitter_lt hi), splitterFirst,
      BatchedSparseArray.splitterFirst, if_neg (by omega)]
    rw [if_pos (show i < (s.asBatched p numberOfThreads).numberOfThreads from hi)]
    exact (BatchPMA.findFirstBatchElement_eq h.increasing (Nat.mul_pos hpos hd)
      (h.splitter_lt hi) _).symm
  have hnextBlock : ∀ t < numberOfThreads, (if t = numberOfThreads - 1 then s.size else
      (s.view p).findBlockIndex (batchKey p.toBlockParams batch
        ((t + 1) * (batch.length / numberOfThreads)))) =
          s.splitterBlock p batch numberOfThreads (t + 1) := by
    intro t ht
    split
    · rw [show t + 1 = numberOfThreads by omega, hlast]
    · exact hblock (t + 1) (by omega)
  have hnextFirst : ∀ t < numberOfThreads, (if t = numberOfThreads - 1 then batch.length else
      findFirstBatchElement p batch ((t + 1) * (batch.length / numberOfThreads))
        (s.head ((s.view p).findBlockIndex (batchKey p.toBlockParams batch
          ((t + 1) * (batch.length / numberOfThreads)))))) =
            s.splitterFirst p batch numberOfThreads (t + 1) := by
    intro t ht
    split
    · rw [show t + 1 = numberOfThreads by omega, hlastFirst]
    · rw [hblock (t + 1) (by omega)]
      exact hfirst (t + 1) (by omega) (by omega)
  rw [splitterTask, setTask, findSplitters]
  simp only [Function.update_apply]
  rcases Nat.eq_or_lt_of_le ht with rfl | hlt
  · rw [if_neg (by omega), if_neg (lt_irrefl _), if_pos rfl, if_neg (lt_irrefl _),
      if_neg (by omega), hlast, hlastFirst]
  · rw [if_pos hlt]
    by_cases h0 : t = 0
    · subst h0
      rw [if_pos rfl, if_pos hlt]
      simp only [if_true]
      rw [hnextBlock 0 hlt, hnextFirst 0 hlt, hblock 0 hlt, splitterWidth, if_pos rfl,
        Nat.zero_mul, if_pos hlt]
      rw [splitterFirst_zero]
    · rw [if_neg h0, if_pos hlt, if_neg h0, hnextBlock t hlt, hnextFirst t hlt, hblock t hlt,
        hfirst t (by omega) hlt, splitterWidth, if_neg h0]

/-! ## Merging tasks -/

/-- The task of a thread when the loop of step 2 has come to thread `k`, from the tasks `base`. -/
def mergedTask (base : ℕ → TaskInfo) (k thread : ℕ) : TaskInfo :=
  let block (t : ℕ) : ℕ := (base t).blockForBatchSplitter
  let start := groupStart block thread
  let joined := thread < k ∧ block (thread + 1) = block thread
  if thread ≤ k then
    { base thread with
      firstBatchElement := (base start).firstBatchElement
      type := if joined then .inverseMerge else .insertion
      mergedTasks := if thread = 0 then (base 0).mergedTasks else thread - start
      requiredWidth := if joined then 0 else (base thread).requiredWidth }
  else base thread

lemma mergedTask_of_gt {base : ℕ → TaskInfo} {k t : ℕ} (h : k < t) :
    mergedTask base k t = base t := if_neg (not_le.mpr h)

lemma mergedTask_block (base : ℕ → TaskInfo) (k t : ℕ) :
    (mergedTask base k t).blockForBatchSplitter = (base t).blockForBatchSplitter := by
  rw [mergedTask]
  split <;> rfl

/-- Only the tasks of the two threads that are compared change. -/
lemma mergedTask_succ_of_ne {base : ℕ → TaskInfo} {k t : ℕ} (h1 : t ≠ k) (h2 : t ≠ k + 1) :
    mergedTask base (k + 1) t = mergedTask base k t := by
  rcases Nat.lt_or_ge t k with hlt | hge
  · rw [mergedTask, mergedTask]
    simp only [if_pos hlt.le, if_pos (show t ≤ k + 1 by omega), hlt, show t < k + 1 by omega]
  · rw [mergedTask_of_gt (by omega), mergedTask_of_gt (by omega)]

/-- What holds when the loop of step 2 has come to thread `k`. -/
structure Merging (s : OverallocatedBatchedSparseArray K α) (base : ℕ → TaskInfo) (k : ℕ)
    (acc : OverallocatedBatchedSparseArray K α × ℕ) : Prop where
  frame : acc.1 = { s with tasks := mergedTask base k }
  count : acc.2 = k - groupStart (fun t => (base t).blockForBatchSplitter) k

omit [LinearOrder K] in
lemma Merging.step {base : ℕ → TaskInfo} {acc : OverallocatedBatchedSparseArray K α × ℕ} {k : ℕ}
    (h : Merging s base k acc) : Merging s base (k + 1) (mergeTask acc (k + 1)) := by
  have hle := groupStart_le (fun t => (base t).blockForBatchSplitter) k
  have hcount := h.count
  have hframe := h.frame
  have hk1 : acc.1.tasks (k + 1) = base (k + 1) := by
    rw [hframe]
    exact mergedTask_of_gt (Nat.lt_succ_self k)
  have hk0 : acc.1.tasks k = mergedTask base k k := by rw [hframe]
  have hb0 : (acc.1.tasks k).blockForBatchSplitter = (base k).blockForBatchSplitter := by
    rw [hk0, mergedTask_block]
  rw [mergeTask]
  simp only [Nat.add_sub_cancel, hb0, hk1]
  split
  · rename_i heq
    have hstart : groupStart (fun t => (base t).blockForBatchSplitter) (k + 1) =
        groupStart (fun t => (base t).blockForBatchSplitter) k := by
      rw [groupStart, if_pos heq]
    refine ⟨?_, by simp only; omega⟩
    simp only [setTask, hframe]
    congr 1
    funext t
    simp only [Function.update_apply]
    by_cases htk : t = k
    · subst htk
      rw [if_pos rfl, if_neg (by omega), mergedTask, mergedTask]
      simp [heq]
    · by_cases htk1 : t = k + 1
      · subst htk1
        rw [if_neg htk, if_pos rfl, mergedTask_of_gt (Nat.lt_succ_self k), mergedTask, mergedTask]
        simp only [le_refl, if_true, lt_irrefl, false_and, if_false, hstart, hcount]
        simp only [Nat.add_eq_zero_iff, Nat.one_ne_zero, and_false, if_false, TaskInfo.mk.injEq,
          and_true, true_and]
        omega
      · rw [if_neg htk, if_neg htk1, mergedTask_succ_of_ne htk htk1]
  · rename_i hne
    have hstart : groupStart (fun t => (base t).blockForBatchSplitter) (k + 1) = k + 1 := by
      rw [groupStart, if_neg hne]
    refine ⟨?_, by simp only; omega⟩
    simp only [setTask, hframe]
    congr 1
    funext t
    simp only [Function.update_apply]
    by_cases htk : t = k
    · subst htk
      rw [if_neg (by omega), mergedTask, mergedTask]
      simp [hne]
    · by_cases htk1 : t = k + 1
      · subst htk1
        rw [if_pos rfl, mergedTask_of_gt (Nat.lt_succ_self k), mergedTask]
        simp only [le_refl, if_true, lt_irrefl, false_and, if_false, hstart, Nat.sub_self]
        simp only [Nat.add_eq_zero_iff, Nat.one_ne_zero, and_false, if_false]
      · rw [if_neg htk1, mergedTask_succ_of_ne htk htk1]

omit [LinearOrder K] in
lemma Merging.foldl {base : ℕ → TaskInfo} {acc : OverallocatedBatchedSparseArray K α × ℕ} {k : ℕ} :
    ∀ n, Merging s base k acc →
      Merging s base (k + n) ((List.range' (k + 1) n).foldl mergeTask acc)
  | 0, h => h
  | n + 1, h => by
      rw [List.range'_concat, List.foldl_append]
      have := (Merging.foldl n h).step
      simpa [Nat.add_assoc, Nat.add_comm 1] using this

omit [LinearOrder K] in
lemma merging_start (h : (s.tasks 0).type = .insertion) : Merging s s.tasks 0 (s, 0) := by
  have htasks : mergedTask s.tasks 0 = s.tasks := by
    funext t
    rcases Nat.eq_zero_or_pos t with rfl | hpos
    · rw [mergedTask]
      simp [groupStart, ← h]
    · exact mergedTask_of_gt hpos
  exact ⟨by rw [htasks], rfl⟩

/-- **Step 2.**  The tasks of a group are merged into its last one. -/
lemma mergeTasks_spec (h : s.Insertable p batch numberOfThreads) :
    ∃ base : ℕ → TaskInfo,
      (∀ t ≤ numberOfThreads, base t = s.splitterTask p batch numberOfThreads t) ∧
      (s.findSplitters p batch numberOfThreads).mergeTasks numberOfThreads =
        { s with tasks := mergedTask base (numberOfThreads - 1) } := by
  have hstart := fun t (ht : t ≤ numberOfThreads) => tasks_findSplitters h ht
  rw [mergeTasks]
  obtain ⟨r, hr⟩ : ∃ r, r = (s.findSplitters p batch numberOfThreads).setTask 0 fun task =>
      { task with
        firstBatchElement := 0
        type := .insertion } := ⟨_, rfl⟩
  have hrs : r = { s with tasks := r.tasks } := by
    rw [hr]
    rfl
  have h0 : (r.tasks 0).type = .insertion := by
    rw [hr]
    simp [setTask]
  rw [← hr] at hstart ⊢
  have hframe := ((merging_start h0).foldl (numberOfThreads - 1)).frame
  simp only [Nat.zero_add] at hframe
  refine ⟨r.tasks, hstart, hframe.trans ?_⟩
  rw [hrs]

/-! ## No merged tasks -/

/-- The number of elements in a range. -/
lemma linearNumberOfElements_eq {left : ℕ} : ∀ {right : ℕ}, left ≤ right →
    CellsIn p.toBlockParams s.pma left right →
    linearNumberOfElements s.blockSize left right =
      (elements (rangeBlocks s.pma left right)).length := by
  intro right hle
  induction right, hle using Nat.le_induction with
  | base =>
      intro _
      simp [rangeBlocks, itemsIn]
  | succ right hle ih =>
      intro hcells
      rw [linearNumberOfElements_succ hle, ih (hcells.mono (le_refl _) (Nat.le_succ _)),
        rangeBlocks_append hle (Nat.le_succ right), rangeBlocks_succ, elements_append,
        List.length_append, Nat.cast_add]
      congr 2
      rcases hcells right hle (Nat.lt_succ_self _) with hnull | hv
      · rw [blockSize, hnull, cellBlock_of_isEmpty rfl]
        rfl
      · rw [cellBlock_of_not_isEmpty hv.isEmpty_eq]
        simp only [elements_cons, elements_nil, List.append_nil]
        exact hv.length_live.symm

section

omit [LinearOrder K]

lemma type_setTask {f : TaskInfo → TaskInfo} (hf : ∀ task, (f task).type = task.type) (t u : ℕ) :
    ((s.setTask t f).tasks u).type = (s.tasks u).type := by
  rw [setTask]
  simp only [Function.update_apply]
  split
  · rename_i heq
    rw [heq]
    exact hf _
  · rfl

end

/-- The distribution of work does not change what kind of task a thread has. -/
lemma type_distributeGroup (t u : ℕ) :
    ((distributeGroup p batch s t).tasks u).type = (s.tasks u).type := by
  have hfold : ∀ (g : ℕ → TaskInfo → TaskInfo) (idx : ℕ → ℕ), (∀ j task, (g j task).type = task.type) →
      ∀ (l : List ℕ) (r : OverallocatedBatchedSparseArray K α),
        ((l.foldl (fun s' j => s'.setTask (idx j) (g j)) r).tasks u).type = (r.tasks u).type := by
    intro g idx hg l
    induction l with
    | nil => exact fun _ => rfl
    | cons j l ih => exact fun r => (ih _).trans (type_setTask (hg j) (idx j) u)
  rw [distributeGroup]
  simp only
  split
  · refine (hfold (fun j => s.shareTask p _ _ _ j) (fun j => t - j) (fun _ _ => rfl) _ _).trans ?_
    split
    · refine type_setTask (fun task => ?_) t u
      rfl
    · rfl
  · rfl

lemma type_prepareInsertion (u : ℕ) :
    ((s.prepareInsertion p batch numberOfThreads).tasks u).type =
      (((s.findSplitters p batch numberOfThreads).mergeTasks numberOfThreads).tasks u).type := by
  have hfold : ∀ (l : List ℕ) (r : OverallocatedBatchedSparseArray K α),
      ((l.foldl (distributeGroup p batch) r).tasks u).type = (r.tasks u).type := by
    intro l
    induction l with
    | nil => exact fun _ => rfl
    | cons j l ih => exact fun r => (ih _).trans (type_distributeGroup j u)
  exact hfold _ _

/-- **In place no tasks are merged**: all of them keep what step 1 has given to them. -/
theorem Insertable.inPlace (h : s.Insertable p batch numberOfThreads)
    (hpath : (s.prepareInsertion p batch numberOfThreads).useInPlaceInserts p numberOfThreads =
      true) :
    ∃ f : ℕ → TaskInfo, s.prepareInsertion p batch numberOfThreads = { s with tasks := f } ∧
      (∀ t ≤ numberOfThreads,
        (f t).blockForBatchSplitter = s.splitterBlock p batch numberOfThreads t ∧
        (f t).firstBatchElement = s.splitterFirst p batch numberOfThreads t) ∧
      (∀ t < numberOfThreads, s.splitterBlock p batch numberOfThreads t +
        s.splitterWidth p batch numberOfThreads t ≤
          s.splitterBlock p batch numberOfThreads (t + 1)) ∧
      ∀ t, t + 1 < numberOfThreads → s.splitterBlock p batch numberOfThreads t ≠
        s.splitterBlock p batch numberOfThreads (t + 1) := by
  obtain ⟨base, hbase, hmerge⟩ := mergeTasks_spec h
  have hT := h.threads_pos
  rw [useInPlaceInserts, Bool.and_eq_true, List.all_eq_true] at hpath
  have hall : ∀ t < numberOfThreads, ((s.prepareInsertion p batch numberOfThreads).tasks
      t).blockForBatchSplitter + ((s.prepareInsertion p batch numberOfThreads).tasks
      t).requiredWidth ≤ ((s.prepareInsertion p batch numberOfThreads).tasks
      (t + 1)).blockForBatchSplitter ∧
        ((s.prepareInsertion p batch numberOfThreads).tasks t).type ≠ .inverseMerge := fun t ht =>
    of_decide_eq_true (hpath.2 t (List.mem_range.mpr ht))
  have hblock : ∀ t ≤ numberOfThreads, (base t).blockForBatchSplitter =
      s.splitterBlock p batch numberOfThreads t := fun t ht => by
    rw [hbase t ht]
    rfl
  -- a merged task would be an inverse merge task
  have hne : ∀ t, t + 1 < numberOfThreads →
      (base (t + 1)).blockForBatchSplitter ≠ (base t).blockForBatchSplitter := by
    intro t ht heq
    refine (hall t (by omega)).2 ?_
    rw [type_prepareInsertion, hmerge]
    simp only
    rw [mergedTask, if_pos (show t ≤ numberOfThreads - 1 by omega)]
    simp only
    rw [if_pos ⟨by omega, heq⟩]
  have hstart : ∀ t, groupStart (fun t => (base t).blockForBatchSplitter) t = t ∨
      numberOfThreads ≤ t := by
    intro t
    rcases Nat.lt_or_ge t numberOfThreads with hlt | hge
    · left
      cases t with
      | zero => rfl
      | succ t => rw [groupStart, if_neg (hne t hlt)]
    · exact Or.inr hge
  have hmerged : ∀ t < numberOfThreads, mergedTask base (numberOfThreads - 1) t =
      { base t with
        type := .insertion
        mergedTasks := if t = 0 then (base 0).mergedTasks else 0 } := by
    intro t ht
    rw [mergedTask, if_pos (show t ≤ numberOfThreads - 1 by omega)]
    simp only
    rw [(hstart t).resolve_right (by omega), if_neg (fun hj => hne t (by omega) hj.2),
      if_neg (fun hj => hne t (by omega) hj.2), Nat.sub_self]
  -- so there is nothing to distribute
  have hprep : s.prepareInsertion p batch numberOfThreads =
      { s with tasks := mergedTask base (numberOfThreads - 1) } := by
    rw [prepareInsertion, hmerge, distributeWorkInMergedTasks]
    have hfold : ∀ l : List ℕ, (∀ t ∈ l, 0 < t ∧ t < numberOfThreads) →
        l.foldl (distributeGroup p batch) { s with tasks := mergedTask base (numberOfThreads - 1) } =
          { s with tasks := mergedTask base (numberOfThreads - 1) } := by
      intro l
      induction l with
      | nil => exact fun _ => rfl
      | cons t l ih =>
          intro hl
          have ht := hl t List.mem_cons_self
          rw [List.foldl_cons]
          have hid : distributeGroup p batch
              { s with tasks := mergedTask base (numberOfThreads - 1) } t =
                { s with tasks := mergedTask base (numberOfThreads - 1) } := by
            rw [distributeGroup]
            simp only
            rw [hmerged t ht.2]
            simp only
            rw [if_neg (show t ≠ 0 by omega), if_neg (fun hc => lt_irrefl 0 hc.2)]
          rw [hid]
          exact ih fun u hu => hl u (List.mem_cons_of_mem _ hu)
    refine hfold _ fun t ht => ?_
    have := List.mem_range'_1.mp ht
    omega
  have hfield : ∀ t ≤ numberOfThreads,
      (mergedTask base (numberOfThreads - 1) t).blockForBatchSplitter =
        s.splitterBlock p batch numberOfThreads t ∧
      (mergedTask base (numberOfThreads - 1) t).firstBatchElement =
        s.splitterFirst p batch numberOfThreads t := by
    intro t ht
    refine ⟨(mergedTask_block _ _ _).trans (hblock t ht), ?_⟩
    rcases Nat.eq_or_lt_of_le ht with rfl | hlt
    · rw [mergedTask_of_gt (by omega), hbase _ (le_refl _)]
      rfl
    · rw [hmerged t hlt, hbase t ht]
      rfl
  refine ⟨_, hprep, hfield, fun t ht => ?_, fun t ht heq => ?_⟩
  · have := (hall t ht).1
    rw [hprep] at this
    simp only at this
    rw [(hfield t ht.le).1, (hfield (t + 1) ht).1, hmerged t ht, hbase t ht.le] at this
    simp only [splitterTask] at this
    rwa [if_pos ht] at this
  · refine hne t ht ?_
    rw [hblock _ (by omega), hblock _ (by omega), heq]

end OverallocatedBatchedSparseArray

end BatchPMA
