import BatchPMA.Library.Patches
import BatchPMA.Insertion.Footprint

/-!
# The parallel region of the insertion phase

What a task of step A-6 makes of the state in front of the step does not depend on the other tasks,
and no two tasks write to the same cell of the pma or of the buffer.  So the region does the same in
every order of the threads: each cell has the value that its task gives it.
-/

namespace BatchPMA

open KeyedUnion Ranges Patches

variable {K α : Type} [LinearOrder K]

namespace BatchedSparseArray

variable {p : BatchedParams K α} {s r : BatchedSparseArray K α} {batch : List α} {a e k t : ℕ}

/-! ## The entry of a thread -/

section SetTask

omit [LinearOrder K]

variable (r : BatchedSparseArray K α) (f : TaskInfo → TaskInfo)

lemma setTask_pma : (r.setTask t f).pma = r.pma := rfl

lemma setTask_bufferPointers : (r.setTask t f).bufferPointers = r.bufferPointers := rfl

lemma setTask_recountingNodesMap :
    (r.setTask t f).recountingNodesMap = r.recountingNodesMap := rfl

end SetTask

/-! ## The tasks on their own -/

namespace PhaseInput

variable (h : s.PhaseInput p batch)
include h

/-- Two tasks write to different cells of the pma. -/
lemma taskCells_disjoint {t' : ℕ} (ht : t < s.numberOfThreads) (ht' : t' < s.numberOfThreads)
    (hne : t ≠ t') : Disjoint (s.taskCells p batch t) (s.taskCells p batch t') := by
  rw [Set.disjoint_left]
  intro c hc hc'
  have htype := hc.1
  have htype' := hc'.1
  by_cases hsome : ∃ c, s.empty p c = false
  · rw [h.taskCells_eq hsome ht htype hc.2.1] at hc
    rw [h.taskCells_eq hsome ht' htype' hc'.2.1] at hc'
    exact h.partitioned.disjoint t ht t' ht' hne htype htype' c hc.1 hc.2 hc'
  · push Not at hsome
    have hemp : ∀ c, s.empty p c = true := fun c => by simpa using hsome c
    have h1 := (h.last_of_empty hemp ht htype hc.2.1).1
    have h2 := (h.last_of_empty hemp ht' htype' hc'.2.1).1
    omega

/-- No task writes to a merge block that is shared. -/
lemma mergeBlock_notMem {t' : ℕ} (ht : t < s.numberOfThreads) (ht' : t' < s.numberOfThreads)
    (htype : (s.plannedTask p batch t').type = .inverseMerge) :
    s.blockOf p batch t' ∉ s.taskCells p batch t := by
  intro hc
  have hins := hc.1
  by_cases hsome : ∃ c, s.empty p c = false
  · rw [h.taskCells_eq hsome ht hins hc.2.1] at hc
    exact h.partitioned.mergeBlock t ht t' ht' hins htype hc
  · push Not at hsome
    have hemp : ∀ c, s.empty p c = true := fun c => by simpa using hsome c
    obtain ⟨hlast, -, -, -, -, hno⟩ := h.last_of_empty hemp ht hins hc.2.1
    rcases h.kind ht' with ⟨hidle, -⟩ | ⟨a, e, k, hg, hs, -⟩ | ⟨a, hg, hlast'⟩
    · rw [htype] at hidle
      exact absurd hidle (by simp)
    · obtain ⟨rfl, he⟩ := h.group_of_empty hemp hg
      obtain rfl : e = t := by omega
      exact hno hs
    · rw [htype] at hlast'
      exact absurd hlast' (by simp)

/-- A task that neither inserts nor merges. -/
lemma ownTask_idle (ht : t < s.numberOfThreads)
    (hmerge : (s.plannedTask p batch t).type ≠ .inverseMerge)
    (hno : ¬ ((s.plannedTask p batch t).type = .insertion ∧
      s.firstOf p batch t < s.firstOf p batch (t + 1))) :
    s.ownTask p batch t = (s.prepareInsertion p batch, []) := by
  rw [ownTask]
  cases htype : (s.plannedTask p batch t).type with
  | doNothing => exact h.planned.doNothing ht htype
  | inverseMerge => exact absurd htype hmerge
  | insertion =>
      rw [h.planned.insertion ht htype, if_pos]
      exact Nat.sub_eq_zero_of_le (not_lt.mp fun hlt => hno ⟨htype, hlt⟩)

/-- An insertion task in a structure with blocks. -/
lemma ownTask_inserted (hne : ∃ c, s.empty p c = false) (ht : t < s.numberOfThreads)
    (htype : (s.plannedTask p batch t).type = .insertion)
    (hwork : s.firstOf p batch t < s.firstOf p batch (t + 1)) :
    (s.prepareInsertion p batch).RangeInserted p batch
      ⟨s.firstOf p batch t, s.firstOf p batch (t + 1)⟩
      ⟨s.blockOf p batch t, s.blockOf p batch (t + 1)⟩
      ⟨s.bufferOf p batch t, s.bufferOf p batch (t + 1)⟩ (s.ownTask p batch t).2
      (afterWrites (s.ownTask p batch t)) := by
  rw [ownTask, h.planned.insertion ht htype, if_neg (by omega)]
  exact ((h.rangeInput hne ht htype hwork).inserted _).1

/-- The task that loads an empty structure. -/
lemma ownTask_load (hemp : ∀ c, s.empty p c = true) (ht : t < s.numberOfThreads)
    (htype : (s.plannedTask p batch t).type = .insertion)
    (hwork : s.firstOf p batch t < s.firstOf p batch (t + 1)) :
    s.ownTask p batch t = ({ s.prepareInsertion p batch with
        bufferPointers := Function.update (s.prepareInsertion p batch).bufferPointers 0
          ⟨getDenseWriteIndex (s.bufferOf p batch t) 0, getDenseWriteIndex (s.bufferOf p batch t)
            ((emptyRangeBlocks p.toBlockParams batch).length - 1) + 1⟩ },
      denseWrites (s.bufferOf p batch t) 0 0 (emptyRangeBlocks p.toBlockParams batch)) := by
  obtain ⟨-, hb, hb', hf, hf', -⟩ := h.last_of_empty hemp ht htype hwork
  have hpart : batchPart batch ⟨0, batch.length⟩ = batch := by simp [batchPart, Interval.length]
  have hzero : (⟨0, 0⟩ : Interval).length = 0 := rfl
  rw [ownTask, h.planned.insertion ht htype, if_neg (by omega), hb, hb', hf, hf',
    insertBatchRange, if_pos hzero, insertIntoEmptyRange, hpart]

/-- A working task of a group. -/
lemma ownTask_share (hg : IsGroup (s.splitterBlock p batch) s.numberOfThreads a e)
    (hs : s.HasShares p batch a e) (hk : k < s.workers p batch a e) :
    s.ownTask p batch (s.shareThread p batch a e k) = (s.prepareInsertion p batch,
      denseWrites (s.bufferOf p batch (s.shareThread p batch a e k)) 0 (s.splitterBlock p batch a)
        (s.shareBlocks p batch a e k)) := by
  have hin := h.groupInput hg hs
  have ht := groupTasks_prepared h.toInsertable hg hs
  have hle := @workers_le _ _ _ p s batch a e hs.1.le
  have hlt := hg.lt
  have hlarge := hin.share_large hk
  have hfour := hin.four_le
  have hmin : p.minBlockSize = p.blockSize / 2 := rfl
  have hnext : s.shareThread p batch a e k + 1 = s.shareThread p batch a e (k + 1) := rfl
  have hindex : ((s.prepareInsertion p batch).tasks (s.shareThread p batch a e k)).startIndex =
      s.bufferOf p batch (s.shareThread p batch a e k) := by
    rw [h.prepared_tasks (by rw [shareThread]; omega)]
    rfl
  simp only [ownTask, insertionTask, ht.type k hk, hnext, ht.first k hk.le, ht.first (k + 1) hk,
    ht.block k hk, hindex]
  rw [if_neg (by simp only [Interval.length]; omega),
    hin.getMergeRange_eq hk (ht.index k hk) (ht.merged k hk) h.prepared_pma, h.prepared_pma]
  rfl

/-- The calls of a task go to consecutive cells of its buffer range. -/
theorem writes_spec (ht : t < s.numberOfThreads) :
    (∀ i w, (s.ownTask p batch t).2[i]? = some w → w.writeIndex = s.bufferOf p batch t + i) ∧
      s.bufferOf p batch t + (s.ownTask p batch t).2.length ≤ s.bufferOf p batch (t + 1) := by
  have hwidth : s.bufferOf p batch (t + 1) =
      s.bufferOf p batch t + (s.plannedTask p batch t).requiredWidth := start_succ t
  have hidle : s.ownTask p batch t = (s.prepareInsertion p batch, []) →
      (∀ i w, (s.ownTask p batch t).2[i]? = some w → w.writeIndex = s.bufferOf p batch t + i) ∧
        s.bufferOf p batch t + (s.ownTask p batch t).2.length ≤ s.bufferOf p batch (t + 1) := by
    intro hown
    rw [hown, hwidth]
    exact ⟨fun i w hw => by simp at hw, Nat.le_add_right _ _⟩
  rcases h.kind ht with ⟨htype, -⟩ | ⟨a, e, k, hg, hs, hk, hthread, -⟩ | ⟨a, hg, htype⟩
  · exact hidle (h.ownTask_idle ht (by rw [htype]; simp) (by rw [htype]; simp))
  · subst hthread
    have hle : s.workers p batch a e ≤ e - a := min_le_left _ _
    have hae := hs.1
    have hreq := ((h.plan hg).long hs).working k (s.shareThread p batch a e k)
      (by rw [shareThread]; omega) (by rw [shareThread]; omega)
    have hlen := (h.groupInput hg hs).length_shareBlocks_lt hk
    have hreq' : (s.plannedTask p batch (s.shareThread p batch a e k)).requiredWidth =
      getRequiredWidth (s.shareStart p batch a e (k + 1) - s.shareStart p batch a e k) :=
        hreq.2.2.2.2.2
    rw [h.ownTask_share hg hs hk, hwidth, hreq']
    refine ⟨fun i w hw => (getElem?_denseWrites hw).1, ?_⟩
    rw [denseWrites, List.length_mapIdx]
    omega
  · by_cases hwork : s.firstOf p batch t < s.firstOf p batch (t + 1)
    · have hwork' := h.work_le_width hg
      change 2 * (s.firstOf p batch (t + 1) - s.firstOf p batch t) ≤ _ at hwork'
      by_cases hne : ∃ c, s.empty p c = false
      · have hins := h.ownTask_inserted hne ht htype hwork
        refine ⟨hins.places, ?_⟩
        have hcount := hins.count
        rw [hwidth]
        simp only [Interval.length] at hcount
        omega
      · push Not at hne
        have hemp : ∀ c, s.empty p c = true := fun c => by simpa using hne c
        obtain ⟨-, -, -, hf, hf', -⟩ := h.last_of_empty hemp ht htype hwork
        have hlen := length_emptyRangeBlocks_le (p := p.toBlockParams)
          (by have := h.usable.blockSize_ge; omega) batch
        rw [h.ownTask_load hemp ht htype hwork, hwidth]
        refine ⟨fun i w hw => (getElem?_denseWrites hw).1, ?_⟩
        rw [denseWrites, List.length_mapIdx]
        omega
    · exact hidle (h.ownTask_idle ht (by rw [htype]; simp) fun hc => hwork hc.2)

end PhaseInput

/-! ## The region -/

/-- The state when a task has run alone. -/
def ownState (p : BatchedParams K α) (s : BatchedSparseArray K α) (batch : List α) (t : ℕ) :
    BatchedSparseArray K α := afterWrites (s.ownTask p batch t)

/-- The cells of the buffer that a task writes. -/
def taskBuffer (p : BatchedParams K α) (s : BatchedSparseArray K α) (batch : List α) (t : ℕ) :
    Set ℕ :=
  {j | s.bufferOf p batch t ≤ j ∧ j < s.bufferOf p batch t + (s.ownTask p batch t).2.length}

/-- The task when it has run. -/
def writtenTask (p : BatchedParams K α) (s : BatchedSparseArray K α) (batch : List α) (t : ℕ) :
    TaskInfo :=
  { s.plannedTask p batch t with numberOfBlocksWritten := (s.ownTask p batch t).2.length }

/-- The leaves that the tasks in `D` have marked. -/
def TaskMarks (p : BatchedParams K α) (s : BatchedSparseArray K α) (batch : List α) (D : Set ℕ)
    (i : ℕ) : Prop :=
  ∃ t ∈ D, ∃ w ∈ (s.ownTask p batch t).2, s.rebalancingManager.lowestLevelNodeIndex w.originBlock = i

/-- The state when the tasks in `D` have run. -/
structure Inserting (p : BatchedParams K α) (s : BatchedSparseArray K α) (batch : List α)
    (D : Set ℕ) (r : BatchedSparseArray K α) : Prop where
  frame : r = { s.prepareInsertion p batch with
    pma := r.pma
    bufferPointers := r.bufferPointers
    bufferArray := r.bufferArray
    recountingNodesMap := r.recountingNodesMap
    tasks := r.tasks }
  cells : Patched (s.taskCells p batch)
    (fun t c => ((s.ownState p batch t).pma c, (s.ownState p batch t).bufferPointers c))
    (fun c => (s.pma c, (s.prepareInsertion p batch).bufferPointers c)) D
    fun c => (r.pma c, r.bufferPointers c)
  buffer : Patched (s.taskBuffer p batch) (fun t => (s.ownState p batch t).bufferArray)
    (s.prepareInsertion p batch).bufferArray D r.bufferArray
  tasks : Patched (fun t => {t}) (fun _ => s.writtenTask p batch)
    (s.prepareInsertion p batch).tasks D r.tasks
  keys : ∀ i, i ∈ r.recountingNodesMap.keys ↔
    i ∈ s.recountingNodesMap.keys ∨ s.TaskMarks p batch D i
  flagged : ∀ i, i ∈ r.recountingNodesMap.flagged ↔
    i ∈ s.recountingNodesMap.flagged ∨ s.TaskMarks p batch D i

section Writes

omit [LinearOrder K]

/-- The leaves that the calls of `writeToBufferArray` mark. -/
lemma afterWrites_map (ws : List (BufferWrite K α)) (s : BatchedSparseArray K α) (i : ℕ) :
    (i ∈ (afterWrites (s, ws)).recountingNodesMap.keys ↔ i ∈ s.recountingNodesMap.keys ∨
      ∃ w ∈ ws, s.rebalancingManager.lowestLevelNodeIndex w.originBlock = i) ∧
    (i ∈ (afterWrites (s, ws)).recountingNodesMap.flagged ↔ i ∈ s.recountingNodesMap.flagged ∨
      ∃ w ∈ ws, s.rebalancingManager.lowestLevelNodeIndex w.originBlock = i) := by
  induction ws generalizing s with
  | nil => simp [afterWrites]
  | cons w ws ih =>
      have hcons : afterWrites (s, w :: ws) = afterWrites (s.writeToBufferArray w, ws) := rfl
      have hmanager : (s.writeToBufferArray w).rebalancingManager = s.rebalancingManager := rfl
      have hkeys : (s.writeToBufferArray w).recountingNodesMap = s.recountingNodesMap.insert
        (s.rebalancingManager.lowestLevelNodeIndex w.originBlock) true := rfl
      obtain ⟨ih1, ih2⟩ := ih (s.writeToBufferArray w)
      rw [hcons, ih1, ih2, hmanager, hkeys]
      simp only [BucketMap.keys_insert, BucketMap.mem_flagged_insert, Finset.mem_insert,
        List.mem_cons, exists_eq_or_imp, and_true, or_assoc, eq_comm (a := i)]
      exact ⟨or_left_comm, or_left_comm⟩

end Writes

lemma TaskMarks.insert {D : Set ℕ} {i : ℕ} : s.TaskMarks p batch (insert t D) i ↔
    s.TaskMarks p batch D i ∨
      ∃ w ∈ (s.ownTask p batch t).2,
        s.rebalancingManager.lowestLevelNodeIndex w.originBlock = i := by
  rw [TaskMarks, TaskMarks]
  constructor
  · rintro ⟨t', ht', hw⟩
    rcases Set.mem_insert_iff.mp ht' with rfl | ht'
    · exact Or.inr hw
    · exact Or.inl ⟨t', ht', hw⟩
  · rintro (⟨t', ht', hw⟩ | hw)
    · exact ⟨t', Set.mem_insert_of_mem t ht', hw⟩
    · exact ⟨t, Set.mem_insert t D, hw⟩

namespace PhaseInput

variable (h : s.PhaseInput p batch)
include h

lemma inserting_start : Inserting p s batch ∅ (s.prepareInsertion p batch) where
  frame := by
    generalize s.prepareInsertion p batch = r
    rfl
  cells := ⟨fun _ ht => absurd ht (Set.notMem_empty _), fun _ _ => by rw [h.prepared_pma]⟩
  buffer := Patched.refl _ _ _
  tasks := Patched.refl _ _ _
  keys i := by
    have hmap : (s.prepareInsertion p batch).recountingNodesMap = s.recountingNodesMap := by
      rw [h.prepared.frame]
    simp [hmap, TaskMarks]
  flagged i := by
    have hmap : (s.prepareInsertion p batch).recountingNodesMap = s.recountingNodesMap := by
      rw [h.prepared.frame]
    simp [hmap, TaskMarks]

/-- Two tasks write to different cells of the buffer. -/
lemma taskBuffer_disjoint {t' : ℕ} (ht : t < s.numberOfThreads) (ht' : t' < s.numberOfThreads)
    (hne : t ≠ t') : Disjoint (s.taskBuffer p batch t) (s.taskBuffer p batch t') := by
  rw [Set.disjoint_left]
  rintro j ⟨h1, h2⟩ ⟨h3, h4⟩
  have h5 := (h.writes_spec ht).2
  have h6 := (h.writes_spec ht').2
  rcases Nat.lt_or_gt_of_ne hne with hlt | hgt
  · have : s.bufferOf p batch (t + 1) ≤ s.bufferOf p batch t' := start_mono hlt
    omega
  · have : s.bufferOf p batch (t' + 1) ≤ s.bufferOf p batch t := start_mono hgt
    omega

section Step

variable {D : Set ℕ} (hi : Inserting p s batch D r) (ht : t < s.numberOfThreads)
  (hD : ∀ t' ∈ D, t' < s.numberOfThreads) (hnot : t ∉ D)
include hi ht hD hnot

/-- A task that has not run yet finds its cells as they were. -/
lemma untouched : Untouched p s batch t r where
  size_eq := by rw [hi.frame]; exact h.prepared_size
  tasks t' ht' := by
    by_cases hin : t' ∈ D
    · exact ⟨_, hi.tasks.inside t' hin t' rfl⟩
    · have hout := hi.tasks.outside t' fun i hi' heq => hin (by
        rw [Set.mem_singleton_iff] at heq
        rwa [heq])
      exact ⟨(s.plannedTask p batch t').numberOfBlocksWritten, hout.trans (h.prepared_tasks ht')⟩
  cells c hc := by
    have hsame := hi.cells.untouched (fun t' ht' => h.taskCells_disjoint (hD t' ht') ht
      fun heq => hnot (heq ▸ ht')) hc
    exact ⟨congrArg Prod.fst hsame, congrArg Prod.snd hsame⟩
  merge htype := congrArg Prod.fst (hi.cells.outside _ fun t' ht' =>
    h.mergeBlock_notMem (hD t' ht') ht htype)

omit hi hD hnot in
/-- The calls of a task are those that it makes on its own. -/
lemma startInsertionTask_eq (hun : Untouched p s batch t r) : r.startInsertionTask p batch t =
    (afterWrites ((r.insertionTask p batch t).1, (s.ownTask p batch t).2)).setTask t fun task =>
      { task with numberOfBlocksWritten := (s.ownTask p batch t).2.length } := by
  rw [← (h.effect ht hun).1]
  rfl

/-- One more task. -/
lemma inserting_step : Inserting p s batch (insert t D) (r.startInsertionTask p batch t) := by
  have hun := h.untouched hi ht hD hnot
  obtain ⟨-, heff⟩ := h.effect ht hun
  obtain ⟨hplaces, -⟩ := h.writes_spec ht
  have hown : s.ownTask p batch t = ((s.ownTask p batch t).1, (s.ownTask p batch t).2) := rfl
  have hwframe := afterWrites_frame (s.ownTask p batch t).2 (r.insertionTask p batch t).1
  have hoframe := afterWrites_frame (s.ownTask p batch t).2 (s.ownTask p batch t).1
  obtain ⟨hin, hout⟩ := afterWrites_dense (r.insertionTask p batch t).1 hplaces
  obtain ⟨hin', -⟩ := afterWrites_dense (s.ownTask p batch t).1 hplaces
  have hmap := afterWrites_map (s.ownTask p batch t).2 (r.insertionTask p batch t).1
  rw [h.startInsertionTask_eq ht hun]
  generalize (r.insertionTask p batch t).1 = r₁ at *
  have hbuffer : r₁.bufferArray = r.bufferArray := by rw [heff.frame]
  have htasks : r₁.tasks = r.tasks := by rw [heff.frame]
  have hmanager : r₁.rebalancingManager = s.rebalancingManager := by
    rw [heff.frame, hi.frame]
    change (s.prepareInsertion p batch).rebalancingManager = _
    rw [h.prepared.frame]
  have hnodes : r₁.recountingNodesMap = r.recountingNodesMap := by rw [heff.frame]
  have hbefore : (s.prepareInsertion p batch).tasks t = s.plannedTask p batch t :=
    h.prepared_tasks ht.le
  have htask : r.tasks t = s.plannedTask p batch t := by
    rw [hi.tasks.outside t fun i hi' heq => hnot (by
      rw [Set.mem_singleton_iff] at heq
      rwa [heq]), hbefore]
  have hsets : ∀ {place : ℕ → Set ℕ}, (∀ t' < s.numberOfThreads, t' ≠ t →
      Disjoint (place t') (place t)) → ∀ t' ∈ D, Disjoint (place t') (place t) :=
    fun hdis t' ht' => hdis t' (hD t' ht') fun heq => hnot (heq ▸ ht')
  refine ⟨?_, ?_, ?_, ?_, fun i => ?_, fun i => ?_⟩
  · rw [hwframe, setTask, heff.frame, hi.frame]
  · refine hi.cells.insert (hsets fun t' ht' hne => h.taskCells_disjoint ht' ht hne)
      (fun c hc => ?_) fun c hc => ?_
    · rw [setTask_pma, setTask_bufferPointers, hwframe, ownState, hown, hoframe]
      exact Prod.ext (heff.inside c hc).1 (heff.inside c hc).2
    · rw [setTask_pma, setTask_bufferPointers, hwframe]
      exact Prod.ext (heff.outside c hc).1 (heff.outside c hc).2
  · refine hi.buffer.insert (hsets fun t' ht' hne => h.taskBuffer_disjoint ht' ht hne)
      (fun j hj => ?_) fun j hj => ?_
    · obtain ⟨i, rfl⟩ := Nat.exists_eq_add_of_le hj.1
      have hlt : i < (s.ownTask p batch t).2.length := by
        have := hj.2
        omega
      have hsome := List.getElem?_eq_getElem hlt
      exact (hin i _ hsome).trans (hin' i _ hsome).symm
    · rw [← hbuffer]
      refine hout j ?_
      by_contra hno
      exact hj ⟨by omega, by omega⟩
  · refine hi.tasks.insert (hsets fun t' _ hne => Set.disjoint_singleton.mpr hne)
      (fun t' ht' => ?_) fun t' ht' => ?_
    · rw [Set.mem_singleton_iff] at ht'
      subst ht'
      rw [setTask, hwframe]
      simp only [Function.update_self, htasks, htask]
      rfl
    · rw [Set.mem_singleton_iff] at ht'
      rw [setTask, hwframe]
      simp only [Function.update_of_ne ht', htasks]
  · rw [setTask_recountingNodesMap, (hmap i).1, hnodes, hmanager, hi.keys i, TaskMarks.insert, or_assoc]
  · rw [setTask_recountingNodesMap, (hmap i).2, hnodes, hmanager, hi.flagged i, TaskMarks.insert, or_assoc]

end Step

/-- **Step A-6**, in any order of the threads. -/
theorem inserting_parallel (sched : Schedule) :
    Inserting p s batch {t | t < s.numberOfThreads} ((s.prepareInsertion p batch).parallel sched 0
      fun s' thread => s'.startInsertionTask p batch thread) := by
  have hthreads : (s.prepareInsertion p batch).numberOfThreads = s.numberOfThreads := by
    rw [h.prepared.frame]
  have hperm := sched.threads_perm 0 s.numberOfThreads
  have hrun := @foldl_writers _ _ (Inserting p s batch)
    (fun s' thread => s'.startInsertionTask p batch thread) {t | t < s.numberOfThreads}
    (fun t ht D r hD hnot hi => h.inserting_step hi ht hD hnot)
    (sched.threads 0 s.numberOfThreads) _ _ (hperm.nodup_iff.mpr List.nodup_range)
    (fun t ht => ⟨List.mem_range.mp (hperm.subset ht), Set.notMem_empty t⟩)
    (Set.empty_subset _) h.inserting_start
  rw [parallel, hthreads]
  have hset : (∅ ∪ {t | t ∈ sched.threads 0 s.numberOfThreads} : Set ℕ) =
      {t | t < s.numberOfThreads} := by
    ext t
    simp [hperm.mem_iff]
  rw [hset] at hrun
  exact hrun

end PhaseInput

end BatchedSparseArray

end BatchPMA
