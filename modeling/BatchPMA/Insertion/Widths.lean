import BatchPMA.Insertion.Partition

/-!
# Where the tasks write

Step A-4 gives every task a start index in the buffer array, the sum of the widths in front of it.
Nothing else of the tasks changes, and step A-5 changes the buffer array only.
-/

namespace BatchPMA

namespace BatchedSparseArray

variable {K α : Type} {s : BatchedSparseArray K α}

/-- The start index of a task. -/
def startOf (s : BatchedSparseArray K α) (t : ℕ) : ℕ :=
  (s.tasks 0).blockForBatchSplitter +
    ((List.range t).map fun i => (s.tasks i).requiredWidth).sum

lemma startOf_succ (s : BatchedSparseArray K α) (t : ℕ) :
    s.startOf (t + 1) = s.startOf t + (s.tasks t).requiredWidth := by
  rw [startOf, startOf, List.range_succ, List.map_append, List.sum_append]
  simp [Nat.add_assoc]

lemma startOf_mono (s : BatchedSparseArray K α) {t t' : ℕ} (h : t ≤ t') :
    s.startOf t ≤ s.startOf t' := by
  induction t', h using Nat.le_induction with
  | base => exact le_refl _
  | succ k _ ih =>
      rw [startOf_succ]
      omega

/-- A task with its start index. -/
def startedTask (s : BatchedSparseArray K α) (t : ℕ) : TaskInfo :=
  { s.tasks t with startIndex := s.startOf t }

/-- The state when the loop of step A-4 has passed `n` tasks. -/
structure Started (s : BatchedSparseArray K α) (n : ℕ) (acc : BatchedSparseArray K α × ℕ) :
    Prop where
  frame : acc.1 = { s with
    tasks := fun t => if t < n then s.startedTask t else s.tasks t
    bufferPointers := acc.1.bufferPointers }
  width : acc.2 = s.startOf n

lemma Started.step {n : ℕ} {acc : BatchedSparseArray K α × ℕ} (h : s.Started n acc) :
    s.Started (n + 1) (startTask acc n) := by
  have htasks : acc.1.tasks = fun t => if t < n then s.startedTask t else s.tasks t := by
    rw [h.frame]
  have htask : acc.1.tasks n = s.tasks n := by
    rw [htasks]
    simp
  have hset : acc.1.setTask n (fun task => { task with startIndex := acc.2 }) =
      { s with
        tasks := fun t => if t < n + 1 then s.startedTask t else s.tasks t
        bufferPointers := acc.1.bufferPointers } := by
    rw [setTask, htask, h.width, htasks, h.frame]
    congr 1
    funext t
    rw [Function.update_apply]
    rcases Nat.lt_trichotomy t n with hlt | rfl | hgt
    · rw [if_neg (by omega), if_pos hlt, if_pos (by omega)]
    · rw [if_pos rfl, if_pos (by omega)]
      rfl
    · rw [if_neg (by omega), if_neg (by omega), if_neg (by omega)]
  have hwidth : ((acc.1.setTask n fun task => { task with startIndex := acc.2 }).tasks
      n).requiredWidth = (s.tasks n).requiredWidth := by
    rw [hset]
    simp [startedTask]
  rw [startTask]
  split
  · refine ⟨?_, ?_⟩
    · simp only [hset]
    · simp only
      rw [hwidth, h.width, startOf_succ]
  · refine ⟨?_, ?_⟩
    · simp only [hset]
    · simp only
      rw [hwidth, h.width, startOf_succ]

lemma started_foldl (s : BatchedSparseArray K α) : ∀ n,
    s.Started n ((List.range n).foldl startTask (s, (s.tasks 0).blockForBatchSplitter))
  | 0 => ⟨by simp, by simp [startOf]⟩
  | n + 1 => by
      rw [List.range_succ, List.foldl_append]
      exact (started_foldl s n).step

/-- **Step A-4.** -/
theorem computeStartIndices_spec (s : BatchedSparseArray K α) :
    s.Started (s.numberOfThreads + 1) s.computeStartIndices :=
  started_foldl s _

variable [LinearOrder K] {p : BatchedParams K α} {batch : List α}

/-- What steps A-1 to A-5 leave alone, and the tasks they prepare. -/
structure Prepared (p : BatchedParams K α) (s : BatchedSparseArray K α) (batch : List α)
    (r : BatchedSparseArray K α) : Prop where
  frame : r = { s with
    tasks := r.tasks
    bufferPointers := r.bufferPointers
    bufferCapacity := r.bufferCapacity
    bufferArray := r.bufferArray }
  tasks : ∀ t ≤ s.numberOfThreads, r.tasks t = (s.distributed p batch).startedTask t
  buffer : r.bufferArray = s.bufferArray ∨ r.bufferArray = freshArray p.toBlockParams

theorem prepared_prepareInsertion (hT : 0 < s.numberOfThreads) :
    s.Prepared p batch (s.prepareInsertion p batch) := by
  obtain ⟨f, hf⟩ := (@sharing_distributed _ _ _ p _ batch hT).frame
  have hspec := computeStartIndices_spec (s.distributed p batch)
  have hn : (s.distributed p batch).numberOfThreads = s.numberOfThreads := by rw [hf]
  rw [hn] at hspec
  have htasks : ∀ t ≤ s.numberOfThreads, (s.distributed p batch).computeStartIndices.1.tasks t =
      (s.distributed p batch).startedTask t := by
    intro t ht
    rw [hspec.frame]
    exact if_pos (by omega)
  have hframe : (s.distributed p batch).computeStartIndices.1 = { s with
      tasks := (s.distributed p batch).computeStartIndices.1.tasks
      bufferPointers := (s.distributed p batch).computeStartIndices.1.bufferPointers } := by
    conv_lhs => rw [hspec.frame, hf]
    rw [hspec.frame, hf]
  have hprep : s.prepareInsertion p batch =
      (s.distributed p batch).computeStartIndices.1.increaseBufferArraySize p
        (s.distributed p batch).computeStartIndices.2 := rfl
  rw [hprep, increaseBufferArraySize]
  generalize (s.distributed p batch).computeStartIndices.1 = r at *
  split
  · exact ⟨by rw [hframe], htasks, Or.inr rfl⟩
  · refine ⟨?_, htasks, Or.inl ?_⟩
    · conv_lhs => rw [hframe]
      rw [hframe]
    · rw [hframe]

end BatchedSparseArray

end BatchPMA
