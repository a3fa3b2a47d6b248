import BatchPMA.Insertion.Routing

/-!
# The plan of the insertion tasks

Steps A-1 to A-3 in closed form.  The threads whose splitters belong to the same block form a
group.  Its last task does the work of the whole group (`ShortGroup`), unless there is enough work
for the merge block to be shared among the tasks in front of it (`LongGroup`).
-/

namespace BatchPMA

variable {K α : Type}

/-! ## Groups of threads -/

/-- The threads from `a` to `e` are those with the same block. -/
structure IsGroup (block : ℕ → ℕ) (numberOfThreads a e : ℕ) : Prop where
  le : a ≤ e
  lt : e < numberOfThreads
  same : ∀ t, a ≤ t → t ≤ e → block t = block a
  first : a = 0 ∨ block (a - 1) ≠ block a
  last : e + 1 = numberOfThreads ∨ block (e + 1) ≠ block e

section Groups

variable {block : ℕ → ℕ} {n a e a' e' t : ℕ}

/-- The first thread of the group of a thread. -/
def groupStart (block : ℕ → ℕ) : ℕ → ℕ
  | 0 => 0
  | t + 1 => if block (t + 1) = block t then groupStart block t else t + 1

lemma groupStart_le (block : ℕ → ℕ) : ∀ t, groupStart block t ≤ t
  | 0 => le_refl _
  | t + 1 => by
      have := groupStart_le block t
      rw [groupStart]
      split <;> omega

lemma groupStart_spec (block : ℕ → ℕ) : ∀ t,
    (∀ i, groupStart block t ≤ i → i ≤ t → block i = block t) ∧
      (groupStart block t = 0 ∨
        block (groupStart block t - 1) ≠ block (groupStart block t))
  | 0 => ⟨fun i _ hi => by rw [Nat.le_zero.mp hi], Or.inl rfl⟩
  | t + 1 => by
      obtain ⟨h1, h2⟩ := groupStart_spec block t
      rw [groupStart]
      split
      · rename_i heq
        refine ⟨fun i hi hi' => ?_, h2⟩
        rcases Nat.eq_or_lt_of_le hi' with rfl | hlt
        · rfl
        · rw [heq]
          exact h1 i hi (by omega)
      · rename_i hne
        refine ⟨fun i hi hi' => by rw [show i = t + 1 by omega], Or.inr ?_⟩
        simpa using fun h => hne h.symm

/-- The group of a thread ends somewhere. -/
lemma exists_groupEnd (block : ℕ → ℕ) (ht : t < n) : ∃ e, t ≤ e ∧ e < n ∧
    (∀ i, t ≤ i → i ≤ e → block i = block t) ∧ (e + 1 = n ∨ block (e + 1) ≠ block e) := by
  obtain ⟨k, hk⟩ : ∃ k, n = t + 1 + k := ⟨n - t - 1, by omega⟩
  induction k generalizing t with
  | zero => exact ⟨t, le_refl _, ht, fun i h1 h2 => by rw [show i = t by omega], Or.inl (by omega)⟩
  | succ k ih =>
      by_cases heq : block (t + 1) = block t
      · obtain ⟨e, h1, h2, h3, h4⟩ := ih (t := t + 1) (by omega) (by omega)
        refine ⟨e, by omega, h2, fun i hi hi' => ?_, h4⟩
        rcases Nat.eq_or_lt_of_le hi with rfl | hlt
        · rfl
        · rw [h3 i hlt hi', heq]
      · exact ⟨t, le_refl _, ht, fun i h1 h2 => by rw [show i = t by omega], Or.inr heq⟩

lemma exists_group (block : ℕ → ℕ) (ht : t < n) : ∃ a e, IsGroup block n a e ∧ a ≤ t ∧ t ≤ e := by
  obtain ⟨h1, h2⟩ := groupStart_spec block t
  have hle := groupStart_le block t
  obtain ⟨e, g1, g2, g3, g4⟩ := exists_groupEnd block ht
  have hstart := h1 _ (le_refl _) hle
  refine ⟨groupStart block t, e, ⟨by omega, g2, fun i hi hi' => ?_, h2, g4⟩, hle, g1⟩
  rw [hstart]
  rcases Nat.lt_or_ge i t with hlt | hge
  · exact h1 i hi hlt.le
  · exact g3 i hge hi'

lemma IsGroup.groupStart_eq (h : IsGroup block n a e) (h1 : a ≤ t) (h2 : t ≤ e) :
    groupStart block t = a := by
  obtain ⟨g1, g2⟩ := groupStart_spec block t
  have hle := groupStart_le block t
  rcases Nat.lt_trichotomy (groupStart block t) a with hlt | heq | hgt
  · exfalso
    rcases h.first with h0 | hne
    · omega
    · have e1 := g1 (a - 1) (by omega) (by omega)
      have e2 := h.same t h1 h2
      exact hne (e1.trans e2)
  · exact heq
  · exfalso
    rcases g2 with h0 | hne
    · omega
    · have e1 := h.same (groupStart block t - 1) (by omega) (by omega)
      have e2 := h.same (groupStart block t) (by omega) (by omega)
      exact hne (e1.trans e2.symm)

/-- The next thread begins a new group. -/
lemma IsGroup.groupStart_succ (h : IsGroup block n a e) (hlt : e + 1 < n) :
    groupStart block (e + 1) = e + 1 := by
  rw [groupStart, if_neg (h.last.resolve_left (by omega))]

lemma IsGroup.unique (h : IsGroup block n a e) (h' : IsGroup block n a' e') (h1 : a ≤ t)
    (h2 : t ≤ e) (h3 : a' ≤ t) (h4 : t ≤ e') : a = a' ∧ e = e' := by
  have hlast : ∀ {a e a' e'}, IsGroup block n a e → IsGroup block n a' e' → a ≤ t → t ≤ e →
      a' ≤ t → t ≤ e' → ¬ e < e' := by
    intro a e a' e' h h' h1 h2 h3 h4 hlt
    rcases h.last with hl | hne
    · have := h'.lt
      omega
    · have e1 := h'.same (e + 1) (by omega) (by omega)
      have e2 := h'.same e (by omega) (by omega)
      exact hne (e1.trans e2.symm)
  refine ⟨(h.groupStart_eq h1 h2).symm.trans (h'.groupStart_eq h3 h4), ?_⟩
  rcases Nat.lt_trichotomy e e' with hlt | heq | hgt
  · exact absurd hlt (hlast h h' h1 h2 h3 h4)
  · exact heq
  · exact absurd hgt (hlast h' h h3 h4 h1 h2)

/-- A group that ends later begins behind the other one. -/
lemma IsGroup.lt_of_lt (h : IsGroup block n a e) (h' : IsGroup block n a' e') (hlt : e < e') :
    e + 1 ≤ a' := by
  by_contra hge
  have := (h.unique h' (t := e) h.le (le_refl _) (by omega) hlt.le).2
  omega

end Groups

namespace BatchedSparseArray

variable [LinearOrder K] {p : BatchedParams K α} {s : BatchedSparseArray K α} {batch : List α}

/-! ## Step A-1 -/

/-- The block that the splitter of a thread belongs to, with the sentinel of step A-1. -/
def splitterBlock (p : BatchedParams K α) (s : BatchedSparseArray K α) (batch : List α)
    (thread : ℕ) : ℕ :=
  if thread < s.numberOfThreads then
    (s.view p).findBlockIndex (batchKey p.toBlockParams batch
      (thread * (batch.length / s.numberOfThreads)))
  else s.size

/-- The first batch element of a thread, with the sentinel of step A-1. -/
def splitterFirst (p : BatchedParams K α) (s : BatchedSparseArray K α) (batch : List α)
    (thread : ℕ) : ℕ :=
  if thread = 0 then 0
  else if thread < s.numberOfThreads then
    findFirstBatchElement p.toBlockParams batch (thread * (batch.length / s.numberOfThreads))
      ((s.view p).head (s.splitterBlock p batch thread))
  else batch.length

/-- The task of a thread after step A-1. -/
def splitterTask (p : BatchedParams K α) (s : BatchedSparseArray K α) (batch : List α)
    (thread : ℕ) : TaskInfo :=
  { s.tasks thread with
    blockForBatchSplitter := s.splitterBlock p batch thread
    firstBatchElement := s.splitterFirst p batch thread
    requiredWidth := getRequiredWidth
      (s.splitterFirst p batch (thread + 1) - s.splitterFirst p batch thread) }

lemma tasks_findSplitters {t : ℕ} (ht : t < s.numberOfThreads) :
    (s.findSplitters p batch).tasks t = s.splitterTask p batch t := by
  have hfirst : ∀ i, i < s.numberOfThreads →
      (if 0 < i then findFirstBatchElement p.toBlockParams batch
        (i * (batch.length / s.numberOfThreads)) ((s.view p).head ((s.view p).findBlockIndex
          (batchKey p.toBlockParams batch (i * (batch.length / s.numberOfThreads)))))
        else 0) = s.splitterFirst p batch i := by
    intro i hi
    rw [splitterFirst, splitterBlock, if_pos hi, if_pos hi]
    by_cases h0 : i = 0
    · simp [h0]
    · rw [if_pos (by omega), if_neg h0]
  have hnext : (if t = s.numberOfThreads - 1 then batch.length else
      findFirstBatchElement p.toBlockParams batch
        ((t + 1) * (batch.length / s.numberOfThreads)) ((s.view p).head
          ((s.view p).findBlockIndex (batchKey p.toBlockParams batch
            ((t + 1) * (batch.length / s.numberOfThreads)))))) = s.splitterFirst p batch (t + 1) := by
    split
    · rw [splitterFirst, if_neg (by omega), if_neg (by omega)]
    · rw [← hfirst (t + 1) (by omega), if_pos (by omega)]
  have hblock : (s.view p).findBlockIndex (batchKey p.toBlockParams batch
      (t * (batch.length / s.numberOfThreads))) = s.splitterBlock p batch t := by
    rw [splitterBlock, if_pos ht]
  rw [findSplitters]
  simp only [if_pos ht]
  rw [hfirst t ht, hnext, hblock]
  rfl

lemma tasks_findSplitters_last : (s.findSplitters p batch).tasks s.numberOfThreads =
    { s.tasks s.numberOfThreads with
      blockForBatchSplitter := s.size
      firstBatchElement := batch.length } := by
  rw [findSplitters]
  simp

/-! ## Step A-2 -/

/-- The task of a thread when the loop of step A-2 has come to thread `k`. -/
def mergedTask (p : BatchedParams K α) (s : BatchedSparseArray K α) (batch : List α)
    (k thread : ℕ) : TaskInfo :=
  let task := s.splitterTask p batch thread
  let start := groupStart (s.splitterBlock p batch) thread
  let joined := thread < k ∧
    s.splitterBlock p batch (thread + 1) = s.splitterBlock p batch thread
  if thread ≤ k then
    { task with
      firstBatchElement := s.splitterFirst p batch start
      type := if joined then .inverseMerge else .insertion
      mergedTasks := thread - start
      requiredWidth := if joined then 0 else task.requiredWidth }
  else task

omit [LinearOrder K] in
lemma tasks_setTask (s : BatchedSparseArray K α) (t : ℕ) (f : TaskInfo → TaskInfo) :
    (s.setTask t f).tasks = Function.update s.tasks t (f (s.tasks t)) := rfl

lemma mergedTask_of_gt {k t : ℕ} (h : k < t) : s.mergedTask p batch k t = s.splitterTask p batch t := by
  rw [mergedTask]
  simp only [if_neg (not_le.mpr h)]

/-- Only the tasks of the two threads that are compared change. -/
lemma mergedTask_succ_of_ne {k t : ℕ} (h1 : t ≠ k) (h2 : t ≠ k + 1) :
    s.mergedTask p batch (k + 1) t = s.mergedTask p batch k t := by
  rcases Nat.lt_or_ge t k with hlt | hge
  · rw [mergedTask, mergedTask]
    simp only [if_pos hlt.le, if_pos (show t ≤ k + 1 by omega), hlt, show t < k + 1 by omega]
  · rw [mergedTask_of_gt (by omega), mergedTask_of_gt (by omega)]

/-- What holds when the loop of step A-2 has come to thread `k`. -/
structure Merging (p : BatchedParams K α) (s : BatchedSparseArray K α) (batch : List α) (k : ℕ)
    (acc : BatchedSparseArray K α × ℕ) : Prop where
  frame : ∃ f, acc.1 = { s with tasks := f }
  tasks : ∀ t < s.numberOfThreads, acc.1.tasks t = s.mergedTask p batch k t
  sentinel : acc.1.tasks s.numberOfThreads = (s.findSplitters p batch).tasks s.numberOfThreads
  count : acc.2 = k - groupStart (s.splitterBlock p batch) k

lemma Merging.step {acc : BatchedSparseArray K α × ℕ} {k : ℕ} (h : Merging p s batch k acc)
    (hk : k + 1 < s.numberOfThreads) : Merging p s batch (k + 1) (mergeTask acc (k + 1)) := by
  obtain ⟨f, hf⟩ := h.frame
  have hle := groupStart_le (s.splitterBlock p batch) k
  have hcount := h.count
  have hk1 := h.tasks (k + 1) hk
  have hk0 := h.tasks k (by omega)
  rw [mergedTask_of_gt (by omega)] at hk1
  have hb1 : (acc.1.tasks (k + 1)).blockForBatchSplitter = s.splitterBlock p batch (k + 1) := by
    rw [hk1]
    rfl
  have hb0 : (acc.1.tasks k).blockForBatchSplitter = s.splitterBlock p batch k := by
    rw [hk0, mergedTask]
    split <;> rfl
  rw [mergeTask]
  simp only [Nat.add_sub_cancel, hb1, hb0]
  split
  · rename_i heq
    have hstart : groupStart (s.splitterBlock p batch) (k + 1) =
        groupStart (s.splitterBlock p batch) k := by rw [groupStart, if_pos heq]
    refine ⟨⟨_, by rw [hf]; rfl⟩, fun t ht => ?_, ?_, by simp only; omega⟩
    · simp only [tasks_setTask, Function.update_apply]
      by_cases htk : t = k
      · subst htk
        rw [if_pos rfl, if_neg (by omega), hk0, mergedTask, mergedTask]
        simp [heq]
      · by_cases htk1 : t = k + 1
        · subst htk1
          rw [if_neg htk, if_pos rfl, hk1, hk0, mergedTask, mergedTask]
          simp only [le_refl, if_true, lt_irrefl, false_and, if_false, hstart, hcount]
          simp only [splitterTask, TaskInfo.mk.injEq, and_true, true_and]
          omega
        · rw [if_neg htk, if_neg htk1, mergedTask_succ_of_ne htk htk1]
          exact h.tasks t ht
    · simp only [tasks_setTask, Function.update_apply]
      rw [if_neg (by omega), if_neg (by omega)]
      exact h.sentinel
  · rename_i hne
    have hstart : groupStart (s.splitterBlock p batch) (k + 1) = k + 1 := by
      rw [groupStart, if_neg hne]
    refine ⟨⟨_, by rw [hf]; rfl⟩, fun t ht => ?_, ?_, by simp only; omega⟩
    · simp only [tasks_setTask, Function.update_apply]
      by_cases htk : t = k
      · subst htk
        rw [if_neg (by omega), hk0, mergedTask, mergedTask]
        simp [hne]
      · by_cases htk1 : t = k + 1
        · subst htk1
          rw [if_pos rfl, hk1, mergedTask]
          simp only [le_refl, if_true, lt_irrefl, false_and, if_false, hstart, Nat.sub_self]
          rfl
        · rw [if_neg htk1, mergedTask_succ_of_ne htk htk1]
          exact h.tasks t ht
    · simp only [tasks_setTask, Function.update_apply]
      rw [if_neg (by omega)]
      exact h.sentinel

lemma Merging.foldl {acc : BatchedSparseArray K α × ℕ} {k : ℕ} :
    ∀ n, k + n < s.numberOfThreads → Merging p s batch k acc →
      Merging p s batch (k + n) ((List.range' (k + 1) n).foldl mergeTask acc)
  | 0, _, h => h
  | n + 1, hk, h => by
      have ih := Merging.foldl n (by omega) h
      rw [List.range'_concat, List.foldl_append]
      have := ih.step (by omega)
      simpa [Nat.add_assoc, Nat.add_comm 1] using this

/-- **Step A-2.**  The tasks of a group are merged into its last one. -/
lemma mergeTasks_spec (hT : 0 < s.numberOfThreads) :
    (∃ f, (s.findSplitters p batch).mergeTasks = { s with tasks := f }) ∧
      (∀ t < s.numberOfThreads, (s.findSplitters p batch).mergeTasks.tasks t =
        s.mergedTask p batch (s.numberOfThreads - 1) t) ∧
      (s.findSplitters p batch).mergeTasks.tasks s.numberOfThreads =
        { s.tasks s.numberOfThreads with
          blockForBatchSplitter := s.size
          firstBatchElement := batch.length
          requiredWidth := 0 } := by
  have hstart : Merging p s batch 0 ((s.findSplitters p batch).setTask 0 fun task =>
      { task with
        firstBatchElement := 0
        type := .insertion
        mergedTasks := 0 }, 0) := by
    refine ⟨⟨_, rfl⟩, fun t ht => ?_, ?_, rfl⟩
    · simp only [tasks_setTask, Function.update_apply]
      by_cases h0 : t = 0
      · subst h0
        rw [if_pos rfl, tasks_findSplitters ht, mergedTask]
        simp [splitterTask, splitterFirst, groupStart]
      · rw [if_neg h0, tasks_findSplitters ht, mergedTask_of_gt (by omega)]
    · simp only [tasks_setTask, Function.update_apply]
      rw [if_neg (by omega)]
  have hall := hstart.foldl (s.numberOfThreads - 1) (by omega)
  rw [Nat.zero_add] at hall
  obtain ⟨f, hf⟩ := hall.frame
  rw [mergeTasks]
  have hT' : (s.findSplitters p batch).numberOfThreads = s.numberOfThreads := rfl
  simp only [hT', Nat.zero_add] at *
  refine ⟨⟨_, by rw [hf]; rfl⟩, fun t ht => ?_, ?_⟩
  · rw [tasks_setTask, Function.update_apply, if_neg (by omega)]
    exact hall.tasks t ht
  · rw [tasks_setTask, Function.update_apply, if_pos rfl, hall.sentinel, tasks_findSplitters_last]

end BatchedSparseArray

end BatchPMA
