import BatchPMA.InPlace.Task

/-!
# Tasks that take turns

The tasks of path A work on disjoint ranges, and a turn of one of them leaves the invariants of the
others alone.  So every order of turns keeps all invariants, and when each task has had as many
turns as the batch has elements, all tasks are done.
-/

namespace BatchPMA

open KeyedUnion Ranges

variable {K α : Type} [LinearOrder K]

namespace OverallocatedBatchedSparseArray

variable {p : OverallocatedParams K α} {s₀ s : OverallocatedBatchedSparseArray K α}
  {batch : List α} {numberOfThreads : ℕ} {above : ℕ → K → Prop} {single : Prop}

/-- Every task is given a range of the pma and a range of the batch. -/
def TasksInput (p : OverallocatedParams K α) (s : OverallocatedBatchedSparseArray K α)
    (batch : List α) (numberOfThreads : ℕ) (above : ℕ → K → Prop) (single : Prop) : Prop :=
  ∀ t < numberOfThreads,
    s.TaskInput p batch (s.taskRanges t).1 (s.taskRanges t).2 (above t) single

/-- The ranges lie one behind the other. -/
lemma TasksInput.separated (h : s.TasksInput p batch numberOfThreads above single) {t t' : ℕ}
    (hlt : t < t') : t' ≤ numberOfThreads →
      (s.tasks (t + 1)).blockForBatchSplitter ≤ (s.tasks t').blockForBatchSplitter := by
  induction t', hlt using Nat.le_induction with
  | base => exact fun _ => le_refl _
  | succ u hu ih =>
      intro hle
      exact le_trans (ih (by omega)) (h u (by omega)).left_lt.le

/-- What holds between the turns. -/
structure Turning (p : OverallocatedParams K α) (s₀ : OverallocatedBatchedSparseArray K α)
    (batch : List α) (numberOfThreads : ℕ) (above : ℕ → K → Prop) (single : Prop)
    (acc : OverallocatedBatchedSparseArray K α × (ℕ → InPlaceCursor K α)) : Prop where
  edit : s₀.RangeEdit acc.1
    ⟨(s₀.tasks 0).blockForBatchSplitter, (s₀.tasks numberOfThreads).blockForBatchSplitter⟩
  progress : ∀ t < numberOfThreads, Progress p s₀ acc.1 batch (s₀.taskRanges t).1
    (s₀.taskRanges t).2 (above t) single (acc.2 t)

variable {acc : OverallocatedBatchedSparseArray K α × (ℕ → InPlaceCursor K α)}

lemma TasksInput.start (h : s₀.TasksInput p batch numberOfThreads above single) :
    Turning p s₀ batch numberOfThreads above single (s₀, s₀.startCursor) :=
  ⟨RangeEdit.refl _ _, fun t ht => (h t ht).start⟩

/-- **A turn.** -/
lemma Turning.turn (hin : s₀.TasksInput p batch numberOfThreads above single)
    (h : Turning p s₀ batch numberOfThreads above single acc) {t : ℕ} (ht : t < numberOfThreads) :
    Turning p s₀ batch numberOfThreads above single (inPlaceTurn p batch acc t) ∧
      (∀ t', t' ≠ t → (inPlaceTurn p batch acc t).2 t' = acc.2 t') ∧
      min (s₀.taskRanges t).1.right ((acc.2 t).batchIndex + 1) ≤
        ((inPlaceTurn p batch acc t).2 t).batchIndex := by
  have hranges : acc.1.taskRanges t = s₀.taskRanges t := by
    rw [taskRanges, taskRanges, h.edit.tasks_eq]
  have hothers : ∀ t', t' ≠ t → (inPlaceTurn p batch acc t).2 t' = acc.2 t' := fun t' hne =>
    Function.update_of_ne hne _ _
  have hself : (inPlaceTurn p batch acc t).2 t =
      (insertBatchStep p batch (s₀.taskRanges t).1 (s₀.taskRanges t).2 (acc.1, acc.2 t)).2 := by
    rw [inPlaceTurn, ← hranges]
    exact Function.update_self _ _ _
  have hfst : (inPlaceTurn p batch acc t).1 =
      (insertBatchStep p batch (s₀.taskRanges t).1 (s₀.taskRanges t).2 (acc.1, acc.2 t)).1 := by
    rw [inPlaceTurn, ← hranges]
  have hp := h.progress t ht
  by_cases hlt : (acc.2 t).batchIndex < (s₀.taskRanges t).1.right
  · obtain ⟨hedit, hnew, hmore⟩ := hp.step (hin t ht) hlt
    refine ⟨⟨h.edit.trans ?_, fun t' ht' => ?_⟩, hothers, by rw [hself]; omega⟩
    · -- the range of the task lies between the first and the last one
      rw [hfst]
      refine ⟨hedit.rest, fun c hc => hedit.outside c ?_, hedit.exact⟩
      have hleft : (s₀.tasks 0).blockForBatchSplitter ≤ (s₀.tasks t).blockForBatchSplitter := by
        rcases Nat.eq_zero_or_pos t with rfl | hpos
        · exact le_refl _
        · exact le_trans (hin 0 (by omega)).left_lt.le (hin.separated hpos ht.le)
      have hright := hin.separated (Nat.lt_of_lt_of_le (Nat.lt_succ_self t) ht) (le_refl _)
      change c < (s₀.tasks t).blockForBatchSplitter ∨ (s₀.tasks (t + 1)).blockForBatchSplitter ≤ c
      simp only at hc
      omega
    · by_cases heq : t' = t
      · subst heq
        rw [hself, hfst]
        exact hnew
      · rw [hothers t' heq, hfst]
        refine (h.progress t' ht').congr fun c h1 h2 => hedit.outside c ?_
        change (s₀.tasks t').blockForBatchSplitter ≤ c at h1
        change c < (s₀.tasks (t' + 1)).blockForBatchSplitter at h2
        change c < (s₀.tasks t).blockForBatchSplitter ∨ (s₀.tasks (t + 1)).blockForBatchSplitter ≤ c
        rcases Nat.lt_or_gt_of_ne heq with hl | hg
        · have := hin.separated hl ht.le
          omega
        · have := hin.separated hg ht'.le
          omega
  · -- a task that is done does nothing
    have hstep : insertBatchStep p batch (s₀.taskRanges t).1 (s₀.taskRanges t).2 (acc.1, acc.2 t) =
        (acc.1, acc.2 t) := by
      rw [insertBatchStep]
      exact if_neg hlt
    rw [hstep] at hself hfst
    refine ⟨⟨by rw [hfst]; exact h.edit, fun t' ht' => ?_⟩, hothers, ?_⟩
    swap
    · rw [hself]
      exact le_trans (min_le_left _ _) (not_lt.mp hlt)
    rw [hfst]
    by_cases heq : t' = t
    · subst heq
      rw [hself]
      exact hp
    · rw [hothers t' heq]
      exact h.progress t' ht'

/-- Any number of turns in any order. -/
lemma Turning.turns (hin : s₀.TasksInput p batch numberOfThreads above single) :
    ∀ (turns : List ℕ) {acc : OverallocatedBatchedSparseArray K α × (ℕ → InPlaceCursor K α)},
      (∀ t ∈ turns, t < numberOfThreads) →
      Turning p s₀ batch numberOfThreads above single acc →
      Turning p s₀ batch numberOfThreads above single (turns.foldl (inPlaceTurn p batch) acc) ∧
        ∀ t, min (s₀.taskRanges t).1.right ((acc.2 t).batchIndex + turns.count t) ≤
          ((turns.foldl (inPlaceTurn p batch) acc).2 t).batchIndex
  | [], acc, _, h => ⟨h, fun t => by simp⟩
  | u :: turns, acc, hlt, h => by
      obtain ⟨h1, h2, h3⟩ := h.turn hin (hlt u List.mem_cons_self)
      obtain ⟨ih1, ih2⟩ := Turning.turns hin turns (fun t ht => hlt t (List.mem_cons_of_mem _ ht)) h1
      rw [List.foldl_cons]
      refine ⟨ih1, fun t => le_trans ?_ (ih2 t)⟩
      by_cases heq : t = u
      · subst heq
        rw [List.count_cons_self]
        omega
      · rw [h2 t heq, List.count_cons_of_ne (Ne.symm heq)]

/-- **Path A**: all tasks finish, whatever the order of their turns. -/
theorem TasksInput.run (hin : s₀.TasksInput p batch numberOfThreads above single)
    (turns : List ℕ) :
    Turning p s₀ batch numberOfThreads above single
        (s₀.runInPlace p batch numberOfThreads turns) ∧
      ∀ t < numberOfThreads, ((s₀.runInPlace p batch numberOfThreads turns).2 t).batchIndex =
        (s₀.taskRanges t).1.right := by
  obtain ⟨h1, h2⟩ := Turning.turns hin (turns.filter (· < numberOfThreads) ++
    (List.range numberOfThreads).flatMap (List.replicate batch.length)) (fun t ht => by
      rcases List.mem_append.mp ht with ht | ht
      · simpa using (List.mem_filter.mp ht).2
      · obtain ⟨u, hu, ht⟩ := List.mem_flatMap.mp ht
        rw [List.eq_of_mem_replicate ht]
        exact List.mem_range.mp hu) hin.start
  refine ⟨h1, fun t ht => le_antisymm (h1.progress t ht).index_le ?_⟩
  refine le_trans ?_ (h2 t)
  have hcount : batch.length ≤ ((List.range numberOfThreads).flatMap
      (List.replicate batch.length)).count t := by
    obtain ⟨front, back, hsplit⟩ := List.append_of_mem (List.mem_range.mpr ht)
    rw [hsplit, List.flatMap_append, List.flatMap_cons, List.count_append, List.count_append,
      List.count_replicate_self]
    omega
  have hright := (hin t ht).batch_le'
  rw [List.count_append]
  omega

end OverallocatedBatchedSparseArray

end BatchPMA
