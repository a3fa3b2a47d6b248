import BatchPMA.Rebalance.Phase

/-!
# Rebalancing keeps the sequence of blocks

The blocks of an array in order: the pma block of each cell and its buffer blocks, cell by cell.
Steps B-4 to B-9 rearrange blocks within the ranges of the tasks only, and keep their order there.
-/

namespace BatchPMA

open Ranges Segments

namespace BatchedSparseArray

variable {K α : Type} [DecidableEq K] {p : BatchedParams K α} {s s' : BatchedSparseArray K α}
  {c : ℕ}

/-- The blocks of a cell. -/
def cellBlocks (p : BatchedParams K α) (s : BatchedSparseArray K α) (c : ℕ) :
    List (PmaEntry K α) := (s.cellPlaces p c).map s.memory

/-- The sequence of all blocks. -/
def blocks (p : BatchedParams K α) (s : BatchedSparseArray K α) : List (PmaEntry K α) :=
  itemsIn (s.cellBlocks p) 0 (max 1 s.size)

lemma itemsIn_cellBlocks (a b : ℕ) :
    itemsIn (s.cellBlocks p) a b = (s.placesIn p a b).map s.memory := by
  rw [placesIn, itemsIn, itemsIn, List.map_flatMap]
  rfl

/-- Cells behind the used part have no blocks. -/
lemma blocks_eq (h : ∀ c, max 1 s.size ≤ c → (s.bufferPointers c).length = 0) {n : ℕ}
    (hn : max 1 s.size ≤ n) : s.blocks p = itemsIn (s.cellBlocks p) 0 n := by
  rw [itemsIn_append _ (Nat.zero_le _) hn, itemsIn_eq_nil (a := max 1 s.size) fun c hc _ => ?_,
    List.append_nil]
  · rfl
  · rw [cellBlocks, cellPlaces_behind h hc]
    rfl

lemma cellBlocks_of_pointers (h : (s.bufferPointers c).length = 0) : s.cellBlocks p c =
    if s.empty p c then [] else [s.pma c] := by
  rw [cellBlocks, cellPlaces, h]
  split <;> rfl

/-- The blocks of the range of a task. -/
lemma Ready.itemsIn_task (h : s.Ready p) {i : ℕ} (hi : i < s.rebalancingTasks.length) :
    itemsIn (s.cellBlocks p) (s.rebalancingTask i).pmaRange.left
      (s.rebalancingTask i).pmaRange.right =
        (List.range (s.rebalancingTask i).numberOfBlocks).map fun k =>
          s.memory (s.source p (s.firstBlock i + k)) := by
  have hin := rebalancingTask_mem hi
  have hl := h.left_lt _ hin
  have htree := h.tree_le _ hin
  have hlr := h.left_lt_tree hin
  have hplaces : s.placesIn p (s.rebalancingTask i).pmaRange.left
      (s.rebalancingTask i).pmaRange.right = s.placesIn p (s.rebalancingTask i).pmaRange.left
        (s.treeRange (s.rebalancingTask i)).right := by
    have hu := h.used_le _ hin
    rw [placesIn_append hlr.le htree]
    have hnil : s.placesIn p (s.treeRange (s.rebalancingTask i)).right
        (s.rebalancingTask i).pmaRange.right = [] := by
      refine itemsIn_eq_nil fun c h1 h2 => cellPlaces_behind h.behind ?_
      omega
    rw [hnil, List.append_nil]
  have hplan := h.taskPlan hi
  have hlen := h.length_placesIn hin
  rw [itemsIn_cellBlocks, hplaces]
  refine List.ext_getElem? fun k => ?_
  rw [List.getElem?_map, List.getElem?_map]
  rcases Nat.lt_or_ge k (s.rebalancingTask i).numberOfBlocks with hk | hk
  · rw [hplan.src_eq k (by omega), List.getElem?_range hk]
    rfl
  · rw [List.getElem?_eq_none (by omega), List.getElem?_eq_none (by simpa using hk)]
    rfl

/-- The blocks of the range of a task after it has been rewritten. -/
lemma Rebalanced.itemsIn_task (h : s.Ready p) (hc : s.Clean p) (hb : Rebalanced p s s')
    (hne : s.rebalancingTasks ≠ []) (hthreads : 0 < s.numberOfThreads)
    (hsized : ∀ task ∈ s.rebalancingTasks, task.pmaRange.right ≤ s.newPmaSize) {i : ℕ}
    (hi : i < s.rebalancingTasks.length) :
    itemsIn (s'.cellBlocks p) (s.rebalancingTask i).pmaRange.left
      (s.rebalancingTask i).pmaRange.right =
        (List.range (s.rebalancingTask i).numberOfBlocks).map fun k =>
          s.memory (s.source p (s.firstBlock i + k)) := by
  have hfit : s.computePrefixSums.TasksFit :=
    ⟨prefixSummed_computePrefixSums s, hne, h.fits, h.disjoint⟩
  have hin := rebalancingTask_mem hi
  have hsucc : s.firstBlock (i + 1) = s.firstBlock i + (s.rebalancingTask i).numberOfBlocks :=
    firstBlock_succ hi
  have htotal : s.firstBlock (i + 1) ≤ s.totalBlocks := firstBlock_le_total hi
  have hlast : ∀ k < (s.rebalancingTask i).numberOfBlocks,
      s.firstBlock i + k < s.firstBlock (i + 1) := fun k hk => by omega
  refine itemsIn_targets (t := fun k => s.computePrefixSums.rewriteIndex (s.firstBlock i + k))
    (fun k hk => ?_) (fun k k' hk hk' => ?_) (fun k hk => ?_) (fun c h1 h2 hno => ?_)
  · exact hfit.rewriteIndex_mem hthreads hi (Nat.le_add_right _ _)
      (hlast k hk)
  · exact hfit.rewriteIndex_lt hthreads hi (Nat.le_add_right _ _) (by omega)
      (hlast k' hk')
  · have hg : s.firstBlock i + k < s.totalBlocks := by omega
    have hmem : (s.rebalancingTask i).pmaRange.contains
        (s.computePrefixSums.rewriteIndex (s.firstBlock i + k)) :=
      hfit.rewriteIndex_mem hthreads hi (Nat.le_add_right _ _)
        (hlast k hk)
    have hval := hb.target _ hg
    have hhead : (s.memory (s.source p (s.firstBlock i + k))).head ≠ p.nullKey := by
      obtain ⟨-, -, c, -, -, hcell⟩ := h.exists_cell hg
      exact hc.head_ne c _ hcell
    have hne' : s'.empty p (s.computePrefixSums.rewriteIndex (s.firstBlock i + k)) = false := by
      have hlt := lt_of_lt_of_le hmem.2 (hsized _ hin)
      rw [empty, if_neg (by rw [hb.size_eq]; omega), hval]
      simpa using hhead
    rw [cellBlocks_of_pointers (hb.pointers _), hne', hval]
    rfl
  · have hnull : s'.pma c = PmaEntry.null p.toBlockParams := by
      refine hb.hole c ⟨_, hin, h1, h2⟩ fun g hg heq => ?_
      -- a target in the range of this task is one of this task
      obtain ⟨g1, g2, g3⟩ := hfit.taskOf_spec hg
      have hmem := hfit.rewriteIndex_mem hthreads g1 g2 g3
      rw [heq] at hmem
      have htask : s.computePrefixSums.taskOf g = i := task_unique hfit.disjoint g1 hi hmem ⟨h1, h2⟩
      rw [htask] at g2 g3
      have g2' : s.firstBlock i ≤ g := g2
      have g3' : g < s.firstBlock (i + 1) := g3
      refine hno (g - s.firstBlock i) (by omega) ?_
      rw [Nat.add_sub_cancel' g2']
      exact heq
    rw [cellBlocks_of_pointers (hb.pointers _), empty, hnull]
    simp [PmaEntry.null]

lemma Rebalanced.size_le (hb : Rebalanced p s s') : s.size ≤ s'.size := by
  rw [hb.size_eq, newPmaSize]
  split
  · exact le_refl _
  · exact le_max_left _ _

/-- A cell outside the tasks keeps its block, and has no others. -/
lemma Rebalanced.cellBlocks_outside (h : s.Ready p) (hc : s.Clean p) (hcov : s.Covered p)
    (hb : Rebalanced p s s') (hno : ¬ s.InTask c) : s'.cellBlocks p c = s.cellBlocks p c := by
  have hptr : (s.bufferPointers c).length = 0 := by
    by_contra hpos
    obtain ⟨task, ht, h1, h2⟩ := hcov.buffers c (by omega)
    exact hno ⟨task, ht, h1, lt_of_lt_of_le h2 (h.tree_le task ht)⟩
  have hsame := hb.outside c hno
  have hempty : s'.empty p c = s.empty p c := by
    rw [empty, empty, hsame]
    rcases Nat.lt_or_ge c s.size with hlt | hge
    · have := hb.size_le
      rw [if_neg (by omega), if_neg (by omega)]
    · -- behind the old size there is nothing
      have hnull := hc.cell_null c (by rw [empty, if_pos hge])
      rw [if_pos hge, hnull]
      simp [PmaEntry.null]
  rw [cellBlocks_of_pointers (hb.pointers c), cellBlocks_of_pointers hptr, hempty, hsame]

/-- **Content.**  The sequence of blocks is the same as before. -/
theorem Rebalanced.blocks_eq (h : s.Ready p) (hc : s.Clean p) (hcov : s.Covered p)
    (hb : Rebalanced p s s') (hne : s.rebalancingTasks ≠ []) (hthreads : 0 < s.numberOfThreads)
    (hsized : ∀ task ∈ s.rebalancingTasks, task.pmaRange.right ≤ s.newPmaSize) :
    s'.blocks p = s.blocks p := by
  have hsize := hb.size_le
  rw [BatchedSparseArray.blocks_eq h.behind (n := max 1 s'.size) (by omega), blocks]
  refine itemsIn_patch (s.rebalancingTasks.map fun task =>
    (task.pmaRange.left, task.pmaRange.right)) ?_ (fun r hr => ?_) fun c hout => ?_
  · rw [List.pairwise_map]
    exact h.disjoint.imp fun hdis c h1 h2 => hdis c ⟨h1, h2⟩
  · obtain ⟨task, ht, rfl⟩ := List.mem_map.mp hr
    obtain ⟨i, hi, rfl⟩ := List.mem_iff_getElem.mp ht
    have hlr := h.left_lt_tree ht
    have htree := h.tree_le _ ht
    have hright := hsized _ ht
    refine ⟨by simp only; omega, by simp only [hb.size_eq]; omega, ?_⟩
    rw [getElem_rebalancingTasks hi, h.itemsIn_task hi,
      hb.itemsIn_task h hc hne hthreads hsized hi]
  · refine hb.cellBlocks_outside h hc hcov fun hin => ?_
    obtain ⟨task, ht, hc⟩ := hin
    exact hout (task.pmaRange.left, task.pmaRange.right) (List.mem_map.mpr ⟨task, ht, rfl⟩) hc

end BatchedSparseArray

end BatchPMA
