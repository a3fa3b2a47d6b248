import BatchPMA.Rebalance.Whole

/-!
# Requests and tasks

A leaf with a flag in the map asks for rebalancing.  With room at the root every request is below a
task and every task is above a request, and the only request that stays behind is one of leaf `0`,
in place of a root that has been rebalanced: the map of the last level is not cleared.
-/

namespace BatchPMA

open RebalancingManager

namespace BatchedSparseArray

variable {K α : Type} [DecidableEq K] {p : BatchedParams K α} {s : BatchedSparseArray K α}

namespace Rebalanceable

variable (h : s.Rebalanceable p)
include h

/-- The roots of the tasks are the nodes that are kept. -/
lemma exists_task_iff (sched : Schedule) {node : RebalancingNode} :
    (∃ task ∈ (s.withTasks p sched).rebalancingTasks, task.rootNode = node) ↔
      node ∈ (s.updateHierarchy p sched).keptNodes := by
  obtain ⟨-, -, -, htasks⟩ := h.toInserted.withTasks_spec h.width_pos h.densityValid sched
  rw [htasks]
  constructor
  · rintro ⟨task, ht, rfl⟩
    obtain ⟨node, hn, rfl⟩ := List.mem_map.mp ht
    exact hn
  · exact fun hn => ⟨_, List.mem_map_of_mem hn, rfl⟩

/-- Every request leads to a task. -/
lemma exists_task_covers (sched : Schedule) {i : ℕ} (hi : i ∈ s.recountingNodesMap.flagged) :
    ∃ task ∈ (s.withTasks p sched).rebalancingTasks, task.rootNode.Covers i := by
  obtain ⟨top, htop, hcov⟩ := h.exists_keptNode sched hi
  obtain ⟨task, ht, hroot⟩ := (h.exists_task_iff sched).mpr htop
  exact ⟨task, ht, by rw [hroot]; exact hcov⟩

/-- Every task goes back to a request. -/
lemma exists_request (sched : Schedule) {task : RebalancingTask}
    (ht : task ∈ (s.withTasks p sched).rebalancingTasks) :
    ∃ i ∈ s.recountingNodesMap.flagged, task.rootNode.Covers i := by
  have hkept := (h.exists_task_iff sched).mp ⟨task, ht, rfl⟩
  exact h.tree.consistent.covered_update h.tree.flagsClear sched (s.sdsView p) h.unmarked
    h.rootFits (mem_keptNodes.mp hkept).1

/-- Outside of the tasks no cell is filled or emptied. -/
lemma empty_outside (sched : Schedule) {c : ℕ} (hc : ¬ (s.withTasks p sched).InTask c) :
    (s.rebalancingPhase p sched).empty p c = s.empty p c := by
  have hb := h.rebalanced sched
  have hpma : (s.rebalancingPhase p sched).pma c = s.pma c := hb.outside c hc
  have hsize := hb.size_eq
  rw [empty, empty, hpma]
  rcases newPmaSize_cases (p := p) s sched with heq | ⟨task, ht, hlt, heq⟩
  · rw [hsize, heq]
  · -- the only task covers everything up to the new size
    have hleft : task.pmaRange.left = 0 := by
      rw [(h.taskShape sched ht).range_eq, (h.taskShape sched ht).behind hlt, Nat.zero_mul]
    have hge : task.pmaRange.right ≤ c := by
      by_contra hno
      exact hc ⟨task, ht, by omega, by omega⟩
    rw [if_pos (by omega), if_pos (by omega)]

/-- **The request that stays behind.** -/
theorem flagged_rebalancingPhase (sched : Schedule) {i : ℕ} :
    i ∈ (s.rebalancingPhase p sched).recountingNodesMap.flagged ↔
      i = 0 ∧ ∃ task ∈ (s.withTasks p sched).rebalancingTasks,
        task.rootNode = ⟨s.rebalancingManager.logCapacity, 0⟩ := by
  have hmap : (s.withTasks p sched).recountingNodesMap =
      (s.updateState.update sched (s.sdsView p)).recountingNodesMap := rfl
  have hnodes : (s.updateHierarchy p sched).rebalancingNodes =
      (s.updateState.update sched (s.sdsView p)).rebalancingNodes := rfl
  have hcap : s.updateState.manager.logCapacity = s.rebalancingManager.logCapacity := rfl
  rw [(h.rebalanced sched).flagged, hmap, h.tree.consistent.flagged_update h.tree.flagsClear sched
    (s.sdsView p) h.rootRoom, h.exists_task_iff sched, mem_keptNodes, hnodes, hcap]
  refine and_congr_right fun _ => (and_iff_left_of_imp fun _ => ?_).symm
  -- no collected node is above the root
  rintro ⟨other, ho, habove⟩
  have hlevel := (h.collected sched ho).1
  have hlt := habove.1
  simp only at hlt
  omega

end Rebalanceable

end BatchedSparseArray

end BatchPMA
