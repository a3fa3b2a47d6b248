import BatchPMA.Rebalance.Requests
import BatchPMA.Runs.Batched

/-!
# Counters and requests for rebalancing over runs

Between two calls the counters of the leaves that are not marked are right, and behind step B-2 all
counters are.  Which leaves ask for rebalancing in a call: those of the cells with blocks in the
buffer, and leaf `0` if the call before has rebalanced the root of the tree.  Cells that are not
below such a request are left alone.
-/

namespace BatchPMA

open RebalancingManager

variable {K α : Type} [LinearOrder K]

namespace BatchedSparseArray

variable {p : BatchedParams K α} {r s : BatchedSparseArray K α} {batch : List α} {n : ℕ}

/-- **Counters.**  In every state of a run the leaves that are not marked store their number of
blocks, all other nodes store the sum of their children, no flag is set, and the tree covers the
array; behind step B-3 of the next call all counters are exact. -/
theorem run_keeps_counters (p : BatchedParams K α) (calls : List (Call α)) (call : Call α)
    (hp : p.Usable) (hpos : 0 < n) (hallowed : AllowedRun p (create p n) (calls ++ [call])) :
    let s := run p (create p n) calls
    let m := s.rebalancingManager
    let planned := (s.insertionPhase p call.batch call.sched).withTasks p call.sched
    (∀ leaf < 2 ^ m.logCapacity, leaf ∉ s.recountingNodesMap.keys →
      (m.aggregate leaf 0).numberOfBlocks = m.trueBlocks (s.sdsView p) 0 leaf) ∧
    (∀ l < m.logCapacity, ∀ i < 2 ^ (m.logCapacity - (l + 1)),
      (m.aggregate i (l + 1)).numberOfBlocks =
        (m.aggregate (i * 2) l).numberOfBlocks + (m.aggregate (i * 2 + 1) l).numberOfBlocks) ∧
    (∀ l i, m.IsNode l i → (m.aggregate i l).rebalanced = false) ∧
    (∀ c, s.empty p c = false → m.lowestLevelNodeIndex c < 2 ^ m.logCapacity) ∧
    planned.rebalancingManager.CountersExact (planned.sdsView p) := by
  rw [allowedRun_append] at hallowed
  obtain ⟨hsound, -⟩ := sound_run hp hpos hallowed.1
  intro s m planned
  have htree : s.TreeValid p := hsound.quiet.tree
  have hmid := hsound.halfway hp hallowed.2.1
  refine ⟨htree.leaves, htree.consistent.sums, htree.flagsClear.rebalanced, fun c hc => ?_,
    (hmid.ready.ready_withTasks call.sched).counters⟩
  -- a cell that is not empty lies in front of the size
  have hlt : c < s.size := by
    by_contra hge
    rw [empty, if_pos (not_lt.mp hge)] at hc
    exact absurd hc (by simp)
  have hle := htree.size_le
  rw [htree.size_eq, htree.levels.capacity_eq] at hle
  exact lt_of_le_of_lt (Nat.div_le_div_right hlt.le) hle

theorem run_keeps_counters_secondBatch :
    let p := keyOnlyBatched 4 4
    let s := run p (create p 2) [⟨[2, 4, 6, 8], Schedule.sequential⟩]
    let planned := (s.insertionPhase p [1, 4, 5, 9] Schedule.sequential).withTasks p
      Schedule.sequential
    planned.rebalancingManager.CountersExact (planned.sdsView p) := by
  intro p s planned
  exact (run_keeps_counters (keyOnlyBatched 4 4) [⟨[2, 4, 6, 8], Schedule.sequential⟩]
    ⟨[1, 4, 5, 9], Schedule.sequential⟩ usable_keyOnlyBatched_four
    (by decide) twoBatches_allowed).2.2.2.2

/-- The leaves that ask for rebalancing behind the insertion phase `r`: what the call before has
left, and the leaves of the cells with blocks in the buffer. -/
def Requested (s r : BatchedSparseArray K α) (leaf : ℕ) : Prop :=
  leaf ∈ s.recountingNodesMap.flagged ∨
    ∃ c, s.rebalancingManager.lowestLevelNodeIndex c = leaf ∧ 0 < (r.bufferPointers c).length

lemma Halfway.flagged_iff (h : s.Halfway p batch r) (leaf : ℕ) :
    leaf ∈ r.recountingNodesMap.flagged ↔ s.Requested r leaf := by
  rw [h.done.flagged, h.result.marks]
  rfl

/-- Without blocks in the buffer a cell is as full as before. -/
lemma Halfway.empty_eq (h : s.Halfway p batch r) {c : ℕ}
    (hc : ¬ 0 < (r.bufferPointers c).length) : r.empty p c = s.empty p c := by
  rcases h.result.cells c with hkept | hbuffer
  · exact hkept.2
  · exact absurd hbuffer hc

/-- **Requests.**  In every call of a run the leaves that step B-2 takes for overfull are those of
the cells with blocks in the buffer, and leaf `0` after a call with a task for the root of the tree.
Every one is below a task, every task is above one, and outside of the tasks no block moves. -/
theorem run_serves_requests (p : BatchedParams K α) (calls : List (Call α)) (call : Call α)
    (hp : p.Usable) (hpos : 0 < n) (hallowed : AllowedRun p (create p n) (calls ++ [call])) :
    let s := run p (create p n) calls
    let inserted := s.insertionPhase p call.batch call.sched
    let planned := inserted.withTasks p call.sched
    let r := s.insertBatch p call.batch call.sched
    (∀ leaf, leaf ∈ inserted.recountingNodesMap.flagged ↔ s.Requested inserted leaf) ∧
    (∀ leaf, s.Requested inserted leaf →
      ∃ task ∈ planned.rebalancingTasks, task.rootNode.Covers leaf) ∧
    (∀ task ∈ planned.rebalancingTasks,
      ∃ leaf, s.Requested inserted leaf ∧ task.rootNode.Covers leaf) ∧
    (∀ c, ¬ planned.InTask c → r.pma c = inserted.pma c ∧ r.empty p c = s.empty p c) ∧
    (∀ leaf, leaf ∈ r.recountingNodesMap.flagged ↔ leaf = 0 ∧
      ∃ task ∈ planned.rebalancingTasks,
        task.rootNode = ⟨s.rebalancingManager.logCapacity, 0⟩) := by
  rw [allowedRun_append] at hallowed
  obtain ⟨hsound, -⟩ := sound_run hp hpos hallowed.1
  intro s inserted planned r
  have hmid := hsound.halfway hp hallowed.2.1
  have hready : inserted.Rebalanceable p := hmid.ready
  have hmanager : inserted.rebalancingManager = s.rebalancingManager :=
    (hmid.input.unchanged hmid.done).1
  refine ⟨hmid.flagged_iff, fun leaf hleaf => ?_, fun task ht => ?_, fun c hc => ⟨?_, ?_⟩,
    fun leaf => ?_⟩
  · exact hready.exists_task_covers call.sched ((hmid.flagged_iff leaf).mpr hleaf)
  · obtain ⟨leaf, hleaf, hcov⟩ := hready.exists_request call.sched ht
    exact ⟨leaf, (hmid.flagged_iff leaf).mp hleaf, hcov⟩
  · exact (hready.rebalanced call.sched).outside c hc
  · refine (hready.empty_outside call.sched hc).trans (hmid.empty_eq fun hbuffer => hc ?_)
    obtain ⟨task, ht, h1, h2⟩ := (hready.covered call.sched).buffers c hbuffer
    exact ⟨task, ht, h1, by rwa [hready.treeRange_task call.sched ht] at h2⟩
  · rw [← hmanager]
    exact hready.flagged_rebalancingPhase call.sched

theorem run_serves_requests_secondBatch :
    let p := keyOnlyBatched 4 4
    let s := run p (create p 2) [⟨[2, 4, 6, 8], Schedule.sequential⟩]
    let inserted := s.insertionPhase p [1, 4, 5, 9] Schedule.sequential
    ∀ leaf, s.Requested inserted leaf →
      ∃ task ∈ (inserted.withTasks p Schedule.sequential).rebalancingTasks,
        task.rootNode.Covers leaf := by
  intro p s inserted
  exact (run_serves_requests (keyOnlyBatched 4 4) [⟨[2, 4, 6, 8], Schedule.sequential⟩]
    ⟨[1, 4, 5, 9], Schedule.sequential⟩ usable_keyOnlyBatched_four
    (by decide) twoBatches_allowed).2.1

end BatchedSparseArray

end BatchPMA
