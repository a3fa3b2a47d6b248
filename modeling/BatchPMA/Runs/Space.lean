import BatchPMA.Rebalance.Requests
import BatchPMA.Runs.Batched

/-!
# How full the array is over runs

The array only grows for a task that reaches behind its end.  Such a task is one for a leaf, or one
for a node with a child above its threshold, so its range is filled to a fixed part.  As elements do
not disappear, the size stays within a fixed multiple of what the elements need.
-/

namespace BatchPMA

open KeyedUnion RebalancingManager Dyadic

namespace BatchedSparseArray

section Task

variable {K α : Type} [DecidableEq K] {p : BatchedParams K α} {s : BatchedSparseArray K α}

/-- A task that reaches behind the size is one for a leaf, or its range is well filled. -/
lemma Rebalanceable.filled (h : s.Rebalanceable p) (sched : Schedule) {task : RebalancingTask}
    (ht : task ∈ (s.withTasks p sched).rebalancingTasks) (hr : s.size < task.pmaRange.right) :
    task.pmaRange.right = p.segmentWidth ∨
      8 ≤ task.pmaRange.right ∧ task.pmaRange.right ≤ 3 * (s.blocks p).length := by
  have hshape := h.taskShape sched ht
  have hnode := (mem_keptNodes.mp ((h.exists_task_iff sched).mp ⟨task, ht, rfl⟩)).1
  obtain ⟨hl, hcrowd⟩ := h.tree.consistent.threshold_lt h.tree.flagsClear sched (s.sdsView p)
    h.unmarked h.rootFits hnode
  rw [hshape.behind hr] at hcrowd
  have hright : task.pmaRange.right = 2 ^ task.rootNode.level * p.segmentWidth := by
    rw [hshape.range_eq, hshape.behind hr, Nat.zero_add, Nat.one_mul]
  rcases hcrowd with h0 | hover
  · left
    rw [hright, h0, pow_zero, Nat.one_mul]
  · rcases Nat.eq_zero_or_pos task.rootNode.level with h0 | hpos
    · left
      rw [hright, h0, pow_zero, Nat.one_mul]
    · right
      obtain ⟨l, hlevel⟩ := Nat.exists_eq_succ_of_ne_zero hpos.ne'
      have hcap : s.updateState.manager.logCapacity = s.rebalancingManager.logCapacity := rfl
      have hle : l ≤ s.rebalancingManager.logCapacity := by omega
      -- the node has no more blocks than the root
      have hroot := h.toInserted.root_eq h.width_pos
      have hmono := subtotal_leftmost_le (s.updateState.leafCount (s.sdsView p)) hshape.level_le
      have hover' : s.rebalancingManager.threshold l < (s.blocks p).length := by
        rw [← hroot]
        refine lt_of_lt_of_le ?_ hmono
        rw [hlevel] at hover ⊢
        exact hover
      have hfilled := h.tree.le_threshold h.params hle
      have hwidth := h.params.segmentWidth_ge
      have hleaves : p.segmentWidth ≤ 2 ^ l * p.segmentWidth :=
        Nat.le_mul_of_pos_left _ (Nat.two_pow_pos l)
      rw [hright, hlevel, Nat.pow_succ', Nat.mul_assoc]
      omega

end Task

variable {K α : Type} [LinearOrder K]
variable {p : BatchedParams K α} {s : BatchedSparseArray K α} {n : ℕ}

/-- At most one segment, or a size within a fixed multiple of what the elements need in blocks that
are half full. -/
def Dense (p : BatchedParams K α) (s : BatchedSparseArray K α) : Prop :=
  s.size ≤ p.segmentWidth ∨
    p.minBlockSize * s.size ≤ 3 * (elements (s.blocks p)).length

lemma dense_create (p : BatchedParams K α) (numThreads : ℕ) : Dense p (create p numThreads) :=
  Or.inl (Nat.zero_le _)

/-- One call. -/
lemma Sound.dense_insertBatch (h : Sound p s) (hp : p.Usable) {call : Call α}
    (hc : call.Allowed p s) (hd : Dense p s) : Dense p (s.insertBatch p call.batch call.sched) := by
  have hmid := h.halfway hp hc
  obtain ⟨-, -, hsize, -⟩ := hmid.input.unchanged hmid.done
  have hcontent := (h.insertBatch hp hc).2.1
  have hnew : (s.insertBatch p call.batch call.sched).size =
      ((s.insertionPhase p call.batch call.sched).withTasks p call.sched).newPmaSize :=
    (hmid.ready.rebalanced call.sched).size_eq
  have hold : (s.insertionPhase p call.batch call.sched).size = s.size :=
    hmid.input.size_eq_of_done hmid.done
  rw [Dense, hcontent, hnew]
  rcases newPmaSize_cases (p := p) (s.insertionPhase p call.batch call.sched) call.sched with
    heq | ⟨task, ht, hlt, heq⟩
  · -- the size is that of before, and elements have only been added
    have hle : (elements (s.blocks p)).length ≤
        (mergeKeyed p.keyOf (elements (s.blocks p)) call.batch).length :=
      (isUnion_mergeKeyed h.blocks.increasing hc.increasing).length_old_le h.blocks.increasing
    rw [heq, hold]
    rcases hd with hone | hdense
    · exact Or.inl hone
    · exact Or.inr (by omega)
  · rw [heq, ← hmid.content]
    rcases hmid.ready.filled call.sched ht hlt with hone | ⟨height, hfilled⟩
    · exact Or.inl hone.le
    · -- more than one block, so all of them are large
      have hlarge : p.minBlockSize * ((s.insertionPhase p call.batch call.sched).blocks p).length ≤
          (elements ((s.insertionPhase p call.batch call.sched).blocks p)).length := by
        rcases hmid.result.sound.large with hone | hlarge
        · omega
        · exact le_length_elements hmid.result.sound.valid hlarge
      have hscaled := Nat.mul_le_mul_left p.minBlockSize hfilled
      rw [Nat.mul_left_comm] at hscaled
      refine Or.inr ?_
      omega

lemma Sound.dense_run (hp : p.Usable) : ∀ (calls : List (Call α)) {s : BatchedSparseArray K α},
    Sound p s → AllowedRun p s calls → Dense p s → Dense p (BatchedSparseArray.run p s calls) := by
  intro calls
  induction calls with
  | nil => exact fun _ _ hd => hd
  | cons call calls ih =>
      intro s h hallowed hd
      exact ih (h.insertBatch hp hallowed.1).1 hallowed.2 (h.dense_insertBatch hp hallowed.1 hd)

/-- **Space.**  In every state of a run the cells hold all elements, and unless the array is only
one segment long it has at most three times as many cells as there would be blocks of the least
size. -/
theorem run_size_bounds (p : BatchedParams K α) (calls : List (Call α)) (hp : p.Usable)
    (hpos : 0 < n) (hallowed : AllowedRun p (create p n) calls) :
    let s := run p (create p n) calls
    (allBatches p calls).length ≤ p.blockSize * s.size ∧
      (s.size ≤ p.segmentWidth ∨
        p.minBlockSize * s.size ≤ 3 * (allBatches p calls).length) := by
  intro s
  obtain ⟨hsound, hcontent, -⟩ := sound_run hp hpos hallowed
  have hdense := Sound.dense_run hp calls (sound_create p hpos) hallowed (dense_create p n)
  rw [Dense, hcontent] at hdense
  refine ⟨?_, hdense⟩
  rw [← hcontent]
  exact (length_elements_le hsound.blocks.valid).trans
    (Nat.mul_le_mul_left _ hsound.quiet.length_blocks_le)

/-- Two calls with two threads whose keys do not fit into one segment. -/
def growingBatches : List (Call ℕ) :=
  [⟨List.range' 1 20, Schedule.sequential⟩, ⟨List.range' 31 12, Schedule.sequential⟩]

lemma growingBatches_allowed : AllowedRun (keyOnlyBatched 4 4) (create (keyOnlyBatched 4 4) 2)
    growingBatches := by
  refine allowedRun_create usable_keyOnlyBatched_four (by decide) ?_ (by decide)
  simp only [growingBatches, List.forall_mem_cons]
  exact ⟨⟨by unfold Increasing; decide, by decide, by decide, Or.inr (by decide)⟩,
    ⟨by unfold Increasing; decide, by decide, by decide, Or.inr (by decide)⟩,
    fun _ h => absurd h List.not_mem_nil⟩

/-- The `32` keys take at least eight cells, and at most `48`. -/
theorem run_size_bounds_growingBatches :
    let p := keyOnlyBatched 4 4
    let s := run p (create p 2) growingBatches
    8 ≤ s.size ∧ s.size ≤ 48 := by
  have hlength : (allBatches (keyOnlyBatched 4 4) growingBatches).length = 32 := by decide
  have harith : ∀ size, 32 ≤ 4 * size ∧ (size ≤ 4 ∨ 2 * size ≤ 3 * 32) →
      8 ≤ size ∧ size ≤ 48 := by omega
  have h := run_size_bounds (keyOnlyBatched 4 4) growingBatches usable_keyOnlyBatched_four
    (by decide) growingBatches_allowed
  rw [hlength] at h
  exact harith _ h

end BatchedSparseArray

end BatchPMA
