import BatchPMA.OutOfPlace.Carry
import BatchPMA.InPlace.Shifting
import BatchPMA.Block.Copies

/-!
# What the post-processing leaves alone

Evening out moves elements between blocks of the swap array and removes the merge blocks from the
main array.  Everything in the new blocks comes from old ones, the other fields of the state stay as
they are, and behind the loop no merge block is left.
-/

namespace BatchPMA

namespace OverallocatedBatchedSparseArray

variable {K α : Type} [LinearOrder K] {p : OverallocatedParams K α}
  {s s' : OverallocatedBatchedSparseArray K α} {b carry : PmaEntry K α} {k n t : ℕ}
  {acc : OverallocatedBatchedSparseArray K α × PmaEntry K α}

/-! ## Blocks made of cells of the swap array -/

/-- Every property of elements that all cells of the swap array have. -/
def FromSwap (p : OverallocatedParams K α) (s : OverallocatedBatchedSparseArray K α)
    (b : PmaEntry K α) : Prop :=
  ∀ P : α → Prop, P p.zero → (∀ c, (s.swapPma c).Holds P) → b.Holds P

section

omit [LinearOrder K]

lemma fromSwap_null (s : OverallocatedBatchedSparseArray K α) :
    FromSwap p s (PmaEntry.null p.toBlockParams) := fun _ _ _ => PmaEntry.holds_null _

lemma fromSwap_swapPma (s : OverallocatedBatchedSparseArray K α) (c : ℕ) :
    FromSwap p s (s.swapPma c) := fun _ _ h => h c

lemma FromSwap.mergeSmaller (h : FromSwap p s b) (hc : FromSwap p s carry) :
    FromSwap p s (b.mergeSmaller p.toBlockParams carry) :=
  fun P h1 h2 => (h P h1 h2).mergeSmaller (hc P h1 h2)

lemma FromSwap.steal (hc : FromSwap p s carry) (h : FromSwap p s b) :
    FromSwap p s (carry.steal p.toBlockParams b).1 ∧
      FromSwap p s (carry.steal p.toBlockParams b).2 :=
  ⟨fun P h1 h2 => ((hc P h1 h2).steal (h P h1 h2)).1,
    fun P h1 h2 => ((hc P h1 h2).steal (h P h1 h2)).2⟩

lemma FromSwap.stealFromSmaller (hc : FromSwap p s carry) (h : FromSwap p s b) :
    FromSwap p s (carry.stealFromSmaller p.toBlockParams b).1 ∧
      FromSwap p s (carry.stealFromSmaller p.toBlockParams b).2 :=
  ⟨fun P h1 h2 => ((hc P h1 h2).stealFromSmaller (h P h1 h2)).1,
    fun P h1 h2 => ((hc P h1 h2).stealFromSmaller (h P h1 h2)).2⟩

/-! ## The steps -/

/-- A state in the course of the post-processing of `s`, with `k` tasks behind it. -/
structure Cleaning (p : OverallocatedParams K α) (s : OverallocatedBatchedSparseArray K α) (k : ℕ)
    (s' : OverallocatedBatchedSparseArray K α) : Prop where
  frame : s' = { s with
    pma := s'.pma
    swapPma := s'.swapPma
    tasks := s'.tasks }
  tasks_eq : ∀ t, s'.tasks t =
    { s.tasks t with numberOfBlocksWritten := (s'.tasks t).numberOfBlocksWritten }
  swap : ∀ c, FromSwap p s (s'.swapPma c)
  cell : ∀ c, s'.pma c = s.pma c ∨ s'.pma c = PmaEntry.null p.toBlockParams
  deleted : ∀ t < k, 0 < t → (s.tasks t).type = .insertion →
    (s.tasks (t - 1)).type = .inverseMerge →
    s'.pma (s.tasks (t - 1)).blockForBatchSplitter = PmaEntry.null p.toBlockParams

lemma cleaning_refl (s : OverallocatedBatchedSparseArray K α) : Cleaning p s 0 s where
  frame := rfl
  tasks_eq := fun _ => rfl
  swap := fromSwap_swapPma s
  cell := fun _ => Or.inl rfl
  deleted := fun t ht => absurd ht (Nat.not_lt_zero t)

lemma Cleaning.setSwap (h : Cleaning p s k s') (hb : FromSwap p s b) (index : ℕ) :
    Cleaning p s k (s'.setSwap index b) where
  frame := by
    rw [h.frame]
    rfl
  tasks_eq := h.tasks_eq
  swap := by
    intro c
    rw [OverallocatedBatchedSparseArray.setSwap]
    by_cases hc : c = index
    · simp only [hc, Function.update_self]
      exact hb
    · simp only [ne_eq, hc, not_false_eq_true, Function.update_of_ne]
      exact h.swap c
  cell := h.cell
  deleted := h.deleted

/-- The number of blocks of a task changes. -/
lemma Cleaning.setWritten (h : Cleaning p s k s') (f : ℕ → ℕ) (thread : ℕ) :
    Cleaning p s k (s'.setTask thread fun task =>
      { task with numberOfBlocksWritten := f task.numberOfBlocksWritten }) where
  frame := by
    rw [h.frame]
    rfl
  tasks_eq := by
    intro t
    rw [setTask]
    by_cases ht : t = thread
    · subst ht
      simp only [Function.update_self]
      rw [h.tasks_eq t]
    · simp only [ne_eq, ht, not_false_eq_true, Function.update_of_ne]
      exact h.tasks_eq t
  swap := h.swap
  cell := h.cell
  deleted := h.deleted

lemma Cleaning.addWrittenBlock (h : Cleaning p s k s') (thread : ℕ) :
    Cleaning p s k (s'.addWrittenBlock thread) := h.setWritten (· + 1) thread

lemma Cleaning.mergeCarry (h : Cleaning p s k s') (hc : FromSwap p s carry) (thread : ℕ) :
    Cleaning p s k (s'.mergeCarry p carry thread) := by
  rw [OverallocatedBatchedSparseArray.mergeCarry]
  simp only
  split
  · exact h.setSwap ((h.swap _).mergeSmaller hc) _
  · obtain ⟨h1, h2⟩ := hc.steal (h.swap (s'.tasks thread).startIndex)
    exact ((h.setSwap h2 _).setSwap h1 _).addWrittenBlock _

lemma Cleaning.takeCarry (h : Cleaning p s k s') (hc : FromSwap p s carry) (thread : ℕ) :
    Cleaning p s k (s'.takeCarry p carry thread).1 ∧
      FromSwap p s (s'.takeCarry p carry thread).2 := by
  rw [OverallocatedBatchedSparseArray.takeCarry]
  simp only
  split
  · split
    · exact ⟨(h.setSwap (fromSwap_null s) _).setWritten (· - 1) thread, h.swap _⟩
    · exact ⟨h, hc⟩
  · exact ⟨h, hc⟩

lemma Cleaning.mergeLastCarry (h : Cleaning p s k s') (hc : FromSwap p s carry) (thread : ℕ) :
    Cleaning p s k (s'.mergeLastCarry p carry thread) := by
  rw [OverallocatedBatchedSparseArray.mergeLastCarry]
  simp only
  split
  · exact h.setSwap (hc.mergeSmaller (h.swap _)) _
  · obtain ⟨h1, h2⟩ := hc.stealFromSmaller
      (h.swap ((s'.tasks thread).startIndex + (s'.tasks thread).numberOfBlocksWritten - 1))
    split
    · exact ((h.setSwap h2 _).setSwap h1 _).addWrittenBlock _
    · exact ((h.setSwap h2 _).setSwap h1 _).addWrittenBlock _

lemma Cleaning.placeCarry (h : Cleaning p s k s') (hc : FromSwap p s carry) : ∀ m : ℕ,
    Cleaning p s k (placeCarry p carry m s') := by
  intro m
  induction m with
  | zero => exact h
  | succ m ih =>
      rw [OverallocatedBatchedSparseArray.placeCarry]
      split
      · exact h.mergeLastCarry hc m
      · exact ih

end

/-- The merge block of a group is removed. -/
lemma Cleaning.deleteMergeBlock
    (hcells : ∀ c, s.pma c = PmaEntry.null p.toBlockParams ∨ (s.pma c).Valid p.toBlockParams)
    (h : Cleaning p s k s') : Cleaning p s (k + 1) (s'.deleteMergeBlock p k) := by
  have hsame : ∀ c, s'.pma c = PmaEntry.null p.toBlockParams ∨ (s'.pma c).Valid p.toBlockParams := by
    intro c
    rcases h.cell c with heq | hnull
    · rw [heq]
      exact hcells c
    · exact Or.inl hnull
  have hkeep : (¬ (0 < k ∧ (s'.tasks k).type = .insertion ∧
      (s'.tasks (k - 1)).type = .inverseMerge) ∨
        s'.pma (s.tasks (k - 1)).blockForBatchSplitter = PmaEntry.null p.toBlockParams) →
      Cleaning p s (k + 1) s' := by
    intro hcase
    refine ⟨h.frame, h.tasks_eq, h.swap, h.cell, fun t ht h0 h1 h2 => ?_⟩
    rcases Nat.lt_succ_iff_lt_or_eq.mp ht with hlt | rfl
    · exact h.deleted t hlt h0 h1 h2
    · refine hcase.resolve_left fun hno => hno ⟨h0, ?_, ?_⟩
      · rw [h.tasks_eq]
        exact h1
      · rw [h.tasks_eq]
        exact h2
  rw [OverallocatedBatchedSparseArray.deleteMergeBlock]
  have hblock : (s'.tasks (k - 1)).blockForBatchSplitter =
      (s.tasks (k - 1)).blockForBatchSplitter := by
    rw [h.tasks_eq]
  split
  · simp only [hblock]
    split
    · rename_i hempty
      refine hkeep (Or.inr ?_)
      rcases hsame (s.tasks (k - 1)).blockForBatchSplitter with hnull | hvalid
      · exact hnull
      · rw [empty_eq_isEmpty (Or.inr hvalid), hvalid.isEmpty_eq] at hempty
        exact absurd hempty Bool.false_ne_true
    · refine ⟨?_, h.tasks_eq, h.swap, fun c => ?_, fun t ht h0 h1 h2 => ?_⟩
      · rw [h.frame]
      · by_cases hc : c = (s.tasks (k - 1)).blockForBatchSplitter
        · right
          simp only [hc, Function.update_self]
        · simp only [ne_eq, hc, not_false_eq_true, Function.update_of_ne]
          exact h.cell c
      · rcases Nat.lt_succ_iff_lt_or_eq.mp ht with hlt | rfl
        · by_cases hc : (s.tasks (t - 1)).blockForBatchSplitter =
              (s.tasks (k - 1)).blockForBatchSplitter
          · simp only [hc, Function.update_self]
          · simp only [ne_eq, hc, not_false_eq_true, Function.update_of_ne]
            exact h.deleted t hlt h0 h1 h2
        · simp only [Function.update_self]
  · exact hkeep (Or.inl (by assumption))

/-- One iteration. -/
lemma Cleaning.postprocessTask
    (hcells : ∀ c, s.pma c = PmaEntry.null p.toBlockParams ∨ (s.pma c).Valid p.toBlockParams)
    (h : Cleaning p s k acc.1) (hc : FromSwap p s acc.2) :
    Cleaning p s (k + 1) (postprocessTask p acc k).1 ∧
      FromSwap p s (postprocessTask p acc k).2 := by
  simp only [OverallocatedBatchedSparseArray.postprocessTask]
  by_cases hcarry : acc.2.isEmpty = false ∧ 0 < (acc.1.tasks k).numberOfBlocksWritten
  · obtain ⟨h1, h2⟩ := (h.mergeCarry hc k).takeCarry (fromSwap_null s) k
    rw [if_pos hcarry]
    exact ⟨h1.deleteMergeBlock hcells, h2⟩
  · obtain ⟨h1, h2⟩ := h.takeCarry hc k
    rw [if_neg hcarry]
    exact ⟨h1.deleteMergeBlock hcells, h2⟩

/-- **The whole post-processing.** -/
theorem cleaning_postprocess
    (hcells : ∀ c, s.pma c = PmaEntry.null p.toBlockParams ∨ (s.pma c).Valid p.toBlockParams)
    (n : ℕ) : Cleaning p s n (s.postprocessInverseMergeTasks p n) := by
  have hrun : ∀ m, Cleaning p s m (s.carriedTo p m).1 ∧ FromSwap p s (s.carriedTo p m).2 := by
    intro m
    induction m with
    | zero => exact ⟨cleaning_refl s, fromSwap_null s⟩
    | succ m ih =>
        rw [carriedTo, List.range_succ, List.foldl_append]
        exact Cleaning.postprocessTask hcells ih.1 ih.2
  obtain ⟨h, hc⟩ := hrun n
  rw [postprocessInverseMergeTasks_eq]
  split
  · exact h
  · exact h.placeCarry hc n

end OverallocatedBatchedSparseArray

end BatchPMA
