import BatchPMA.Model.InPlace
import BatchPMA.Block.Copies

/-!
# Path A makes up no elements

Whatever holds of all cells of all blocks and of the batch still holds of all cells when the tasks
of path A have run, in whatever order they take turns.
-/

namespace BatchPMA

namespace OverallocatedBatchedSparseArray

variable {K α : Type} {p : OverallocatedParams K α} {s : OverallocatedBatchedSparseArray K α}
  {P : α → Prop} {batch es : List α} {b : PmaEntry K α}

/-- All cells of all blocks. -/
def AllHold (P : α → Prop) (pma : ℕ → PmaEntry K α) : Prop := ∀ c, (pma c).Holds P

lemma AllHold.update {pma : ℕ → PmaEntry K α} (h : AllHold P pma) (hb : b.Holds P) (index : ℕ) :
    AllHold P (Function.update pma index b) := by
  intro c
  by_cases hc : c = index
  · rw [hc, Function.update_self]
    exact hb
  · rw [Function.update_of_ne hc]
    exact h c

/-! ## Shifting -/

lemma AllHold.swapUp : ∀ (n : ℕ) {pma : ℕ → PmaEntry K α} {carry : PmaEntry K α} (shift : ℕ),
    AllHold P pma → carry.Holds P →
    AllHold P (swapUp n pma carry shift).1 ∧ (swapUp n pma carry shift).2.1.Holds P := by
  intro n
  induction n with
  | zero =>
      intro pma carry shift h hc
      exact ⟨h, hc⟩
  | succ n ih =>
      intro pma carry shift h hc
      rw [OverallocatedBatchedSparseArray.swapUp]
      split
      · exact ⟨h, hc⟩
      · exact ih (shift + 1) (h.update hc shift) (h shift)

lemma AllHold.swapDown : ∀ (n : ℕ) {pma : ℕ → PmaEntry K α} {carry : PmaEntry K α} (stop : ℕ),
    AllHold P pma → carry.Holds P →
    AllHold P (swapDown n pma carry stop).1 ∧ (swapDown n pma carry stop).2.1.Holds P := by
  intro n
  induction n with
  | zero =>
      intro pma carry stop h hc
      exact ⟨h, hc⟩
  | succ n ih =>
      intro pma carry stop h hc
      rw [OverallocatedBatchedSparseArray.swapDown]
      split
      · exact ⟨h, hc⟩
      · exact ih (stop - 1) (h.update hc (stop - 1)) (h (stop - 1))

section

variable [DecidableEq K]

lemma AllHold.writeBlockInPlace (h : AllHold P s.pma) (hb : b.Holds P) (targetIndex : ℕ)
    (pmaRange : Interval) : AllHold P (s.writeBlockInPlace p b targetIndex pmaRange).array.pma := by
  rw [OverallocatedBatchedSparseArray.writeBlockInPlace]
  split
  · exact (h.swapDown _ _ hb).1
  · split
    · obtain ⟨h1, h2⟩ := h.swapUp (pmaRange.right - targetIndex) targetIndex hb
      simp only
      split
      · exact h1
      · exact (h1.swapDown _ _ h2).1
    · exact h.update hb targetIndex

lemma AllHold.writeBlocksInPlace (pmaRange : Interval) : ∀ (blocks : List (PmaEntry K α))
    (index : ℕ) {s : OverallocatedBatchedSparseArray K α}, AllHold P s.pma →
    (∀ b ∈ blocks, b.Holds P) → AllHold P (writeBlocksInPlace p pmaRange blocks index s).1.pma := by
  intro blocks
  induction blocks with
  | nil =>
      intro index s h _
      exact h
  | cons b blocks ih =>
      intro index s h hb
      rw [List.forall_mem_cons] at hb
      exact ih _ (h.writeBlockInPlace hb.1 index pmaRange) hb.2

end

/-! ## The tasks -/

section

variable [LinearOrder K] (hzero : P p.zero)
include hzero

lemma holds_mergeElements (hb : b.Holds P) (hes : ∀ x ∈ es, P x) :
    (mergeElements p b es).Holds P := by
  rw [mergeElements]
  split
  · exact hb.mergeFaster hzero hes
  · exact hb.merge hzero hes

lemma AllHold.insertElementsIntoBlock (h : AllHold P s.pma) (hes : ∀ x ∈ es, P x)
    (blockIndex : ℕ) (pmaRange : Interval) :
    AllHold P (s.insertElementsIntoBlock p blockIndex es pmaRange).1.pma := by
  rw [OverallocatedBatchedSparseArray.insertElementsIntoBlock]
  split
  · exact h.update (holds_mergeElements hzero (h blockIndex) hes) blockIndex
  · exact AllHold.writeBlocksInPlace pmaRange _ blockIndex
      (h.update (PmaEntry.holds_null _) blockIndex) (holds_splitBlocks hzero (h blockIndex) hes)

variable (hbatch : ∀ x ∈ batch, P x)
include hbatch

lemma AllHold.inPlaceTurn
    {acc : OverallocatedBatchedSparseArray K α × (ℕ → InPlaceCursor K α)}
    (h : AllHold P acc.1.pma) (thread : ℕ) : AllHold P (inPlaceTurn p batch acc thread).1.pma := by
  simp only [OverallocatedBatchedSparseArray.inPlaceTurn, insertBatchStep]
  split
  · refine h.insertElementsIntoBlock hzero (fun x hx => hbatch x ?_) _ _
    exact List.mem_of_mem_drop (List.mem_of_mem_take hx)
  · exact h

/-- **Path A makes up no elements.** -/
theorem AllHold.runInPlace (h : AllHold P s.pma) (numberOfThreads : ℕ) (turns : List ℕ) :
    AllHold P (s.runInPlace p batch numberOfThreads turns).1.pma := by
  have hrun : ∀ (ts : List ℕ) {acc : OverallocatedBatchedSparseArray K α × (ℕ → InPlaceCursor K α)},
      AllHold P acc.1.pma → AllHold P (ts.foldl (OverallocatedBatchedSparseArray.inPlaceTurn p batch)
        acc).1.pma := by
    intro ts
    induction ts with
    | nil => exact fun h => h
    | cons t ts ih => exact fun h => ih (h.inPlaceTurn hzero hbatch t)
  exact hrun _ h

end

end OverallocatedBatchedSparseArray

end BatchPMA
