import BatchPMA.Block.MergeFaster
import BatchPMA.Model.State

/-!
# The two merges agree

`insertIntoBlockWithoutSplit` picks `merge` or `mergeFaster` by the number of elements.  On a sorted
batch both leave the same live elements, as long as no live key is the null key: `mergeFaster`
begins with the null key as the key written last.  The cells that `mergeFaster` accesses are listed
here step by step, to show that none of them lies outside the part of the block that is in use
afterwards at most.
-/

namespace BatchPMA

open KeyedUnion

variable {K α : Type} [LinearOrder K] {p : BlockParams K α}

namespace PmaEntry

variable {b : PmaEntry K α} {es written : List α}

namespace MergeFasterState

/-! ## Cells that are read or written -/

section Access

variable (p : BlockParams K α) (batch : List α) (st : MergeFasterState K α)

/-- The cells that an iteration of the first loop accesses, and by how much it increments `dupl`.
A cell is written unless the element has the key that was written last. -/
def stepAccess : List ℤ × ℕ :=
  let x := st.cells.getD (toUnsigned st.blockEnd) p.zero
  let y := batch.getD st.batchEnd.toNat p.zero
  let read : ℤ := toUnsigned st.blockEnd
  if p.keyOf x < p.keyOf y then
    if p.keyOf y ≠ st.lastWrittenKey then ([read, st.writeIndex], 0) else ([read], 1)
  else if p.keyOf x ≠ st.lastWrittenKey then ([read, st.writeIndex], 0)
  else ([read], 1)

/-- The same for the first loop. -/
def loopAccess : ℕ → MergeFasterState K α → List ℤ × ℕ
  | 0, _ => ([], 0)
  | n + 1, st =>
      if 0 ≤ st.blockEnd ∧ 0 ≤ st.batchEnd then
        ((st.stepAccess p batch).1 ++ (loopAccess n (st.step p batch)).1,
          (st.stepAccess p batch).2 + (loopAccess n (st.step p batch)).2)
      else ([], 0)

/-- The same for an iteration of the second loop. -/
def restStepAccess : List ℤ × ℕ :=
  if p.keyOf (batch.getD st.batchEnd.toNat p.zero) ≠ st.lastWrittenKey then ([st.writeIndex], 0)
  else ([], 1)

/-- The same for the second loop. -/
def restLoopAccess : ℕ → MergeFasterState K α → List ℤ × ℕ
  | 0, _ => ([], 0)
  | n + 1, st =>
      if 0 ≤ st.batchEnd then
        ((st.restStepAccess p batch).1 ++ (restLoopAccess n (st.restStep p batch)).1,
          (st.restStepAccess p batch).2 + (restLoopAccess n (st.restStep p batch)).2)
      else ([], 0)

/-- The cells that are accessed behind the loops: the one in front of the written part, those that
are moved forward, and the first one when the head is updated. -/
def finishAccess (total : ℕ) : List ℤ :=
  let numberOfDuplicates := st.numberOfDuplicates p total
  (if 0 ≤ st.blockEnd then [(toUnsigned st.blockEnd : ℤ)] else []) ++
    (if 0 < numberOfDuplicates then
      (List.range st.numberOfWrites).flatMap fun i : ℕ =>
        [(toUnsigned (st.emptyRegionStart p + i + numberOfDuplicates : ℕ) : ℤ),
          (st.emptyRegionStart p + i : ℕ)]
    else []) ++
    (if st.shiftedWriteIndex p total + 1 = 0 then [0] else [])

end Access

/-- A cell that belongs to the block afterwards at most. -/
def InUse (b : PmaEntry K α) (es : List α) (i : ℤ) : Prop := 0 ≤ i ∧ i < b.size + es.length

section Bounds

variable {st : MergeFasterState K α} {k n w : ℕ} (hb : b.Filled p)
  (hroom : b.size + es.length ≤ p.blockSize) (hsigned : p.blockSize ≤ 2 ^ 15)
include hb hroom hsigned

lemma Merging.stepAccess_inUse (h : Merging p b es written k n w st) (hpos : 0 < k) :
    ∀ i ∈ (st.stepAccess p es).1, InUse b es i := by
  have h1 := h.block_le
  have h2 := h.le_write
  have h3 := h.write_add
  have hlive := hb.length_live
  have hread : InUse b es (toUnsigned st.blockEnd) := by
    rw [h.blockEnd_eq, toUnsigned_pred hpos (by omega), InUse]
    omega
  have hwrite : InUse b es st.writeIndex := by
    rw [h.writeIndex_eq, InUse]
    omega
  intro i hi
  rw [stepAccess] at hi
  split_ifs at hi
  all_goals
    simp only [List.mem_cons, List.not_mem_nil, or_false] at hi
    rcases hi with rfl | rfl <;> assumption

/-- What is left to be read, what has been written and what has been skipped. -/
lemma Merging.stepAccess_count (h : Merging p b es written k n w st) (hinc : Increasing p es)
    (hpos : 0 < k) (hpos' : 0 < n) :
    (st.step p es).blockEnd + (st.step p es).batchEnd + (st.step p es).numberOfWrites +
      (st.stepAccess p es).2 = st.blockEnd + st.batchEnd + st.numberOfWrites := by
  have hbatch := h.batch_le
  have hend := h.batchEnd_eq
  have hcount := h.numberOfWrites_eq
  simp only [MergeFasterState.step, stepAccess]
  rw [h.toNat_batchEnd, firstOccurrence_eq hinc (by omega)]
  split
  · split
    · rw [h.write_eq hb hroom hsigned (by omega), List.length_cons]
      simp only
      omega
    · simp only
      omega
  · split
    · rw [h.write_eq hb hroom hsigned (by omega), List.length_cons]
      simp only
      omega
    · simp only
      omega

omit hb hroom hsigned in
lemma Merging.restStepAccess_inUse (h : Merging p b es written 0 n w st) (hpos : 0 < n) :
    ∀ i ∈ (st.restStepAccess p es).1, InUse b es i := by
  have h2 := h.le_write
  have h3 := h.write_add
  intro i hi
  rw [restStepAccess] at hi
  split at hi
  · rw [List.mem_singleton.mp hi, h.writeIndex_eq, InUse]
    omega
  · exact absurd hi List.not_mem_nil

lemma Merging.restStepAccess_count (h : Merging p b es written 0 n w st) (hpos : 0 < n) :
    (st.restStep p es).blockEnd + (st.restStep p es).batchEnd + (st.restStep p es).numberOfWrites +
      (st.restStepAccess p es).2 = st.blockEnd + st.batchEnd + st.numberOfWrites := by
  have hcount := h.numberOfWrites_eq
  simp only [MergeFasterState.restStep, restStepAccess]
  split
  · rw [h.write_eq hb hroom hsigned (by omega), List.length_cons]
    simp only
    omega
  · simp only
    omega

section Loops

variable (hinc : Increasing p es) (hnull : ∀ x ∈ es, p.keyOf x ≠ p.nullKey)
include hinc hnull

/-- The first loop stays within the block and counts what it skips. -/
lemma Merging.loopAccess : ∀ (m : ℕ) {st : MergeFasterState K α} {written : List α} {k n w : ℕ},
    Merging p b es written k n w st →
      (∀ i ∈ (MergeFasterState.loopAccess p es m st).1, InUse b es i) ∧
        (MergeFasterState.loop p es m st).blockEnd + (MergeFasterState.loop p es m st).batchEnd +
          (MergeFasterState.loop p es m st).numberOfWrites +
          (MergeFasterState.loopAccess p es m st).2 =
            st.blockEnd + st.batchEnd + st.numberOfWrites
  | 0, st, written, k, n, w, h => ⟨fun i hi => absurd hi List.not_mem_nil, add_zero _⟩
  | m + 1, st, written, k, n, w, h => by
      have hblockEnd := h.blockEnd_eq
      have hbatchEnd := h.batchEnd_eq
      rw [MergeFasterState.loopAccess, MergeFasterState.loop]
      split
      · rename_i hpos
        obtain ⟨_, _, _, _, h', -⟩ :=
          h.step hb hroom hsigned hinc.nonDecreasing hnull (by omega) (by omega)
        obtain ⟨ih1, ih2⟩ := Merging.loopAccess m h'
        have hcount := h.stepAccess_count hb hroom hsigned hinc (by omega) (by omega)
        refine ⟨fun i hi => ?_, by push_cast; omega⟩
        rcases List.mem_append.mp hi with hi | hi
        · exact h.stepAccess_inUse hb hroom hsigned (by omega) i hi
        · exact ih1 i hi
      · exact ⟨fun i hi => absurd hi List.not_mem_nil, add_zero _⟩

/-- The second loop. -/
lemma Merging.restLoopAccess :
    ∀ (m : ℕ) {st : MergeFasterState K α} {written : List α} {k n w : ℕ},
    Merging p b es written k n w st → (k = 0 ∨ n = 0) →
      (∀ i ∈ (MergeFasterState.restLoopAccess p es m st).1, InUse b es i) ∧
        (MergeFasterState.restLoop p es m st).blockEnd +
          (MergeFasterState.restLoop p es m st).batchEnd +
          (MergeFasterState.restLoop p es m st).numberOfWrites +
          (MergeFasterState.restLoopAccess p es m st).2 =
            st.blockEnd + st.batchEnd + st.numberOfWrites
  | 0, st, written, k, n, w, h, _ => ⟨fun i hi => absurd hi List.not_mem_nil, add_zero _⟩
  | m + 1, st, written, k, n, w, h, hend => by
      have hbatchEnd := h.batchEnd_eq
      rw [MergeFasterState.restLoopAccess, MergeFasterState.restLoop]
      split
      · rename_i hpos
        obtain rfl : k = 0 := by omega
        obtain ⟨_, _, h'⟩ := h.restStep hb hroom hsigned hinc.nonDecreasing hnull (by omega)
        obtain ⟨ih1, ih2⟩ := Merging.restLoopAccess m h' (Or.inl rfl)
        have hcount := h.restStepAccess_count hb hroom hsigned (by omega)
        refine ⟨fun i hi => ?_, by push_cast; omega⟩
        rcases List.mem_append.mp hi with hi | hi
        · exact h.restStepAccess_inUse (by omega) i hi
        · exact ih1 i hi
      · exact ⟨fun i hi => absurd hi List.not_mem_nil, add_zero _⟩

end Loops

/-- Behind the loops. -/
lemma Merging.finishAccess_inUse (h : Merging p b es written k n w st) (hne : es ≠ []) :
    ∀ i ∈ st.finishAccess p (b.size + es.length), InUse b es i := by
  have h1 := h.block_le
  have h2 := h.le_write
  have h3 := h.write_add
  have h4 := h.numberOfWrites_eq
  have hend := h.blockEnd_eq
  have hlive := hb.length_live
  have hpos := List.length_pos_iff.mpr hne
  intro i hi
  rw [finishAccess, h.numberOfDuplicates_eq hb hroom hsigned, h.emptyRegionStart_eq hb hsigned,
    List.mem_append, List.mem_append] at hi
  rw [InUse]
  rcases hi with (hi | hi) | hi
  · split at hi
    · rename_i h0
      rw [List.mem_singleton.mp hi, hend, toUnsigned_pred (by omega) (by omega)]
      omega
    · exact absurd hi List.not_mem_nil
  · split at hi
    · obtain ⟨j, hj, hi⟩ := List.mem_flatMap.mp hi
      have hj' := List.mem_range.mp hj
      rw [toUnsigned_of_lt (by omega)] at hi
      simp only [List.mem_cons, List.not_mem_nil, or_false] at hi
      rcases hi with rfl | rfl
      · omega
      · omega
    · exact absurd hi List.not_mem_nil
  · obtain rfl : i = 0 := by
      split_ifs at hi
      all_goals first | exact List.mem_singleton.mp hi | exact absurd hi List.not_mem_nil
    omega

end Bounds

end MergeFasterState

/-! ## The operation -/

/-- All cells that `mergeFaster` accesses. -/
def mergeFasterAccess (p : BlockParams K α) (b : PmaEntry K α) (batch : List α) : List ℤ :=
  let start := b.mergeFasterStart p batch
  (MergeFasterState.loopAccess p batch (b.size + batch.length) start).1 ++
    (MergeFasterState.restLoopAccess p batch batch.length
      (MergeFasterState.loop p batch (b.size + batch.length) start)).1 ++
    (b.mergeFasterEnd p batch).finishAccess p (b.size + batch.length)

/-- `dupl`, where the assertion compares it. -/
def mergeFasterDupl (p : BlockParams K α) (b : PmaEntry K α) (batch : List α) : ℕ :=
  let start := b.mergeFasterStart p batch
  (MergeFasterState.loopAccess p batch (b.size + batch.length) start).2 +
    (MergeFasterState.restLoopAccess p batch batch.length
      (MergeFasterState.loop p batch (b.size + batch.length) start)).2 +
    (if (b.mergeFasterEnd p batch).duplicate p then 1 else 0)

section Agreement

variable {batch : List α} (hsigned : p.blockSize ≤ 2 ^ 15) (hb : b.Filled p)
  (hinc : Increasing p batch) (hnull : ∀ x ∈ batch, p.keyOf x ≠ p.nullKey)
  (hroom : b.size + batch.length ≤ p.blockSize)
include hsigned hb hinc hnull hroom

/-- `mergeFaster` stays within the cells that are in use. -/
lemma Filled.mergeFasterAccess_inUse (hne : batch ≠ []) :
    ∀ i ∈ mergeFasterAccess p b batch, MergeFasterState.InUse b batch i := by
  have hstart := MergeFasterState.Merging.start hb hroom hsigned
  obtain ⟨_, _, _, _, h₁, hend₁⟩ := MergeFasterState.Merging.loop hb hroom hsigned
    hinc.nonDecreasing hnull (b.size + batch.length) hstart (le_refl _)
  obtain ⟨_, _, _, h⟩ := MergeFasterState.Merging.finish hb hroom hsigned hinc.nonDecreasing hnull
  intro i hi
  rw [mergeFasterAccess, List.mem_append, List.mem_append] at hi
  rcases hi with (hi | hi) | hi
  · exact (MergeFasterState.Merging.loopAccess hb hroom hsigned hinc hnull _ hstart).1 i hi
  · exact (MergeFasterState.Merging.restLoopAccess hb hroom hsigned hinc hnull _ h₁ hend₁).1 i hi
  · exact h.finishAccess_inUse hb hroom hsigned hne i hi

/-- Every element is left in place, written or counted as a duplicate. -/
lemma Filled.mergeFasterDupl_add : (mergeFasterDupl p b batch : ℤ) +
    (b.mergeFasterEnd p batch).numberOfWrites + ((b.mergeFasterEnd p batch).blockEnd + 1) =
      b.size + batch.length := by
  have hstart := MergeFasterState.Merging.start hb hroom hsigned
  obtain ⟨_, _, _, _, h₁, hend₁⟩ := MergeFasterState.Merging.loop hb hroom hsigned
    hinc.nonDecreasing hnull (b.size + batch.length) hstart (le_refl _)
  obtain ⟨_, _, _, h⟩ := MergeFasterState.Merging.finish hb hroom hsigned hinc.nonDecreasing hnull
  have hcount :=
    (MergeFasterState.Merging.loopAccess hb hroom hsigned hinc hnull (b.size + batch.length)
      hstart).2
  have hcount' :=
    (MergeFasterState.Merging.restLoopAccess hb hroom hsigned hinc hnull batch.length h₁ hend₁).2
  have hblockEnd := hstart.blockEnd_eq
  have hbatchEnd := hstart.batchEnd_eq
  have hwrites := hstart.numberOfWrites_eq
  have hdone := h.batchEnd_eq
  rw [mergeFasterDupl, h.duplicate_eq hb hsigned]
  rw [← mergeFasterEnd] at hcount'
  rw [List.length_nil] at hwrites
  simp only [Bool.false_eq_true, if_false]
  push_cast
  omega

/-- The assertion. -/
lemma Filled.mergeFasterDupl_eq : mergeFasterDupl p b batch =
    (b.mergeFasterEnd p batch).numberOfSkipped (b.size + batch.length) := by
  obtain ⟨_, k, w, h⟩ := MergeFasterState.Merging.finish hb hroom hsigned hinc.nonDecreasing hnull
  have hadd := hb.mergeFasterDupl_add hsigned hinc hnull hroom
  have hle := h.le_write
  have hwrite := h.write_add
  rw [h.numberOfSkipped_eq hroom hsigned]
  rw [h.blockEnd_eq, h.numberOfWrites_eq] at hadd
  omega

end Agreement

/-- **The fast merge equals the plain merge.**  Both leave the union, with the block's values for
equal keys, and the same head; `mergeFaster` accesses no cell outside `[0, size + n)`, and its
assertion about the number of duplicates, which are the elements that are neither written nor left
in place, holds. -/
theorem mergeFaster_eq_merge (p : BlockParams K α) (b : PmaEntry K α) (batch : List α)
    (hsigned : p.blockSize ≤ 2 ^ 15) (hb : b.Filled p) (hne : batch ≠ [])
    (hinc : Increasing p batch) (hnull : ∀ x ∈ batch, p.keyOf x ≠ p.nullKey)
    (hroom : b.size + batch.length ≤ p.blockSize)
    (hdead : ∀ d ∈ b.dead, ∀ x ∈ batch, p.keyOf d ≠ p.keyOf x) :
    IsUnion p.keyOf b.live batch (b.merge p batch).live ∧
      (b.mergeFaster p batch).live = (b.merge p batch).live ∧
      (b.mergeFaster p batch).size = (b.merge p batch).size ∧
      (b.mergeFaster p batch).head = (b.merge p batch).head ∧
      (b.merge p batch).head = p.keyOf ((b.merge p batch).get p 0) ∧
      (∀ i ∈ mergeFasterAccess p b batch, 0 ≤ i ∧ i < b.size + batch.length) ∧
      mergeFasterDupl p b batch =
        (b.mergeFasterEnd p batch).numberOfSkipped (b.size + batch.length) ∧
      (mergeFasterDupl p b batch : ℤ) + (b.mergeFasterEnd p batch).numberOfWrites +
        ((b.mergeFasterEnd p batch).blockEnd + 1) = b.size + batch.length := by
  have hfast := hb.mergeFaster_spec hsigned hroom hinc hnull
  have hplain := hb.merge_spec hroom hinc fun x hx =>
    ⟨hnull x hx, DeadFree.hidden fun d hd => hdead d hd x hx⟩
  have hlive : (b.mergeFaster p batch).live = (b.merge p batch).live :=
    hfast.union.unique hplain.union
  have hsize : (b.mergeFaster p batch).size = (b.merge p batch).size := by
    rw [← hfast.filled.length_live, hlive, hplain.filled.length_live]
  have hpos : 0 < (b.merge p batch).size := by
    rw [← hplain.filled.length_live]
    obtain ⟨x, hx⟩ := List.exists_mem_of_ne_nil batch hne
    obtain ⟨y, hy, -⟩ := hplain.union.exists_key hx
    exact List.length_pos_of_mem hy
  have hget : (b.mergeFaster p batch).get p 0 = (b.merge p batch).get p 0 := by
    rw [get_of_lt (by rw [hfast.filled.length_live]; omega),
      get_of_lt (by rw [hplain.filled.length_live]; omega)]
    simp only [hlive]
  refine ⟨hplain.union, hlive, hsize, ?_, hplain.filled.head_eq hpos, ?_,
    hb.mergeFasterDupl_eq hsigned hinc hnull hroom, hb.mergeFasterDupl_add hsigned hinc hnull hroom⟩
  · rw [hfast.filled.head_eq (by omega), hplain.filled.head_eq hpos, hget]
  · exact hb.mergeFasterAccess_inUse hsigned hinc hnull hroom hne

/-- A block with a duplicate in the middle and one at the end. -/
theorem mergeFaster_eq_merge_duplicates :
    let b : PmaEntry ℕ ℕ := ⟨some [3, 5, 9, 0, 0, 0, 0, 0], 3, 3⟩
    (b.mergeFaster (keyOnlyBlocks 8) [1, 5, 7, 9]).live = [1, 3, 5, 7, 9] ∧
      (b.mergeFaster (keyOnlyBlocks 8) [1, 5, 7, 9]).live =
        (b.merge (keyOnlyBlocks 8) [1, 5, 7, 9]).live := by
  refine ⟨by decide, (mergeFaster_eq_merge (keyOnlyBlocks 8) ⟨some [3, 5, 9, 0, 0, 0, 0, 0], 3, 3⟩
    [1, 5, 7, 9] (by decide) ⟨by decide, by decide, fun _ => by decide, ?_, ?_⟩ (by decide) ?_ ?_
    (by decide) ?_).2.1⟩
  all_goals simp [Increasing, live, cells, dead, keyOnlyBlocks]

/-- A block whose only element has the null key: `mergeFaster` takes it for the element written
last and drops it. -/
theorem mergeFaster_ne_merge_nullKey :
    let p : BlockParams ℕ ℕ := { keyOnlyBlocks 4 with nullKey := 5 }
    let b : PmaEntry ℕ ℕ := ⟨some [5, 0, 0, 0], 5, 1⟩
    (Increasing p b.live ∧ Increasing p [3] ∧ (∀ x ∈ [3], p.keyOf x ≠ p.nullKey) ∧
      b.size + [3].length ≤ p.blockSize ∧ ∀ d ∈ b.dead, ∀ x ∈ [3], p.keyOf d ≠ p.keyOf x) ∧
    (b.mergeFaster p [3]).live = [3] ∧ (b.merge p [3]).live = [3, 5] := by
  refine ⟨⟨?_, ?_, ?_, ?_, ?_⟩, by decide, by decide⟩
  all_goals simp [Increasing, live, cells, dead, keyOnlyBlocks]

end PmaEntry

end BatchPMA
