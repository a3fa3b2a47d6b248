import BatchPMA.Insertion.Interference
import BatchPMA.Insertion.Settled

/-!
# The footprint of a task

What a task of step A-6 does is decided by the state in front of the step: it reads and writes the
cells of its own pma range, or reads its merge block, and no other task touches these.
-/

namespace BatchPMA

open KeyedUnion Ranges

variable {K α : Type} [LinearOrder K]

namespace BatchedSparseArray

variable {p : BatchedParams K α} {s r r' : BatchedSparseArray K α} {batch : List α} {t : ℕ}
  {batchRange pmaRange bufferRange : Interval}

/-! ## States that look alike -/

/-- The same pma, and the same buffer pointers for the cells of `S`. -/
structure Alike (S : Set ℕ) (r r' : BatchedSparseArray K α) : Prop where
  size_eq : r'.size = r.size
  pma_eq : r'.pma = r.pma
  pointers : ∀ c ∈ S, r'.bufferPointers c = r.bufferPointers c

section Alike

variable {S : Set ℕ}

lemma Alike.view_eq (h : Alike S r r') : r'.view p = r.view p := by
  have hempty : r'.empty p = r.empty p := by
    funext c
    exact empty_congr h.size_eq (congrFun h.pma_eq c)
  rw [view, view, h.size_eq, h.pma_eq, hempty]

lemma Alike.findLastBatchElementForBlock_eq (h : Alike S r r') (n next : ℕ) :
    r'.findLastBatchElementForBlock p batch n batchRange next pmaRange =
      r.findLastBatchElementForBlock p batch n batchRange next pmaRange := by
  rw [findLastBatchElementForBlock, findLastBatchElementForBlock, h.view_eq]

lemma Alike.insertElementsIntoBlock (h : Alike S r r') (c : ℕ) (elements : List α)
    (bufferRange : Interval) (k : ℕ) :
    Alike S (r.insertElementsIntoBlock p c elements bufferRange k).1
        (r'.insertElementsIntoBlock p c elements bufferRange k).1 ∧
      (r'.insertElementsIntoBlock p c elements bufferRange k).2 =
        (r.insertElementsIntoBlock p c elements bufferRange k).2 := by
  rw [BatchedSparseArray.insertElementsIntoBlock, BatchedSparseArray.insertElementsIntoBlock,
    h.pma_eq]
  split
  · rw [insertIntoBlockWithoutSplit, insertIntoBlockWithoutSplit, h.pma_eq]
    exact ⟨⟨h.size_eq, rfl, h.pointers⟩, rfl⟩
  · rw [insertIntoBlockWithSplit, insertIntoBlockWithSplit, h.pma_eq]
    refine ⟨⟨h.size_eq, rfl, fun j hj => ?_⟩, rfl⟩
    simp only [Function.update_apply]
    split
    · rfl
    · exact h.pointers j hj

lemma Alike.insertBatchLoop : ∀ (fuel n block : ℕ)
    {acc acc' : BatchedSparseArray K α × List (BufferWrite K α)}, Alike S acc.1 acc'.1 →
    acc'.2 = acc.2 →
      Alike S (insertBatchLoop p batch batchRange pmaRange bufferRange fuel n block acc).1.1
          (insertBatchLoop p batch batchRange pmaRange bufferRange fuel n block acc').1.1 ∧
        (insertBatchLoop p batch batchRange pmaRange bufferRange fuel n block acc').1.2 =
          (insertBatchLoop p batch batchRange pmaRange bufferRange fuel n block acc).1.2
  | 0, _, _, _, _, h, hw => ⟨h, hw⟩
  | fuel + 1, n, block, acc, acc', h, hw => by
      rw [BatchedSparseArray.insertBatchLoop, BatchedSparseArray.insertBatchLoop]
      split
      · simp only [h.view_eq, h.findLastBatchElementForBlock_eq, hw]
        obtain ⟨h1, h2⟩ := h.insertElementsIntoBlock (p := p)
          ((acc.1.view p).exponentialSearch (batchKey p.toBlockParams batch n) block pmaRange.right)
          (batchPart batch ⟨n, acc.1.findLastBatchElementForBlock p batch n batchRange
            ((acc.1.view p).findNext ((acc.1.view p).exponentialSearch
              (batchKey p.toBlockParams batch n) block pmaRange.right) pmaRange.right) pmaRange⟩)
          bufferRange acc.2.length
        exact Alike.insertBatchLoop fuel _ _ h1 (by rw [h2])
      · exact ⟨h, hw⟩

lemma Alike.insertBatchRange (h : Alike S r r') (hne : pmaRange.length ≠ 0) (batch : List α)
    (batchRange bufferRange : Interval) :
    Alike S (r.insertBatchRange p batch batchRange pmaRange bufferRange).1
        (r'.insertBatchRange p batch batchRange pmaRange bufferRange).1 ∧
      (r'.insertBatchRange p batch batchRange pmaRange bufferRange).2 =
        (r.insertBatchRange p batch batchRange pmaRange bufferRange).2 := by
  rw [BatchedSparseArray.insertBatchRange, BatchedSparseArray.insertBatchRange, if_neg hne,
    if_neg hne]
  exact Alike.insertBatchLoop _ _ _ h rfl

end Alike

lemma insertBatchLoop_frame : ∀ (fuel n block : ℕ)
    (acc : BatchedSparseArray K α × List (BufferWrite K α)),
    (insertBatchLoop p batch batchRange pmaRange bufferRange fuel n block acc).1.1 = { acc.1 with
      pma := (insertBatchLoop p batch batchRange pmaRange bufferRange fuel n block acc).1.1.pma
      bufferPointers := (insertBatchLoop p batch batchRange pmaRange bufferRange fuel n block
        acc).1.1.bufferPointers }
  | 0, _, _, _ => rfl
  | fuel + 1, n, block, acc => by
      rw [insertBatchLoop]
      split
      · simp only
        refine (insertBatchLoop_frame fuel _ _ _).trans ?_
        rw [insertElementsIntoBlock]
        split <;> rfl
      · rfl

/-! ## One range -/

/-- What a task does to the cells of a set: it gives them the values of `own`, and changes nothing
else but them. -/
structure Effect (cells : Set ℕ) (own r r' : BatchedSparseArray K α) : Prop where
  frame : r' = { r with
    pma := r'.pma
    bufferPointers := r'.bufferPointers }
  inside : ∀ c ∈ cells, r'.pma c = own.pma c ∧ r'.bufferPointers c = own.bufferPointers c
  outside : ∀ c ∉ cells, r'.pma c = r.pma c ∧ r'.bufferPointers c = r.bufferPointers c

omit [LinearOrder K] in
lemma Effect.refl {own : BatchedSparseArray K α} : Effect ∅ own r r :=
  ⟨rfl, fun _ hc => absurd hc (Set.notMem_empty _), fun _ _ => ⟨rfl, rfl⟩⟩

/-- **An insertion task among others** makes the calls and writes the cells that it would make and
write alone. -/
lemma RangeInput.effect (h : s.RangeInput p batch batchRange pmaRange) (bufferRange : Interval)
    (hsize : r.size = s.size)
    (hcells : ∀ c, pmaRange.contains c → r.pma c = s.pma c ∧
      r.bufferPointers c = s.bufferPointers c) :
    (r.insertBatchRange p batch batchRange pmaRange bufferRange).2 =
        (s.insertBatchRange p batch batchRange pmaRange bufferRange).2 ∧
      Effect {c | pmaRange.contains c}
        (s.insertBatchRange p batch batchRange pmaRange bufferRange).1 r
        (r.insertBatchRange p batch batchRange pmaRange bufferRange).1 := by
  have hlt := h.left_lt
  have hne : pmaRange.length ≠ 0 := by rw [Interval.length]; omega
  -- the state of the beginning with the buffer pointers of now
  have hy : RangeInput p { s with bufferPointers := r.bufferPointers } batch batchRange pmaRange :=
    { h with
      pointers := fun c h1 h2 => (hcells c ⟨h1, h2⟩).2.trans (h.pointers c h1 h2) }
  obtain ⟨out, st, hiso, -⟩ := hy.isolated bufferRange r.pma
  have halike : Alike {c | pmaRange.contains c} s { s with bufferPointers := r.bufferPointers } :=
    ⟨rfl, rfl, fun c hc => (hcells c hc).2⟩
  obtain ⟨h1, h2⟩ := halike.insertBatchRange (p := p) hne batch batchRange bufferRange
  have hnow : Alike Set.univ
      (withOutside pmaRange r.pma { s with bufferPointers := r.bufferPointers }) r := by
    refine ⟨hsize, ?_, fun c _ => rfl⟩
    funext c
    by_cases hc : pmaRange.left ≤ c ∧ c < pmaRange.right
    · rw [withOutside_pma hc.1 hc.2]
      exact (hcells c hc).1
    · exact (if_neg hc).symm
  obtain ⟨h3, h4⟩ := hnow.insertBatchRange (p := p) hne batch batchRange bufferRange
  rw [hiso] at h3 h4
  refine ⟨h4.trans h2, ?_, fun c hc => ⟨?_, ?_⟩, fun c hc => ⟨?_, ?_⟩⟩
  · rw [insertBatchRange, if_neg hne]
    exact insertBatchLoop_frame _ _ _ _
  · rw [h3.pma_eq, withOutside_pma hc.1 hc.2, h1.pma_eq]
  · rw [h3.pointers c (Set.mem_univ c)]
    exact h1.pointers c hc
  · rw [h3.pma_eq]
    exact if_neg hc
  · have hc' : c < pmaRange.left ∨ pmaRange.right ≤ c := by
      by_contra hin
      exact hc ⟨by omega, by omega⟩
    rw [h3.pointers c (Set.mem_univ c)]
    refine (st.pointers c).trans ?_
    rw [(st.outside c hc').2]
    rfl

/-! ## One task -/

/-- The task of a thread in the state in front of step A-6. -/
def ownTask (p : BatchedParams K α) (s : BatchedSparseArray K α) (batch : List α) (t : ℕ) :
    BatchedSparseArray K α × List (BufferWrite K α) :=
  (s.prepareInsertion p batch).insertionTask p batch t

/-- The cells that a task writes: its pma range, or the first cell if there are no blocks. -/
def taskCells (p : BatchedParams K α) (s : BatchedSparseArray K α) (batch : List α) (t : ℕ) :
    Set ℕ :=
  {c | (s.plannedTask p batch t).type = .insertion ∧
    s.firstOf p batch t < s.firstOf p batch (t + 1) ∧ s.blockOf p batch t ≤ c ∧
    c < max (s.blockOf p batch (t + 1)) (s.blockOf p batch t + 1)}

/-- The tasks are those of step A-4. -/
def Planned (p : BatchedParams K α) (s : BatchedSparseArray K α) (batch : List α)
    (r : BatchedSparseArray K α) : Prop :=
  ∀ t ≤ s.numberOfThreads, ∃ n, r.tasks t =
    { s.plannedTask p batch t with numberOfBlocksWritten := n }

/-- No other task has touched what the task reads. -/
structure Untouched (p : BatchedParams K α) (s : BatchedSparseArray K α) (batch : List α) (t : ℕ)
    (r : BatchedSparseArray K α) : Prop where
  size_eq : r.size = s.size
  tasks : Planned p s batch r
  cells : ∀ c ∈ s.taskCells p batch t, r.pma c = s.pma c ∧
    r.bufferPointers c = (s.prepareInsertion p batch).bufferPointers c
  merge : (s.plannedTask p batch t).type = .inverseMerge →
    r.pma (s.blockOf p batch t) = s.pma (s.blockOf p batch t)

section Tasks

variable (hr : Planned p s batch r) (ht : t < s.numberOfThreads)
include hr ht

lemma Planned.insertion (htype : (s.plannedTask p batch t).type = .insertion) :
    r.insertionTask p batch t =
      if s.firstOf p batch (t + 1) - s.firstOf p batch t = 0 then (r, []) else
        r.insertBatchRange p batch ⟨s.firstOf p batch t, s.firstOf p batch (t + 1)⟩
          ⟨s.blockOf p batch t, s.blockOf p batch (t + 1)⟩
          ⟨s.bufferOf p batch t, s.bufferOf p batch (t + 1)⟩ := by
  obtain ⟨n, hn⟩ := hr t ht.le
  obtain ⟨n', hn'⟩ := hr (t + 1) ht
  simp only [insertionTask, hn, hn', htype]
  rfl

lemma Planned.inverseMerge (htype : (s.plannedTask p batch t).type = .inverseMerge) :
    r.insertionTask p batch t =
      if s.firstOf p batch (t + 1) - s.firstOf p batch t = 0 then (r, []) else
        (r, denseWrites (s.bufferOf p batch t) 0 (s.blockOf p batch t)
          (inverseMergeBlocks p.toBlockParams
            (batchPart batch ⟨s.firstOf p batch t, s.firstOf p batch (t + 1)⟩)
            (batchPart (r.pma (s.blockOf p batch t)).cells
              (r.getMergeRange p (s.plannedTask p batch t) batch
                ⟨s.firstOf p batch t, s.firstOf p batch (t + 1)⟩ (s.blockOf p batch t))))) := by
  obtain ⟨n, hn⟩ := hr t ht.le
  obtain ⟨n', hn'⟩ := hr (t + 1) ht
  simp only [insertionTask, hn, hn', htype]
  rfl

lemma Planned.doNothing (htype : (s.plannedTask p batch t).type = .doNothing) :
    r.insertionTask p batch t = (r, []) := by
  obtain ⟨n, hn⟩ := hr t ht.le
  simp only [insertionTask, hn, htype]

end Tasks

namespace PhaseInput

variable (h : s.PhaseInput p batch)
include h

lemma planned : Planned p s batch (s.prepareInsertion p batch) := fun t ht =>
  ⟨(s.plannedTask p batch t).numberOfBlocksWritten, h.prepared_tasks ht⟩

omit h in
/-- A task without work, or that only writes to the buffer. -/
lemma taskCells_eq_empty (hno : ¬ ((s.plannedTask p batch t).type = .insertion ∧
    s.firstOf p batch t < s.firstOf p batch (t + 1))) : s.taskCells p batch t = ∅ := by
  rw [Set.eq_empty_iff_forall_notMem]
  exact fun c hc => hno ⟨hc.1, hc.2.1⟩

/-- The cells of a task in a structure with blocks are its pma range. -/
lemma taskCells_eq (hne : ∃ c, s.empty p c = false) (ht : t < s.numberOfThreads)
    (htype : (s.plannedTask p batch t).type = .insertion)
    (hwork : s.firstOf p batch t < s.firstOf p batch (t + 1)) :
    s.taskCells p batch t =
      {c | (⟨s.blockOf p batch t, s.blockOf p batch (t + 1)⟩ : Interval).contains c} := by
  have hlt : s.blockOf p batch t < s.blockOf p batch (t + 1) :=
    (h.rangeInput hne ht htype hwork).left_lt
  ext c
  have hmax : max (s.blockOf p batch (t + 1)) (s.blockOf p batch t + 1) =
      s.blockOf p batch (t + 1) := by omega
  constructor
  · rintro ⟨-, -, h1, h2⟩
    exact ⟨h1, by rwa [hmax] at h2⟩
  · rintro ⟨h1, h2⟩
    exact ⟨htype, hwork, h1, by rw [hmax]; exact h2⟩

/-- The blocks of the splitters in an empty structure. -/
lemma splitterBlock_of_empty (hemp : ∀ c, s.empty p c = true) (t : ℕ) :
    s.size = 0 ∧ s.splitterBlock p batch t = 0 := by
  have hsize : s.size = 0 := h.quiet.first.resolve_right (by rw [hemp 0]; simp)
  refine ⟨hsize, ?_⟩
  rw [splitterBlock]
  split
  · rw [h.valid.findBlockIndex_of_empty hemp]
    exact hsize
  · exact hsize

/-- In an empty structure all threads are in one group. -/
lemma group_of_empty (hemp : ∀ c, s.empty p c = true) {a e : ℕ}
    (hg : IsGroup (s.splitterBlock p batch) s.numberOfThreads a e) :
    a = 0 ∧ e + 1 = s.numberOfThreads := by
  have hsame := fun t => (h.splitterBlock_of_empty hemp t).2
  exact ⟨hg.first.resolve_right fun hne => hne (by rw [hsame, hsame]),
    hg.last.resolve_right fun hne => hne (by rw [hsame, hsame])⟩

/-- In an empty structure a single task loads the whole batch. -/
lemma last_of_empty (hemp : ∀ c, s.empty p c = true) (ht : t < s.numberOfThreads)
    (htype : (s.plannedTask p batch t).type = .insertion)
    (hwork : s.firstOf p batch t < s.firstOf p batch (t + 1)) :
    t + 1 = s.numberOfThreads ∧ s.blockOf p batch t = 0 ∧ s.blockOf p batch (t + 1) = 0 ∧
      s.firstOf p batch t = 0 ∧ s.firstOf p batch (t + 1) = batch.length ∧
      ¬ s.HasShares p batch 0 t := by
  have hins := h.toInsertable
  have hsame := fun t => (h.splitterBlock_of_empty hemp t).2
  obtain ⟨a, hg, -⟩ := h.sharing.insertion_range hins h.min_pos ht htype
  obtain ⟨rfl, hlast⟩ := h.group_of_empty hemp hg
  obtain ⟨-, hblock, hfirst, -, hblock', hfirst'⟩ := h.last_spec hg
  have hno : ¬ s.HasShares p batch 0 t := by
    intro hs
    rw [if_pos hs, mergeEnd, lastTaskBatchStart, if_pos (hemp _)] at hfirst
    rw [firstOf, firstOf, hfirst, hfirst'] at hwork
    exact absurd hwork (lt_irrefl _)
  rw [if_neg hno] at hblock hfirst
  refine ⟨hlast, hblock.trans (hsame 0), hblock'.trans (hsame _), hfirst.trans ?_,
    hfirst'.trans ?_, hno⟩
  · rw [splitterFirst, if_pos rfl]
  · rw [hlast, splitterFirst_last hins]

/-- **The effect of a task** does not depend on what the other tasks have done. -/
theorem effect (ht : t < s.numberOfThreads) (hr : Untouched p s batch t r) :
    (r.insertionTask p batch t).2 = (s.ownTask p batch t).2 ∧
      Effect (s.taskCells p batch t) (s.ownTask p batch t).1 r (r.insertionTask p batch t).1 := by
  have hp := h.planned
  rw [ownTask]
  cases htype : (s.plannedTask p batch t).type with
  | doNothing =>
      rw [hr.tasks.doNothing ht htype, hp.doNothing ht htype,
        taskCells_eq_empty (by rw [htype]; simp)]
      exact ⟨rfl, Effect.refl⟩
  | inverseMerge =>
      have hsame : r.getMergeRange p (s.plannedTask p batch t) batch
          ⟨s.firstOf p batch t, s.firstOf p batch (t + 1)⟩ (s.blockOf p batch t) =
          (s.prepareInsertion p batch).getMergeRange p (s.plannedTask p batch t) batch
          ⟨s.firstOf p batch t, s.firstOf p batch (t + 1)⟩ (s.blockOf p batch t) := by
        rw [getMergeRange, getMergeRange, hr.merge htype, h.prepared_pma]
      rw [hr.tasks.inverseMerge ht htype, hp.inverseMerge ht htype,
        taskCells_eq_empty (by rw [htype]; simp), hsame, hr.merge htype, h.prepared_pma]
      split
      · exact ⟨rfl, Effect.refl⟩
      · exact ⟨rfl, Effect.refl⟩
  | insertion =>
      rw [hr.tasks.insertion ht htype, hp.insertion ht htype]
      by_cases hwork : s.firstOf p batch (t + 1) - s.firstOf p batch t = 0
      · rw [if_pos hwork, if_pos hwork, taskCells_eq_empty (by omega)]
        exact ⟨rfl, Effect.refl⟩
      · rw [if_neg hwork, if_neg hwork]
        by_cases hne : ∃ c, s.empty p c = false
        · have hcells := h.taskCells_eq hne ht htype (by omega)
          have heff := (h.rangeInput hne ht htype (by omega)).effect (r := r)
            ⟨s.bufferOf p batch t, s.bufferOf p batch (t + 1)⟩
            (hr.size_eq.trans h.prepared_size.symm) fun c hc => by
              rw [h.prepared_pma]
              exact hr.cells c (by rw [hcells]; exact hc)
          rw [hcells]
          exact heff
        · -- there are no blocks
          push Not at hne
          have hemp : ∀ c, s.empty p c = true := fun c => by simpa using hne c
          obtain ⟨-, hblock, hblock', -⟩ := h.last_of_empty hemp ht htype (by omega)
          have hcells : s.taskCells p batch t = {0} := by
            ext c
            rw [Set.mem_singleton_iff]
            constructor
            · rintro ⟨-, -, -, hlt⟩
              omega
            · rintro rfl
              exact ⟨htype, by omega, by omega, by omega⟩
          have hzero : (⟨s.blockOf p batch t, s.blockOf p batch (t + 1)⟩ : Interval).length = 0 := by
            rw [hblock, hblock']
            rfl
          have hpma := (hr.cells 0 (by rw [hcells]; exact Set.mem_singleton 0)).1
          rw [← h.prepared_pma] at hpma
          rw [insertBatchRange, insertBatchRange, if_pos hzero, if_pos hzero, hcells, hblock]
          refine ⟨rfl, ⟨rfl, fun c hc => ?_, fun c hc => ⟨rfl, Function.update_of_ne hc _ _⟩⟩⟩
          rw [Set.mem_singleton_iff.mp hc]
          refine ⟨hpma, ?_⟩
          simp only [insertIntoEmptyRange, Function.update_self]

end PhaseInput

end BatchedSparseArray

end BatchPMA
