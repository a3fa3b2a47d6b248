import BatchPMA.InPlace.Plan
import BatchPMA.InPlace.Turns
import BatchPMA.Model.OutOfPlace

/-!
# Insertion in place always fits

The test for path A compares, for every task, the number of cells of its range with a bound for the
number of its blocks, computed from the size manager before anything is inserted.  So when the path
is taken, all tasks have the room they need, and together they insert the batch.
-/

namespace BatchPMA

open KeyedUnion Ranges

variable {K α : Type} [LinearOrder K]

namespace OverallocatedBatchedSparseArray

variable {p : OverallocatedParams K α} {s : OverallocatedBatchedSparseArray K α} {batch : List α}
  {numberOfThreads : ℕ}

/-! ## What the tasks are given -/

/-- Keys from the head of a block on that lies at `c` or behind it. -/
def AboveCell (s : OverallocatedBatchedSparseArray K α) (c : ℕ) (k : K) : Prop :=
  ∃ b ∈ rangeBlocks s.pma c s.size, b.head ≤ k

/-- What the test for path A says about the plan. -/
structure FitsInPlace (p : OverallocatedParams K α) (s : OverallocatedBatchedSparseArray K α)
    (batch : List α) (numberOfThreads : ℕ) : Prop where
  insertable : s.Insertable p batch numberOfThreads
  exact : s.AggregatesExact
  fits : ∀ t < numberOfThreads, s.splitterBlock p batch numberOfThreads t +
    s.splitterWidth p batch numberOfThreads t ≤ s.splitterBlock p batch numberOfThreads (t + 1)
  apart : ∀ t, t + 1 < numberOfThreads → s.splitterBlock p batch numberOfThreads t ≠
    s.splitterBlock p batch numberOfThreads (t + 1)

section

variable (h : s.FitsInPlace p batch numberOfThreads)
include h

/-- An empty array is never filled in place. -/
lemma FitsInPlace.nonempty : ∃ c, s.empty p c = false := by
  have hT := h.insertable.threads_pos
  have hlen := h.insertable.threads_le
  by_contra hno
  push Not at hno
  have hemp : ∀ c, (s.view p).empty c = true := fun c => Bool.eq_true_of_not_eq_false (hno c)
  have hblock : ∀ t, s.splitterBlock p batch numberOfThreads t = s.size := by
    intro t
    rw [splitterBlock, BatchedSparseArray.splitterBlock, h.insertable.valid.view_asBatched]
    split
    · exact h.insertable.valid.view.findBlockIndex_of_empty hemp _
    · rfl
  have hone : numberOfThreads = 1 := by
    by_contra hne
    exact h.apart 0 (by omega) (by rw [hblock, hblock])
  have hfit := h.fits 0 hT
  rw [hblock, hblock] at hfit
  have hlast := h.insertable.splitterFirst_last
  rw [hone] at hlast
  have hcount : countBelow p.toBlockParams batch p.nullKey = 0 := by
    by_contra hpos
    have := (lt_countBelow_iff h.insertable.increasing (i := 0) (k := p.nullKey) (by omega)).mp
      (by omega)
    rw [batchKey_eq (by omega)] at this
    exact absurd (h.insertable.null_lt _ (List.getElem_mem _)) (not_lt.mpr this.le)
  have hwidth : 0 < s.splitterWidth p batch numberOfThreads 0 := by
    rw [splitterWidth, if_pos rfl, hblock, head, h.insertable.valid.outside _ (le_refl _),
      PmaEntry.head_null, findFirstBatchElement_eq_min h.insertable.increasing.nonDecreasing (by omega), hcount, hone,
      hlast, maxRedistributionWidth]
    rw [if_neg (by omega)]
    exact Nat.succ_pos _
  omega

lemma FitsInPlace.isHome {t : ℕ} (ht : t < numberOfThreads) : (s.view p).IsHome
    (batchKey p.toBlockParams batch (t * (batch.length / numberOfThreads)))
    (s.splitterBlock p batch numberOfThreads t) := by
  have hhome := h.insertable.valid.view.isHome_findBlockIndex h.nonempty
    (batchKey p.toBlockParams batch (t * (batch.length / numberOfThreads)))
  rw [splitterBlock, BatchedSparseArray.splitterBlock, h.insertable.valid.view_asBatched,
    if_pos (show t < (s.asBatched p numberOfThreads).numberOfThreads from ht)]
  exact hhome

lemma FitsInPlace.block_nonempty {t : ℕ} (ht : t < numberOfThreads) :
    (s.pma (s.splitterBlock p batch numberOfThreads t)).isEmpty = false := by
  rw [← h.insertable.valid.empty_eq]
  exact (h.isHome ht).nonempty

lemma FitsInPlace.block_lt {t : ℕ} (ht : t < numberOfThreads) :
    s.splitterBlock p batch numberOfThreads t < s.splitterBlock p batch numberOfThreads (t + 1) := by
  rcases Nat.eq_or_lt_of_le (Nat.succ_le_of_lt ht) with heq | hlt
  · rw [show t + 1 = numberOfThreads from heq, splitterBlock_last]
    exact h.insertable.valid.lt_size (h.block_nonempty ht)
  · have := h.fits t ht
    have := h.apart t hlt
    omega

lemma FitsInPlace.block_le_size {t : ℕ} (ht : t ≤ numberOfThreads) :
    s.splitterBlock p batch numberOfThreads t ≤ s.size := by
  rcases Nat.eq_or_lt_of_le ht with rfl | hlt
  · rw [splitterBlock_last]
  · exact (h.insertable.valid.lt_size (h.block_nonempty hlt)).le

/-- The batch elements of a task. -/
lemma FitsInPlace.cutsAt {t : ℕ} (ht : t ≤ numberOfThreads) :
    BatchedSparseArray.CutsAt (batchedParams p) (s.asBatched p numberOfThreads) batch
      (s.splitterFirst p batch numberOfThreads t) (s.splitterBlock p batch numberOfThreads t) := by
  have hview := @Valid.view_asBatched _ _ _ _ _ numberOfThreads h.insertable.valid
  refine BatchedSparseArray.cutsAt_splitterFirst h.insertable.asBatched ?_ ht ?_
  · obtain ⟨c, hc⟩ := h.nonempty
    refine ⟨c, ?_⟩
    change ((s.asBatched p numberOfThreads).view (batchedParams p)).empty c = false
    rw [hview]
    exact hc
  · rcases Nat.eq_zero_or_pos t with h0 | hpos
    · exact Or.inl h0
    · refine Or.inr ?_
      have := h.block_lt (t := t - 1) (by omega)
      rw [Nat.sub_add_cancel hpos] at this
      exact this

/-- Batch elements of earlier tasks lie below the blocks of later ones. -/
lemma FitsInPlace.below {t : ℕ} (ht : t ≤ numberOfThreads) {i : ℕ}
    (hi : i < s.splitterFirst p batch numberOfThreads t) {k : K}
    (hk : s.AboveCell (s.splitterBlock p batch numberOfThreads t) k) :
    batchKey p.toBlockParams batch i < k := by
  obtain ⟨b, hb, hk⟩ := hk
  obtain ⟨j, h1, h2, h3, rfl⟩ := mem_rangeBlocks.mp hb
  have hlt := (h.cutsAt ht).lt i hi
  rw [BatchedSparseArray.home, h.insertable.valid.view_asBatched] at hlt
  have hhome := h.insertable.valid.view.isHome_findBlockIndex h.nonempty
    (batchKey p.toBlockParams batch i)
  refine lt_of_lt_of_le (hhome.lt_head j (lt_of_lt_of_le hlt h1) ?_) hk
  change s.empty p j = false
  rw [h.insertable.valid.empty_eq]
  exact h3

/-- The room that the test promises. -/
lemma FitsInPlace.room {t : ℕ} (ht : t < numberOfThreads) :
    ((elements (rangeBlocks s.pma (s.splitterBlock p batch numberOfThreads t)
        (s.splitterBlock p batch numberOfThreads (t + 1)))).length +
      (s.splitterFirst p batch numberOfThreads (t + 1) -
        s.splitterFirst p batch numberOfThreads t)) / p.minBlockSize ≤
      s.splitterBlock p batch numberOfThreads (t + 1) -
        s.splitterBlock p batch numberOfThreads t := by
  have hlt := h.block_lt ht
  have hright := h.block_le_size (t := t + 1) ht
  have hcells := h.insertable.valid.cellsIn (s.splitterBlock p batch numberOfThreads t)
    (s.splitterBlock p batch numberOfThreads (t + 1))
  have hcount : s.sizeManager.getNumberOfElements s.blockSize
      (s.splitterBlock p batch numberOfThreads t)
      (s.splitterBlock p batch numberOfThreads (t + 1)) =
        (elements (rangeBlocks s.pma (s.splitterBlock p batch numberOfThreads t)
          (s.splitterBlock p batch numberOfThreads (t + 1)))).length := by
    rw [h.exact.exact.getNumberOfElements_eq, linearNumberOfElements_eq hlt.le hcells]
    rw [h.exact.size]
    exact Nat.le_succ_of_le (Nat.div_le_div_right hright)
  have hpos : 0 < (elements (rangeBlocks s.pma (s.splitterBlock p batch numberOfThreads t)
      (s.splitterBlock p batch numberOfThreads (t + 1)))).length := by
    obtain ⟨x, hx, -⟩ := (hcells.valid (le_refl _) hlt (h.block_nonempty ht)).head_mem
    exact List.length_pos_of_mem (mem_elements.mpr ⟨_, mem_rangeBlocks.mpr
      ⟨_, le_refl _, hlt, h.block_nonempty ht, rfl⟩, hx⟩)
  have hfit := h.fits t ht
  rw [splitterWidth, hcount, Int.toNat_natCast, maxRedistributionWidth, if_neg (by omega)] at hfit
  generalize (elements (rangeBlocks s.pma (s.splitterBlock p batch numberOfThreads t)
      (s.splitterBlock p batch numberOfThreads (t + 1)))).length = n at *
  -- the first task may count one element too few
  have hfirst : (if t = 0 then findFirstBatchElement p batch 0
      (s.head (s.splitterBlock p batch numberOfThreads 0))
      else s.splitterFirst p batch numberOfThreads t) ≤
        s.splitterFirst p batch numberOfThreads t + 1 := by
    split
    · rw [findFirstBatchElement_eq_min h.insertable.increasing.nonDecreasing (by
        have := h.insertable.threads_le
        omega)]
      omega
    · exact Nat.le_succ _
  have hmono : ∀ a b, a ≤ b + 1 → a / p.minBlockSize ≤ b / p.minBlockSize + 1 := by
    intro a b hab
    rcases Nat.eq_zero_or_pos p.minBlockSize with h0 | hmin
    · rw [h0, Nat.div_zero]
      exact Nat.zero_le _
    · refine le_trans (Nat.div_le_div_right (c := p.minBlockSize)
        (show a ≤ b + p.minBlockSize by omega)) ?_
      rw [Nat.add_div_right _ hmin]
  refine le_trans (hmono _ _ ?_) (Nat.le_sub_of_add_le' hfit)
  omega

end

/-- What every task is given on path A. -/
theorem FitsInPlace.tasksInput (h : s.FitsInPlace p batch numberOfThreads) (heven : 2 ∣ p.blockSize)
    (htwo : 2 ≤ p.blockSize) (hsigned : p.blockSize ≤ 2 ^ 15)
    (hzero : p.keyOf p.zero = p.nullKey) {f : ℕ → TaskInfo} (hf : ∀ t ≤ numberOfThreads,
      (f t).blockForBatchSplitter = s.splitterBlock p batch numberOfThreads t ∧
      (f t).firstBatchElement = s.splitterFirst p batch numberOfThreads t) :
    TasksInput p { s with tasks := f } batch numberOfThreads
      (fun t => s.AboveCell (s.splitterBlock p batch numberOfThreads (t + 1)))
      (s.blocks.length = 1) := by
  intro t ht
  have hlt := h.block_lt ht
  have hright := h.block_le_size (t := t + 1) ht
  have hvalid := h.insertable.valid
  have hrange : OverallocatedBatchedSparseArray.taskRanges { s with tasks := f } t =
      (⟨s.splitterFirst p batch numberOfThreads t, s.splitterFirst p batch numberOfThreads (t + 1)⟩,
        ⟨s.splitterBlock p batch numberOfThreads t,
          s.splitterBlock p batch numberOfThreads (t + 1)⟩) := by
    rw [taskRanges]
    simp only
    rw [(hf t ht.le).1, (hf t ht.le).2, (hf (t + 1) ht).1, (hf (t + 1) ht).2]
  rw [hrange]
  have hsplit := blocks_eq (s := s) hlt.le hright
  have hord := hvalid.ordered
  have hstale := hvalid.stale
  rw [hsplit, elements_append, elements_append] at hord
  rw [hsplit, staleOk_append, staleOk_append] at hstale
  refine ⟨heven, htwo, hsigned, hzero, hlt, h.block_nonempty ht, hvalid.cellsIn _ _,
    Ordered.left (Ordered.right hord), ?_, ?_, ?_, ?_, h.insertable.increasing,
    fun x hx => (h.insertable.null_lt x hx).ne', ?_, h.room ht⟩
  · refine hstale.2.1.mono fun k hk => ?_
    exact hk.resolve_left id
  · rcases hvalid.large with hl | hone
    · refine Or.inl fun b hb => hl b ?_
      rw [hsplit]
      exact List.mem_append_right _ (List.mem_append_left _ hb)
    · refine Or.inr ⟨?_, hone⟩
      have hpos : 0 < (rangeBlocks s.pma (s.splitterBlock p batch numberOfThreads t)
          (s.splitterBlock p batch numberOfThreads (t + 1))).length :=
        List.length_pos_of_mem (mem_rangeBlocks.mpr
          ⟨_, le_refl _, hlt, h.block_nonempty ht, rfl⟩)
      rw [hsplit, List.length_append, List.length_append] at hone
      have hlen : (rangeBlocks s.pma (s.splitterBlock p batch numberOfThreads t)
          (s.splitterBlock p batch numberOfThreads (t + 1))).length = 1 := by omega
      exact hlen
  · exact (h.cutsAt ht.le).mono (h.cutsAt (t := t + 1) ht) hlt.le
  · exact (h.cutsAt (t := t + 1) ht).le
  · intro x hx k hk
    obtain ⟨i, -, hi, hget⟩ := mem_batchPart.mp hx
    rw [← batchKey_of_getElem? hget]
    exact h.below ht hi hk

/-! ## What the tasks leave behind -/

/-- The result of path A, range by range. -/
structure InsertedInPlace (p : OverallocatedParams K α) (s r : OverallocatedBatchedSparseArray K α)
    (batch : List α) (numberOfThreads : ℕ) : Prop where
  edit : s.RangeEdit { r with tasks := s.tasks }
    ⟨s.splitterBlock p batch numberOfThreads 0, s.size⟩
  cells : ∀ t < numberOfThreads, CellsIn p.toBlockParams r.pma
    (s.splitterBlock p batch numberOfThreads t) (s.splitterBlock p batch numberOfThreads (t + 1))
  union : ∀ t < numberOfThreads, IsUnion p.keyOf
    (elements (rangeBlocks s.pma (s.splitterBlock p batch numberOfThreads t)
      (s.splitterBlock p batch numberOfThreads (t + 1))))
    (batchPart batch ⟨s.splitterFirst p batch numberOfThreads t,
      s.splitterFirst p batch numberOfThreads (t + 1)⟩)
    (elements (rangeBlocks r.pma (s.splitterBlock p batch numberOfThreads t)
      (s.splitterBlock p batch numberOfThreads (t + 1))))
  stale : ∀ t < numberOfThreads, StaleOk p.toBlockParams True
    (s.AboveCell (s.splitterBlock p batch numberOfThreads (t + 1)))
    (rangeBlocks r.pma (s.splitterBlock p batch numberOfThreads t)
      (s.splitterBlock p batch numberOfThreads (t + 1)))
  large : ∀ t < numberOfThreads,
    (∀ b ∈ rangeBlocks r.pma (s.splitterBlock p batch numberOfThreads t)
      (s.splitterBlock p batch numberOfThreads (t + 1)), p.minBlockSize ≤ b.size) ∨
    (rangeBlocks r.pma (s.splitterBlock p batch numberOfThreads t)
      (s.splitterBlock p batch numberOfThreads (t + 1))).length = 1 ∧ s.blocks.length = 1

section Assemble

variable {r : OverallocatedBatchedSparseArray K α}
  (h : s.FitsInPlace p batch numberOfThreads) (hr : s.InsertedInPlace p r batch numberOfThreads)

include h in
/-- Blocks in front of a task lie below its batch elements. -/
lemma FitsInPlace.lt_batch {t : ℕ} (ht : t ≤ numberOfThreads) :
    ∀ x ∈ elements (rangeBlocks s.pma 0 (s.splitterBlock p batch numberOfThreads t)),
      ∀ i, s.splitterFirst p batch numberOfThreads t ≤ i → i < batch.length →
        p.keyOf x < batchKey p.toBlockParams batch i := by
  intro x hx i h1 h2
  obtain ⟨b, hb, hx⟩ := mem_elements.mp hx
  obtain ⟨j, -, hj, hne, rfl⟩ := mem_rangeBlocks.mp hb
  have hge := (h.cutsAt ht).ge i h1 h2
  rw [BatchedSparseArray.home, h.insertable.valid.view_asBatched] at hge
  change s.splitterBlock p batch numberOfThreads t ≤ (s.view p).findBlockIndex
    (batchKey p.toBlockParams batch i) at hge
  have hhome := h.insertable.valid.view.isHome_findBlockIndex h.nonempty
    (batchKey p.toBlockParams batch i)
  generalize (s.view p).findBlockIndex (batchKey p.toBlockParams batch i) = home at *
  have hempty : ∀ c, (s.view p).empty c = (s.pma c).isEmpty := h.insertable.valid.empty_eq
  have hhne : (s.pma home).isEmpty = false := by
    rw [← hempty]
    exact hhome.nonempty
  rcases hhome.head_le with hle | hfirst
  · exact lt_of_lt_of_le (h.insertable.valid.cells.lt_head h.insertable.valid.ordered
      (Nat.zero_le j) (lt_of_lt_of_le hj hge) (h.insertable.valid.lt_size hhne) hne hhne x hx) hle
  · have := hfirst j (lt_of_lt_of_le hj hge)
    rw [hempty, hne] at this
    exact absurd this (by simp)

include hr in
lemma InsertedInPlace.front :
    rangeBlocks r.pma 0 (s.splitterBlock p batch numberOfThreads 0) =
      rangeBlocks s.pma 0 (s.splitterBlock p batch numberOfThreads 0) :=
  rangeBlocks_congr fun c _ hc => hr.edit.outside c (Or.inl hc)

include h hr

/-- The union of the ranges of the first tasks. -/
lemma InsertedInPlace.initial : ∀ {t : ℕ}, t ≤ numberOfThreads →
    IsUnion p.keyOf (elements (rangeBlocks s.pma 0 (s.splitterBlock p batch numberOfThreads t)))
      (batchPart batch ⟨0, s.splitterFirst p batch numberOfThreads t⟩)
      (elements (rangeBlocks r.pma 0 (s.splitterBlock p batch numberOfThreads t))) ∧
    CellsIn p.toBlockParams r.pma 0 (s.splitterBlock p batch numberOfThreads t)
  | 0, ht => by
      have hle := h.block_le_size ht
      rw [splitterFirst_zero, batchPart_self, hr.front]
      have hord := h.insertable.valid.ordered
      rw [blocks_eq (s := s) (le_refl _) hle, elements_append] at hord
      refine ⟨IsUnion.nil_new (Ordered.left hord), fun c h1 h2 => ?_⟩
      have hc := hr.edit.outside c (Or.inl h2)
      simp only at hc
      rw [hc]
      exact h.insertable.valid.cell c
  | t + 1, ht => by
      obtain ⟨hu, hc⟩ := InsertedInPlace.initial (t := t) (by omega)
      have hlt := h.block_lt (t := t) ht
      have hle := h.block_le_size (t := t + 1) ht
      have hfirst := (h.cutsAt (t := t) (by omega)).mono (h.cutsAt ht) hlt.le
      have hcut := (h.cutsAt ht).le
      have hord := h.insertable.valid.ordered
      rw [blocks_eq (s := s) hlt.le hle, elements_append, elements_append] at hord
      have hnext := IsUnion.append hu (hr.union t ht) fun x hx y hy => by
        rcases List.mem_append.mp hx with hx | hx
        · rcases List.mem_append.mp hy with hy | hy
          · exact Ordered.lt hord x hx y (List.mem_append_left _ hy)
          · obtain ⟨i, h1, h2, hget⟩ := mem_batchPart.mp hy
            rw [← batchKey_of_getElem? hget]
            exact h.lt_batch (by omega) x hx i h1 (by omega)
        · obtain ⟨i, -, h2, hget⟩ := mem_batchPart.mp hx
          rw [← batchKey_of_getElem? hget]
          rcases List.mem_append.mp hy with hy | hy
          · obtain ⟨b, hb, hy⟩ := mem_elements.mp hy
            obtain ⟨j, h3, h4, h5, rfl⟩ := mem_rangeBlocks.mp hb
            refine h.below (by omega) h2 ⟨_, mem_rangeBlocks.mpr ⟨j, h3, by omega, h5, rfl⟩, ?_⟩
            exact (h.insertable.valid.cells.valid (Nat.zero_le j) (by omega) h5).head_le hy
          · obtain ⟨i', h3, h4, hget'⟩ := mem_batchPart.mp hy
            rw [← batchKey_of_getElem? hget']
            exact batchKey_lt h.insertable.increasing (by omega) (by omega)
      rw [← elements_append, ← elements_append, ← rangeBlocks_append (Nat.zero_le _) hlt.le,
        ← rangeBlocks_append (Nat.zero_le _) hlt.le, batchPart_append (Nat.zero_le _) hfirst] at hnext
      refine ⟨hnext, fun c h1 h2 => ?_⟩
      rcases Nat.lt_or_ge c (s.splitterBlock p batch numberOfThreads t) with hlt' | hge
      · exact hc c h1 hlt'
      · exact hr.cells t ht c hge h2

/-- Old elements stay in the ranges behind a task. -/
lemma InsertedInPlace.mem_behind : ∀ (n : ℕ) {t : ℕ}, t + n = numberOfThreads →
    ∀ x ∈ elements (rangeBlocks s.pma (s.splitterBlock p batch numberOfThreads t) s.size),
      x ∈ elements (rangeBlocks r.pma (s.splitterBlock p batch numberOfThreads t) s.size)
  | 0, t, ht, x, hx => by
      rw [show t = numberOfThreads by omega, splitterBlock_last, rangeBlocks, itemsIn,
        Nat.sub_self] at hx
      exact absurd hx List.not_mem_nil
  | n + 1, t, ht, x, hx => by
      have hlt := h.block_lt (t := t) (by omega)
      have hle := h.block_le_size (t := t + 1) (by omega)
      rw [rangeBlocks_append hlt.le hle, elements_append, List.mem_append] at hx ⊢
      rcases hx with hx | hx
      · exact Or.inl ((hr.union t (by omega)).mem_old hx)
      · exact Or.inr (InsertedInPlace.mem_behind n (t := t + 1) (by omega) x hx)

lemma InsertedInPlace.above {t : ℕ} (ht : t ≤ numberOfThreads) {k : K}
    (hk : s.AboveCell (s.splitterBlock p batch numberOfThreads t) k) :
    ∃ b ∈ rangeBlocks r.pma (s.splitterBlock p batch numberOfThreads t) s.size, b.head ≤ k := by
  obtain ⟨b, hb, hk⟩ := hk
  have hv := (h.insertable.valid.cellsIn (s.splitterBlock p batch numberOfThreads t)
    s.size).valid_of_mem hb
  obtain ⟨x, hx, hxk⟩ := hv.head_mem
  obtain ⟨b', hb', hxb⟩ := mem_elements.mp (hr.mem_behind h (numberOfThreads - t) (by omega) x
    (mem_elements.mpr ⟨b, hb, hx⟩))
  have hcells := (hr.initial h (le_refl numberOfThreads)).2
  rw [splitterBlock_last] at hcells
  have hv' := (hcells.mono (Nat.zero_le _) (le_refl _)).valid_of_mem hb'
  exact ⟨b', hb', le_trans (hv'.head_le hxb) (hxk ▸ hk)⟩

/-- Dead cells of the ranges behind a task. -/
lemma InsertedInPlace.stale_behind : ∀ (n : ℕ) {t : ℕ}, t + n = numberOfThreads →
    StaleOk p.toBlockParams True (fun _ => False)
      (rangeBlocks r.pma (s.splitterBlock p batch numberOfThreads t) s.size)
  | 0, t, ht => by
      rw [show t = numberOfThreads by omega, splitterBlock_last, rangeBlocks, itemsIn,
        Nat.sub_self]
      trivial
  | n + 1, t, ht => by
      have hlt := h.block_lt (t := t) (by omega)
      have hle := h.block_le_size (t := t + 1) (by omega)
      rw [rangeBlocks_append hlt.le hle, staleOk_append]
      refine ⟨(hr.stale t (by omega)).mono fun k hk => Or.inr ?_,
        InsertedInPlace.stale_behind n (t := t + 1) (by omega)⟩
      exact hr.above h (by omega) hk

omit hr in
/-- Every block of the result is in front of the tasks or in the range of one of them. -/
lemma FitsInPlace.large_behind (hall : ∀ t < numberOfThreads,
    ∀ b ∈ rangeBlocks r.pma (s.splitterBlock p batch numberOfThreads t)
      (s.splitterBlock p batch numberOfThreads (t + 1)), p.minBlockSize ≤ b.size) :
    ∀ (n : ℕ) {t : ℕ}, t + n = numberOfThreads →
      ∀ b ∈ rangeBlocks r.pma (s.splitterBlock p batch numberOfThreads t) s.size,
        p.minBlockSize ≤ b.size
  | 0, t, ht, b, hb => by
      rw [show t = numberOfThreads by omega, splitterBlock_last, rangeBlocks, itemsIn,
        Nat.sub_self] at hb
      exact absurd hb List.not_mem_nil
  | n + 1, t, ht, b, hb => by
      have hlt := h.block_lt (t := t) (by omega)
      have hle := h.block_le_size (t := t + 1) (by omega)
      rw [rangeBlocks_append hlt.le hle, List.mem_append] at hb
      rcases hb with hb | hb
      · exact hall t (by omega) b hb
      · exact FitsInPlace.large_behind hall n (t := t + 1) (by omega) b hb

omit h in
lemma InsertedInPlace.size_eq : r.size = s.size := hr.edit.size_eq

omit hr in
/-- A single block belongs to the only task. -/
lemma FitsInPlace.single (hone : s.blocks.length = 1) : numberOfThreads = 1 ∧
    rangeBlocks s.pma 0 (s.splitterBlock p batch numberOfThreads 0) = [] := by
  have hT := h.insertable.threads_pos
  have hlt : s.splitterBlock p batch numberOfThreads 0 < s.splitterBlock p batch numberOfThreads 1 :=
    h.block_lt hT
  have hle := h.block_le_size (t := 1) hT
  have hpos : 0 < (rangeBlocks s.pma (s.splitterBlock p batch numberOfThreads 0)
      (s.splitterBlock p batch numberOfThreads 1)).length :=
    List.length_pos_of_mem (mem_rangeBlocks.mpr ⟨_, le_refl _, hlt, h.block_nonempty hT, rfl⟩)
  rw [blocks_eq (s := s) hlt.le hle, List.length_append, List.length_append] at hone
  refine ⟨?_, List.eq_nil_of_length_eq_zero (by omega)⟩
  by_contra hne
  have hlt1 := h.block_lt (t := 1) (by omega)
  have hle1 := h.block_le_size (t := 1 + 1) (by omega)
  have hpos1 : 0 < (rangeBlocks s.pma (s.splitterBlock p batch numberOfThreads 1) s.size).length :=
    List.length_pos_of_mem (mem_rangeBlocks.mpr
      ⟨_, le_refl _, by omega, h.block_nonempty (by omega), rfl⟩)
  omega

/-- **Path A keeps the array valid** and inserts the batch. -/
theorem InsertedInPlace.valid : r.Valid p ∧
    IsUnion p.keyOf (elements s.blocks) batch (elements r.blocks) := by
  obtain ⟨hu, hc⟩ := hr.initial h (le_refl numberOfThreads)
  have hT := h.insertable.threads_pos
  have h0 := h.block_le_size (t := 0) (Nat.zero_le _)
  have hsize := hr.size_eq
  rw [splitterBlock_last] at hc
  rw [splitterBlock_last, h.insertable.splitterFirst_last] at hu
  have hbatch : batchPart batch ⟨0, batch.length⟩ = batch := by
    rw [batchPart, List.drop_zero, Interval.length, Nat.sub_zero, List.take_length]
  rw [hbatch] at hu
  have hblocks : r.blocks = rangeBlocks r.pma 0 s.size := by rw [blocks, hsize]
  have hsplit : r.blocks = rangeBlocks s.pma 0 (s.splitterBlock p batch numberOfThreads 0) ++
      rangeBlocks r.pma (s.splitterBlock p batch numberOfThreads 0) s.size := by
    rw [hblocks, rangeBlocks_append (Nat.zero_le _) h0, hr.front]
  have hold : s.blocks = rangeBlocks s.pma 0 (s.splitterBlock p batch numberOfThreads 0) ++
      rangeBlocks s.pma (s.splitterBlock p batch numberOfThreads 0) s.size :=
    rangeBlocks_append (Nat.zero_le _) h0
  refine ⟨⟨by rw [hsize]; exact hc, fun c hcs => ?_, by rw [hblocks]; exact hu.ordered, ?_, ?_⟩,
    by rw [hblocks]; exact hu⟩
  · have := hr.edit.outside c (Or.inr (hsize ▸ hcs))
    simp only at this
    rw [this]
    exact h.insertable.valid.outside c (hsize ▸ hcs)
  · have hstale := h.insertable.valid.stale
    rw [hold, staleOk_append] at hstale
    rw [hsplit, staleOk_append]
    refine ⟨hstale.1.mono fun k hk => Or.inr ?_, hr.stale_behind h numberOfThreads (by omega)⟩
    exact hr.above h (Nat.zero_le _) (hk.resolve_left id)
  · by_cases hone : s.blocks.length = 1
    · obtain ⟨hT1, hfront⟩ := h.single hone
      have hr0 : r.blocks = rangeBlocks r.pma (s.splitterBlock p batch numberOfThreads 0)
          (s.splitterBlock p batch numberOfThreads (0 + 1)) := by
        rw [hsplit, hfront, List.nil_append]
        congr 1
        rw [← @splitterBlock_last _ _ _ p s batch numberOfThreads, hT1]
      rw [hr0]
      exact (hr.large 0 hT).imp id And.left
    · refine Or.inl fun b hb => ?_
      have hall : ∀ t < numberOfThreads,
          ∀ b ∈ rangeBlocks r.pma (s.splitterBlock p batch numberOfThreads t)
            (s.splitterBlock p batch numberOfThreads (t + 1)), p.minBlockSize ≤ b.size :=
        fun t ht => (hr.large t ht).resolve_right fun hno => hone hno.2
      rw [hsplit, List.mem_append] at hb
      rcases hb with hb | hb
      · refine (h.insertable.valid.large.resolve_right hone) b ?_
        rw [hold]
        exact List.mem_append_left _ hb
      · exact h.large_behind hall numberOfThreads (by omega) b hb

end Assemble

/-! ## The operation -/

/-- The array at the start of path A. -/
def inPlaceStart (p : OverallocatedParams K α) (s : OverallocatedBatchedSparseArray K α)
    (batch : List α) (numberOfThreads : ℕ) : OverallocatedBatchedSparseArray K α :=
  (s.prepareInsertion p batch numberOfThreads).setTask numberOfThreads fun task =>
    { task with requiredWidth := 0 }

/-- The plan is that of step 1, and it fits. -/
lemma Insertable.inPlaceStart (h : s.Insertable p batch numberOfThreads)
    (hexact : s.AggregatesExact)
    (hpath : (s.prepareInsertion p batch numberOfThreads).useInPlaceInserts p numberOfThreads =
      true) :
    s.FitsInPlace p batch numberOfThreads ∧
      ∃ f : ℕ → TaskInfo, s.inPlaceStart p batch numberOfThreads = { s with tasks := f } ∧
        ∀ t ≤ numberOfThreads,
          (f t).blockForBatchSplitter = s.splitterBlock p batch numberOfThreads t ∧
          (f t).firstBatchElement = s.splitterFirst p batch numberOfThreads t := by
  obtain ⟨f, hprep, hf, hfits, hapart⟩ := h.inPlace hpath
  refine ⟨⟨h, hexact, hfits, hapart⟩, ?_⟩
  rw [OverallocatedBatchedSparseArray.inPlaceStart, hprep]
  refine ⟨_, rfl, fun t ht => ?_⟩
  simp only [Function.update_apply]
  split
  · rename_i heq
    subst heq
    exact hf t ht
  · exact hf t ht

/-- What the turns of path A end with. -/
theorem FitsInPlace.run (h : s.FitsInPlace p batch numberOfThreads) (heven : 2 ∣ p.blockSize)
    (htwo : 2 ≤ p.blockSize) (hsigned : p.blockSize ≤ 2 ^ 15)
    (hzero : p.keyOf p.zero = p.nullKey) {f : ℕ → TaskInfo} (hf : ∀ t ≤ numberOfThreads,
      (f t).blockForBatchSplitter = s.splitterBlock p batch numberOfThreads t ∧
      (f t).firstBatchElement = s.splitterFirst p batch numberOfThreads t) (turns : List ℕ) :
    s.InsertedInPlace p (runInPlace p { s with tasks := f } batch numberOfThreads turns).1 batch
        numberOfThreads ∧
      ∀ t < numberOfThreads,
        ((runInPlace p { s with tasks := f } batch numberOfThreads turns).2 t).lost = [] := by
  have hin := h.tasksInput heven htwo hsigned hzero hf
  obtain ⟨hturn, hdone⟩ := hin.run turns
  have hranges : ∀ t < numberOfThreads, taskRanges { s with tasks := f } t =
      (⟨s.splitterFirst p batch numberOfThreads t, s.splitterFirst p batch numberOfThreads (t + 1)⟩,
        ⟨s.splitterBlock p batch numberOfThreads t,
          s.splitterBlock p batch numberOfThreads (t + 1)⟩) := by
    intro t ht
    rw [taskRanges]
    simp only
    rw [(hf t ht.le).1, (hf t ht.le).2, (hf (t + 1) ht).1, (hf (t + 1) ht).2]
  have hprogress := hturn.progress
  have hedit := hturn.edit
  simp only at hedit
  rw [(hf 0 (Nat.zero_le _)).1, (hf numberOfThreads (le_refl _)).1, splitterBlock_last] at hedit
  refine ⟨⟨⟨?_, hedit.outside, hedit.exact⟩, fun t ht => ?_, fun t ht => ?_, fun t ht => ?_,
    fun t ht => ?_⟩, fun t ht => (hprogress t ht).lost⟩
  · obtain ⟨m, hm, heq⟩ := hedit.rest
    refine ⟨m, hm, ?_⟩
    rw [heq]
  · have hp := (hprogress t ht).cells
    rw [hranges t ht] at hp
    exact hp
  · have hp := (hprogress t ht).union
    rw [hdone t ht, hranges t ht] at hp
    exact hp
  · have hp := (hprogress t ht).stale
    rw [hranges t ht] at hp
    exact hp
  · have hp := (hprogress t ht).large
    rw [hranges t ht] at hp
    exact hp

/-- **Insertion in place always fits.**  If the test chooses path A, then for every order of the
tasks' iterations no call of `writeBlockInPlace` ends with a block in its hands, every task's range
holds the union of its old elements and its batch elements, in order and in blocks of the right
size, and nothing changes outside the ranges. -/
theorem insertBatch_inPlace_fits (p : OverallocatedParams K α)
    (s : OverallocatedBatchedSparseArray K α) (batch : List α) (numberOfThreads : ℕ)
    (sched : Schedule) (turns : List ℕ) (heven : 2 ∣ p.blockSize) (hfour : 4 ≤ p.blockSize)
    (hsigned : p.blockSize ≤ 2 ^ 15) (hzero : p.keyOf p.zero = p.nullKey) (hvalid : s.Valid p)
    (hexact : s.AggregatesExact)
    (hinc : Increasing p.toBlockParams batch) (hnull : ∀ x ∈ batch, p.nullKey < p.keyOf x)
    (hpos : 0 < numberOfThreads) (hlen : numberOfThreads ≤ batch.length)
    (hpath : (s.prepareInsertion p batch numberOfThreads).useInPlaceInserts p numberOfThreads =
      true) :
    let start := s.inPlaceStart p batch numberOfThreads
    let run := start.runInPlace p batch numberOfThreads turns
    s.insertBatch p batch numberOfThreads sched turns = run.1 ∧
      (∀ t < numberOfThreads,
        (run.2 t).lost = [] ∧
        IsUnion p.keyOf
          (elements (rangeBlocks s.pma (start.taskRanges t).2.left (start.taskRanges t).2.right))
          (batchPart batch (start.taskRanges t).1)
          (elements (rangeBlocks run.1.pma (start.taskRanges t).2.left
            (start.taskRanges t).2.right)) ∧
        ∀ b ∈ rangeBlocks run.1.pma (start.taskRanges t).2.left (start.taskRanges t).2.right,
          b.Valid p.toBlockParams ∧ b.size ≤ p.blockSize ∧
            (p.minBlockSize ≤ b.size ∨ run.1.blocks.length = 1)) ∧
      ∀ c, (∀ t < numberOfThreads, ¬ (start.taskRanges t).2.contains c) →
        run.1.pma c = s.pma c := by
  intro start run
  have hins : s.Insertable p batch numberOfThreads := ⟨hvalid, hinc, hnull, hpos, hlen⟩
  obtain ⟨hfit, f, hstart, hf⟩ := hins.inPlaceStart hexact hpath
  obtain ⟨hr, hlost⟩ := hfit.run heven (by omega) hsigned hzero hf turns
  have hrun : run = runInPlace p { s with tasks := f } batch numberOfThreads turns := by
    rw [← hstart]
  rw [← hrun] at hr hlost
  have hranges : ∀ t < numberOfThreads, start.taskRanges t =
      (⟨s.splitterFirst p batch numberOfThreads t, s.splitterFirst p batch numberOfThreads (t + 1)⟩,
        ⟨s.splitterBlock p batch numberOfThreads t,
          s.splitterBlock p batch numberOfThreads (t + 1)⟩) := by
    intro t ht
    simp only [start, hstart, taskRanges]
    rw [(hf t ht.le).1, (hf t ht.le).2, (hf (t + 1) ht).1, (hf (t + 1) ht).2]
  refine ⟨?_, fun t ht => ⟨hlost t ht, ?_, fun b hb => ?_⟩, fun c hc => ?_⟩
  · rw [insertBatch]
    exact if_pos hpath
  · rw [hranges t ht]
    exact hr.union t ht
  · rw [hranges t ht] at hb
    have hv := (hr.cells t ht).valid_of_mem hb
    refine ⟨hv, hv.size_le, ?_⟩
    rcases (hr.valid hfit).1.large with hl | hone
    · refine Or.inl (hl b ?_)
      have hlt := hfit.block_lt ht
      have hle := hfit.block_le_size (t := t + 1) ht
      rw [blocks_eq (s := run.1) hlt.le (by rw [hr.size_eq]; exact hle)]
      exact List.mem_append_right _ (List.mem_append_left _ hb)
    · exact Or.inr hone
  · refine hr.edit.outside c ?_
    by_contra hin
    push Not at hin
    -- a cell behind the first block is in the range of one of the tasks
    obtain ⟨t, ht, h1, h2⟩ : ∃ t < numberOfThreads, s.splitterBlock p batch numberOfThreads t ≤ c ∧
        c < s.splitterBlock p batch numberOfThreads (t + 1) := by
      have hlast := @splitterBlock_last _ _ _ p s batch numberOfThreads
      have hex : ∃ t, c < s.splitterBlock p batch numberOfThreads t :=
        ⟨numberOfThreads, by rw [hlast]; exact hin.2⟩
      have hspec := Nat.find_spec hex
      have hle := Nat.find_min' hex (m := numberOfThreads) (by rw [hlast]; exact hin.2)
      have hfirst : Nat.find hex ≠ 0 := fun h0 => by
        rw [h0] at hspec
        exact absurd hin.1 (not_le.mpr hspec)
      have hprev := Nat.find_min hex (m := Nat.find hex - 1) (by omega)
      refine ⟨Nat.find hex - 1, by omega, not_lt.mp hprev, ?_⟩
      rw [Nat.sub_add_cancel (Nat.pos_of_ne_zero hfirst)]
      exact hspec
    refine hc t ht ?_
    rw [hranges t ht]
    exact ⟨h1, h2⟩

/-! ## An array of four cells -/

/-- Four cells, of which the second one holds a block with the keys `3` and `5`. -/
def fourCells : OverallocatedBatchedSparseArray ℕ ℕ :=
  { create (keyOnlyOverallocated 4) with
    size := 4
    pma := threeCells
    sizeManager := ⟨fun i => if i = 0 then 2 else 0, 1⟩ }

lemma blocks_fourCells : fourCells.blocks = [⟨some [3, 5, 0, 0], 3, 2⟩] := rfl

lemma fourCells_null {c : ℕ} (hc : c ≠ 1) :
    fourCells.pma c = PmaEntry.null (keyOnlyOverallocated 4).toBlockParams := by
  simp [fourCells, threeCells, hc, PmaEntry.null, keyOnlyOverallocated, keyOnlyBlocks]

lemma fourCells_valid : fourCells.Valid (keyOnlyOverallocated 4) where
  cells := fun c _ _ => by
    by_cases hc : c = 1
    · subst hc
      exact Or.inr ((threeCells_valid.cell 1 (by decide)).resolve_left (by
        simp [threeCells, PmaEntry.null]))
    · exact Or.inl (fourCells_null hc)
  outside := fun c hc => fourCells_null (by
    have : 4 ≤ c := hc
    omega)
  ordered := by
    rw [blocks_fourCells]
    simp [Ordered, elements, PmaEntry.live, PmaEntry.cells, keyOnlyOverallocated, keyOnlyBlocks]
  stale := by
    rw [blocks_fourCells]
    simp [StaleOk, PmaEntry.dead, PmaEntry.cells, keyOnlyOverallocated, keyOnlyBlocks]
  large := Or.inr rfl

lemma fourCells_exact : fourCells.AggregatesExact where
  size := rfl
  exact := fun i hi => by
    have h0 : i = 0 := Nat.lt_one_iff.mp hi
    subst h0
    decide

/-- With five elements in three cells the test chooses path A, and the block is split. -/
theorem insertBatch_inPlace_fits_fourCells :
    let p := keyOnlyOverallocated 4
    let run := (fourCells.inPlaceStart p [1, 4, 6] 1).runInPlace p [1, 4, 6] 1 []
    let r := fourCells.insertBatch p [1, 4, 6] 1 Schedule.sequential []
    r = run.1 ∧ (run.2 0).lost = [] ∧ r.blocks.map PmaEntry.live = [[1, 3], [4, 5, 6]] := by
  have h := insertBatch_inPlace_fits (keyOnlyOverallocated 4) fourCells [1, 4, 6] 1
    Schedule.sequential [] (by decide) (by decide) (by decide) rfl fourCells_valid fourCells_exact
    (by simp [Increasing, keyOnlyOverallocated, keyOnlyBlocks]) (by decide) (by decide) (by decide)
    (by decide)
  exact ⟨h.1, (h.2.1 0 (by decide)).1, by decide⟩

/-! ## A block that is too long -/

/-- The keys from `4` to `32773` in a block of `65534` cells. -/
def longBlock : PmaEntry ℕ ℕ :=
  ⟨some (List.range' 4 32770 ++ List.replicate 32764 0), 4, 32770⟩

/-- Four cells, of which the second one holds the block. -/
def longCells : OverallocatedBatchedSparseArray ℕ ℕ :=
  { create (keyOnlyOverallocated 65534) with
    size := 4
    pma := fun c => if c = 1 then longBlock else
      PmaEntry.null (keyOnlyOverallocated 65534).toBlockParams
    sizeManager := ⟨fun i => if i = 0 then 32770 else 0, 1⟩ }

lemma blocks_longCells : longCells.blocks = [longBlock] := rfl

lemma live_longBlock : longBlock.live = List.range' 4 32770 := by
  have hlen : (List.range' 4 32770).length = 32770 := List.length_range'
  rw [longBlock, PmaEntry.live, PmaEntry.cells, Option.getD_some, List.take_left' hlen]

lemma dead_longBlock : longBlock.dead = List.replicate 32764 0 := by
  have hlen : (List.range' 4 32770).length = 32770 := List.length_range'
  rw [longBlock, PmaEntry.dead, PmaEntry.cells, Option.getD_some, List.drop_left' hlen]

lemma longBlock_valid : longBlock.Valid (keyOnlyOverallocated 65534).toBlockParams where
  length_cells := by
    rw [longBlock, PmaEntry.cells, Option.getD_some, List.length_append, List.length_range',
      List.length_replicate]
    rfl
  size_pos := by decide
  size_le := by decide
  head_eq := rfl
  increasing := by
    rw [live_longBlock]
    exact List.pairwise_lt_range'
  key_ne_null := fun x hx => by
    rw [live_longBlock, List.mem_range'_1] at hx
    change x ≠ 0
    omega

lemma longCells_valid : longCells.Valid (keyOnlyOverallocated 65534) where
  cells := fun c _ _ => by
    by_cases hc : c = 1
    · rw [longCells, hc]
      exact Or.inr longBlock_valid
    · exact Or.inl (if_neg hc)
  outside := fun c hc => if_neg (by
    have : 4 ≤ c := hc
    omega)
  ordered := by
    rw [blocks_longCells, elements_cons, elements_nil, List.append_nil]
    exact longBlock_valid.increasing
  stale := by
    rw [blocks_longCells]
    refine ⟨fun x hx => Or.inl ?_, trivial⟩
    rw [dead_longBlock] at hx
    exact List.eq_of_mem_replicate hx
  large := Or.inr rfl

lemma longCells_exact : longCells.AggregatesExact where
  size := rfl
  exact := fun i hi => by
    have h0 : i = 0 := Nat.lt_one_iff.mp hi
    subst h0
    decide +kernel

lemma longCells_inPlace : (longCells.prepareInsertion (keyOnlyOverallocated 65534) [1, 2, 3]
    1).useInPlaceInserts (keyOnlyOverallocated 65534) 1 = true := by decide +kernel

/-- The only turn that does something merges the batch into the block. -/
lemma runInPlace_longCells {f : ℕ → TaskInfo}
    (hranges : taskRanges { longCells with tasks := f } 0 = (⟨0, 3⟩, ⟨1, 4⟩)) :
    (runInPlace (keyOnlyOverallocated 65534) { longCells with tasks := f } [1, 2, 3] 1 []).1 =
      insertIntoBlockWithoutSplit (keyOnlyOverallocated 65534) { longCells with tasks := f } 1
        [1, 2, 3] := by
  have hcursor : startCursor { longCells with tasks := f } 0 =
      (⟨0, 1, []⟩ : InPlaceCursor ℕ ℕ) := by
    have h1 : (f 0).firstBatchElement = 0 := congrArg (fun r => r.1.left) hranges
    have h2 : (f 0).blockForBatchSplitter = 1 := congrArg (fun r => r.2.left) hranges
    rw [startCursor, h1, h2]
  have hstep : insertBatchStep (keyOnlyOverallocated 65534) [1, 2, 3] ⟨0, 3⟩ ⟨1, 4⟩
      ({ longCells with tasks := f }, ⟨0, 1, []⟩) =
        (insertIntoBlockWithoutSplit (keyOnlyOverallocated 65534) { longCells with tasks := f } 1
          [1, 2, 3], ⟨3, 1, []⟩) := by
    have hsearch : (longCells.view (keyOnlyOverallocated 65534)).exponentialSearch 1 1 4 = 1 := by
      decide +kernel
    have hnext : (longCells.view (keyOnlyOverallocated 65534)).findNext 1 4 = 4 := by
      decide +kernel
    have hview : view (keyOnlyOverallocated 65534) { longCells with tasks := f } =
      longCells.view (keyOnlyOverallocated 65534) := rfl
    have hkey : batchKey (keyOnlyOverallocated 65534).toBlockParams [1, 2, 3] 0 = 1 := rfl
    simp only [insertBatchStep, hview, hkey, hsearch, hnext, findLastBatchElementForBlock]
    rfl
  -- the other turns find the batch used up
  have hdone : ∀ r : OverallocatedBatchedSparseArray ℕ ℕ,
      insertBatchStep (keyOnlyOverallocated 65534) [1, 2, 3] ⟨0, 3⟩ ⟨1, 4⟩ (r, ⟨3, 1, []⟩) =
        (r, ⟨3, 1, []⟩) := by
    intro r
    rw [insertBatchStep, if_neg (lt_irrefl 3)]
  have hranges' : taskRanges (insertIntoBlockWithoutSplit (keyOnlyOverallocated 65534)
      { longCells with tasks := f } 1 [1, 2, 3]) 0 = (⟨0, 3⟩, ⟨1, 4⟩) := hranges
  have hturns : [].filter (· < 1) ++ (List.range 1).flatMap (List.replicate [1, 2, 3].length) =
      [0, 0, 0] := by decide
  rw [runInPlace, hturns]
  simp only [List.foldl_cons, List.foldl_nil, inPlaceTurn, hranges, hcursor, hstep,
    Function.update_self, hranges', hdone]

/-- In a block of more than `2 ^ 15` elements the batch is lost: the positions of `mergeFaster`
wrap, and the block keeps its cells. -/
theorem insertBatch_inPlace_loses :
    let p := keyOnlyOverallocated 65534
    let r := longCells.insertBatch p [1, 2, 3] 1 Schedule.sequential []
    (longCells.Valid p ∧ longCells.AggregatesExact ∧
      (longCells.prepareInsertion p [1, 2, 3] 1).useInPlaceInserts p 1 = true) ∧
    r.blocks = [{ longBlock with size := 32773 }] ∧ ∀ b ∈ r.blocks, 1 ∉ b.live := by
  intro p r
  have hins : longCells.Insertable p [1, 2, 3] 1 :=
    ⟨longCells_valid, by simp [p, Increasing, keyOnlyOverallocated, keyOnlyBlocks], by decide,
      Nat.one_pos, by decide⟩
  obtain ⟨-, f, hstart, hf⟩ := hins.inPlaceStart longCells_exact longCells_inPlace
  have hranges : taskRanges { longCells with tasks := f } 0 = (⟨0, 3⟩, ⟨1, 4⟩) := by
    have hblock : longCells.splitterBlock p [1, 2, 3] 1 0 = 1 := by decide +kernel
    rw [taskRanges]
    simp only
    rw [(hf 0 (Nat.zero_le 1)).1, (hf 0 (Nat.zero_le 1)).2, (hf 1 (le_refl 1)).1,
      (hf 1 (le_refl 1)).2, splitterBlock_last, hins.splitterFirst_last, splitterFirst_zero, hblock]
    rfl
  have hmerge : mergeElements p longBlock [1, 2, 3] = { longBlock with size := 32773 } := by
    have hlong : 2 ^ 15 < longBlock.size := by decide
    have hroom : longBlock.size + [1, 2, 3].length < 2 ^ 16 := by decide
    rw [mergeElements, if_pos (by decide)]
    exact PmaEntry.mergeFaster_long hlong hroom hins.increasing (by decide) rfl
  have hr : r = insertIntoBlockWithoutSplit p { longCells with tasks := f } 1 [1, 2, 3] := by
    rw [← runInPlace_longCells hranges, ← hstart]
    change longCells.insertBatch p [1, 2, 3] 1 Schedule.sequential [] = _
    rw [insertBatch]
    exact if_pos longCells_inPlace
  have hblocks : r.blocks = [{ longBlock with size := 32773 }] := by
    rw [hr]
    change rangeBlocks (Function.update longCells.pma 1 (mergeElements p longBlock [1, 2, 3])) 0 4 =
      _
    rw [hmerge]
    rfl
  refine ⟨⟨longCells_valid, longCells_exact, longCells_inPlace⟩, hblocks, fun b hb hin => ?_⟩
  rw [hblocks] at hb
  rw [List.mem_singleton.mp hb] at hin
  have hmem : 1 ∈ List.range' 4 32770 ++ List.replicate 32764 0 := List.mem_of_mem_take hin
  rw [List.mem_append, List.mem_range'_1, List.mem_replicate] at hmem
  omega

end OverallocatedBatchedSparseArray

end BatchPMA
