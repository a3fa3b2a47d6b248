import BatchPMA.OutOfPlace.Region
import BatchPMA.InPlace.Fits

/-!
# What the rows hold

The rows of all tasks together hold the union of the blocks that the tasks replace and the batch.
The elements on both sides of a cut are in order, so the rows of a group are put together first, and
then the groups.
-/

namespace BatchPMA

open KeyedUnion Ranges

variable {K α : Type} [LinearOrder K]

namespace OverallocatedBatchedSparseArray

variable {p : OverallocatedParams K α} {base r s : OverallocatedBatchedSparseArray K α}
  {batch : List α} {n a e k t : ℕ} {g : ℕ → TaskInfo} {rows : ℕ → List (PmaEntry K α)}
  {done : List ℕ}

/-! ## Cuts -/

omit [LinearOrder K] in
lemma elements_range_subset {pma : ℕ → PmaEntry K α} {a b c d : ℕ} (h1 : c ≤ a) (h2 : b ≤ d) :
    elements (rangeBlocks pma a b) ⊆ elements (rangeBlocks pma c d) := by
  intro x hx
  obtain ⟨block, hb, hx⟩ := mem_elements.mp hx
  obtain ⟨j, j1, j2, j3, rfl⟩ := mem_rangeBlocks.mp hb
  exact mem_elements.mpr ⟨_, mem_rangeBlocks.mpr ⟨j, by omega, by omega, j3, rfl⟩, hx⟩

/-- What lies in front of a cut is smaller than what lies behind it. -/
lemma Insertable.lt_across_cut (h : s.Insertable p batch n) (hne : ∃ c, s.empty p c = false)
    {m c : ℕ} (hcut : CutsAt p s batch m c) (hc : c ≤ s.size) :
    ∀ x ∈ elements (rangeBlocks s.pma 0 c) ++ batchPart batch ⟨0, m⟩,
      ∀ y ∈ elements (rangeBlocks s.pma c s.size) ++ batchPart batch ⟨m, batch.length⟩,
        p.keyOf x < p.keyOf y := by
  have hord := h.valid.ordered
  rw [blocks, rangeBlocks_append (Nat.zero_le c) hc, elements_append] at hord
  intro x hx y hy
  rcases List.mem_append.mp hx with hx | hx
  · rcases List.mem_append.mp hy with hy | hy
    · exact Ordered.lt hord x hx y hy
    · obtain ⟨i, h1, h2, hi⟩ := mem_batchPart.mp hy
      rw [← batchKey_of_getElem? hi]
      exact h.above_of_cut hne hcut h1 h2 x hx
  · obtain ⟨i, -, h2, hi⟩ := mem_batchPart.mp hx
    rw [← batchKey_of_getElem? hi]
    rcases List.mem_append.mp hy with hy | hy
    · obtain ⟨b, hb, hy⟩ := mem_elements.mp hy
      refine h.below_of_cut hne hcut h2 ⟨b, hb, ?_⟩
      obtain ⟨j, j1, j2, j3, rfl⟩ := mem_rangeBlocks.mp hb
      exact ((h.valid.cellsIn 0 s.size).valid (Nat.zero_le j) j2 j3).head_le hy
    · obtain ⟨i', h3, h4, hi'⟩ := mem_batchPart.mp hy
      rw [← batchKey_of_getElem? hi']
      exact batchKey_lt h.increasing (lt_of_lt_of_le h2 h3) h4

/-! ## One group -/

section

variable (hins : s.Insertable p batch n) (hp : Usable p) (hst : Started p s batch n g)
  (hrows : ∀ t < n, TaskRow p s batch n g t (rows t))
include hins hp hst hrows

omit hst in
/-- The working tasks up to the `k`-th. -/
lemma workers_row (hg : IsGroup (s.splitterBlock p batch n) n a e) (hae : a < e) : ∀ k ≤ e - a,
    Row p s batch
      (batchPart (s.pma (s.splitterBlock p batch n a)).live ⟨0, s.mergeCut p batch n a e k⟩)
      (batchPart batch ⟨s.splitterFirst p batch n a, s.shareFirst p batch n a e k⟩)
      (itemsIn rows a (a + k)) := by
  have hm := hins.mergeInput hp hg hae
  have halt := hg.lt
  intro k
  induction k with
  | zero =>
      intro _
      rw [mergeCut_zero, hm.shareFirst_zero, batchPart_self, batchPart_self, Nat.add_zero, itemsIn,
        Nat.sub_self]
      exact row_nil
  | succ k ih =>
      intro hk
      have hfirst := @shareFirst_mono _ _ _ p s batch n a e k 0 (Nat.zero_le k)
      rw [hm.shareFirst_zero] at hfirst
      have hworker := (hrows (a + k) (by omega)).worker a e k hg rfl (by omega)
      rw [← Nat.add_assoc, itemsIn_append rows (Nat.le_add_right a k) (Nat.le_succ (a + k)),
        itemsIn_succ, hworker, ← batchPart_append (Nat.zero_le _) (hm.mergeCut_mono k),
        ← batchPart_append hfirst (shareFirst_mono (Nat.le_succ k))]
      exact (ih (by omega)).append (hm.worker_row k) (hm.cut_lt k)

omit hst in
/-- All working tasks. -/
lemma allWorkers_row (hg : IsGroup (s.splitterBlock p batch n) n a e) (hae : a < e) :
    Row p s batch (s.pma (s.splitterBlock p batch n a)).live
      (batchPart batch ⟨s.splitterFirst p batch n a, s.mergeEnd p batch n a e⟩)
      (itemsIn rows a e) := by
  have hm := hins.mergeInput hp hg hae
  have hall := workers_row hins hp hrows hg hae (e - a) (le_refl _)
  have hwhole : batchPart (s.pma (s.splitterBlock p batch n a)).live
      ⟨0, (s.pma (s.splitterBlock p batch n a)).size⟩ =
        (s.pma (s.splitterBlock p batch n a)).live := by
    simp only [batchPart, Interval.length, List.drop_zero, Nat.sub_zero]
    rw [← hm.block.length_live, List.take_length]
  rw [hm.mergeCut_last, hm.shareFirst_last, hwhole, Nat.add_sub_cancel' hae.le] at hall
  exact hall

/-- **The rows of a group.** -/
lemma group_row (hg : IsGroup (s.splitterBlock p batch n) n a e) :
    Row p s batch
      (elements (rangeBlocks s.pma (s.splitterBlock p batch n a)
        (s.splitterBlock p batch n (e + 1))))
      (batchPart batch ⟨s.splitterFirst p batch n a, s.splitterFirst p batch n (e + 1)⟩)
      (itemsIn rows a (e + 1)) := by
  have hplan := hst.planned.group a e hg
  obtain ⟨hblock, hfirst⟩ := hst.planned.next hins hp.less hg
  have hlast := ((hrows e hg.lt).insertion hplan.last_type).toRow
  rw [hblock, hfirst, hplan.last_block, hplan.last_first] at hlast
  rw [itemsIn_append rows hg.le (Nat.le_succ e), itemsIn_succ]
  by_cases hae : a < e
  · rw [if_pos hae, if_pos hae] at hlast
    have hworkers := allWorkers_row hins hp hrows hg hae
    have hm := hins.mergeInput hp hg hae
    by_cases hne : ∃ c, s.empty p c = false
    · obtain ⟨h1, h2, h3, -⟩ := hins.normalBlock_spec hne hg
      have hcut := hins.cutsAt_mergeEnd hp.less hne hg
      have hnext := hins.cutsAt_next hne hg
      have hsize := hins.splitterBlock_le_size hne (Nat.succ_le_of_lt hg.lt)
      have hmerge : elements (rangeBlocks s.pma (s.splitterBlock p batch n a)
          (s.normalBlock p batch n e)) = (s.pma (s.splitterBlock p batch n a)).live := by
        have hnil : rangeBlocks s.pma (s.splitterBlock p batch n a + 1)
            (s.normalBlock p batch n e) = [] := by
          rw [List.eq_nil_iff_forall_not_mem]
          intro b hb
          obtain ⟨j, j1, j2, j3, -⟩ := mem_rangeBlocks.mp hb
          rw [h3 j (by omega) j2] at j3
          exact absurd j3 (by simp)
        rw [rangeBlocks_append (Nat.le_succ _) h1, hnil, rangeBlocks_succ,
          cellBlock_of_not_isEmpty (hins.splitterBlock_nonempty hne
            (lt_of_le_of_lt hg.le hg.lt)), List.append_nil, elements_cons, elements_nil,
          List.append_nil]
      rw [← hmerge] at hworkers
      rw [rangeBlocks_append h1.le h2, elements_append,
        ← batchPart_append hm.first_lt.le (hcut.mono hnext h2)]
      refine hworkers.append hlast fun x hx y hy => hins.lt_across_cut hne hcut
        (h2.trans hsize) x ?_ y ?_
      · refine List.mem_append.mpr ((List.mem_append.mp hx).imp
          (fun h => elements_range_subset (Nat.zero_le _) (le_refl _) h)
          fun h => batchPart_subset (Nat.zero_le _) (le_refl _) h)
      · refine List.mem_append.mpr ((List.mem_append.mp hy).imp
          (fun h => elements_range_subset (le_refl _) hsize h)
          fun h => batchPart_subset (le_refl _) hnext.le h)
    · push Not at hne
      have hemp := fun c => Bool.eq_true_of_not_eq_false (hne c)
      obtain ⟨hsame, hgroup⟩ := hins.of_empty hemp
      obtain ⟨-, hn, hend⟩ := hgroup hg
      have hlive : (s.pma (s.splitterBlock p batch n a)).live = [] := by
        rw [hsame, hins.valid.outside _ (le_refl _)]
        rfl
      have hnil := fun a b => @Valid.rangeBlocks_of_empty _ _ _ p s hins.valid hemp a b
      rw [hnil, elements_nil, hn, hins.splitterFirst_last, hend, batchPart_self] at hlast
      rw [hlive, hend] at hworkers
      rw [hnil, elements_nil, hn, hins.splitterFirst_last]
      have := hworkers.append hlast fun x _ y hy => absurd hy List.not_mem_nil
      rwa [List.append_nil, List.append_nil] at this
  · rw [if_neg hae, if_neg hae] at hlast
    have hle := hg.le
    have heq : a = e := by omega
    subst heq
    rw [itemsIn, Nat.sub_self]
    exact hlast

/-! ## All groups -/

/-- The rows in front of a group. -/
lemma rows_before : ∀ t, t ≤ n → (t = 0 ∨ t = n ∨
      s.splitterBlock p batch n (t - 1) ≠ s.splitterBlock p batch n t) →
    Row p s batch
      (elements (rangeBlocks s.pma (s.splitterBlock p batch n 0) (s.splitterBlock p batch n t)))
      (batchPart batch ⟨0, s.splitterFirst p batch n t⟩) (itemsIn rows 0 t) := by
  intro t
  induction t using Nat.strong_induction_on with
  | h t ih =>
      intro ht hborder
      rcases Nat.eq_zero_or_pos t with rfl | hpos
      · rw [rangeBlocks_self, splitterFirst_zero, batchPart_self, itemsIn, Nat.sub_self]
        exact row_nil
      · obtain ⟨a, e, hg, h1, h2⟩ := exists_group (s.splitterBlock p batch n)
          (show t - 1 < n by omega)
        have halt := hg.lt
        have he : e + 1 = t := by
          by_contra hno
          have hlt : t ≤ e := by omega
          rcases hborder with h0 | hn | hne
          · omega
          · omega
          · exact hne ((hg.same (t - 1) h1 h2).trans (hg.same t (by omega) hlt).symm)
        subst he
        have hfront := ih a (by omega) (by omega) (by
          rcases hg.first with h0 | hne
          · exact Or.inl h0
          · exact Or.inr (Or.inr hne))
        have hgroup := group_row hins hp hst hrows hg
        have hmono : ∀ {u v : ℕ}, u ≤ v → v ≤ n →
            s.splitterBlock p batch n u ≤ s.splitterBlock p batch n v := fun huv hv =>
          BatchedSparseArray.splitterBlock_mono hins.asBatched huv hv
        rw [itemsIn_append rows (Nat.zero_le a) (Nat.le_succ_of_le hg.le),
          rangeBlocks_append (hmono (Nat.zero_le a) (by omega)) (hmono (by omega) ht),
          elements_append]
        by_cases hne : ∃ c, s.empty p c = false
        · have hcut := hins.cutsAt_first hne hg
          have hnext := hins.cutsAt_next hne hg
          have hsize := hins.splitterBlock_le_size hne ht
          have hle := hmono (show a ≤ e + 1 by omega) ht
          rw [← batchPart_append (Nat.zero_le _) (hcut.mono hnext hle)]
          refine hfront.append hgroup fun x hx y hy => hins.lt_across_cut hne hcut
            (hle.trans hsize) x ?_ y ?_
          · exact List.mem_append.mpr ((List.mem_append.mp hx).imp
              (fun h => elements_range_subset (Nat.zero_le _) (le_refl _) h) id)
          · exact List.mem_append.mpr ((List.mem_append.mp hy).imp
              (fun h => elements_range_subset (le_refl _) hsize h)
              fun h => batchPart_subset (le_refl _) hnext.le h)
        · -- without blocks this is the only group
          push Not at hne
          have hemp := fun c => Bool.eq_true_of_not_eq_false (hne c)
          obtain ⟨rfl, -, -⟩ := (hins.of_empty hemp).2 hg
          rw [splitterFirst_zero] at hgroup
          rw [rangeBlocks_self, itemsIn, Nat.sub_self]
          exact hgroup

/-- **The rows of all tasks.** -/
theorem allRows_row : Row p s batch
    (elements (rangeBlocks s.pma (s.splitterBlock p batch n 0) s.size)) batch
    (itemsIn rows 0 n) := by
  have hall := rows_before hins hp hst hrows n (le_refl n) (Or.inr (Or.inl rfl))
  have hbatch : batchPart batch ⟨0, batch.length⟩ = batch := by
    simp [batchPart, Interval.length]
  rwa [splitterBlock_last, hins.splitterFirst_last, hbatch] at hall

end

/-! ## What is left for the post-processing -/

/-- The state behind the first parallel region of path B. -/
def outOfPlaceRegion (p : OverallocatedParams K α) (s : OverallocatedBatchedSparseArray K α)
    (batch : List α) (numberOfThreads : ℕ) (sched : Schedule) :
    OverallocatedBatchedSparseArray K α :=
  (sched.threads 0 numberOfThreads).foldl
    (fun s' thread => s'.startTaskOutOfPlace p batch thread) (s.outOfPlaceStart p batch numberOfThreads)

/-- **All tasks have run.** -/
theorem Insertable.region (h : s.Insertable p batch n) (hp : Usable p) (hexact : s.AggregatesExact)
    (hfactor : Overallocates s.overallocationFactor)
    (hnull : ∀ c, s.swapPma c = PmaEntry.null p.toBlockParams) (sched : Schedule) :
    ∃ base g rows done, Started p s batch n g ∧
      Processed p s base batch n g done rows (s.outOfPlaceRegion p batch n sched) ∧
      (∀ t, t ∈ done ↔ t < n) ∧ base.size = (g n).startIndex ∧
      base.overallocationFactor = s.overallocationFactor ∧
      (0 < s.swapCapacity → base.size < base.swapCapacity) := by
  obtain ⟨g, swapCapacity, heq, hst, hcapacity⟩ := h.started hp.less hfactor hnull
  have hstart : Processed p s (s.outOfPlaceStart p batch n) batch n g [] (fun _ => [])
      (s.outOfPlaceStart p batch n) := by
    rw [heq]
    refine ⟨⟨s.sizeManager, rfl⟩, fun t ht => absurd ht List.not_mem_nil, fun t _ => rfl,
      fun t ht => absurd ht List.not_mem_nil, fun c _ => rfl, fun t _ j _ => rfl, fun c _ => rfl,
      fun c _ => rfl, fun t ht => absurd ht List.not_mem_nil, fun t _ => rfl⟩
  have hperm := sched.threads_perm 0 n
  obtain ⟨rows, hrun⟩ := hstart.run h hp hst hexact (sched.threads 0 n)
    (fun u hu => absurd hu List.not_mem_nil)
    (fun u hu => List.mem_range.mp (hperm.mem_iff.mp hu))
    (hperm.nodup_iff.mpr List.nodup_range) fun u _ hu => absurd hu List.not_mem_nil
  refine ⟨_, g, rows, _, hst, hrun, fun t => ?_, by rw [heq], by rw [heq], by
    rw [heq]
    exact hcapacity⟩
  rw [List.append_nil, List.mem_reverse, hperm.mem_iff, List.mem_range]

omit [LinearOrder K] in
lemma elementsUpTo_eq (rows : ℕ → List (PmaEntry K α)) (k : ℕ) :
    elementsUpTo rows k = elements (itemsIn rows 0 k) := by
  rw [elementsUpTo, itemsIn, List.range_eq_range', Nat.sub_zero]

section

variable (hr : Processed p s base batch n g done rows r) (hall : ∀ t, t ∈ done ↔ t < n)
  (hst : Started p s batch n g)
include hr hall hst

lemma Processed.fits (ht : t < n) :
    (g t).startIndex + (rows t).length ≤ (g (t + 1)).startIndex := by
  have h1 := (hr.rows_done t ((hall t).mpr ht)).length_le
  have h2 := hst.consecutive t ht
  omega

lemma Processed.writtenBlocks_eq (ht : t < n) : r.writtenBlocks t = rows t := by
  have hfits := hr.fits hall hst ht
  rw [writtenBlocks, hr.tasks_done t ((hall t).mpr ht)]
  refine List.ext_getElem (by simp) fun j hj hj' => ?_
  rw [List.getElem_map, List.getElem_range]
  simp only
  rw [hr.swap_row t ht j (by omega)]
  simp [List.getD_eq_getElem?_getD, List.getElem?_eq_getElem hj']

/-- With several tasks, a block that is too small is the last one of an inverse merge. -/
lemma Processed.leftByTasks (hins : s.Insertable p batch n) (hp : Usable p) (hn : 1 < n)
    (hexact : s.AggregatesExact) : r.LeftByTasks p n := by
  have hrows := fun t ht => hr.rows_done t ((hall t).mpr ht)
  have htask : ∀ t < n, r.tasks t = { g t with numberOfBlocksWritten := (rows t).length } :=
    fun t ht => hr.tasks_done t ((hall t).mpr ht)
  have hstart : ∀ t, (r.tasks t).startIndex = (g t).startIndex := fun t => (hr.field_eq t).2.2
  have hwidth : ∀ t < n, (r.tasks t).requiredWidth = (g t).requiredWidth := fun t ht => by
    rw [htask t ht]
  have hwritten := fun t ht => @Processed.writtenBlocks_eq _ _ _ p base r s batch n t g rows done hr
    hall hst ht
  have hrow := allRows_row hins hp hst hrows
  constructor
  · intro t ht
    rw [hstart, hstart, hwidth t ht]
    exact hst.consecutive t ht
  · intro t ht
    obtain ⟨a, e, hg, h1, h2⟩ := exists_group (s.splitterBlock p batch n) ht
    have hplan := hst.planned.group a e hg
    rw [hwidth t ht]
    rcases Nat.eq_or_lt_of_le h2 with rfl | hlt
    · rw [hplan.last_width, hins.splitterWidth_eq hexact ht]
      exact maxRedistributionWidth_pos (hins.counted_pos hg)
    · obtain ⟨k, rfl⟩ := Nat.exists_eq_add_of_le h1
      rw [(hplan.worker k hlt).width_eq]
      exact maxRedistributionWidth_pos (Nat.add_pos_right _ (Nat.succ_pos _))
  · intro t ht
    rw [hwidth t ht, htask t ht]
    exact (hrows t ht).length_le
  · intro t ht c h1 h2
    rw [hstart, htask t ht] at h1
    rw [hstart] at h2
    simp only at h1
    obtain ⟨j, rfl⟩ := Nat.exists_eq_add_of_le (show (g t).startIndex ≤ c by omega)
    rw [hr.swap_row t ht j h2, List.getD_eq_getElem?_getD, List.getElem?_eq_none (by omega)]
    rfl
  · intro t ht b hb
    rw [hwritten t ht] at hb
    refine hrow.valid b ?_
    rw [itemsIn, List.mem_flatMap]
    exact ⟨t, List.mem_range'_1.mpr ⟨Nat.zero_le t, by omega⟩, hb⟩
  · intro t ht
    rw [hwritten t ht]
    obtain ⟨a, e, hg, h1, h2⟩ := exists_group (s.splitterBlock p batch n) ht
    have hplan := hst.planned.group a e hg
    rw [htask t ht]
    simp only
    rcases Nat.eq_or_lt_of_le h2 with rfl | hlt
    · have hsized := ((hrows t ht).insertion hplan.last_type).sized.resolve_right fun h => by omega
      exact ⟨fun b hb => hsized b (List.mem_of_mem_dropLast hb), fun _ => hsized⟩
    · obtain ⟨k, rfl⟩ := Nat.exists_eq_add_of_le h1
      have hm := hins.mergeInput hp hg (by omega)
      rw [(hrows (a + k) ht).worker a e k hg rfl hlt, (hplan.worker k hlt).type_eq]
      refine ⟨fun b hb => ?_, fun hno => absurd rfl hno⟩
      rw [(hm.worker_writes k).full b hb]
      exact Nat.div_le_self _ _
  · rw [elementsUpTo_congr hwritten, elementsUpTo_eq]
    exact hrow.union.ordered

end

/-! ## The blocks behind the post-processing -/

/-- Step B-3 of path B starts from the state that the tasks leave. -/
lemma insertBatch_outOfPlace (sched : Schedule) (turns : List ℕ)
    (hpath : (s.prepareInsertion p batch n).useInPlaceInserts p n = false) :
    s.insertBatch p batch n sched turns =
      let left := s.outOfPlaceRegion p batch n sched
      let evened := if (s.findSplitters p batch n).hasMergedTask n then
        left.postprocessInverseMergeTasks p n else left
      let moved := (sched.threads 1 n).foldl
        (fun s' thread => s'.startRewritingTask p thread) (evened.resizeMainPma p)
      { moved with sizeManager := moved.sizeManager.recompute moved.blockSize moved.size } := by
  simp only [insertBatch, hpath, rewriteAll, outOfPlaceRegion, outOfPlaceStart]
  rfl

omit [LinearOrder K] in
lemma one_lt_of_hasMergedTask (h : s.hasMergedTask n = true) : 1 < n := by
  by_contra hn
  have hzero : n - 1 = 0 := by omega
  simp [hasMergedTask, hzero] at h

/-- **Evening out.**  The first part is about every state in which the tasks have written blocks of
increasing keys to the fronts of their ranges, where only the last block of an inverse merge may be
too small.  The second part says that the tasks of a call with a merge group leave such a state. -/
theorem postprocessInverseMergeTasks_evensOut (p : OverallocatedParams K α)
    (numberOfThreads : ℕ) :
    (∀ left : OverallocatedBatchedSparseArray K α, left.LeftByTasks p numberOfThreads →
      p.minBlockSize ≤ (elementsUpTo left.writtenBlocks numberOfThreads).length →
      EvenedOut p numberOfThreads left (left.postprocessInverseMergeTasks p numberOfThreads) ∧
        left.finalCarry p numberOfThreads = PmaEntry.null p.toBlockParams ∧
        ∀ c ∈ left.replacedByCarries p numberOfThreads, c = PmaEntry.null p.toBlockParams) ∧
    ∀ (s : OverallocatedBatchedSparseArray K α) (batch : List α) (sched : Schedule),
      Usable p → s.Insertable p batch numberOfThreads → s.AggregatesExact →
      Overallocates s.overallocationFactor → (∀ c, s.swapPma c = PmaEntry.null p.toBlockParams) →
      (s.findSplitters p batch numberOfThreads).hasMergedTask numberOfThreads = true →
      (s.outOfPlaceRegion p batch numberOfThreads sched).LeftByTasks p numberOfThreads := by
  refine ⟨fun left hleft henough => hleft.evenedOut henough, ?_⟩
  intro s batch sched hp hins hexact hfactor hnull hmerged
  obtain ⟨base, g, rows, done, hst, hr, hall, -⟩ := hins.region hp hexact hfactor hnull sched
  exact hr.leftByTasks hall hst hins hp (one_lt_of_hasMergedTask hmerged) hexact

/-- Two tasks share the only block.  The second block that the inverse merge writes is too small. -/
theorem postprocessInverseMergeTasks_evensOut_fourCells :
    let p := keyOnlyOverallocated 4
    let left := fourCells.outOfPlaceRegion p [1, 4, 6] 2 Schedule.sequential
    let r := left.postprocessInverseMergeTasks p 2
    (left.writtenBlocks 0).map PmaEntry.live = [[1, 3, 4, 5], [6]] ∧
      (r.writtenBlocks 0).map PmaEntry.live = [[1, 3, 4], [5, 6]] ∧ EvenedOut p 2 left r := by
  have h := postprocessInverseMergeTasks_evensOut (keyOnlyOverallocated 4) 2
  have hleft := h.2 fourCells [1, 4, 6] Schedule.sequential
    ⟨by decide, by decide, by decide, rfl, fun _ _ => rfl⟩
    ⟨fourCells_valid, by simp [Increasing, keyOnlyOverallocated, keyOnlyBlocks], by decide,
      by decide, by decide⟩
    fourCells_exact overallocates_initial (fun _ => rfl)
    (by decide)
  exact ⟨by decide +kernel, by decide +kernel, (h.1 _ hleft (by decide +kernel)).1⟩

end OverallocatedBatchedSparseArray

end BatchPMA
