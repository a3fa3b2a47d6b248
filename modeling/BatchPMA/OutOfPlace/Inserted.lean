import BatchPMA.OutOfPlace.Rewriting
import BatchPMA.OutOfPlace.Cleaning
import BatchPMA.InPlace.Copies

/-!
# What path B leaves behind

The first region and the post-processing empty the main array, and step B-4 fills it again.  The
elements are the union of the old ones and the batch, unless there are several tasks and fewer
elements than a block has to have: then no task takes the last carry block.
-/

namespace BatchPMA

open KeyedUnion Ranges

variable {K α : Type} [LinearOrder K]

namespace OverallocatedBatchedSparseArray

variable {p : OverallocatedParams K α} {base r s : OverallocatedBatchedSparseArray K α}
  {batch : List α} {n a e t : ℕ} {g : ℕ → TaskInfo} {rows rows' : ℕ → List (PmaEntry K α)}
  {done : List ℕ}

/-! ## The main array is empty -/

section

variable (hr : Processed p s base batch n g done rows r) (hall : ∀ t, t ∈ done ↔ t < n)
  (hst : Started p s batch n g) (hins : s.Insertable p batch n)
include hr hall hst hins

/-- Only merge blocks are left in the main array. -/
lemma Processed.merge_block (c : ℕ) : r.pma c = PmaEntry.null p.toBlockParams ∨
    ∃ t < n, 0 < t ∧ (g t).type = .insertion ∧ (g (t - 1)).type = .inverseMerge ∧
      c = (g (t - 1)).blockForBatchSplitter := by
  cases hempty : (s.pma c).isEmpty with
  | true =>
      rw [hr.cell_of_empty hins.valid hempty]
      exact Or.inl (hins.valid.eq_null hempty)
  | false =>
      have hne : ∃ c, s.empty p c = false := ⟨c, by rw [hins.valid.empty_eq, hempty]⟩
      have hsize := hins.valid.lt_size hempty
      have hT := hins.threads_pos
      rcases Nat.lt_or_ge c (g 0).blockForBatchSplitter with hlt | hge
      · exact Or.inl (hr.pma_owned 0 ((hall 0).mpr hT) c (Or.inl ⟨rfl, hlt⟩))
      · rw [← hst.planned.last_block] at hsize
        obtain ⟨t, ht, h1, h2⟩ := exists_step (f := fun t => (g t).blockForBatchSplitter) hge n
          hsize
        by_cases htype : (g t).type = .insertion
        · exact Or.inl (hr.pma_owned t ((hall t).mpr ht) c (Or.inr ⟨htype, h1, h2⟩))
        · obtain ⟨a, e, hg, h3, h4⟩ := exists_group (s.splitterBlock p batch n) ht
          have hplan := hst.planned.group a e hg
          have hte : t < e := by
            rcases Nat.eq_or_lt_of_le h4 with rfl | hlt
            · exact absurd hplan.last_type htype
            · exact hlt
          obtain ⟨k, rfl⟩ := Nat.exists_eq_add_of_le h3
          have hw := hplan.worker k hte
          simp only [hw.block_eq] at h1
          rcases Nat.eq_or_lt_of_le (show a + k + 1 ≤ e from hte) with rfl | hlt
          · have hnormal := hplan.last_block
            rw [if_pos (by omega)] at hnormal
            simp only [hnormal] at h2
            have hc : c = s.splitterBlock p batch n a := by
              by_contra hno
              have := (hins.normalBlock_spec hne hg).2.2.1 c (by omega) h2
              rw [hempty] at this
              exact absurd this Bool.false_ne_true
            refine Or.inr ⟨a + k + 1, hg.lt, Nat.succ_pos _, hplan.last_type, hw.type_eq, ?_⟩
            rw [hc, ← hw.block_eq]
            rfl
          · have hnext := (hplan.worker (k + 1) (by omega)).block_eq
            rw [← Nat.add_assoc] at hnext
            simp only [hnext] at h2
            omega

/-- Without merge groups nothing is left. -/
lemma Processed.pma_null_of_insertion (hno : ∀ t < n, (g t).type = .insertion) (c : ℕ) :
    r.pma c = PmaEntry.null p.toBlockParams := by
  rcases hr.merge_block hall hst hins c with hnull | ⟨t, ht, h0, -, htype, -⟩
  · exact hnull
  · rw [hno (t - 1) (by omega)] at htype
    cases htype

/-- Behind the post-processing nothing is left. -/
lemma Processed.pma_null_of_postprocess (c : ℕ) :
    (r.postprocessInverseMergeTasks p n).pma c = PmaEntry.null p.toBlockParams := by
  have hcells : ∀ c, r.pma c = PmaEntry.null p.toBlockParams ∨
      (r.pma c).Valid p.toBlockParams := by
    intro c
    rcases hr.cell c with hnull | heq
    · exact Or.inl hnull
    · rw [heq]
      exact hins.valid.cell c
  have hclean := cleaning_postprocess hcells n
  have hfield : ∀ t < n, (r.tasks t).type = (g t).type ∧
      (r.tasks t).blockForBatchSplitter = (g t).blockForBatchSplitter := fun t ht => by
    rw [hr.tasks_done t ((hall t).mpr ht)]
    exact ⟨rfl, rfl⟩
  rcases hr.merge_block hall hst hins c with hnull | ⟨t, ht, h0, h1, h2, rfl⟩
  · rcases hclean.cell c with heq | hnull'
    · exact heq.trans hnull
    · exact hnull'
  · obtain ⟨htype, -⟩ := hfield t ht
    obtain ⟨htype', hblock⟩ := hfield (t - 1) (by omega)
    have hdel := hclean.deleted t ht h0 (htype.trans h1) (htype'.trans h2)
    rwa [hblock] at hdel

end

/-! ## In front of step B-4 -/

/-- The swap array when the main array is empty: rows of valid blocks, all of them made of cells
that the tasks have written. -/
structure Settled (p : OverallocatedParams K α) (r : OverallocatedBatchedSparseArray K α) (n : ℕ)
    (s' : OverallocatedBatchedSparseArray K α) (rows' : ℕ → List (PmaEntry K α)) : Prop where
  laidOut : LaidOut p r.swapPma r.tasks n s' rows'
  length_le : ∀ t < n, (rows' t).length ≤ (r.tasks t).requiredWidth
  valid : ∀ t < n, ∀ b ∈ rows' t, b.Valid p.toBlockParams
  pma_null : ∀ c, s'.pma c = PmaEntry.null p.toBlockParams
  frame : s' = { r with
    pma := s'.pma
    swapPma := s'.swapPma
    tasks := s'.tasks }
  swap : ∀ c, FromSwap p r (s'.swapPma c)

omit [LinearOrder K] in
lemma resizeMainPma_eq (h : ∀ c, s.pma c = PmaEntry.null p.toBlockParams) :
    s.resizeMainPma p = { s with capacity := s.swapCapacity } := by
  have hpma : s.pma = fun _ => PmaEntry.null p.toBlockParams := funext h
  rw [resizeMainPma]
  split
  · rw [← hpma]
  · rename_i hsame
    rw [not_not] at hsame
    cases s
    simp only at hsame ⊢
    rw [hsame]

section

variable (hr : Processed p s base batch n g done rows r) (hall : ∀ t, t ∈ done ↔ t < n)
  (hst : Started p s batch n g)
include hr hall hst

omit hst in
lemma Processed.laidOut : LaidOut p r.swapPma r.tasks n r rows where
  tasks_eq := fun _ => rfl
  written_eq := fun t ht => by rw [hr.tasks_done t ((hall t).mpr ht)]
  cell_eq := by
    intro t ht j hj
    rw [(hr.field_eq t).2.2] at hj ⊢
    rw [(hr.field_eq (t + 1)).2.2] at hj
    exact hr.swap_row t ht j hj
  outside_eq := fun _ _ => rfl

lemma Processed.consecutive : Consecutive r.tasks n := by
  intro t ht
  rw [(hr.field_eq t).2.2, (hr.field_eq (t + 1)).2.2, hr.tasks_done t ((hall t).mpr ht)]
  exact hst.consecutive t ht

variable (hins : s.Insertable p batch n) (hsize : base.size = (g n).startIndex)
include hins hsize

lemma Settled.spreadable {s' : OverallocatedBatchedSparseArray K α}
    (h : Settled p r n s' rows') : Spreadable p (s'.resizeMainPma p) n rows' := by
  have hT := hins.threads_pos
  have hstart : ∀ t, (s'.tasks t).startIndex = (g t).startIndex := fun t => by
    rw [h.laidOut.startIndex_eq, (hr.field_eq t).2.2]
  have hc := hr.consecutive hall hst
  have hsize' : s'.size = (g n).startIndex := by
    obtain ⟨sizeManager, hframe⟩ := hr.frame
    rw [h.frame, hframe]
    exact hsize
  have houter : ∀ c, c < (g 0).startIndex ∨ (g n).startIndex ≤ c → s'.swapPma c = r.swapPma c := by
    intro c hc
    refine h.laidOut.outside_eq c ?_
    rw [(hr.field_eq 0).2.2, (hr.field_eq n).2.2]
    exact hc
  rw [resizeMainPma_eq h.pma_null]
  constructor
  · change (s'.tasks 0).startIndex = (s'.tasks 0).blockForBatchSplitter
    rw [h.laidOut.tasks_eq, (hr.field_eq 0).2.2, (hr.field_eq 0).1, hst.start_zero]
  · exact h.laidOut.written_eq
  · intro t ht
    have hle := h.length_le t ht
    have hwidth := hc t ht
    rw [← h.laidOut.startIndex_eq, ← h.laidOut.startIndex_eq] at hwidth
    change (s'.tasks t).startIndex + _ ≤ (s'.tasks (t + 1)).startIndex
    omega
  · intro t ht j hj
    change (s'.tasks t).startIndex + j < (s'.tasks (t + 1)).startIndex at hj
    change s'.swapPma ((s'.tasks t).startIndex + j) = _
    rw [h.laidOut.startIndex_eq] at hj ⊢
    rw [h.laidOut.startIndex_eq] at hj
    exact h.laidOut.cell_eq t ht j hj
  · intro t ht b hb
    exact (h.valid t ht b hb).isEmpty_eq
  · intro c hlt
    change c < (s'.tasks 0).startIndex at hlt
    change s'.swapPma c = _ ∨ (s'.swapPma c).isEmpty = false
    rw [hstart] at hlt
    rw [houter c (Or.inl hlt), hr.swap_front c hlt, if_pos ((hall 0).mpr hT)]
    exact (hins.valid.cell c).imp id PmaEntry.Valid.isEmpty_eq
  · intro c hge
    change (s'.tasks n).startIndex ≤ c at hge
    change s'.swapPma c = _
    rw [hstart] at hge
    rw [houter c (Or.inr hge), hr.swap_behind c hge]
  · exact h.pma_null
  · change s'.size = (s'.tasks n).startIndex
    rw [hstart, hsize']

end

/-! ## With and without merge groups -/

lemma block_findSplitters (hins : s.Insertable p batch n) (ht : t ≤ n) :
    ((s.findSplitters p batch n).tasks t).blockForBatchSplitter = s.splitterBlock p batch n t := by
  have h := congrArg TaskInfo.blockForBatchSplitter (tasks_findSplitters hins ht)
  rw [setTask] at h
  by_cases h0 : t = 0
  · subst h0
    simp only [Function.update_self] at h
    exact h
  · simp only [ne_eq, h0, not_false_eq_true, Function.update_of_ne] at h
    exact h

/-- Without a merge group every task is an insertion. -/
lemma Started.insertion_of_not_merged (hst : Started p s batch n g) (hins : s.Insertable p batch n)
    (hno : (s.findSplitters p batch n).hasMergedTask n = false) (ht : t < n) :
    (g t).type = .insertion := by
  obtain ⟨a, e, hg, h1, h2⟩ := exists_group (s.splitterBlock p batch n) ht
  have hae : ¬ a < e := by
    intro hlt
    have hsame := hg.same (a + 1) (Nat.le_succ a) hlt
    have hen := hg.lt
    rw [hasMergedTask, List.any_eq_false] at hno
    refine hno (a + 1) (List.mem_range'_1.mpr ⟨by omega, by omega⟩) (decide_eq_true ?_)
    rw [block_findSplitters hins (by omega), block_findSplitters hins (by omega)]
    exact hsame
  have he : t = e := by omega
  rw [he]
  exact (hst.planned.group a e hg).last_type

/-- What is left in front of step B-4. -/
structure LeftOver (p : OverallocatedParams K α) (r : OverallocatedBatchedSparseArray K α) (n : ℕ)
    (rows : ℕ → List (PmaEntry K α)) (s' : OverallocatedBatchedSparseArray K α)
    (rows' : ℕ → List (PmaEntry K α)) : Prop extends Settled p r n s' rows' where
  sized : (∀ t < n, ∀ b ∈ rows' t, p.minBlockSize ≤ b.size) ∨ n = 1 ∧ (rows' 0).length = 1
  elements_eq : elements (itemsIn rows' 0 n) = elements (itemsIn rows 0 n) ∨
    1 < n ∧ (elements (itemsIn rows 0 n)).length < p.minBlockSize ∧ ∀ t < n, rows' t = []

section

variable (hr : Processed p s base batch n g done rows r) (hall : ∀ t, t ∈ done ↔ t < n)
  (hst : Started p s batch n g) (hins : s.Insertable p batch n) (hp : Usable p)
include hr hall hst hins hp

/-- Without merge groups the rows stay as they are. -/
lemma Processed.leftOver_of_insertion (hno : ∀ t < n, (g t).type = .insertion) :
    LeftOver p r n rows r rows := by
  have hrows := fun t ht => hr.rows_done t ((hall t).mpr ht)
  have hrow := allRows_row hins hp hst hrows
  refine { laidOut := hr.laidOut hall, length_le := fun t ht => ?_, valid := fun t ht b hb => ?_,
           pma_null := hr.pma_null_of_insertion hall hst hins hno, frame := rfl,
           swap := fromSwap_swapPma r, sized := ?_, elements_eq := Or.inl rfl }
  · rw [hr.tasks_done t ((hall t).mpr ht)]
    exact (hrows t ht).length_le
  · refine hrow.valid b ?_
    rw [itemsIn, List.mem_flatMap]
    exact ⟨t, List.mem_range'_1.mpr ⟨Nat.zero_le t, by omega⟩, hb⟩
  · have hT := hins.threads_pos
    by_cases hone : n = 1
    · subst hone
      rcases ((hrows 0 hT).insertion (hno 0 hT)).sized with hsized | hsingle
      · refine Or.inl fun t ht => ?_
        rw [Nat.lt_one_iff.mp ht]
        exact hsized
      · exact Or.inr ⟨rfl, hsingle.1⟩
    · exact Or.inl fun t ht =>
        ((hrows t ht).insertion (hno t ht)).sized.resolve_right fun h => hone h.2

/-- With merge groups, they are evened out, or all of them are lost. -/
lemma Processed.leftOver_of_postprocess (hn : 1 < n) (hexact : s.AggregatesExact) :
    ∃ rows', LeftOver p r n rows (r.postprocessInverseMergeTasks p n) rows' := by
  have hleft := hr.leftByTasks hall hst hins hp hn hexact
  have hcells : ∀ c, r.pma c = PmaEntry.null p.toBlockParams ∨
      (r.pma c).Valid p.toBlockParams := by
    intro c
    rcases hr.cell c with hnull | heq
    · exact Or.inl hnull
    · rw [heq]
      exact hins.valid.cell c
  have hclean := cleaning_postprocess hcells n
  have hnull := hr.pma_null_of_postprocess hall hst hins
  have hwritten : elementsUpTo r.writtenBlocks n = elements (itemsIn rows 0 n) := by
    rw [← elementsUpTo_eq]
    exact elementsUpTo_congr fun t ht => hr.writtenBlocks_eq hall hst ht
  rcases Nat.lt_or_ge (elements (itemsIn rows 0 n)).length p.minBlockSize with hfew | henough
  · rw [← hwritten] at hfew
    obtain ⟨rows', hlaid, hnil⟩ := hleft.lost hfew
    rw [hwritten] at hfew
    have hempty : ∀ {t : ℕ} {b : PmaEntry K α}, t < n → b ∉ rows' t := by
      intro t b ht
      rw [hnil t ht]
      exact List.not_mem_nil
    exact ⟨rows', {
      laidOut := hlaid
      length_le := fun t ht => by
        rw [hnil t ht]
        exact Nat.zero_le _
      valid := fun t ht b hb => absurd hb (hempty ht)
      pma_null := hnull
      frame := hclean.frame
      swap := hclean.swap
      sized := Or.inl fun t ht b hb => absurd hb (hempty ht)
      elements_eq := Or.inr ⟨hn, hfew, hnil⟩ }⟩
  · rw [← hwritten] at henough
    obtain ⟨⟨rows', heven⟩, -⟩ := hleft.even henough
    refine ⟨rows', {
      laidOut := heven.laidOut
      length_le := heven.length_le
      valid := fun t ht b hb => (heven.good t ht b hb).1
      pma_null := hnull
      frame := hclean.frame
      swap := hclean.swap
      sized := Or.inl fun t ht b hb => (heven.good t ht b hb).2
      elements_eq := Or.inl ?_ }⟩
    rw [← hwritten, ← elementsUpTo_eq]
    exact heven.elements_eq

end

/-! ## The blocks in front of the first task -/

/-- With blocks in front of the first task there are several blocks. -/
lemma Insertable.large_of_front (h : s.Insertable p batch n)
    (hfront : rangeBlocks s.pma 0 (s.splitterBlock p batch n 0) ≠ []) :
    (∀ b ∈ s.blocks, p.minBlockSize ≤ b.size) ∧ p.minBlockSize ≤
      (elements (rangeBlocks s.pma (s.splitterBlock p batch n 0) s.size)).length := by
  have hT := h.threads_pos
  obtain ⟨b, hb⟩ := List.exists_mem_of_ne_nil _ hfront
  obtain ⟨c, -, hc, hempty, -⟩ := mem_rangeBlocks.mp hb
  have hne : ∃ c, s.empty p c = false := ⟨c, by rw [h.valid.empty_eq, hempty]⟩
  have hblock := h.splitterBlock_nonempty hne hT
  have hsize := h.valid.lt_size hblock
  have hlarge := h.valid.large.resolve_right (h.valid.blocks_ne_one hc hempty hblock)
  refine ⟨hlarge, ?_⟩
  have hmem : s.pma (s.splitterBlock p batch n 0) ∈ s.blocks :=
    mem_rangeBlocks.mpr ⟨_, Nat.zero_le _, hsize, hblock, rfl⟩
  have hmin := hlarge _ hmem
  have hvalid := (h.valid.cell (s.splitterBlock p batch n 0)).resolve_left fun hnull => by
    rw [hnull] at hblock
    cases hblock
  rw [rangeBlocks_append (Nat.le_succ _) hsize, rangeBlocks_succ, cellBlock_of_not_isEmpty hblock,
    List.singleton_append, elements_cons, List.length_append, hvalid.length_live]
  omega

/-! ## The swap array -/

section

variable (hr : Processed p s base batch n g done rows r) (hall : ∀ t, t ∈ done ↔ t < n)
  (hst : Started p s batch n g) (hins : s.Insertable p batch n) (hp : Usable p)
include hr hall hst hins

omit hst in
lemma Processed.swap_cell {s' : OverallocatedBatchedSparseArray K α}
    (h : Settled p r n s' rows') (c : ℕ) :
    s'.swapPma c = PmaEntry.null p.toBlockParams ∨ (s'.swapPma c).Valid p.toBlockParams := by
  have hT := hins.threads_pos
  have houter : (c < (g 0).startIndex ∨ (g n).startIndex ≤ c) → s'.swapPma c = r.swapPma c := by
    intro hc
    refine h.laidOut.outside_eq c ?_
    rw [(hr.field_eq 0).2.2, (hr.field_eq n).2.2]
    exact hc
  rcases Nat.lt_or_ge c (g 0).startIndex with hlt | hge
  · rw [houter (Or.inl hlt), hr.swap_front c hlt, if_pos ((hall 0).mpr hT)]
    exact hins.valid.cell c
  · rcases Nat.lt_or_ge c (g n).startIndex with hlt | hge'
    · obtain ⟨t, ht, h1, h2⟩ := exists_step (f := fun t => (g t).startIndex) hge n hlt
      obtain ⟨j, rfl⟩ := Nat.exists_eq_add_of_le h1
      have hcell := h.laidOut.cell_eq t ht j (by
        rw [(hr.field_eq t).2.2, (hr.field_eq (t + 1)).2.2]
        exact h2)
      rw [(hr.field_eq t).2.2] at hcell
      rw [hcell, List.getD_eq_getElem?_getD]
      cases hj : (rows' t)[j]? with
      | none => exact Or.inl rfl
      | some b => exact Or.inr (h.valid t ht b (List.mem_of_getElem? hj))
    · rw [houter (Or.inr hge'), hr.swap_behind c hge']
      exact Or.inl rfl

include hp

/-- The tasks write nothing that is neither in the array nor in the batch. -/
lemma Processed.swap_holds {P : α → Prop} (hzero : P p.zero) (hold : AllHold P s.pma)
    (hbatch : ∀ x ∈ batch, P x) : AllHold P r.swapPma := by
  have hT := hins.threads_pos
  have hrow := allRows_row hins hp hst fun t ht => hr.rows_done t ((hall t).mpr ht)
  intro c
  rcases Nat.lt_or_ge c (g 0).startIndex with hlt | hge
  · rw [hr.swap_front c hlt, if_pos ((hall 0).mpr hT)]
    exact hold c
  · rcases Nat.lt_or_ge c (g n).startIndex with hlt | hge'
    · obtain ⟨t, ht, h1, h2⟩ := exists_step (f := fun t => (g t).startIndex) hge n hlt
      obtain ⟨j, rfl⟩ := Nat.exists_eq_add_of_le h1
      rw [hr.swap_row t ht j h2, List.getD_eq_getElem?_getD]
      cases hj : (rows t)[j]? with
      | none => exact PmaEntry.holds_null _
      | some b =>
          refine hrow.holds P hzero hold hbatch b ?_
          rw [itemsIn, List.mem_flatMap]
          exact ⟨t, List.mem_range'_1.mpr ⟨Nat.zero_le t, by omega⟩, List.mem_of_getElem? hj⟩
    · rw [hr.swap_behind c hge']
      exact PmaEntry.holds_null _

end

/-! ## Path B -/

/-- What an insertion leaves behind, apart from the content. -/
structure Kept (p : OverallocatedParams K α) (s r : OverallocatedBatchedSparseArray K α)
    (batch : List α) : Prop where
  cell : ∀ c, r.pma c = PmaEntry.null p.toBlockParams ∨ (r.pma c).Valid p.toBlockParams
  outside : ∀ c, r.size ≤ c → r.pma c = PmaEntry.null p.toBlockParams
  swap_null : ∀ c, r.swapPma c = PmaEntry.null p.toBlockParams
  exact : r.AggregatesExact
  factor_eq : r.overallocationFactor = s.overallocationFactor
  capacity_eq : r.capacity = r.swapCapacity
  size_lt : r.size < r.capacity
  holds : ∀ P : α → Prop, P p.zero → AllHold P s.pma → (∀ x ∈ batch, P x) → AllHold P r.pma

omit [LinearOrder K] in
lemma aggregatesExact_recompute (s : OverallocatedBatchedSparseArray K α) :
    AggregatesExact
      { s with sizeManager := s.sizeManager.recompute s.blockSize s.size } where
  size := BlockSizeManager.size_recompute s.size
  exact := BlockSizeManager.exact_recompute s.size

section

variable (hr : Processed p s base batch n g done rows r) (hall : ∀ t, t ∈ done ↔ t < n)
  (hst : Started p s batch n g) (hins : s.Insertable p batch n) (hp : Usable p)
include hr hall hst hins hp

/-- Together with the blocks in front, the rows hold the whole content. -/
lemma Processed.content : IsUnion p.keyOf (elements s.blocks) batch
    (elements (rangeBlocks s.pma 0 (s.splitterBlock p batch n 0)) ++
      elements (itemsIn rows 0 n)) := by
  have hrow := allRows_row hins hp hst fun t ht => hr.rows_done t ((hall t).mpr ht)
  by_cases hne : ∃ c, s.empty p c = false
  · have hT := hins.threads_pos
    have hsize := hins.splitterBlock_le_size hne (Nat.zero_le n)
    have hord := hins.valid.ordered
    rw [blocks, rangeBlocks_append (Nat.zero_le _) hsize, elements_append] at hord
    obtain ⟨a, e, hg, h1, -⟩ := exists_group (s.splitterBlock p batch n) hT
    obtain rfl : a = 0 := Nat.le_zero.mp h1
    have hcut := hins.cutsAt_first hne hg
    have happend := (IsUnion.nil_new hord.left).append hrow.union ?_
    · rw [List.nil_append] at happend
      rw [blocks, rangeBlocks_append (Nat.zero_le _) hsize, elements_append]
      exact happend
    · rw [List.append_nil]
      intro x hx y hy
      rw [splitterFirst_zero] at hcut
      refine hins.lt_across_cut hne hcut hsize x (List.mem_append_left _ hx) y ?_
      refine List.mem_append.mpr ((List.mem_append.mp hy).imp id fun hy => ?_)
      have hwhole : batchPart batch ⟨0, batch.length⟩ = batch := by
        simp [batchPart, Interval.length]
      rwa [hwhole]
  · push Not at hne
    have hemp := fun c => Bool.eq_true_of_not_eq_false (hne c)
    have hnil := fun a b => @Valid.rangeBlocks_of_empty _ _ _ p s hins.valid hemp a b
    have hunion := hrow.union
    rw [hnil] at hunion ⊢
    rw [blocks, hnil]
    exact hunion

variable (hsize : base.size = (g n).startIndex) (hcapacity : base.size < base.swapCapacity)
  {s' : OverallocatedBatchedSparseArray K α} (hleft : LeftOver p r n rows s' rows')
include hsize hcapacity hleft

/-- Step B-4 and the size manager. -/
lemma LeftOver.rewritten (sched : Schedule) :
    let moved := (sched.threads 1 n).foldl
      (fun s' thread => s'.startRewritingTask p thread) (s'.resizeMainPma p)
    let r' : OverallocatedBatchedSparseArray K α :=
      { moved with sizeManager := moved.sizeManager.recompute moved.blockSize moved.size }
    (base.overallocationFactor = s.overallocationFactor → Kept p s r' batch) ∧
      r'.blocks = rangeBlocks s.pma 0 (s.splitterBlock p batch n 0) ++ itemsIn rows' 0 n := by
  intro moved r'
  have hT := hins.threads_pos
  have hspread := hleft.toSettled.spreadable hr hall hst hins hsize
  have hperm := sched.threads_perm 1 n
  have hts : ∀ t, t ∈ sched.threads 1 n ↔ t < n := fun t => by
    rw [hperm.mem_iff, List.mem_range]
  have hfront : ∀ c < ((s'.resizeMainPma p).tasks 0).blockForBatchSplitter,
      ((s'.resizeMainPma p).swapPma c).isEmpty = true →
        (s'.resizeMainPma p).swapPma c = PmaEntry.null p.toBlockParams := by
    intro c hc hempty
    rw [← hspread.start_zero] at hc
    refine (hspread.front c hc).resolve_right fun hno => ?_
    rw [hempty] at hno
    cases hno
  have hmoved : Moved p (s'.resizeMainPma p)
      ((sched.threads 1 n).flatMap (taskMoves (s'.resizeMainPma p).tasks)) moved := by
    have hrun := Moved.run hfront (sched.threads 1 n) (moved_refl hspread.pma_null)
      (by simpa using hspread.distinct hperm)
    simpa using hrun
  have hswap : (s'.resizeMainPma p).swapPma = s'.swapPma := by
    rw [resizeMainPma_eq hleft.pma_null]
  obtain ⟨sizeManager, hbase⟩ := hr.frame
  have hstart : (g 0).startIndex = s.splitterBlock p batch n 0 := by
    obtain ⟨a, e, hg, h1, -⟩ := exists_group (s.splitterBlock p batch n) hT
    obtain rfl : a = 0 := Nat.le_zero.mp h1
    rw [hst.start_zero]
    exact (hst.planned.first hins hp.less hg).1
  constructor
  · intro hfactor
    constructor
    · intro c
      rcases hmoved.cell c with hnull | ⟨c', heq⟩
      · exact Or.inl hnull
      · rw [hswap] at heq
        change moved.pma c = _ ∨ (moved.pma c).Valid _
        rw [heq]
        exact hr.swap_cell hall hins hleft.toSettled c'
    · exact fun c hc => hspread.outside hts hmoved hc
    · have hnull := hspread.swapPma_null hts hmoved hT
      exact hnull
    · exact aggregatesExact_recompute moved
    · change moved.overallocationFactor = _
      rw [hmoved.frame, resizeMainPma_eq hleft.pma_null, hleft.frame, hbase]
      exact hfactor
    · change moved.capacity = moved.swapCapacity
      rw [hmoved.frame, resizeMainPma_eq hleft.pma_null]
    · change moved.size < moved.capacity
      rw [hmoved.frame, resizeMainPma_eq hleft.pma_null, hleft.frame, hbase]
      exact hcapacity
    · intro P h1 h2 h3 c
      rcases hmoved.cell c with hnull | ⟨c', heq⟩
      · change (moved.pma c).Holds P
        rw [hnull]
        exact PmaEntry.holds_null _
      · rw [hswap] at heq
        change (moved.pma c).Holds P
        rw [heq]
        exact hleft.swap c' P h1 (hr.swap_holds hall hst hins hp h1 h2 h3)
  · have hstart' : ((s'.resizeMainPma p).tasks 0).startIndex = s.splitterBlock p batch n 0 := by
      rw [resizeMainPma_eq hleft.pma_null]
      change (s'.tasks 0).startIndex = _
      rw [hleft.laidOut.startIndex_eq, (hr.field_eq 0).2.2, hstart]
    have hblocks := hspread.blocks_eq hts hmoved hT
    change moved.blocks = _
    rw [hblocks, hstart']
    congr 1
    refine rangeBlocks_congr fun c _ hc => ?_
    rw [← hstart] at hc
    rw [hswap, hleft.laidOut.outside_eq c (Or.inl ((hr.field_eq 0).2.2.symm ▸ hc)),
      hr.swap_front c hc, if_pos ((hall 0).mpr hT)]

end

/-- **Path B.**  The content is the union of the old elements and the batch, or everything has been
lost: several tasks have shared fewer elements than a block has to have. -/
theorem Insertable.outOfPlace (hins : s.Insertable p batch n) (hp : Usable p)
    (hexact : s.AggregatesExact) (hfactor : Overallocates s.overallocationFactor)
    (hnull : ∀ c, s.swapPma c = PmaEntry.null p.toBlockParams) (hcapacity : 0 < s.swapCapacity)
    (hpath : (s.prepareInsertion p batch n).useInPlaceInserts p n = false)
    (sched : Schedule) (turns : List ℕ) :
    let r := s.insertBatch p batch n sched turns
    Kept p s r batch ∧
      ((∀ b ∈ r.blocks, p.minBlockSize ≤ b.size) ∨ n = 1 ∧ r.blocks.length = 1) ∧
      (IsUnion p.keyOf (elements s.blocks) batch (elements r.blocks) ∨
        1 < n ∧ r.blocks = [] ∧ ∀ u, IsUnion p.keyOf (elements s.blocks) batch u →
          u.length < p.minBlockSize) := by
  intro r
  obtain ⟨base, g, rows, done, hst, hr, hall, hsize, hfac, hcap⟩ :=
    hins.region hp hexact hfactor hnull sched
  have heq := insertBatch_outOfPlace (p := p) sched turns hpath
  obtain ⟨evened, heven, rows', hleft⟩ : ∃ evened,
      evened = (if (s.findSplitters p batch n).hasMergedTask n then
        (s.outOfPlaceRegion p batch n sched).postprocessInverseMergeTasks p n
        else s.outOfPlaceRegion p batch n sched) ∧
      ∃ rows', LeftOver p (s.outOfPlaceRegion p batch n sched) n rows evened rows' := by
    cases hmerged : (s.findSplitters p batch n).hasMergedTask n with
    | true =>
        exact ⟨_, rfl, hr.leftOver_of_postprocess hall hst hins hp
          (one_lt_of_hasMergedTask hmerged) hexact⟩
    | false =>
        exact ⟨_, rfl, rows, hr.leftOver_of_insertion hall hst hins hp fun t ht =>
          hst.insertion_of_not_merged hins hmerged ht⟩
  obtain ⟨hkept, hblocks⟩ :=
    LeftOver.rewritten hr hall hst hins hp hsize (hcap hcapacity) hleft sched
  rw [heven] at hkept hblocks
  have hrow := allRows_row hins hp hst fun t ht => hr.rows_done t ((hall t).mpr ht)
  have hcontent := hr.content hall hst hins hp
  have hr' : r.blocks = rangeBlocks s.pma 0 (s.splitterBlock p batch n 0) ++
      itemsIn rows' 0 n := by
    change (s.insertBatch p batch n sched turns).blocks = _
    rw [heq]
    exact hblocks
  have hord : Ordered p.keyOf
      (elements (rangeBlocks s.pma (s.splitterBlock p batch n 0) s.size)) := by
    by_cases hne : ∃ c, s.empty p c = false
    · have hall := hins.valid.ordered
      rw [blocks, rangeBlocks_append (Nat.zero_le _) (hins.splitterBlock_le_size hne
        (Nat.zero_le n)), elements_append] at hall
      exact hall.right
    · push Not at hne
      rw [hins.valid.rangeBlocks_of_empty fun c => Bool.eq_true_of_not_eq_false (hne c)]
      exact List.Pairwise.nil
  have hlength := hrow.union.length_old_le hord
  refine ⟨?_, ?_, ?_⟩
  · change Kept p s (s.insertBatch p batch n sched turns) batch
    rw [heq]
    exact hkept hfac
  · rw [hr']
    by_cases hfront : rangeBlocks s.pma 0 (s.splitterBlock p batch n 0) = []
    · rw [hfront, List.nil_append]
      rcases hleft.sized with hsized | ⟨rfl, hone⟩
      · refine Or.inl fun b hb => ?_
        rw [itemsIn, List.mem_flatMap] at hb
        obtain ⟨t, ht, hb⟩ := hb
        have := List.mem_range'_1.mp ht
        exact hsized t (by omega) b hb
      · exact Or.inr ⟨rfl, by rw [← Nat.zero_add 1, itemsIn_succ, hone]⟩
    · obtain ⟨hlarge, hmin⟩ := hins.large_of_front hfront
      refine Or.inl fun b hb => ?_
      rcases List.mem_append.mp hb with hb | hb
      · obtain ⟨c, h1, h2, h3, rfl⟩ := mem_rangeBlocks.mp hb
        exact hlarge _ (mem_rangeBlocks.mpr ⟨c, h1, hins.valid.lt_size h3, h3, rfl⟩)
      · rcases hleft.sized with hsized | ⟨rfl, hone⟩
        · rw [itemsIn, List.mem_flatMap] at hb
          obtain ⟨t, ht, hb⟩ := hb
          have := List.mem_range'_1.mp ht
          exact hsized t (by omega) b hb
        · -- the only block of the only task holds the elements of an old block
          have helements := hleft.elements_eq.resolve_right fun h => absurd h.1 (lt_irrefl 1)
          have hitems : itemsIn rows' 0 1 = rows' 0 := itemsIn_succ rows' 0
          rw [hitems] at hb helements
          obtain ⟨b', hb'⟩ := List.length_eq_one_iff.mp hone
          rw [hb', List.mem_singleton] at hb
          subst hb
          have hvalid := hleft.valid 0 (Nat.lt_succ_self 0) b (by rw [hb']; exact List.mem_singleton.mpr rfl)
          rw [hb', elements_cons, elements_nil, List.append_nil] at helements
          rw [← hvalid.length_live, helements]
          omega
  · rw [hr', elements_append]
    rcases hleft.elements_eq with helements | ⟨hn, hfew, hnil⟩
    · rw [helements]
      exact Or.inl hcontent
    · have hfront : rangeBlocks s.pma 0 (s.splitterBlock p batch n 0) = [] := by
        by_contra hno
        have := (hins.large_of_front hno).2
        omega
      refine Or.inr ⟨hn, ?_, fun u hu => ?_⟩
      · rw [hfront, List.nil_append]
        exact itemsIn_eq_nil fun t _ ht => hnil t ht
      · rw [hfront, elements_nil, List.nil_append] at hcontent
        rw [hu.unique hcontent]
        exact hfew

end OverallocatedBatchedSparseArray

end BatchPMA
