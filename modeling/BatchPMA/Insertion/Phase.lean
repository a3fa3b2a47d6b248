import BatchPMA.Insertion.Pieces

/-!
# The insertion phase as a whole

From the state between two batches, the insertion phase comes to one that the rebalancing phase can
start from, and the sequence of blocks has taken the batch.
-/

namespace BatchPMA

open KeyedUnion Ranges RebalancingManager Dyadic

variable {K α : Type} [LinearOrder K]

namespace BatchedSparseArray

variable {p : BatchedParams K α} {s r : BatchedSparseArray K α} {batch : List α} {a e t : ℕ}

omit [LinearOrder K] in
/-- The calls of `writeToBufferArray` leave the cells alone. -/
lemma afterWrites_cells (result : BatchedSparseArray K α × List (BufferWrite K α)) :
    (afterWrites result).pma = result.1.pma ∧
      (afterWrites result).bufferPointers = result.1.bufferPointers := by
  obtain ⟨s', ws⟩ := result
  rw [afterWrites_frame]
  exact ⟨rfl, rfl⟩

lemma GroupSettled.length_eq (h : GroupSettled p s batch a e r) :
    (r.bufferPointers (s.splitterBlock p batch a)).length =
      s.shareCount p batch a e (s.workers p batch a e) := by
  rw [h.pointers]
  exact Nat.add_sub_cancel_left _ _

/-- The working tasks of a merge group mark the leaf of the merge block. -/
lemma PhaseInput.marks_merge (h : s.PhaseInput p batch) (hm : IsMerge p s batch a e) :
    s.TaskMarks p batch {t | t < s.numberOfThreads}
      (s.rebalancingManager.lowestLevelNodeIndex (s.splitterBlock p batch a)) := by
  have hcount := (h.groupInput hm.group hm.shares).shareCount_pos
  obtain ⟨b, hb⟩ := List.exists_mem_of_length_pos hcount
  obtain ⟨k, hk, hbk⟩ := List.mem_flatMap.mp hb
  have hk' := List.mem_range'_1.mp hk
  obtain ⟨h1, h2⟩ := hm.shareThread_lt (show k < s.workers p batch a e by omega)
  have hlt := hm.group.lt
  refine ⟨s.shareThread p batch a e k, lt_trans h2 hlt, ?_⟩
  rw [h.ownTask_share hm.group hm.shares (by omega)]
  obtain ⟨i, hi, rfl⟩ := List.mem_iff_getElem.mp hbk
  exact ⟨_, List.mem_mapIdx.mpr ⟨i, hi, rfl⟩, rfl⟩

/-! ## What becomes of a cell -/

omit [LinearOrder K] in
/-- The calls for a cell. -/
lemma exists_writesIn {out : ℕ → List (PmaEntry K α)} {bufferStart u v c : ℕ} :
    (∃ w ∈ writesIn out bufferStart u v, w.originBlock = c) ↔ u ≤ c ∧ c < v ∧ out c ≠ [] := by
  have hmem : ∀ c b, (c, b) ∈ itemsIn (fun c => (out c).map (Prod.mk c)) u v ↔
      u ≤ c ∧ c < v ∧ b ∈ out c := by
    intro c b
    rw [itemsIn, List.mem_flatMap]
    constructor
    · rintro ⟨c', hc, hb⟩
      obtain ⟨b', hb', heq⟩ := List.mem_map.mp hb
      have := List.mem_range'_1.mp hc
      rw [Prod.mk.injEq] at heq
      obtain ⟨rfl, rfl⟩ := heq
      exact ⟨this.1, by omega, hb'⟩
    · rintro ⟨h1, h2, hb⟩
      exact ⟨c, List.mem_range'_1.mpr ⟨h1, by omega⟩, List.mem_map_of_mem hb⟩
  constructor
  · rintro ⟨w, hw, rfl⟩
    obtain ⟨i, hi, rfl⟩ := List.mem_mapIdx.mp hw
    obtain ⟨h1, h2, hb⟩ := (hmem _ _).mp (List.getElem_mem hi)
    exact ⟨h1, h2, List.ne_nil_of_mem hb⟩
  · rintro ⟨h1, h2, hne⟩
    obtain ⟨b, hb⟩ := List.exists_mem_of_ne_nil _ hne
    obtain ⟨i, hi, heq⟩ := List.mem_iff_getElem.mp ((hmem c b).mpr ⟨h1, h2, hb⟩)
    exact ⟨_, List.mem_mapIdx.mpr ⟨i, hi, rfl⟩, by rw [heq]⟩

namespace PhaseInput

variable (h : s.PhaseInput p batch) (hne : ∃ c, s.empty p c = false) (hd : s.PhaseDone p batch r)
include h hne hd

/-- The cells of an insertion task, and the calls for them. -/
lemma fate_inserted (ht : t < s.numberOfThreads)
    (htype : (s.plannedTask p batch t).type = .insertion)
    (hwork : s.firstOf p batch t < s.firstOf p batch (t + 1)) {c : ℕ}
    (h1 : s.blockOf p batch t ≤ c) (h2 : c < s.blockOf p batch (t + 1)) :
    CellFate p s r c ∧ ((∃ w ∈ (s.ownTask p batch t).2, w.originBlock = c) ↔
      0 < (r.bufferPointers c).length) := by
  have hin := h.rangeInput hne ht htype hwork
  obtain ⟨out, st, -, hfate⟩ := hin.isolated ⟨s.bufferOf p batch t, s.bufferOf p batch (t + 1)⟩
    s.pma
  have hown : s.ownTask p batch t = (s.prepareInsertion p batch).insertBatchRange p batch
      ⟨s.firstOf p batch t, s.firstOf p batch (t + 1)⟩
      ⟨s.blockOf p batch t, s.blockOf p batch (t + 1)⟩
      ⟨s.bufferOf p batch t, s.bufferOf p batch (t + 1)⟩ := by
    rw [ownTask, h.planned.insertion ht htype, if_neg (by omega)]
  have hstate := afterWrites_cells (s.ownTask p batch t)
  obtain ⟨hpma, hptr⟩ := hd.cells t ht c (by
    rw [h.taskCells_eq hne ht htype hwork]
    exact ⟨h1, h2⟩)
  rw [ownState, hstate.1, hown] at hpma
  rw [ownState, hstate.2, hown] at hptr
  have hlen := (st.pointers_eq hin h1 h2).1
  have hwrites := st.writes
  have hsize := h.size_eq_of_done hd
  have hzero := hin.pointers c h1 h2
  have hfate := hfate c
  rw [hown, hwrites, exists_writesIn, hptr, hlen]
  generalize (s.prepareInsertion p batch).insertBatchRange p batch
      ⟨s.firstOf p batch t, s.firstOf p batch (t + 1)⟩
      ⟨s.blockOf p batch t, s.blockOf p batch (t + 1)⟩
      ⟨s.bufferOf p batch t, s.bufferOf p batch (t + 1)⟩ = res at *
  have hsize' : r.size = res.1.size := by
    rw [hsize, st.frame]
    exact h.prepared_size.symm
  refine ⟨?_, fun hc => List.length_pos_iff.mpr hc.2.2, fun hpos =>
    ⟨h1, h2, List.length_pos_iff.mp hpos⟩⟩
  rcases hfate with ⟨g1, g2⟩ | ⟨g1, g2, g3, g4⟩ | ⟨g1, g2, g3⟩
  · refine .kept (by rw [hpma, g1, h.prepared_pma]) ?_
    rw [hptr, g2, hzero, h.quiet.pointers]
  · refine .filled (by rw [← h.prepared_empty]; exact g1)
      ((empty_congr hsize' hpma).trans g2) (by rw [hpma, ← h.prepared_pma]; exact g3) ?_
    rw [hptr, g4, hzero, h.quiet.pointers]
  · exact .moved (by rw [← h.prepared_empty]; exact g1) (hpma.trans g2) (by rw [hptr]; exact g3)

/-- A merge block moves to the buffer. -/
lemma fate_merge (hm : IsMerge p s batch a e) : CellFate p s r (s.splitterBlock p batch a) := by
  obtain ⟨hpma, hset⟩ := hd.merged a e hm
  have hcount := (h.groupInput hm.group hm.shares).shareCount_pos
  refine .moved ?_ hpma ?_
  · rw [splitterBlock_eq_home (lt_of_le_of_lt hm.group.le hm.group.lt)]
    exact (h.toInsertable.isHome hne _).nonempty
  · rw [hset.length_eq]
    exact hcount

lemma fate (c : ℕ) : CellFate p s r c := by
  by_cases htask : ∃ t < s.numberOfThreads, c ∈ s.taskCells p batch t
  · obtain ⟨t, ht, hc⟩ := htask
    have htype := hc.1
    have hwork := hc.2.1
    rw [h.taskCells_eq hne ht htype hwork] at hc
    exact (h.fate_inserted hne hd ht htype hwork hc.1 hc.2).1
  · push Not at htask
    by_cases hmerge : s.MergeCell p batch s.numberOfThreads c
    · obtain ⟨a, e, hm, -, rfl⟩ := hmerge
      exact h.fate_merge hne hd hm
    · obtain ⟨hpma, hptr⟩ := hd.kept c htask hmerge
      exact .kept hpma (hptr.trans (h.quiet.pointers c).symm)

/-- The leaves of the cells with blocks in the buffer are marked, and no other ones. -/
lemma marks_iff (i : ℕ) : s.TaskMarks p batch {t | t < s.numberOfThreads} i ↔
    ∃ c, s.rebalancingManager.lowestLevelNodeIndex c = i ∧ 0 < (r.bufferPointers c).length := by
  constructor
  · rintro ⟨t, ht, w, hw, rfl⟩
    refine ⟨w.originBlock, rfl, ?_⟩
    have hidle : s.ownTask p batch t ≠ (s.prepareInsertion p batch, []) := fun heq => by
      rw [heq] at hw
      exact List.not_mem_nil hw
    rcases h.kind ht with ⟨htype, -⟩ | ⟨a, e, k, hg, hs, hk, hthread, -⟩ | ⟨a, hg, htype⟩
    · exact absurd (h.ownTask_idle ht (by rw [htype]; simp) (by rw [htype]; simp)) hidle
    · subst hthread
      rw [h.ownTask_share hg hs hk] at hw
      obtain ⟨n, hn, rfl⟩ := List.mem_mapIdx.mp hw
      have hcount := (h.groupInput hg hs).shareCount_pos
      rw [(hd.merged a e ⟨hg, hs⟩).2.length_eq]
      exact hcount
    · by_cases hwork : s.firstOf p batch t < s.firstOf p batch (t + 1)
      · have hplaced : s.blockOf p batch t ≤ w.originBlock ∧
            w.originBlock < s.blockOf p batch (t + 1) := by
          obtain ⟨out, st, -⟩ := (h.rangeInput hne ht htype hwork).isolated
            ⟨s.bufferOf p batch t, s.bufferOf p batch (t + 1)⟩ s.pma
          rw [ownTask, h.planned.insertion ht htype, if_neg (by omega), st.writes] at hw
          have := exists_writesIn.mp ⟨w, hw, rfl⟩
          exact ⟨this.1, this.2.1⟩
        exact (h.fate_inserted hne hd ht htype hwork hplaced.1 hplaced.2).2.mp ⟨w, hw, rfl⟩
      · exact absurd (h.ownTask_idle ht (by rw [htype]; simp) fun hc => hwork hc.2) hidle
  · rintro ⟨c, rfl, hc⟩
    by_cases htask : ∃ t < s.numberOfThreads, c ∈ s.taskCells p batch t
    · obtain ⟨t, ht, hcell⟩ := htask
      have htype := hcell.1
      have hwork := hcell.2.1
      rw [h.taskCells_eq hne ht htype hwork] at hcell
      obtain ⟨w, hw, rfl⟩ := (h.fate_inserted hne hd ht htype hwork hcell.1 hcell.2).2.mpr hc
      exact ⟨t, ht, w, hw, rfl⟩
    · push Not at htask
      by_cases hmerge : s.MergeCell p batch s.numberOfThreads c
      · obtain ⟨a, e, hm, -, rfl⟩ := hmerge
        exact h.marks_merge hm
      · rw [(hd.kept c htask hmerge).2] at hc
        exact absurd hc (lt_irrefl 0)

end PhaseInput

/-! ## The result -/

/-- What the insertion phase achieves. -/
structure InsertionResult (p : BatchedParams K α) (s : BatchedSparseArray K α) (batch : List α)
    (r : BatchedSparseArray K α) : Prop where
  union : IsUnion p.keyOf (elements (s.blocks p)) batch (elements (r.blocks p))
  sound : BlocksSound p.toBlockParams (r.blocks p)
  first : r.cellPlaces p 0 ≠ []
  cells : ∀ c, r.bufferPointers c = .zero ∧ r.empty p c = s.empty p c ∨
    0 < (r.bufferPointers c).length
  behind : ∀ c, max 1 s.size ≤ c → r.bufferPointers c = .zero
  cell_null : ∀ c, r.empty p c = true → r.pma c = PmaEntry.null p.toBlockParams
  sorted : (itemsIn r.bufferCells 0 (max 1 s.size)).Pairwise (· < ·)
  buffer_null : ∀ j, (∀ c, ¬ (r.bufferPointers c).contains j) →
    r.bufferArray j = PmaEntry.null p.toBlockParams
  marks : ∀ i, s.TaskMarks p batch {t | t < s.numberOfThreads} i ↔
    ∃ c, s.rebalancingManager.lowestLevelNodeIndex c = i ∧ 0 < (r.bufferPointers c).length

namespace PhaseInput

variable (h : s.PhaseInput p batch) (hd : s.PhaseDone p batch r)
include h

/-- The sequence of blocks between two batches, cell by cell. -/
lemma blocks_eq_own : s.blocks p = itemsIn (s.ownBlock p) 0 (max 1 s.size) := by
  rw [blocks]
  exact itemsIn_congr fun c _ _ => h.quiet.cellBlocks_eq c

omit h in
/-- If there is only one block, all other cells are empty. -/
lemma empty_of_single (hq : s.Quiescent p) (hone : (s.blocks p).length ≤ 1) {c c' : ℕ} (hc : s.empty p c = false)
    (hne : c' ≠ c) : s.empty p c' = true := by
  by_contra hno
  have hc' : s.empty p c' = false := by simpa using hno
  have hmem : ∀ {c c'}, s.empty p c = false → s.empty p c' = false → c < c' → False := by
    intro c c' hc hc' hlt
    have hin := Quiescent.mem_behind hlt hc'
    have hlen := congrArg List.length (hq.blocks_split hc)
    have hpos := List.length_pos_of_mem hin
    rw [List.length_append, List.length_cons] at hlen
    omega
  rcases Nat.lt_or_gt_of_ne hne with hlt | hgt
  · exact hmem hc' hc hlt
  · exact hmem hc hc' hgt

variable (hne : ∃ c, s.empty p c = false)
include hd hne

lemma blocks_large (hpiece : s.Piece p batch r ⟨0, s.size⟩ ⟨0, batch.length⟩
      ⟨s.bufferOf p batch 0, s.bufferOf p batch s.numberOfThreads⟩)
    (hr : r.blocks p = itemsIn (r.cellBlocks p) 0 s.size) :
    (r.blocks p).length ≤ 1 ∨ ∀ b ∈ r.blocks p, p.minBlockSize ≤ b.size := by
  -- blocks that are not the pma block of a cell
  have hbuffer : ∀ c < s.size, ∀ b ∈ r.cellBlocks p c, b ∉ r.ownBlock p c →
      p.minBlockSize ≤ b.size := by
    intro c hc b hb hown
    rw [cellBlocks_eq] at hb
    obtain ⟨j, hj, rfl⟩ := List.mem_map.mp ((List.mem_append.mp hb).resolve_left hown)
    exact hpiece.large j (List.mem_flatMap.mpr ⟨c, List.mem_range'_1.mpr ⟨Nat.zero_le c, by
      rw [Nat.zero_add, Nat.sub_zero]; exact hc⟩, hj⟩)
  rcases h.sound.large with hone | hlarge
  · obtain ⟨c₀, hc₀⟩ := hne
    have hlt : c₀ < s.size := h.valid.lt_size hc₀
    have hother : ∀ c, c ≠ c₀ → r.cellBlocks p c = [] := by
      intro c hc
      have hempty := empty_of_single h.quiet hone hc₀ hc
      rcases h.fate ⟨c₀, hc₀⟩ hd c with ⟨g1, g2⟩ | ⟨g1, -⟩ | ⟨g1, -⟩
      · rw [cellBlocks_of_pointers (by rw [g2, h.quiet.pointers]; rfl),
          empty_congr (h.size_eq_of_done hd) g1, hempty]
        rfl
      · rw [hempty] at g1
        exact absurd g1 (by simp)
      · rw [hempty] at g1
        exact absurd g1 (by simp)
    have hblocks : r.blocks p = r.cellBlocks p c₀ := by
      rw [hr, itemsIn_append _ (Nat.zero_le c₀) hlt.le, itemsIn_append _ (Nat.le_succ c₀) hlt,
        itemsIn_succ, itemsIn_eq_nil fun c _ hc => hother c (by omega),
        itemsIn_eq_nil fun c hc _ => hother c (by omega), List.nil_append, List.append_nil]
    rw [hblocks]
    have hstays : r.bufferPointers c₀ = s.bufferPointers c₀ →
        (r.cellBlocks p c₀).length ≤ 1 := by
      intro hptr
      rw [cellBlocks_of_pointers (by rw [hptr, h.quiet.pointers]; rfl)]
      split <;> simp
    rcases h.fate ⟨c₀, hc₀⟩ hd c₀ with ⟨-, g2⟩ | ⟨-, -, -, g4⟩ | ⟨-, g2, -⟩
    · exact Or.inl (hstays g2)
    · exact Or.inl (hstays g4)
    · refine Or.inr fun b hb => hbuffer c₀ hlt b hb fun hown => ?_
      obtain ⟨hnow, rfl⟩ := mem_ownBlock.mp hown
      rw [empty, g2] at hnow
      simp [PmaEntry.null] at hnow
  · refine Or.inr fun b hb => ?_
    rw [hr] at hb
    obtain ⟨c, hc, hbc⟩ := List.mem_flatMap.mp hb
    have hc' := List.mem_range'_1.mp hc
    by_cases hown : b ∈ r.ownBlock p c
    · obtain ⟨hnow, rfl⟩ := mem_ownBlock.mp hown
      have hold : s.empty p c = false → p.minBlockSize ≤ (s.pma c).size := fun hc =>
        hlarge _ (h.quiet.mem_blocks hc)
      rcases h.fate hne hd c with ⟨g1, -⟩ | ⟨g1, -, g3, -⟩ | ⟨-, g2, -⟩
      · rw [empty_congr (h.size_eq_of_done hd) g1] at hnow
        rw [g1]
        exact hold hnow
      · exact le_trans (hold g1) g3
      · rw [empty, g2] at hnow
        simp [PmaEntry.null] at hnow
    · exact hbuffer c (by omega) b hbc hown

/-- In a structure with blocks. -/
lemma result_of_blocks : s.InsertionResult p batch r := by
  have hpiece := h.piece_all hne hd
  have hsize := h.size_eq_of_done hd
  obtain ⟨c₀, hc₀⟩ := hne
  have hpos : 0 < s.size := lt_of_le_of_lt (Nat.zero_le c₀) (h.valid.lt_size hc₀)
  have hne : ∃ c, s.empty p c = false := ⟨c₀, hc₀⟩
  have hmax : max 1 s.size = s.size := by omega
  have hr : r.blocks p = itemsIn (r.cellBlocks p) 0 s.size := by rw [blocks, hsize, hmax]
  have hs : s.blocks p = itemsIn (s.ownBlock p) 0 s.size := by rw [h.blocks_eq_own, hmax]
  have hbatch : batchPart batch ⟨0, batch.length⟩ = batch := by simp [batchPart, Interval.length]
  have hunion := hpiece.union
  rw [hbatch] at hunion
  have hfirst : s.empty p 0 = false := h.quiet.first.resolve_left (by omega)
  have habove : ∀ key, s.AboveCell p s.size key → False := by
    rintro key ⟨c, hle, hc, -⟩
    have := h.valid.lt_size hc
    change c < s.size at this
    omega
  refine ⟨by rw [hs, hr]; exact hunion, ⟨?_, ?_, ?_, h.blocks_large hd hne hpiece hr⟩, fun hnil => ?_,
    fun c => ?_, fun c hc => ?_, fun c hc => ?_, ?_, fun j hj => ?_, h.marks_iff hne hd⟩
  · rw [hr]
    exact hpiece.valid
  · rw [hr]
    exact hunion.ordered
  · rw [hr]
    exact hpiece.dead.mono habove
  · -- the first cell keeps a block
    have hlen := congrArg List.length hnil
    rw [cellPlaces, List.length_append, List.length_map, List.length_range', List.length_nil]
      at hlen
    have hempty : r.empty p 0 = true := by
      by_contra hno
      rw [if_neg hno] at hlen
      simp at hlen
    rcases h.fate hne hd 0 with ⟨g1, -⟩ | ⟨-, g2, -⟩ | ⟨-, -, g3⟩
    · rw [empty_congr hsize g1, hfirst] at hempty
      exact absurd hempty (by simp)
    · rw [g2] at hempty
      exact absurd hempty (by simp)
    · omega
  · rcases h.fate hne hd c with ⟨g1, g2⟩ | ⟨g1, g2, -, g4⟩ | ⟨-, -, g3⟩
    · exact Or.inl ⟨g2.trans (h.quiet.pointers c), empty_congr hsize g1⟩
    · exact Or.inl ⟨g4.trans (h.quiet.pointers c), g2.trans g1.symm⟩
    · exact Or.inr g3
  · have hempty : s.empty p c = true := by rw [empty, if_pos (by omega)]
    rcases h.fate hne hd c with ⟨-, g2⟩ | ⟨g1, -⟩ | ⟨g1, -⟩
    · exact g2.trans (h.quiet.pointers c)
    · rw [hempty] at g1
      exact absurd g1 (by simp)
    · rw [hempty] at g1
      exact absurd g1 (by simp)
  · rcases h.fate hne hd c with ⟨g1, -⟩ | ⟨-, g2, -⟩ | ⟨-, g2, -⟩
    · rw [empty_congr hsize g1] at hc
      exact g1.trans (h.quiet.cell_null c hc)
    · rw [hc] at g2
      exact absurd g2 (by simp)
    · exact g2
  · rw [hmax]
    exact hpiece.sorted
  · by_cases hin : s.bufferOf p batch 0 ≤ j ∧ j < s.bufferOf p batch s.numberOfThreads
    · refine hpiece.rest j hin fun hj' => ?_
      obtain ⟨c, -, -, hc⟩ := mem_itemsIn_bufferCells.mp hj'
      exact hj c hc
    · exact hd.outside j (by omega)

end PhaseInput

/-! ## An empty structure -/

/-- All blocks are in the buffer, and the first cell points to them. -/
structure Loaded (p : BatchedParams K α) (s : BatchedSparseArray K α) (batch : List α)
    (r : BatchedSparseArray K α) (start : ℕ) (bs : List (PmaEntry K α)) : Prop where
  sound : BlocksSound p.toBlockParams bs
  elements_eq : elements bs = batch
  pma : ∀ c, r.pma c = PmaEntry.null p.toBlockParams
  pointer : r.bufferPointers 0 = ⟨start, start + bs.length⟩
  others : ∀ c, c ≠ 0 → r.bufferPointers c = .zero
  cells : ∀ i b, bs[i]? = some b → r.bufferArray (start + i) = b
  rest : ∀ j, ¬ (start ≤ j ∧ j < start + bs.length) →
    r.bufferArray j = PmaEntry.null p.toBlockParams
  marks : ∀ i, s.TaskMarks p batch {t | t < s.numberOfThreads} i ↔
    s.rebalancingManager.lowestLevelNodeIndex 0 = i

namespace PhaseInput

variable (h : s.PhaseInput p batch) (hemp : ∀ c, s.empty p c = true)
include h hemp

/-- All calls are for the first cell. -/
lemma origin_of_empty {w : BufferWrite K α} (ht : t < s.numberOfThreads)
    (hw : w ∈ (s.ownTask p batch t).2) : w.originBlock = 0 := by
  have hidle : s.ownTask p batch t ≠ (s.prepareInsertion p batch, []) := fun heq => by
    rw [heq] at hw
    exact List.not_mem_nil hw
  rcases h.kind ht with ⟨htype, -⟩ | ⟨a, e, k, hg, hs, hk, hthread, -⟩ | ⟨a, hg, htype⟩
  · exact absurd (h.ownTask_idle ht (by rw [htype]; simp) (by rw [htype]; simp)) hidle
  · subst hthread
    rw [h.ownTask_share hg hs hk] at hw
    obtain ⟨n, hn, rfl⟩ := List.mem_mapIdx.mp hw
    exact (h.splitterBlock_of_empty hemp a).2
  · by_cases hwork : s.firstOf p batch t < s.firstOf p batch (t + 1)
    · rw [h.ownTask_load hemp ht htype hwork] at hw
      obtain ⟨n, hn, rfl⟩ := List.mem_mapIdx.mp hw
      rfl
    · exact absurd (h.ownTask_idle ht (by rw [htype]; simp) fun hc => hwork hc.2) hidle

variable (hd : s.PhaseDone p batch r) (hg : IsGroup (s.splitterBlock p batch) s.numberOfThreads 0 t)
  (hlast : t + 1 = s.numberOfThreads)
include hd hg hlast

/-- The last task loads the batch. -/
lemma loaded_by_last (hs : ¬ s.HasShares p batch 0 t) :
    s.Loaded p batch r (s.bufferOf p batch t) (emptyRangeBlocks p.toBlockParams batch) := by
  have ht := hg.lt
  have hlen : 0 < batch.length := lt_of_lt_of_le h.threads_pos h.threads_le
  obtain ⟨htype, hblock, hfirst, -, -, hfirst'⟩ := h.last_spec hg
  rw [if_neg hs] at hblock hfirst
  have h1 : s.firstOf p batch t = 0 := hfirst.trans (by rw [splitterFirst, if_pos rfl])
  have h2 : s.firstOf p batch (t + 1) = batch.length :=
    hfirst'.trans (by rw [hlast, splitterFirst_last h.toInsertable])
  have hwork : s.firstOf p batch t < s.firstOf p batch (t + 1) := by omega
  have h3 : s.blockOf p batch t = 0 := hblock.trans (h.splitterBlock_of_empty hemp 0).2
  have hown := h.ownTask_load hemp ht htype hwork
  have hmerge : (s.plannedTask p batch t).type ≠ .inverseMerge := by rw [htype]; simp
  obtain ⟨hsound, helements⟩ := emptyRangeBlocks_spec h.usable.even h.usable.blockSize_ge
    h.usable.zero_null h.increasing h.key_ne_null (List.ne_nil_of_length_pos hlen)
  have hpos : 0 < (emptyRangeBlocks p.toBlockParams batch).length := by
    refine List.length_pos_iff.mpr fun hnil => ?_
    rw [hnil, elements_nil] at helements
    rw [← helements] at hlen
    exact absurd hlen (lt_irrefl 0)
  have hwrites : (s.ownTask p batch t).2.length =
      (emptyRangeBlocks p.toBlockParams batch).length := by
    rw [hown, denseWrites, List.length_mapIdx]
  have hcells := afterWrites_cells (s.ownTask p batch t)
  rw [hown] at hcells
  have hnull : ∀ c, s.pma c = PmaEntry.null p.toBlockParams := fun c =>
    h.quiet.cell_null c (hemp c)
  have hother : ∀ c, c ≠ 0 → r.pma c = s.pma c ∧ r.bufferPointers c = .zero := by
    intro c hc
    refine hd.kept c (fun t' ht' hcell => ?_) ?_
    · obtain ⟨-, g1, g2, -⟩ := h.last_of_empty hemp ht' hcell.1 hcell.2.1
      have := hcell.2.2.2
      omega
    · rintro ⟨a, e, hm, -, -⟩
      obtain ⟨rfl, he⟩ := h.group_of_empty hemp hm.group
      obtain rfl : e = t := by omega
      exact hs hm.shares
  obtain ⟨g1, g2⟩ := hd.cells t ht 0 ⟨htype, hwork, h3.le, by omega⟩
  rw [ownState, hown, hcells.1] at g1
  rw [ownState, hown, hcells.2] at g2
  refine ⟨hsound, helements, fun c => ?_, ?_, fun c hc => (hother c hc).2, fun i b hb => ?_,
    fun j hj => ?_, fun i => ⟨?_, ?_⟩⟩
  · rcases eq_or_ne c 0 with rfl | hc
    · exact g1.trans (by rw [h.prepared_pma, hnull])
    · rw [(hother c hc).1, hnull]
  · rw [g2]
    simp only [Function.update_self, getDenseWriteIndex]
    congr 1
    omega
  · have hw : (s.ownTask p batch t).2[i]? = some ⟨getDenseWriteIndex (s.bufferOf p batch t) (0 + i),
        b, 0⟩ := by
      rw [hown, denseWrites, List.getElem?_mapIdx, hb]
      rfl
    exact hd.written t ht hmerge i _ hw
  · have hzero := h.bufferOf_idle hg (if_neg hs).symm t (Nat.zero_le t) (le_refl _)
    rcases Nat.lt_or_ge j (s.bufferOf p batch t) with hlt | hge
    · exact hd.outside j (Or.inl (by omega))
    · rcases Nat.lt_or_ge j (s.bufferOf p batch (t + 1)) with hlt' | hge'
      · exact hd.rest t ht hmerge j (by omega) hlt'
      · exact hd.outside j (Or.inr (by rw [← hlast]; exact hge'))
  · rintro ⟨t', ht', w, hw, rfl⟩
    rw [h.origin_of_empty hemp ht' hw]
  · rintro rfl
    obtain ⟨w, hw⟩ := List.exists_mem_of_length_pos (show 0 < (s.ownTask p batch t).2.length by
      omega)
    exact ⟨t, ht, w, hw, by rw [h.origin_of_empty hemp ht hw]⟩

/-- The threads share the batch. -/
lemma loaded_by_shares (hs : s.HasShares p batch 0 t) :
    s.Loaded p batch r (s.bufferOf p batch 0)
      (itemsIn (s.shareBlocks p batch 0 t) 0 (s.workers p batch 0 t)) := by
  have ht := hg.lt
  have hm : IsMerge p s batch 0 t := ⟨hg, hs⟩
  have hin := h.groupInput hg hs
  have hblock := (h.splitterBlock_of_empty hemp 0).2
  obtain ⟨hpma, hset⟩ := hd.merged 0 t hm
  have hroom := hset.room
  have hptr := hset.pointers
  rw [hblock] at hpma hptr
  obtain ⟨htype, -, hfirst, -, -, hfirst'⟩ := h.last_spec hg
  rw [if_pos hs] at hfirst
  have hmerge : (s.plannedTask p batch t).type ≠ .inverseMerge := by rw [htype]; simp
  have hnull : ∀ c, s.pma c = PmaEntry.null p.toBlockParams := fun c =>
    h.quiet.cell_null c (hemp c)
  have hend : s.mergeEnd p batch 0 t = batch.length := by
    rw [mergeEnd, lastTaskBatchStart, if_pos (hemp _), hlast, splitterFirst_last h.toInsertable]
  have hzero : s.splitterFirst p batch 0 = 0 := by rw [splitterFirst, if_pos rfl]
  have hgroup := hin.group_union fun _ => False
  have hentry : (s.mergeEntry p batch 0).live = [] := by
    rw [mergeEntry, hnull]
    simp [PmaEntry.live, PmaEntry.null]
  have hbatch : batchPart batch ⟨0, batch.length⟩ = batch := by simp [batchPart, Interval.length]
  have hunion := hgroup.union
  rw [hentry, hzero, hend, hbatch] at hunion
  have helements := hunion.unique (IsUnion.nil_old h.increasing)
  have hno : ∀ t' < s.numberOfThreads, ∀ c, c ∉ s.taskCells p batch t' := by
    intro t' ht' c hc
    obtain ⟨g1, -, -, -, -, g6⟩ := h.last_of_empty hemp ht' hc.1 hc.2.1
    obtain rfl : t' = t := by omega
    exact g6 hs
  have hother : ∀ c, c ≠ 0 → r.pma c = s.pma c ∧ r.bufferPointers c = .zero := by
    intro c hc
    refine hd.kept c (fun t' ht' => hno t' ht' c) ?_
    rintro ⟨a, e, -, -, heq⟩
    refine hc ?_
    rw [heq]
    exact (h.splitterBlock_of_empty hemp a).2
  refine ⟨⟨hgroup.valid, by rw [helements]; exact h.increasing, hgroup.dead, Or.inr hgroup.large⟩,
    helements, fun c => ?_, hptr, fun c hc => (hother c hc).2, hset.cells, fun j hj => ?_,
    fun i => ⟨?_, ?_⟩⟩
  · rcases eq_or_ne c 0 with rfl | hc
    · exact hpma
    · rw [(hother c hc).1, hnull]
  · rw [shareCount] at hroom
    rcases Nat.lt_or_ge j (s.bufferOf p batch 0) with hlt | hge
    · exact hd.outside j (Or.inl hlt)
    · rcases Nat.lt_or_ge j (s.bufferOf p batch t) with hlt' | hge'
      · exact hset.gap j (by rw [shareCount]; omega) hlt'
      · rcases Nat.lt_or_ge j (s.bufferOf p batch (t + 1)) with hlt'' | hge''
        · have hidle := h.ownTask_idle ht hmerge fun hc => by
            have h1 : s.firstOf p batch t = batch.length := hfirst.trans hend
            have h2 := h.firstOf_le (show t + 1 ≤ s.numberOfThreads from ht)
            have := hc.2
            omega
          exact hd.rest t ht hmerge j (by rw [hidle]; exact hge') hlt''
        · exact hd.outside j (Or.inr (by rw [← hlast]; exact hge''))
  · rintro ⟨t', ht', w, hw, rfl⟩
    rw [h.origin_of_empty hemp ht' hw]
  · rintro rfl
    have := h.marks_merge hm
    rwa [hblock] at this

omit hg hlast in
/-- In an empty structure. -/
lemma exists_loaded : ∃ start bs, s.Loaded p batch r start bs := by
  have hT := h.threads_pos
  obtain ⟨a, e, hg, -, h2⟩ := exists_group (s.splitterBlock p batch)
    (show s.numberOfThreads - 1 < s.numberOfThreads by omega)
  obtain ⟨rfl, he⟩ := h.group_of_empty hemp hg
  by_cases hs : s.HasShares p batch 0 e
  · exact ⟨_, _, h.loaded_by_shares hemp hd hg he hs⟩
  · exact ⟨_, _, h.loaded_by_last hemp hd hg he hs⟩

omit hg hlast in
lemma result_of_empty : s.InsertionResult p batch r := by
  obtain ⟨start, bs, hl⟩ := h.exists_loaded hemp hd
  have hsize : s.size = 0 := (h.splitterBlock_of_empty hemp 0).1
  have hrsize : r.size = 0 := (h.size_eq_of_done hd).trans hsize
  have hlen : 0 < batch.length := lt_of_lt_of_le h.threads_pos h.threads_le
  have hbs : 0 < bs.length := by
    refine List.length_pos_iff.mpr fun hnil => ?_
    have helements := hl.elements_eq
    rw [hnil, elements_nil] at helements
    rw [← helements] at hlen
    exact absurd hlen (lt_irrefl 0)
  have hptr : (r.bufferPointers 0).length = bs.length := by
    rw [hl.pointer]
    exact Nat.add_sub_cancel_left _ _
  have hrempty : ∀ c, r.empty p c = true := fun c => by rw [empty, if_pos (by omega)]
  have hcells : r.bufferCells 0 = List.range' start bs.length := by
    rw [bufferCells, hptr, hl.pointer]
  have hone : itemsIn r.bufferCells 0 1 = List.range' start bs.length := by
    rw [itemsIn_succ, hcells]
  have hsplaces : s.blocks p = [] := by
    rw [h.blocks_eq_own]
    exact itemsIn_eq_nil fun c _ _ => ownBlock_of_true (hemp c)
  have hblocks : r.blocks p = bs := by
    rw [blocks, hrsize]
    change itemsIn (r.cellBlocks p) 0 1 = bs
    rw [itemsIn_succ, cellBlocks_eq, ownBlock_of_true (hrempty 0), List.nil_append, hcells]
    refine List.ext_getElem? fun i => ?_
    rw [List.getElem?_map]
    rcases Nat.lt_or_ge i bs.length with hi | hi
    · rw [List.getElem?_range' hi, Option.map_some, Nat.one_mul, List.getElem?_eq_getElem hi]
      exact congrArg some (hl.cells i _ (List.getElem?_eq_getElem hi))
    · rw [List.getElem?_eq_none (by simpa using hi), List.getElem?_eq_none hi]
      rfl
  have hmax : max 1 s.size = 1 := by omega
  refine ⟨?_, by rw [hblocks]; exact hl.sound, fun hnil => ?_, fun c => ?_, fun c hc =>
    hl.others c (by omega), fun c _ => hl.pma c, ?_, fun j hj => hl.rest j fun hin => hj 0 ?_,
    fun i => (hl.marks i).trans ⟨fun hi => ⟨0, hi, by rw [hptr]; exact hbs⟩, ?_⟩⟩
  · rw [hblocks, hl.elements_eq, hsplaces, elements_nil]
    exact IsUnion.nil_old h.increasing
  · have := congrArg List.length hnil
    rw [cellPlaces, List.length_append, List.length_map, List.length_range', hptr,
      List.length_nil] at this
    omega
  · rcases eq_or_ne c 0 with rfl | hc
    · exact Or.inr (by rw [hptr]; exact hbs)
    · exact Or.inl ⟨hl.others c hc, by rw [hrempty, hemp]⟩
  · rw [hmax, hone]
    exact List.pairwise_lt_range'
  · rw [hl.pointer]
    exact hin
  · rintro ⟨c, rfl, hc⟩
    rcases eq_or_ne c 0 with rfl | hne
    · rfl
    · rw [hl.others c hne] at hc
      exact absurd hc (lt_irrefl 0)

omit hemp hg hlast in
/-- **The insertion phase.** -/
theorem result : s.InsertionResult p batch r := by
  by_cases hne : ∃ c, s.empty p c = false
  · exact h.result_of_blocks hd hne
  · push Not at hne
    exact h.result_of_empty (fun c => by simpa using hne c) hd

end PhaseInput

/-! ## What the rebalancing phase starts from -/

/-- The insertion phase writes cells, buffer, marks and tasks only. -/
lemma PhaseInput.unchanged (h : s.PhaseInput p batch) (hd : s.PhaseDone p batch r) :
    r.rebalancingManager = s.rebalancingManager ∧ r.rebalancingNodes = s.rebalancingNodes ∧
      r.swapPma = s.swapPma ∧ r.swapCapacity = s.swapCapacity ∧ r.capacity = s.capacity ∧
      r.numberOfThreads = s.numberOfThreads := by
  have hprepared := h.prepared.frame
  have hframe := hd.frame
  generalize s.prepareInsertion p batch = s' at hprepared hframe
  rw [hframe, hprepared]
  exact ⟨rfl, rfl, rfl, rfl, rfl, rfl⟩

namespace InsertionResult

variable (h : s.PhaseInput p batch) (hd : s.PhaseDone p batch r) (hr : s.InsertionResult p batch r)
include h hd hr

omit h hd in
lemma mem_itemsIn {c j : ℕ} (hc : (r.bufferPointers c).contains j) :
    c < max 1 s.size := by
  by_contra hge
  rw [hr.behind c (not_lt.mp hge)] at hc
  exact absurd hc.2 (Nat.not_lt_zero j)

/-- A block in the buffer is one of the sequence. -/
lemma mem_blocks_of_buffer {c j : ℕ} (hc : (r.bufferPointers c).contains j) :
    r.bufferArray j ∈ r.blocks p := by
  have hlt := hr.mem_itemsIn hc
  rw [blocks, h.size_eq_of_done hd]
  refine List.mem_flatMap.mpr ⟨c, List.mem_range'_1.mpr ⟨Nat.zero_le c, by omega⟩, ?_⟩
  rw [cellBlocks_eq]
  exact List.mem_append_right _ (List.mem_map_of_mem (mem_bufferCells.mpr hc))

omit h hd in
/-- A cell of the buffer belongs to one cell. -/
lemma buffers_disjoint {c c' j : ℕ} (hc : (r.bufferPointers c).contains j)
    (hc' : (r.bufferPointers c').contains j) : c = c' := by
  have hno : ∀ {c c'}, (r.bufferPointers c).contains j → (r.bufferPointers c').contains j →
      c < c' → False := by
    intro c c' hc hc' hlt
    have h1 := hr.mem_itemsIn hc'
    have hsorted := hr.sorted
    rw [itemsIn_append _ (Nat.zero_le (c + 1)) (show c + 1 ≤ max 1 s.size by omega),
      List.pairwise_append] at hsorted
    exact absurd (hsorted.2.2 j (mem_itemsIn_bufferCells.mpr ⟨c, Nat.zero_le c, by omega, hc⟩) j
      (mem_itemsIn_bufferCells.mpr ⟨c', hlt, h1, hc'⟩)) (lt_irrefl j)
  rcases Nat.lt_trichotomy c c' with hlt | heq | hgt
  · exact (hno hc hc' hlt).elim
  · exact heq
  · exact (hno hc' hc hgt).elim

/-- The cells with a head different from the null key. -/
lemma head_ne (c : ℕ) : ∀ q ∈ r.cellPlaces p c, (r.memory q).head ≠ p.nullKey := by
  intro q hq
  rcases List.mem_append.mp hq with hown | hbuf
  · split at hown
    · exact absurd hown List.not_mem_nil
    · rename_i hne
      rw [List.mem_singleton.mp hown]
      intro hnull
      refine hne ?_
      rw [empty]
      split
      · rfl
      · exact decide_eq_true hnull
  · obtain ⟨j, hj, rfl⟩ := List.mem_map.mp hbuf
    exact (hr.sound.valid _ (hr.mem_blocks_of_buffer h hd (mem_bufferCells.mp hj))).head_ne_null

/-- The hierarchy has not changed, and the leaves that are not marked keep their blocks. -/
lemma treeValid : r.TreeValid p := by
  have htree := h.quiet.tree
  have hw : 0 < s.rebalancingManager.aggregateWidth := by
    rw [htree.width_eq]
    have := h.usable.segmentWidth_ge
    omega
  obtain ⟨hmanager, hnodes, -⟩ := h.unchanged hd
  have hsize := h.size_eq_of_done hd
  have hcons := htree.consistent
  refine ⟨⟨?_, ?_, ?_, ?_⟩, ⟨?_, ?_⟩, ?_, ?_, ?_, ?_, ?_, ?_⟩
  · change r.rebalancingManager.LevelsValid
    rw [hmanager]
    exact hcons.levels
  · change ∀ l < r.rebalancingManager.logCapacity, _
    simp only [updateState, hmanager]
    exact hcons.sums
  · change ∀ i ∈ r.recountingNodesMap.keys, i < 2 ^ r.rebalancingManager.logCapacity
    intro i hi
    rw [hmanager]
    rcases (hd.keys i).mp hi with hold | hmark
    · exact hcons.keys_lt i hold
    · obtain ⟨c, rfl, hc⟩ := (hr.marks i).mp hmark
      have hlt : c < max 1 s.size := by
        by_contra hge
        rw [hr.behind c (not_lt.mp hge)] at hc
        exact absurd hc (lt_irrefl 0)
      have hroom := htree.size_lt hw
      rw [lowestLevelNodeIndex]
      refine (Nat.div_lt_iff_lt_mul hw).mpr ?_
      omega
  · change ∀ i ∈ r.rebalancingManager.nextLevelRecountingNodes.keys, _
    simp only [updateState, hmanager]
    exact hcons.leftover_lt
  · simp only [updateState, hmanager]
    exact htree.flagsClear.rebalanced
  · change r.rebalancingNodes = []
    rw [hnodes]
    exact htree.flagsClear.rebalancingNodes
  · -- a leaf with a block in the buffer is marked
    intro i hi hkey
    have hkey' : i ∉ s.recountingNodesMap.keys ∧
        ¬ s.TaskMarks p batch {t | t < s.numberOfThreads} i := by
      rw [hd.keys i] at hkey
      push Not at hkey
      exact hkey
    rw [hmanager] at hi ⊢
    rw [htree.leaves i hi hkey'.1, trueBlocks, trueBlocks, SdsView.blocksIn, SdsView.blocksIn]
    refine Finset.sum_congr rfl fun c hc => ?_
    have hc' := Finset.mem_Ico.mp hc
    rw [pow_zero, Nat.one_mul] at hc'
    have hleaf : s.rebalancingManager.lowestLevelNodeIndex c = i := by
      rw [lowestLevelNodeIndex]
      exact Nat.div_eq_of_lt_le hc'.1 hc'.2
    have hsame : r.bufferPointers c = .zero ∧ r.empty p c = s.empty p c :=
      (hr.cells c).resolve_right fun hpos => hkey'.2 ((hr.marks i).mpr ⟨c, hleaf, hpos⟩)
    have hbuf : r.numberOfBufferBlocks c = s.numberOfBufferBlocks c := by
      rw [numberOfBufferBlocks, numberOfBufferBlocks, hsame.1, h.quiet.pointers c]
      split <;> split <;> rfl
    change _ = (if r.empty p c then 0 else 1) + r.numberOfBufferBlocks c
    rw [hsame.2, hbuf]
    rfl
  · rw [hmanager]
    exact htree.leftover
  · rw [hmanager]
    exact htree.width_eq
  · rw [hmanager]
    exact htree.density_eq
  · rw [hmanager, hsize]
    exact htree.size_eq
  · rw [hmanager]
    exact htree.size_le

/-- **Between the phases.** -/
theorem rebalanceable (hroom : r.RootRoom p) : r.Rebalanceable p := by
  have hsize := h.size_eq_of_done hd
  obtain ⟨hmanager, -, g1, g2, g3, g4⟩ := h.unchanged hd
  refine
    { tree := hr.treeValid h hd
      clean := ⟨hr.cell_null, hr.head_ne h hd, fun i => by rw [g1]; exact h.quiet.swap_null i,
        hr.buffer_null⟩
      swapCapacity_eq := by rw [g2, g3]; exact h.quiet.swapCapacity_eq
      size_lt := by rw [hsize, g3]; exact h.quiet.size_lt
      behind := fun c hc => by rw [hr.behind c (by rwa [hsize] at hc)]; rfl
      buffers_disjoint := fun c c' j => hr.buffers_disjoint
      buffers_full := fun c j hc => (hr.sound.valid _ (hr.mem_blocks_of_buffer h hd hc)).size_pos
      marked := fun c hc => ?_
      sources := fun i hi => ?_
      first := hr.first
      threads_pos := by rw [g4]; exact h.quiet.threads_pos
      params := h.usable.toValid
      unmarked := by rw [hmanager]; exact h.quiet.unmarked
      aligned := by rw [Aligned, hsize]; exact h.quiet.aligned
      room := hroom
      tight := fun c hc => ((hr.cells c).resolve_right (by omega)).1 }
  · rw [hmanager]
    exact (hd.flagged _).mpr (Or.inr ((hr.marks _).mpr ⟨c, rfl, hc⟩))
  · rw [hmanager]
    rcases (hd.flagged i).mp hi with hold | hmark
    · exact Or.inl (h.quiet.flagged i hold)
    · exact Or.inr ((hr.marks i).mp hmark)

end InsertionResult

end BatchedSparseArray

end BatchPMA
