import BatchPMA.Insertion.Postprocessing

/-!
# The pieces of the array

A piece is a range of cells with the elements of the batch that belong there and the part of the
buffer that its tasks write to.  When the insertion phase has ended, the pieces of the tasks hold the
union of their old elements and their part of the batch, and two pieces side by side make one.
-/

namespace BatchPMA

open KeyedUnion Ranges Patches

variable {K α : Type} [LinearOrder K]

namespace BatchedSparseArray

variable {p : BatchedParams K α} {s r : BatchedSparseArray K α} {batch : List α} {a e t : ℕ}

/-- The cells of the buffer that hold the blocks of a cell. -/
def bufferCells (r : BatchedSparseArray K α) (c : ℕ) : List ℕ :=
  List.range' (r.bufferPointers c).left (r.bufferPointers c).length

omit [LinearOrder K] in
lemma mem_bufferCells {c j : ℕ} : j ∈ r.bufferCells c ↔ (r.bufferPointers c).contains j := by
  rw [bufferCells, List.mem_range'_1, Interval.contains, Interval.length]
  omega

omit [LinearOrder K] in
lemma mem_itemsIn_bufferCells {u v j : ℕ} : j ∈ itemsIn r.bufferCells u v ↔
    ∃ c, u ≤ c ∧ c < v ∧ (r.bufferPointers c).contains j := by
  rw [itemsIn, List.mem_flatMap]
  constructor
  · rintro ⟨c, hc, hj⟩
    have := List.mem_range'_1.mp hc
    exact ⟨c, this.1, by omega, mem_bufferCells.mp hj⟩
  · rintro ⟨c, h1, h2, hj⟩
    exact ⟨c, List.mem_range'_1.mpr ⟨h1, by omega⟩, mem_bufferCells.mpr hj⟩

lemma cellBlocks_eq (c : ℕ) :
    r.cellBlocks p c = r.ownBlock p c ++ (r.bufferCells c).map r.bufferArray := by
  rw [cellBlocks, cellPlaces, List.map_append, List.map_map]
  congr 1
  rw [ownBlock]
  split <;> rfl

lemma cellBlocks_congr {r' : BatchedSparseArray K α} {c : ℕ} (hsize : r'.size = r.size)
    (hpma : r'.pma c = r.pma c) (hptr : r'.bufferPointers c = r.bufferPointers c)
    (hbuffer : ∀ j ∈ r'.bufferCells c, r'.bufferArray j = r.bufferArray j) :
    r'.cellBlocks p c = r.cellBlocks p c := by
  have hcells : r'.bufferCells c = r.bufferCells c := by rw [bufferCells, bufferCells, hptr]
  rw [cellBlocks_eq, cellBlocks_eq, List.map_congr_left hbuffer, hcells, ownBlock, ownBlock,
    empty_congr hsize hpma, hpma]

/-- What the insertion phase makes of a piece. -/
structure Piece (p : BatchedParams K α) (s : BatchedSparseArray K α) (batch : List α)
    (r : BatchedSparseArray K α) (cells part buffer : Interval) : Prop where
  union : IsUnion p.keyOf (elements (itemsIn (s.ownBlock p) cells.left cells.right))
    (batchPart batch part) (elements (itemsIn (r.cellBlocks p) cells.left cells.right))
  valid : ∀ b ∈ itemsIn (r.cellBlocks p) cells.left cells.right, b.Valid p.toBlockParams
  dead : DeadOk p.toBlockParams (s.AboveCell p cells.right)
    (itemsIn (r.cellBlocks p) cells.left cells.right)
  sorted : (itemsIn r.bufferCells cells.left cells.right).Pairwise (· < ·)
  inside : ∀ j ∈ itemsIn r.bufferCells cells.left cells.right, buffer.contains j
  rest : ∀ j, buffer.contains j → j ∉ itemsIn r.bufferCells cells.left cells.right →
    r.bufferArray j = PmaEntry.null p.toBlockParams
  large : ∀ j ∈ itemsIn r.bufferCells cells.left cells.right,
    p.minBlockSize ≤ (r.bufferArray j).size

namespace PhaseInput

variable (h : s.PhaseInput p batch)
include h

/-! ## Two pieces side by side -/

/-- What lies in front of a cut is smaller than what lies behind it. -/
lemma lt_of_cut (hne : ∃ c, s.empty p c = false) {u v w i j k : ℕ} (hcut : CutsAt p s batch j v) :
    ∀ x ∈ elements (itemsIn (s.ownBlock p) u v) ++ batchPart batch ⟨i, j⟩,
      ∀ y ∈ elements (itemsIn (s.ownBlock p) v w) ++ batchPart batch ⟨j, k⟩,
        p.keyOf x < p.keyOf y := by
  have hins := h.toInsertable
  have hold : ∀ {u v x}, x ∈ elements (itemsIn (s.ownBlock p) u v) →
      ∃ c, u ≤ c ∧ c < v ∧ s.empty p c = false ∧ x ∈ (s.pma c).live := by
    intro u v x hx
    obtain ⟨b, hb, hxb⟩ := mem_elements.mp hx
    obtain ⟨c, hc, hb⟩ := List.mem_flatMap.mp hb
    obtain ⟨hempty, rfl⟩ := mem_ownBlock.mp hb
    have := List.mem_range'_1.mp hc
    exact ⟨c, this.1, by omega, hempty, hxb⟩
  intro x hx y hy
  rcases List.mem_append.mp hx with hx | hx
  · obtain ⟨c, -, hcv, hc, hxc⟩ := hold hx
    rcases List.mem_append.mp hy with hy | hy
    · obtain ⟨c', hvc', -, hc', hyc'⟩ := hold hy
      exact h.valid.ordered c c' (by omega) hc hc' x hxc y hyc'
    · obtain ⟨n, hjn, -, hn⟩ := mem_batchPart.mp hy
      have hlen := (List.getElem?_eq_some_iff.mp hn).1
      have hhome := hcut.ge n hjn hlen
      have his := hins.isHome hne n
      -- the home of the element is not the first block
      have hle := his.head_le.resolve_right fun hfirst =>
        absurd (hc.symm.trans (hfirst c (by omega))) (by simp)
      obtain ⟨z, hz, hzhead⟩ := (h.valid.entry _ his.nonempty).head_mem
      have hlt := h.valid.ordered c _ (by omega) hc his.nonempty x hxc z hz
      rw [← batchKey_of_getElem? hn]
      exact lt_of_lt_of_le hlt (hzhead ▸ hle)
  · obtain ⟨n, hin, hnj, hn⟩ := mem_batchPart.mp hx
    rcases List.mem_append.mp hy with hy | hy
    · obtain ⟨c', hvc', -, hc', hyc'⟩ := hold hy
      have hhome := hcut.lt n hnj
      have hlt := (hins.isHome hne n).lt_head c' (by omega) hc'
      rw [← batchKey_of_getElem? hn]
      exact lt_of_lt_of_le hlt ((h.valid.entry _ hc').head_le hyc')
    · obtain ⟨m, hjm, -, hm⟩ := mem_batchPart.mp hy
      rw [← batchKey_of_getElem? hn, ← batchKey_of_getElem? hm]
      exact batchKey_lt h.increasing (by omega) (List.getElem?_eq_some_iff.mp hm).1

lemma append (hne : ∃ c, s.empty p c = false) {u v w i j k x y z : ℕ} (huv : u ≤ v) (hvw : v ≤ w)
    (hij : i ≤ j) (hjk : j ≤ k) (hxy : x ≤ y) (hyz : y ≤ z) (hcut : CutsAt p s batch j v)
    (h1 : s.Piece p batch r ⟨u, v⟩ ⟨i, j⟩ ⟨x, y⟩)
    (h2 : s.Piece p batch r ⟨v, w⟩ ⟨j, k⟩ ⟨y, z⟩) :
    s.Piece p batch r ⟨u, w⟩ ⟨i, k⟩ ⟨x, z⟩ := by
  have hblocks := itemsIn_append (r.cellBlocks p) huv hvw
  have hcells := itemsIn_append r.bufferCells huv hvw
  refine ⟨?_, fun b hb => ?_, ?_, ?_, fun q hq => ?_, fun q hq hno => ?_, fun q hq => ?_⟩
  · rw [itemsIn_append _ huv hvw, hblocks, elements_append, elements_append,
      ← batchPart_append hij hjk]
    exact h1.union.append h2.union (h.lt_of_cut hne hcut)
  · rw [hblocks] at hb
    exact (List.mem_append.mp hb).elim (h1.valid b) (h2.valid b)
  · rw [hblocks, deadOk_append]
    refine ⟨h1.dead.mono fun key hkey => ?_, h2.dead⟩
    obtain ⟨c, hvc, hc, hle⟩ := hkey
    rcases Nat.lt_or_ge c w with hcw | hcw
    · -- the block is still there, or a part of it
      obtain ⟨z, hz, hzhead⟩ := (h.valid.entry c hc).head_mem
      have hin : z ∈ elements (itemsIn (s.ownBlock p) v w) := by
        refine mem_elements.mpr ⟨s.pma c, List.mem_flatMap.mpr ⟨c, List.mem_range'_1.mpr
          ⟨hvc, by omega⟩, mem_ownBlock.mpr ⟨hc, rfl⟩⟩, hz⟩
      obtain ⟨b, hb, hzb⟩ := mem_elements.mp (h2.union.mem_old hin)
      refine Or.inr ⟨b, hb, le_trans ((h2.valid b hb).head_le hzb) ?_⟩
      exact hzhead.le.trans hle
    · exact Or.inl ⟨c, hcw, hc, hle⟩
  · rw [hcells]
    refine List.pairwise_append.mpr ⟨h1.sorted, h2.sorted, fun q hq q' hq' => ?_⟩
    exact lt_of_lt_of_le (h1.inside q hq).2 (h2.inside q' hq').1
  · rw [hcells] at hq
    rcases List.mem_append.mp hq with hq | hq
    · exact ⟨(h1.inside q hq).1, lt_of_lt_of_le (h1.inside q hq).2 hyz⟩
    · exact ⟨le_trans hxy (h2.inside q hq).1, (h2.inside q hq).2⟩
  · rw [hcells, List.mem_append, not_or] at hno
    rcases Nat.lt_or_ge q y with hlt | hge
    · exact h1.rest q ⟨hq.1, hlt⟩ hno.1
    · exact h2.rest q ⟨hge, hq.2⟩ hno.2
  · rw [hcells] at hq
    exact (List.mem_append.mp hq).elim (h1.large q) (h2.large q)

/-! ## Pieces without work -/

/-- Cells that no task has come to. -/
lemma piece_kept (hsize : r.size = s.size) {u v i x y : ℕ} (huv : u ≤ v) (hv : v ≤ s.size)
    (hcells : ∀ c, u ≤ c → c < v → r.pma c = s.pma c ∧ r.bufferPointers c = .zero)
    (hbuffer : ∀ j, x ≤ j → j < y → r.bufferArray j = PmaEntry.null p.toBlockParams) :
    s.Piece p batch r ⟨u, v⟩ ⟨i, i⟩ ⟨x, y⟩ := by
  have hblocks : itemsIn (r.cellBlocks p) u v = itemsIn (s.ownBlock p) u v := by
    refine itemsIn_congr fun c h1 h2 => ?_
    obtain ⟨hpma, hptr⟩ := hcells c h1 h2
    rw [cellBlocks_of_pointers (by rw [hptr]; rfl), empty_congr hsize hpma, hpma, ownBlock]
  have hnone : itemsIn r.bufferCells u v = [] := by
    refine itemsIn_eq_nil fun c h1 h2 => ?_
    rw [bufferCells, (hcells c h1 h2).2]
    rfl
  -- the piece within the whole array
  have hall : s.blocks p = itemsIn (s.ownBlock p) 0 u ++ (itemsIn (s.ownBlock p) u v ++
      itemsIn (s.ownBlock p) v (max 1 s.size)) := by
    rw [blocks, itemsIn_congr fun c _ _ => h.quiet.cellBlocks_eq c,
      itemsIn_append _ (Nat.zero_le u) (show u ≤ max 1 s.size by omega),
      itemsIn_append _ huv (show v ≤ max 1 s.size by omega)]
  have hinc := h.sound.increasing
  have hdead := h.sound.dead
  rw [hall, elements_append, elements_append] at hinc
  rw [hall, deadOk_append, deadOk_append] at hdead
  refine ⟨?_, fun b hb => ?_, ?_, ?_, ?_, fun j hj _ => hbuffer j hj.1 hj.2, ?_⟩
  · rw [hblocks, batchPart_self]
    exact IsUnion.nil_new (Ordered.left (Ordered.right hinc))
  · rw [hblocks] at hb
    refine h.sound.valid b ?_
    rw [hall]
    exact List.mem_append_right _ (List.mem_append_left _ hb)
  · rw [hblocks]
    refine hdead.2.1.mono fun key hkey => ?_
    obtain ⟨b, hb, hle⟩ := hkey.resolve_left id
    obtain ⟨c, hc, hb⟩ := List.mem_flatMap.mp hb
    obtain ⟨hempty, rfl⟩ := mem_ownBlock.mp hb
    exact ⟨c, (List.mem_range'_1.mp hc).1, hempty, hle⟩
  · rw [hnone]
    exact List.Pairwise.nil
  · rw [hnone]
    exact fun j hj => absurd hj List.not_mem_nil
  · rw [hnone]
    exact fun j hj => absurd hj List.not_mem_nil

/-! ## Insertion tasks -/

variable (hne : ∃ c, s.empty p c = false) (hd : s.PhaseDone p batch r)
include hne hd

omit h hne in
lemma size_eq : r.size = (s.prepareInsertion p batch).size := by rw [hd.frame]

lemma piece_inserted (ht : t < s.numberOfThreads)
    (htype : (s.plannedTask p batch t).type = .insertion)
    (hwork : s.firstOf p batch t < s.firstOf p batch (t + 1)) :
    s.Piece p batch r ⟨s.blockOf p batch t, s.blockOf p batch (t + 1)⟩
      ⟨s.firstOf p batch t, s.firstOf p batch (t + 1)⟩
      ⟨s.bufferOf p batch t, s.bufferOf p batch (t + 1)⟩ := by
  have hin := h.rangeInput hne ht htype hwork
  have hres := h.ownTask_inserted hne ht htype hwork
  have hspec := (h.writes_spec ht).2
  have hcellset := h.taskCells_eq hne ht htype hwork
  have hmerge : (s.plannedTask p batch t).type ≠ .inverseMerge := by rw [htype]; simp
  have hsize : r.size = (s.ownState p batch t).size := by
    rw [PhaseInput.size_eq hd]
    change _ = (afterWrites (s.ownTask p batch t)).size
    rw [hres.frame]
  have hcells : ∀ c, s.blockOf p batch t ≤ c → c < s.blockOf p batch (t + 1) →
      r.pma c = (s.ownState p batch t).pma c ∧
        r.bufferPointers c = (s.ownState p batch t).bufferPointers c := fun c h1 h2 =>
    hd.cells t ht c (by rw [hcellset]; exact ⟨h1, h2⟩)
  have hplaces : itemsIn r.bufferCells (s.blockOf p batch t) (s.blockOf p batch (t + 1)) =
      List.range' (s.bufferOf p batch t) (s.ownTask p batch t).2.length := by
    rw [← hres.consecutive]
    exact itemsIn_congr fun c h1 h2 => by rw [bufferCells, (hcells c h1 h2).2]; rfl
  have hwrite : ∀ j, s.bufferOf p batch t ≤ j →
      j < s.bufferOf p batch t + (s.ownTask p batch t).2.length →
        ∃ w ∈ (s.ownTask p batch t).2, r.bufferArray j = w.block ∧
          (s.ownState p batch t).bufferArray j = w.block := by
    intro j h1 h2
    obtain ⟨i, rfl⟩ := Nat.exists_eq_add_of_le h1
    have hsome := List.getElem?_eq_getElem (show i < (s.ownTask p batch t).2.length by omega)
    exact ⟨_, List.getElem_mem _, hd.written t ht hmerge i _ hsome,
      (afterWrites_dense (s.ownTask p batch t).1 (h.writes_spec ht).1).1 i _ hsome⟩
  have hblocks : itemsIn (r.cellBlocks p) (s.blockOf p batch t) (s.blockOf p batch (t + 1)) =
      itemsIn ((s.ownState p batch t).cellBlocks p) (s.blockOf p batch t)
        (s.blockOf p batch (t + 1)) := by
    refine itemsIn_congr fun c h1 h2 => ?_
    obtain ⟨hpma, hptr⟩ := hcells c h1 h2
    refine cellBlocks_congr hsize hpma hptr fun j hj => ?_
    have hj' : j ∈ itemsIn r.bufferCells (s.blockOf p batch t) (s.blockOf p batch (t + 1)) :=
      List.mem_flatMap.mpr ⟨c, List.mem_range'_1.mpr ⟨h1, by omega⟩, hj⟩
    rw [hplaces] at hj'
    have := List.mem_range'_1.mp hj'
    obtain ⟨w, -, h3, h4⟩ := hwrite j this.1 this.2
    rw [h3, h4]
  have hold : itemsIn ((s.prepareInsertion p batch).cellBlocks p) (s.blockOf p batch t)
      (s.blockOf p batch (t + 1)) = itemsIn (s.ownBlock p) (s.blockOf p batch t)
        (s.blockOf p batch (t + 1)) := by
    refine itemsIn_congr fun c h1 h2 => ?_
    rw [cellBlocks_of_pointers (by rw [hin.pointers c h1 h2]; rfl), h.prepared_empty,
      h.prepared_pma, ownBlock]
  have habove : (s.prepareInsertion p batch).AboveCell p = s.AboveCell p := by
    funext m key
    simp only [AboveCell, h.prepared_empty, h.prepared_pma]
  have hunion := hres.union
  have hvalid := hres.valid
  have hdead := hres.dead
  change IsUnion _ _ _ (elements (itemsIn ((s.ownState p batch t).cellBlocks p) _ _)) at hunion
  change ∀ b ∈ itemsIn ((s.ownState p batch t).cellBlocks p) _ _, _ at hvalid
  change DeadOk _ _ (itemsIn ((s.ownState p batch t).cellBlocks p) _ _) at hdead
  rw [hold, ← hblocks] at hunion
  rw [← hblocks] at hvalid
  rw [← hblocks, habove] at hdead
  refine ⟨hunion, hvalid, hdead, ?_, fun j hj => ?_, fun j hj hno => ?_, fun j hj => ?_⟩
  · rw [hplaces]
    exact List.pairwise_lt_range'
  · rw [hplaces] at hj
    have := List.mem_range'_1.mp hj
    exact ⟨this.1, lt_of_lt_of_le this.2 hspec⟩
  · rw [hplaces, List.mem_range'_1] at hno
    have h1 : s.bufferOf p batch t ≤ j := hj.1
    have h2 : j < s.bufferOf p batch (t + 1) := hj.2
    exact hd.rest t ht hmerge j (by omega) h2
  · rw [hplaces] at hj
    have := List.mem_range'_1.mp hj
    obtain ⟨w, hw, h3, -⟩ := hwrite j this.1 this.2
    rw [h3]
    exact (hres.written w hw).2

/-! ## Groups -/

omit hd in
/-- The task of a cell is the last one of its group. -/
lemma task_of_cell (hg : IsGroup (s.splitterBlock p batch) s.numberOfThreads a e) {c : ℕ}
    (h1 : s.splitterBlock p batch a ≤ c) (h2 : c < s.splitterBlock p batch (e + 1))
    (ht : t < s.numberOfThreads) (hc : c ∈ s.taskCells p batch t) : t = e := by
  have hins := h.toInsertable
  have htype := hc.1
  obtain ⟨a', hg', h3, h4, -⟩ := h.sharing.insertion_range hins h.min_pos ht htype
  have hc' := hc
  rw [h.taskCells_eq hne ht htype hc.2.1] at hc'
  have h5 : s.splitterBlock p batch a' ≤ c := le_trans h3 hc'.1
  have h6 : c < s.splitterBlock p batch (t + 1) := lt_of_lt_of_le hc'.2 (le_of_eq h4)
  have hlt := hg.lt
  rcases Nat.lt_trichotomy t e with hte | heq | hgt
  · have h7 := splitterBlock_mono hins (hg'.lt_of_lt hg hte) (by have := hg.le; omega)
    omega
  · exact heq
  · have h7 := splitterBlock_mono hins (hg.lt_of_lt hg' hgt) (by have := hg'.le; omega)
    omega

omit hd hne in
/-- A merge block is that of its group. -/
lemma merge_of_cell (hg : IsGroup (s.splitterBlock p batch) s.numberOfThreads a e) {n c : ℕ}
    (h1 : s.splitterBlock p batch a ≤ c) (h2 : c < s.splitterBlock p batch (e + 1))
    (hc : s.MergeCell p batch n c) : s.HasShares p batch a e ∧ c = s.splitterBlock p batch a := by
  obtain ⟨a', e', hm, -, rfl⟩ := hc
  have hlt := hg.lt
  have hlt' := hm.group.lt
  rcases Nat.lt_trichotomy e' e with hte | heq | hgt
  · have h7 := h.splitterBlock_lt_of_group hg hm.group
      (by have := hm.group.lt_of_lt hg hte; omega)
    omega
  · subst heq
    obtain ⟨rfl, -⟩ := hm.group.unique hg hm.group.le (le_refl _) hg.le (le_refl _)
    exact ⟨hm.shares, rfl⟩
  · have h7 := splitterBlock_mono h.toInsertable (hg.lt_of_lt hm.group hgt)
      (by have := hm.group.le; omega)
    omega

omit h hne hd in
lemma size_eq_of_done (h : s.PhaseInput p batch) (hd : s.PhaseDone p batch r) : r.size = s.size := by
  rw [PhaseInput.size_eq hd, h.prepared_size]

/-- The last task of a group, with or without work. -/
lemma piece_last (hg : IsGroup (s.splitterBlock p batch) s.numberOfThreads a t) :
    s.Piece p batch r ⟨s.blockOf p batch t, s.blockOf p batch (t + 1)⟩
      ⟨s.firstOf p batch t, s.firstOf p batch (t + 1)⟩
      ⟨s.bufferOf p batch t, s.bufferOf p batch (t + 1)⟩ := by
  have ht := hg.lt
  obtain ⟨htype, hblock, -, -, hnext, -⟩ := h.last_spec hg
  change s.blockOf p batch t = _ at hblock
  change s.blockOf p batch (t + 1) = _ at hnext
  rcases Nat.lt_or_ge (s.firstOf p batch t) (s.firstOf p batch (t + 1)) with hwork | hwork
  · exact h.piece_inserted hne hd ht htype hwork
  · have hsame : s.firstOf p batch (t + 1) = s.firstOf p batch t :=
      le_antisymm hwork (h.firstOf_mono ht)
    have hmerge : (s.plannedTask p batch t).type ≠ .inverseMerge := by rw [htype]; simp
    have hown : s.ownTask p batch t = (s.prepareInsertion p batch, []) :=
      h.ownTask_idle ht hmerge fun hc => by omega
    have hnormal := normalBlock_spec h.toInsertable hne hg
    have hsplit := hg.same t hg.le (le_refl _)
    have hlow : s.splitterBlock p batch a ≤ s.blockOf p batch t := by
      rw [hblock]
      split <;> omega
    have hle : s.blockOf p batch t ≤ s.blockOf p batch (t + 1) := by
      have := splitterBlock_lt h.toInsertable hne hg
      rw [hblock, hnext]
      split <;> omega
    have hend : s.blockOf p batch (t + 1) ≤ s.size := by
      rw [hnext, ← @splitterBlock_last _ _ _ p s batch]
      exact splitterBlock_mono h.toInsertable ht (le_refl _)
    rw [hsame]
    refine h.piece_kept (h.size_eq_of_done hd) hle hend (fun c h1 h2 => hd.kept c ?_ ?_) ?_
    · intro t' ht' hc
      have heq := h.task_of_cell hne hg (le_trans hlow h1) (by rw [← hnext]; exact h2) ht' hc
      rw [heq] at hc
      have := hc.2.1
      omega
    · intro hc
      obtain ⟨hs, rfl⟩ := h.merge_of_cell hg (le_trans hlow h1) (by rw [← hnext]; exact h2) hc
      rw [hblock, if_pos hs] at h1
      omega
    · intro j h1 h2
      exact hd.rest t ht hmerge j (by rw [hown]; exact h1) h2

/-- The merge block of a group with shares, and the empty cells behind it. -/
lemma piece_merge (hm : IsMerge p s batch a e) :
    s.Piece p batch r ⟨s.splitterBlock p batch a, s.normalBlock p batch e⟩
      ⟨s.splitterFirst p batch a, s.mergeEnd p batch a e⟩
      ⟨s.bufferOf p batch a, s.bufferOf p batch e⟩ := by
  have hg := hm.group
  have hin := h.groupInput hg hm.shares
  obtain ⟨hpma, hset⟩ := hd.merged a e hm
  obtain ⟨h1, h2, hempty, -⟩ := normalBlock_spec h.toInsertable hne hg
  have hsplit := hg.same e hg.le (le_refl _)
  rw [hsplit] at h1 hempty
  have hsome : s.empty p (s.splitterBlock p batch a) = false := by
    rw [splitterBlock_eq_home (lt_of_le_of_lt hg.le hg.lt)]
    exact (h.toInsertable.isHome hne _).nonempty
  have hsize := h.size_eq_of_done hd
  have hnone : ∀ c, s.splitterBlock p batch a < c → c < s.normalBlock p batch e →
      r.pma c = s.pma c ∧ r.bufferPointers c = .zero := by
    intro c hc hc'
    refine hd.kept c (fun t ht hcell => ?_) fun hcell => ?_
    · have heq := h.task_of_cell hne hg hc.le (by omega) ht hcell
      subst heq
      rw [h.taskCells_eq hne ht hcell.1 hcell.2.1] at hcell
      have hblock := (h.last_spec hg).2.1
      rw [if_pos hm.shares] at hblock
      have : s.normalBlock p batch t ≤ c := le_trans (le_of_eq hblock.symm) hcell.1
      omega
    · obtain ⟨-, rfl⟩ := h.merge_of_cell hg hc.le (by omega) hcell
      omega
  have hcells : itemsIn r.bufferCells (s.splitterBlock p batch a) (s.normalBlock p batch e) =
      List.range' (s.bufferOf p batch a) (s.shareCount p batch a e (s.workers p batch a e)) := by
    rw [itemsIn_append _ (Nat.le_succ _) h1, itemsIn_succ, itemsIn_eq_nil fun c hc hc' => by
      rw [bufferCells, (hnone c hc hc').2]; rfl, List.append_nil, bufferCells, hset.pointers]
    congr 1
    exact Nat.add_sub_cancel_left _ _
  have hblocks : itemsIn (r.cellBlocks p) (s.splitterBlock p batch a)
      (s.normalBlock p batch e) =
        itemsIn (s.shareBlocks p batch a e) 0 (s.workers p batch a e) := by
    have hrest : itemsIn (r.cellBlocks p) (s.splitterBlock p batch a + 1)
        (s.normalBlock p batch e) = [] := by
      refine itemsIn_eq_nil fun c hc hc' => ?_
      obtain ⟨g1, g2⟩ := hnone c hc hc'
      rw [cellBlocks_of_pointers (by rw [g2]; rfl), empty_congr hsize g1, hempty c hc hc']
      rfl
    have hgone : r.empty p (s.splitterBlock p batch a) = true := by
      rw [empty, hpma]
      simp [PmaEntry.null]
    rw [itemsIn_append _ (Nat.le_succ _) h1, itemsIn_succ, hrest, List.append_nil, cellBlocks_eq,
      ownBlock_of_true hgone, List.nil_append, bufferCells, hset.pointers]
    refine List.ext_getElem? fun i => ?_
    have hlen : (⟨s.bufferOf p batch a, s.bufferOf p batch a +
        s.shareCount p batch a e (s.workers p batch a e)⟩ : Interval).length =
          (itemsIn (s.shareBlocks p batch a e) 0 (s.workers p batch a e)).length :=
      Nat.add_sub_cancel_left _ _
    rw [List.getElem?_map, hlen]
    rcases Nat.lt_or_ge i (itemsIn (s.shareBlocks p batch a e) 0
      (s.workers p batch a e)).length with hi | hi
    · rw [List.getElem?_range' hi, Option.map_some, Nat.one_mul, List.getElem?_eq_getElem hi]
      exact congrArg some (hset.cells i _ (List.getElem?_eq_getElem hi))
    · rw [List.getElem?_eq_none (by simpa using hi), List.getElem?_eq_none hi]
      rfl
  have hold : itemsIn (s.ownBlock p) (s.splitterBlock p batch a) (s.normalBlock p batch e) =
      [s.mergeEntry p batch a] := by
    rw [itemsIn_append _ (Nat.le_succ _) h1, itemsIn_succ, itemsIn_eq_nil fun c hc hc' =>
      ownBlock_of_true (hempty c hc hc'), List.append_nil, ownBlock_of_false hsome]
    rfl
  have hgroup := hin.group_union (s.AboveCell p (s.normalBlock p batch e))
  have hroom := hset.room
  refine ⟨?_, ?_, ?_, ?_, fun j hj => ?_, fun j hj hno => ?_, fun j hj => ?_⟩
  · rw [hold, hblocks, elements_cons, elements_nil, List.append_nil]
    exact hgroup.union
  · rw [hblocks]
    exact hgroup.valid
  · rw [hblocks]
    exact hgroup.dead
  · rw [hcells]
    exact List.pairwise_lt_range'
  · rw [hcells] at hj
    have := List.mem_range'_1.mp hj
    exact ⟨this.1, lt_of_lt_of_le this.2 hroom⟩
  · rw [hcells, List.mem_range'_1] at hno
    have h3 : s.bufferOf p batch a ≤ j := hj.1
    exact hset.gap j (by omega) hj.2
  · rw [hcells] at hj
    have hj' := List.mem_range'_1.mp hj
    obtain ⟨i, rfl⟩ := Nat.exists_eq_add_of_le hj'.1
    have hi : i < (itemsIn (s.shareBlocks p batch a e) 0 (s.workers p batch a e)).length := by
      have := hj'.2
      rw [shareCount] at this
      omega
    rw [hset.cells i _ (List.getElem?_eq_getElem hi)]
    exact hgroup.large _ (List.getElem_mem _)

/-- The cells, the batch elements and the buffer range of a group. -/
lemma piece_group (hg : IsGroup (s.splitterBlock p batch) s.numberOfThreads a e) :
    s.Piece p batch r ⟨s.splitterBlock p batch a, s.splitterBlock p batch (e + 1)⟩
      ⟨s.splitterFirst p batch a, s.splitterFirst p batch (e + 1)⟩
      ⟨s.bufferOf p batch a, s.bufferOf p batch (e + 1)⟩ := by
  have hlast := h.piece_last hne hd hg
  obtain ⟨-, hblock, hfirst, -, hnext, hnext'⟩ := h.last_spec hg
  have hblock' : s.blockOf p batch e = if s.HasShares p batch a e then s.normalBlock p batch e
    else s.splitterBlock p batch a := hblock
  have hfirst' : s.firstOf p batch e = if s.HasShares p batch a e then s.mergeEnd p batch a e
    else s.splitterFirst p batch a := hfirst
  rw [show s.blockOf p batch (e + 1) = s.splitterBlock p batch (e + 1) from hnext,
    show s.firstOf p batch (e + 1) = s.splitterFirst p batch (e + 1) from hnext',
    hblock', hfirst'] at hlast
  by_cases hs : s.HasShares p batch a e
  · rw [if_pos hs, if_pos hs] at hlast
    have hcuts := h.cuts hg
    obtain ⟨h1, h2, -, -⟩ := normalBlock_spec h.toInsertable hne hg
    have hsplit := hg.same e hg.le (le_refl _)
    exact h.append hne (by omega) h2 hcuts.le_mergeEnd hcuts.mergeEnd_le (start_mono hg.le)
      (start_mono (Nat.le_succ e)) (cutsAt_mergeEnd h.toInsertable hne h.usable.less hg)
      (h.piece_merge hne hd ⟨hg, hs⟩) hlast
  · rw [if_neg hs, if_neg hs, h.bufferOf_idle hg (if_neg hs).symm e hg.le (le_refl _)] at hlast
    exact hlast

/-- **The whole array.** -/
theorem piece_all : s.Piece p batch r ⟨0, s.size⟩ ⟨0, batch.length⟩
    ⟨s.bufferOf p batch 0, s.bufferOf p batch s.numberOfThreads⟩ := by
  have hins := h.toInsertable
  have hT := h.threads_pos
  have hzero : s.splitterFirst p batch 0 = 0 := by rw [splitterFirst, if_pos rfl]
  obtain ⟨a, e, hg, -, h2⟩ := exists_group (s.splitterBlock p batch)
    (show s.numberOfThreads - 1 < s.numberOfThreads by omega)
  have he : e + 1 = s.numberOfThreads := by
    have := hg.lt
    omega
  have hall := IsGroup.induction (P := fun n => s.Piece p batch r
      ⟨0, s.splitterBlock p batch n⟩ ⟨0, s.splitterFirst p batch n⟩
      ⟨s.bufferOf p batch 0, s.bufferOf p batch n⟩) ?_ (fun a e hg hP => ?_) e a hg
  · rw [he, splitterBlock_last, splitterFirst_last hins] at hall
    exact hall
  · -- the cells in front of the first group
    rw [hzero]
    have hle := splitterBlock_mono hins (Nat.zero_le s.numberOfThreads) (le_refl _)
    rw [splitterBlock_last] at hle
    refine h.piece_kept (h.size_eq_of_done hd) (Nat.zero_le _) hle (fun c _ h2 =>
      hd.kept c (fun t ht hc => ?_) ?_) fun j h1 h2 => by omega
    · have htype := hc.1
      obtain ⟨a', hg', h3, -⟩ := h.sharing.insertion_range hins h.min_pos ht htype
      rw [h.taskCells_eq hne ht htype hc.2.1] at hc
      have h4 := splitterBlock_mono hins (Nat.zero_le a') (by have := hg'.le; omega)
      have h5 : s.splitterBlock p batch a' ≤ c := le_trans h3 hc.1
      omega
    · rintro ⟨a, e, hm, -, hc⟩
      have hm' := hm.group.lt
      have h4 := splitterBlock_mono hins (Nat.zero_le a) (by have := hm.group.le; omega)
      omega
  · have hlt := hg.lt
    have hae := hg.le
    have hfirst : a = 0 ∨ s.splitterBlock p batch (a - 1) < s.splitterBlock p batch a := by
      rcases hg.first with h0 | hne'
      · exact Or.inl h0
      · exact Or.inr (lt_of_le_of_ne (splitterBlock_mono hins (Nat.sub_le _ _) (by omega)) hne')
    have hcut := cutsAt_splitterFirst hins hne (show a ≤ s.numberOfThreads by omega) hfirst
    have hcuts := h.cuts hg
    exact h.append hne (Nat.zero_le _) (splitterBlock_mono hins (by omega) (by omega))
      (Nat.zero_le _) (le_trans hcuts.le_mergeEnd hcuts.mergeEnd_le) (start_mono (Nat.zero_le a))
      (start_mono (by omega)) hcut hP (h.piece_group hne hd hg)

end PhaseInput

end BatchedSparseArray

end BatchPMA
