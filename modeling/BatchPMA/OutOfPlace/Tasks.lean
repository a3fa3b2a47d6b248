import BatchPMA.OutOfPlace.Shares

/-!
# What a task writes

The result of every kind of task of path B, whatever the other tasks have done in the meantime: a
row of blocks that holds the union of the part of the array and the part of the batch that the task
is responsible for.
-/

namespace BatchPMA

open KeyedUnion Ranges

variable {K α : Type} [LinearOrder K]

namespace OverallocatedBatchedSparseArray

variable {p : OverallocatedParams K α} {s s₀ : OverallocatedBatchedSparseArray K α}
  {batch : List α} {n a e k : ℕ} {g : ℕ → TaskInfo} {pmaRange pmaOutputRange : Interval}

/-! ## Copying blocks -/

lemma Valid.eq_null (hvalid : s₀.Valid p) {c : ℕ} (hc : (s₀.pma c).isEmpty = true) :
    s₀.pma c = PmaEntry.null p.toBlockParams := by
  refine (hvalid.cell c).resolve_right fun hv => ?_
  rw [hv.isEmpty_eq] at hc
  exact absurd hc (by simp)

/-- One cell. -/
lemma copy_step (hvalid : s₀.Valid p) {left start c : ℕ} {blocks : List (PmaEntry K α)}
    {sizeManager : BlockSizeManager} (hcell : s.pma c = s₀.pma c) (hle : left ≤ c) :
    (if (rewritten p s left c start blocks sizeManager).empty p c then
        (rewritten p s left c start blocks sizeManager, blocks.length)
      else ((rewritten p s left c start blocks sizeManager).writePmaBlock p c start blocks.length,
        blocks.length + 1)) =
      (rewritten p s left (c + 1) start (blocks ++ cellBlock (s₀.pma c)) sizeManager,
        (blocks ++ cellBlock (s₀.pma c)).length) := by
  have hpma : (rewritten p s left c start blocks sizeManager).pma c = s₀.pma c :=
    (cleared_of_not_mem (Or.inr (le_refl _))).trans hcell
  have hempty : (rewritten p s left c start blocks sizeManager).empty p c =
      (s₀.pma c).isEmpty := by
    rw [empty, hpma, ← hvalid.empty_eq c]
    rfl
  cases hne : (s₀.pma c).isEmpty with
  | true =>
      have hnull : s.pma c = PmaEntry.null p.toBlockParams := hcell.trans (hvalid.eq_null hne)
      rw [if_pos (hempty.trans hne), cellBlock_of_isEmpty hne, List.append_nil]
      congr 1
      rw [rewritten, rewritten]
      congr 1
      funext j
      rw [cleared, cleared]
      rcases eq_or_ne j c with rfl | hj
      · rw [if_neg (by omega), if_pos ⟨hle, Nat.lt_succ_self j⟩, hnull]
      · exact if_congr (by omega) rfl rfl
  | false =>
      have hno : ¬ (rewritten p s left c start blocks sizeManager).empty p c = true := by
        rw [hempty, hne]
        simp
      rw [if_neg hno, cellBlock_of_not_isEmpty hne, List.length_append, List.length_singleton,
        writePmaBlock_rewritten hle (Nat.lt_succ_self c) (fun j h1 h2 => absurd h1 (by omega)), hcell]

/-- The blocks of a range, one after the other. -/
lemma copyBlocks_rewritten (hvalid : s₀.Valid p) (hag : Agrees p s₀ s pmaRange) :
    s.copyBlocks p pmaRange pmaOutputRange =
      (rewritten p s pmaRange.left pmaRange.right pmaOutputRange.left
        (rangeBlocks s₀.pma pmaRange.left pmaRange.right) s.sizeManager,
        (rangeBlocks s₀.pma pmaRange.left pmaRange.right).length) := by
  have hloop : ∀ m, m ≤ pmaRange.length →
      (List.range' pmaRange.left m).foldl (fun acc blockIndex =>
        if acc.1.empty p blockIndex then acc
        else (acc.1.writePmaBlock p blockIndex pmaOutputRange.left acc.2, acc.2 + 1)) (s, 0) =
      (rewritten p s pmaRange.left (pmaRange.left + m) pmaOutputRange.left
        (rangeBlocks s₀.pma pmaRange.left (pmaRange.left + m)) s.sizeManager,
        (rangeBlocks s₀.pma pmaRange.left (pmaRange.left + m)).length) := by
    intro m
    induction m with
    | zero =>
        intro _
        rw [Nat.add_zero, rangeBlocks_self, rewritten, cleared_self p.toBlockParams s.pma (le_refl _),
          placed_nil]
        rfl
    | succ m ih =>
        intro hm
        have hlt : pmaRange.left + m < pmaRange.right := by
          rw [Interval.length] at hm
          omega
        have hcell := hag.cell_eq (pmaRange.left + m) (Nat.le_add_right _ m) hlt
        rw [List.range'_concat, List.foldl_append, ih (by omega), Nat.one_mul, List.foldl_cons,
          List.foldl_nil]
        simp only
        rw [copy_step hvalid hcell (Nat.le_add_right _ m), ← Nat.add_assoc,
          rangeBlocks_append (Nat.le_add_right _ m) (Nat.le_succ (pmaRange.left + m)),
          rangeBlocks_succ]
  rw [copyBlocks, hloop _ (le_refl _), Interval.length]
  rcases Nat.le_total pmaRange.left pmaRange.right with hle | hge
  · rw [Nat.add_sub_cancel' hle]
  · -- nothing to copy
    have hnil : rangeBlocks s₀.pma pmaRange.left pmaRange.right = [] := by
      rw [rangeBlocks, itemsIn, Nat.sub_eq_zero_of_le hge]
      rfl
    rw [Nat.sub_eq_zero_of_le hge, Nat.add_zero, rangeBlocks_self, hnil, rewritten, rewritten,
      cleared_self p.toBlockParams s.pma (le_refl _), cleared_self p.toBlockParams s.pma hge]

/-- The blocks in front of the first task. -/
lemma copyFrontBlocks_eq (hvalid : s₀.Valid p) {stop : ℕ}
    (hpma : ∀ c < stop, s.pma c = s₀.pma c)
    (hswap : ∀ c < stop, s.swapPma c = PmaEntry.null p.toBlockParams) :
    s.copyFrontBlocks p stop = { s with
      pma := cleared p.toBlockParams s.pma 0 stop
      swapPma := fun c => if c < stop then s₀.pma c else s.swapPma c } := by
  rw [copyFrontBlocks]
  induction stop with
  | zero =>
      rw [cleared_self p.toBlockParams s.pma (le_refl 0)]
      rfl
  | succ c ih =>
      rw [List.range_succ, List.foldl_append, ih (fun j hj => hpma j (by omega))
        fun j hj => hswap j (by omega), List.foldl_cons, List.foldl_nil]
      have hcell : cleared p.toBlockParams s.pma 0 c c = s₀.pma c :=
        (cleared_of_not_mem (Or.inr (le_refl c))).trans (hpma c (Nat.lt_succ_self c))
      have hempty : OverallocatedBatchedSparseArray.empty p { s with
          pma := cleared p.toBlockParams s.pma 0 c
          swapPma := fun j => if j < c then s₀.pma j else s.swapPma j } c = (s₀.pma c).isEmpty := by
        rw [← hvalid.empty_eq c]
        exact congrArg (fun b => decide (b.head = p.nullKey)) hcell
      have hcleared : Function.update (cleared p.toBlockParams s.pma 0 c) c
          (PmaEntry.null p.toBlockParams) = cleared p.toBlockParams s.pma 0 (c + 1) :=
        update_cleared (Nat.zero_le c) (Nat.lt_succ_self c) fun j h1 h2 => absurd h1 (by omega)
      have hplaced : Function.update (fun j => if j < c then s₀.pma j else s.swapPma j) c
          (s₀.pma c) = fun j => if j < c + 1 then s₀.pma j else s.swapPma j := by
        funext j
        rw [Function.update_apply]
        rcases lt_trichotomy j c with h | rfl | h
        · rw [if_neg h.ne, if_pos h, if_pos (by omega)]
        · rw [if_pos rfl, if_pos (by omega)]
        · rw [if_neg h.ne', if_neg (by omega), if_neg (by omega)]
      cases hne : (s₀.pma c).isEmpty with
      | true =>
          have hnull := hvalid.eq_null hne
          rw [if_pos (hempty.trans hne), ← hcleared, ← hplaced, hnull]
          congr 1
          · exact (Function.update_eq_self_iff.mpr (hcell.trans hnull).symm).symm
          · refine (Function.update_eq_self_iff.mpr ?_).symm
            rw [if_neg (lt_irrefl c), hswap c (Nat.lt_succ_self c)]
      | false =>
          rw [if_neg (by rw [hempty, hne]; simp), writePmaBlock, writeBlock, getDenseWriteIndex,
            Nat.zero_add]
          simp only
          rw [hcell, hcleared, hplaced]

/-! ## What the tasks are given -/

/-- What is asked of the parameters: blocks of an even size whose positions `SignedBlockIndexType`
can hold, value-initialised cells with the null key, and an `operator<` that compares keys. -/
structure Usable (p : OverallocatedParams K α) : Prop where
  even : 2 ∣ p.blockSize
  two_le : 2 ≤ p.blockSize
  signed : p.blockSize ≤ 2 ^ 15
  zero_null : p.keyOf p.zero = p.nullKey
  less : ∀ x y, p.operatorLess x y = decide (x < y)

lemma Insertable.mergeInput (h : s.Insertable p batch n) (hp : Usable p)
    (hg : IsGroup (s.splitterBlock p batch n) n a e) (hae : a < e) :
    MergeInput p s batch n a e := by
  refine ⟨hp.two_le, hp.zero_null, hae, ?_, h.mergeEnd_lt hp.less hg, ?_, fun hlt x hx => ?_,
    h.increasing, fun x hx => (h.null_lt x hx).ne'⟩
  · exact (h.valid.cell (s.splitterBlock p batch n a)).symm.imp PmaEntry.Valid.filled id
  · by_cases hne : ∃ c, s.empty p c = false
    · exact (h.cutsAt_mergeEnd hp.less hne hg).le
    · push Not at hne
      exact ((h.of_empty fun c => Bool.eq_true_of_not_eq_false (hne c)).2 hg).2.2.le
  · by_cases hne : ∃ c, s.empty p c = false
    · have ha := lt_of_le_of_lt hg.le hg.lt
      refine h.above_of_cut hne (h.cutsAt_mergeEnd hp.less hne hg) (le_refl _) hlt x ?_
      exact mem_elements.mpr ⟨_, mem_rangeBlocks.mpr ⟨s.splitterBlock p batch n a, Nat.zero_le _,
        (h.normalBlock_spec hne hg).1, h.splitterBlock_nonempty hne ha, rfl⟩, hx⟩
    · push Not at hne
      have := ((h.of_empty fun c => Bool.eq_true_of_not_eq_false (hne c)).2 hg).2.2
      omega

/-- With batch elements to insert, the range of a task begins with a block. -/
lemma LastRange.rangeInput {left right first last : ℕ}
    (hr : LastRange p s batch left right first last) (h : s.Insertable p batch n) (hp : Usable p)
    (hne : ∃ c, s.empty p c = false) (hlt : first < last) :
    RangeInput p s batch ⟨first, last⟩ ⟨left, right⟩ := by
  have hblock : left < right := by
    have h1 := hr.cut_left.ge first (le_refl _) (lt_of_lt_of_le hlt hr.cut_right.le)
    have h2 := hr.cut_right.lt first hlt
    omega
  exact ⟨hp.even, hp.two_le, hp.signed, hp.zero_null, h.valid, hblock, hr.le_size,
    hr.nonempty hblock, hlt.le, hr.cut_right.le, h.increasing, fun x hx => (h.null_lt x hx).ne',
    fun i _ h2 k hk => h.below_of_cut hne hr.cut_right h2 hk⟩

/-! ## Single blocks -/

/-- If all blocks are in one cell, all threads form one group. -/
lemma Insertable.group_of_single (h : s.Insertable p batch n) (hne : ∃ c, s.empty p c = false)
    (hone : s.blocks.length = 1) (hg : IsGroup (s.splitterBlock p batch n) n a e) :
    a = 0 ∧ e + 1 = n := by
  have hsame : ∀ t < n, ∀ u < n, s.splitterBlock p batch n t = s.splitterBlock p batch n u := by
    intro t ht u hu
    have h1 := h.splitterBlock_nonempty hne ht
    have h2 := h.splitterBlock_nonempty hne hu
    rcases lt_trichotomy (s.splitterBlock p batch n t) (s.splitterBlock p batch n u) with
      hlt | heq | hlt
    · exact absurd hone (h.valid.blocks_ne_one hlt h1 h2)
    · exact heq
    · exact absurd hone (h.valid.blocks_ne_one hlt h2 h1)
  have hale := hg.le
  have halt := hg.lt
  refine ⟨hg.first.resolve_right fun hne' => hne' (hsame _ (by omega) _ (by omega)), ?_⟩
  by_contra hno
  exact hg.last.resolve_left hno (hsame _ (by omega) _ (by omega))

/-! ## Insertion tasks -/

lemma Valid.rangeBlocks_of_empty (hvalid : s.Valid p) (hemp : ∀ c, s.empty p c = true) {a b : ℕ} :
    rangeBlocks s.pma a b = [] := by
  rw [List.eq_nil_iff_forall_not_mem]
  intro block hblock
  obtain ⟨j, -, -, hj, -⟩ := mem_rangeBlocks.mp hblock
  have := hemp j
  rw [hvalid.empty_eq, hj] at this
  exact absurd this (by simp)

/-- What an insertion task does with its range. -/
def insertionPart (p : OverallocatedParams K α) (s : OverallocatedBatchedSparseArray K α)
    (batch : List α) (batchRange pmaInputRange pmaOutputRange : Interval) :
    OverallocatedBatchedSparseArray K α × ℕ :=
  if batchRange.length = 0 then s.copyBlocks p pmaInputRange pmaOutputRange
  else s.insertBatchRange p batch batchRange pmaInputRange pmaOutputRange

/-- The row of an insertion task.  A row with a block that is too small consists of that block, and
the task is the only one. -/
structure InsertionRow (p : OverallocatedParams K α) (s : OverallocatedBatchedSparseArray K α)
    (batch : List α) (n : ℕ) (old new : List α) (blocks : List (PmaEntry K α)) : Prop
    extends Row p s batch old new blocks where
  sized : (∀ b ∈ blocks, p.minBlockSize ≤ b.size) ∨ blocks.length = 1 ∧ n = 1

/-- Behind a merge block there is no single block. -/
lemma Insertable.last_large (h : s₀.Insertable p batch n) (hne : ∃ c, s₀.empty p c = false)
    (hg : IsGroup (s₀.splitterBlock p batch n) n a e) {left j : ℕ}
    (hleft : left = if a < e then s₀.normalBlock p batch n e else s₀.splitterBlock p batch n a)
    (hj : left ≤ j) (hblock : (s₀.pma j).isEmpty = false) :
    (∀ b ∈ s₀.blocks, p.minBlockSize ≤ b.size) ∨ s₀.blocks.length = 1 ∧ n = 1 := by
  refine h.valid.large.imp id fun hone => ⟨hone, ?_⟩
  have hale := hg.le
  have ha := lt_of_le_of_lt hg.le hg.lt
  obtain ⟨h1, h2⟩ := h.group_of_single hne hone hg
  by_cases hae : a < e
  · rw [if_pos hae] at hleft
    have hlt := (h.normalBlock_spec hne hg).1
    exact absurd hone (h.valid.blocks_ne_one (lt_of_lt_of_le hlt (hleft ▸ hj))
      (h.splitterBlock_nonempty hne ha) hblock)
  · omega

lemma insertionPart_of_nonempty (h : s₀.Insertable p batch n) (hp : Usable p)
    (hne : ∃ c, s₀.empty p c = false) (hg : IsGroup (s₀.splitterBlock p batch n) n a e)
    {left right first last : ℕ} (hr : LastRange p s₀ batch left right first last)
    (hleft : left = if a < e then s₀.normalBlock p batch n e else s₀.splitterBlock p batch n a)
    (hag : Agrees p s₀ s ⟨left, right⟩) (pmaOutputRange : Interval) :
    ∃ blocks sizeManager, s.insertionPart p batch ⟨first, last⟩ ⟨left, right⟩ pmaOutputRange =
        (rewritten p s left right pmaOutputRange.left blocks sizeManager, blocks.length) ∧
      InsertionRow p s₀ batch n (elements (rangeBlocks s₀.pma left right))
        (batchPart batch ⟨first, last⟩) blocks := by
  have hmono := hr.cut_left.mono hr.cut_right hr.le
  rw [insertionPart]
  split
  · rename_i hnil
    have heq : last = first := by
      change last - first = 0 at hnil
      omega
    have hout := output_range batch h.valid hr.le hr.le_size
    refine ⟨_, _, copyBlocks_rewritten h.valid hag, ?_⟩
    rw [heq, batchPart_self]
    refine ⟨hout.toRow, ?_⟩
    simp only
    rcases List.eq_nil_or_concat (rangeBlocks s₀.pma left right) with hrow | ⟨init, b, hrow⟩
    · rw [hrow]
      exact Or.inl fun b hb => absurd hb List.not_mem_nil
    · have hb : b ∈ rangeBlocks s₀.pma left right := by
        rw [hrow, List.concat_eq_append]
        exact List.mem_append_right _ (List.mem_singleton_self b)
      obtain ⟨j, j1, -, j3, -⟩ := mem_rangeBlocks.mp hb
      refine (h.last_large hne hg hleft j1 j3).imp hout.large fun hone => ⟨?_, hone.2⟩
      have hall := hone.1
      have hpos := List.length_pos_of_mem hb
      rw [blocks_eq hr.le hr.le_size, List.length_append, List.length_append] at hall
      omega
  · rename_i hsome
    have hlt : first < last := by
      change ¬ last - first = 0 at hsome
      omega
    have hin := hr.rangeInput h hp hne hlt
    obtain ⟨blocks, sizeManager, heq, hout, hsingle⟩ :=
      insertBatchRange_rewrites hin hag pmaOutputRange
    refine ⟨blocks, sizeManager, heq, hout.toRow, ?_⟩
    rcases h.last_large hne hg hleft (le_refl left) hin.first with hall | ⟨hone, hn⟩
    · exact Or.inl (hout.large hall)
    · exact (hsingle hone).imp id fun hlen => ⟨hlen, hn⟩

/-- Without blocks the only task loads the batch. -/
lemma insertionPart_of_empty (h : s₀.Insertable p batch n) (hp : Usable p)
    (hemp : ∀ c, s₀.empty p c = true) (hg : IsGroup (s₀.splitterBlock p batch n) n a e)
    {left right first last : ℕ}
    (hleft : left = if a < e then s₀.normalBlock p batch n e else s₀.splitterBlock p batch n a)
    (hright : right = s₀.splitterBlock p batch n (e + 1))
    (hfirst : first = if a < e then s₀.mergeEnd p batch n a e else s₀.splitterFirst p batch n a)
    (hlast : last = s₀.splitterFirst p batch n (e + 1))
    (hag : Agrees p s₀ s ⟨left, right⟩) (pmaOutputRange : Interval) :
    ∃ blocks sizeManager, s.insertionPart p batch ⟨first, last⟩ ⟨left, right⟩ pmaOutputRange =
        (rewritten p s left right pmaOutputRange.left blocks sizeManager, blocks.length) ∧
      InsertionRow p s₀ batch n (elements (rangeBlocks s₀.pma left right))
        (batchPart batch ⟨first, last⟩) blocks := by
  obtain ⟨hsame, hgroup⟩ := h.of_empty hemp
  obtain ⟨rfl, hn, hend⟩ := hgroup hg
  have hT := h.threads_pos
  have hlen := h.threads_le
  have hnil := h.valid.rangeBlocks_of_empty hemp (a := left) (b := right)
  rw [hn, h.splitterFirst_last] at hlast
  rw [hsame] at hright
  rw [insertionPart]
  by_cases hae : 0 < e
  · rw [if_pos hae, hend] at hfirst
    have hzero : Interval.length ⟨first, last⟩ = 0 := by
      change last - first = 0
      omega
    rw [if_pos hzero]
    have hcopy : copyBlocks p s _ pmaOutputRange = _ := copyBlocks_rewritten h.valid hag
    simp only at hcopy
    rw [hnil] at hcopy
    refine ⟨[], _, hcopy, ?_⟩
    rw [hnil, hfirst, hlast, batchPart_self]
    exact ⟨row_nil, Or.inl fun b hb => absurd hb List.not_mem_nil⟩
  · rw [if_neg hae, splitterFirst_zero] at hfirst
    rw [if_neg hae, hsame] at hleft
    subst hfirst hlast hleft hright
    have hsome : ¬ Interval.length ⟨0, batch.length⟩ = 0 := by
      change ¬ batch.length - 0 = 0
      omega
    have hnone : Interval.length ⟨s₀.size, s₀.size⟩ = 0 := Nat.sub_self _
    rw [if_neg hsome, insertBatchRange, hnone, if_pos rfl, rewriteLoop]
    have hall : batchPart batch ⟨0, batch.length⟩ = batch := by
      simp [batchPart, Interval.length]
    have hwrite := writeBlocks_eq (s := s) pmaOutputRange.left
      (denseRangeBlocks p.toBlockParams batch) []
    rw [List.nil_append, placed_nil] at hwrite
    obtain ⟨k1, k2, k3⟩ := denseRangeBlocks_spec hp.even hp.two_le hp.signed hp.zero_null
      h.increasing fun x hx => (h.null_lt x hx).ne'
    refine ⟨denseRangeBlocks p.toBlockParams batch, s.sizeManager, ?_, ?_⟩
    · rw [hall, rewritten, cleared_self p.toBlockParams s.pma (le_refl s₀.size)]
      exact hwrite
    · rw [hnil, hall]
      refine ⟨⟨k1, ?_, fun P h1 _ h3 => holds_denseRangeBlocks h1 h3⟩, ?_⟩
      · rw [k2]
        exact IsUnion.nil_old h.increasing
      · exact k3.imp id fun hone => ⟨hone, by omega⟩

/-! ## The widths suffice -/

/-- No element of the batch lies below the null key. -/
lemma Insertable.countBelow_null (h : s.Insertable p batch n) :
    countBelow p.toBlockParams batch p.nullKey = 0 := by
  by_contra hpos
  have hle := @countBelow_le _ _ _ p.toBlockParams batch p.nullKey
  have hlt := (lt_countBelow_iff h.increasing (i := 0) (k := p.nullKey) (by omega)).mp (by omega)
  rw [batchKey_eq (by omega)] at hlt
  exact absurd (h.null_lt _ (List.getElem_mem _)) (not_lt.mpr hlt.le)

/-- The first element that step 1 counts for a thread. -/
def countedFirst (p : OverallocatedParams K α) (s : OverallocatedBatchedSparseArray K α)
    (batch : List α) (n t : ℕ) : ℕ :=
  if t = 0 then findFirstBatchElement p batch 0 (s.head (s.splitterBlock p batch n 0))
  else s.splitterFirst p batch n t

/-- The first thread may count one element too few. -/
lemma Insertable.countedFirst_le (h : s.Insertable p batch n) (hp : Usable p)
    (hg : IsGroup (s.splitterBlock p batch n) n a e) : s.countedFirst p batch n e ≤
      (if a < e then s.mergeEnd p batch n a e else s.splitterFirst p batch n a) + 1 := by
  have hT := h.threads_pos
  have hlen := h.threads_le
  have hale := hg.le
  rw [countedFirst]
  by_cases h0 : e = 0
  · rw [if_pos h0, findFirstBatchElement_eq_min h.increasing.nonDecreasing (by omega),
      if_neg (by omega)]
    omega
  · rw [if_neg h0]
    by_cases hae : a < e
    · rw [if_pos hae]
      exact Nat.le_succ_of_le (h.splitterFirst_le_mergeEnd hp.less hg (by omega))
    · rw [if_neg hae, show a = e by omega]
      exact Nat.le_succ _

/-- Step 1 counts something for the last thread of a group. -/
lemma Insertable.counted_pos (h : s.Insertable p batch n)
    (hg : IsGroup (s.splitterBlock p batch n) n a e) :
    0 < (elements (rangeBlocks s.pma (s.splitterBlock p batch n e)
        (s.splitterBlock p batch n (e + 1)))).length +
      (s.splitterFirst p batch n (e + 1) - s.countedFirst p batch n e) := by
  have hT := h.threads_pos
  have hlen := h.threads_le
  by_cases hne : ∃ c, s.empty p c = false
  · have hlt := h.splitterBlock_lt hne hg
    have hsame : s.splitterBlock p batch n e = s.splitterBlock p batch n a :=
      hg.same e hg.le (le_refl _)
    have hblock := h.splitterBlock_nonempty hne (lt_of_le_of_lt hg.le hg.lt)
    obtain ⟨x, hx, -⟩ := ((h.valid.cellsIn _ (s.splitterBlock p batch n (e + 1))).valid
      (le_refl _) hlt hblock).head_mem
    rw [hsame]
    exact Nat.add_pos_left (List.length_pos_of_mem (mem_elements.mpr ⟨_, mem_rangeBlocks.mpr
      ⟨_, le_refl _, hlt, hblock, rfl⟩, hx⟩)) _
  · push Not at hne
    obtain ⟨hsame, hgroup⟩ := h.of_empty fun c => Bool.eq_true_of_not_eq_false (hne c)
    obtain ⟨-, hn, -⟩ := hgroup hg
    have hhead : s.head s.size = p.nullKey := by
      rw [head, h.valid.outside _ (le_refl _)]
      rfl
    have hzero : s.countedFirst p batch n e = 0 := by
      rw [countedFirst]
      split
      · rw [hsame, hhead, findFirstBatchElement_eq_min h.increasing.nonDecreasing (by omega),
          h.countBelow_null]
        exact Nat.zero_min _
      · rename_i h0
        have hd : 0 < batch.length / n := Nat.div_pos hlen hT
        rw [splitterFirst, BatchedSparseArray.splitterFirst, if_neg h0,
          if_pos (show e < (s.asBatched p n).numberOfThreads from hg.lt)]
        have hhead' : ((s.asBatched p n).view (batchedParams p)).head
            ((s.asBatched p n).splitterBlock (batchedParams p) batch e) = p.nullKey := by
          rw [h.valid.view_asBatched]
          change s.head (s.splitterBlock p batch n e) = _
          rw [hsame, hhead]
        rw [hhead']
        change BatchPMA.findFirstBatchElement p.toBlockParams batch (e * (batch.length / n))
          p.nullKey = 0
        rw [BatchPMA.findFirstBatchElement_eq h.increasing (Nat.mul_pos (by omega) hd)
          (h.splitter_lt hg.lt), h.countBelow_null]
        exact Nat.zero_min _
    rw [hn, h.splitterFirst_last, hzero]
    omega

/-- **Blocks fit into the width** that step 1 asks for. -/
lemma InsertionRow.length_le {old new : List α} {blocks : List (PmaEntry K α)} {m k : ℕ}
    (hrow : InsertionRow p s batch n old new blocks) (hp : Usable p)
    (htotal : old.length + new.length ≤ m + k + 1) (hpos : 0 < m + k) :
    blocks.length ≤ maxRedistributionWidth p m k := by
  have hmin : 0 < p.minBlockSize := Nat.div_pos hp.two_le (by omega)
  have hwidth := @maxRedistributionWidth_pos _ _ p m k hpos
  rcases hrow.sized with hall | ⟨hone, -⟩
  · have hcount := List.card_nsmul_le_sum (blocks.map fun b => b.live.length) p.minBlockSize
      fun x hx => by
        obtain ⟨b, hb, rfl⟩ := List.mem_map.mp hx
        rw [(hrow.valid b hb).length_live]
        exact hall b hb
    rw [← List.length_flatMap, List.length_map, smul_eq_mul] at hcount
    have hle : blocks.length * p.minBlockSize ≤ m + k + p.minBlockSize := by
      refine le_trans hcount (le_trans hrow.union.length_le ?_)
      omega
    rw [maxRedistributionWidth, if_neg (by omega), ← Nat.add_div_right _ hmin]
    exact (Nat.le_div_iff_mul_le hmin).mpr hle
  · omega

lemma Insertable.splitterFirst_le (h : s.Insertable p batch n)
    (hg : IsGroup (s.splitterBlock p batch n) n a e) :
    s.splitterFirst p batch n (e + 1) ≤ batch.length := by
  by_cases hne : ∃ c, s.empty p c = false
  · exact (h.cutsAt_next hne hg).le
  · push Not at hne
    rw [((h.of_empty fun c => Bool.eq_true_of_not_eq_false (hne c)).2 hg).2.1]
    exact h.splitterFirst_last.le

/-- The row of the last task of a group has the width that its task asks for. -/
lemma Insertable.insertionRow_length_le (h : s.Insertable p batch n) (hp : Usable p)
    (hexact : s.AggregatesExact) (hg : IsGroup (s.splitterBlock p batch n) n a e)
    {left first : ℕ} {blocks : List (PmaEntry K α)}
    (hleft : left = if a < e then s.normalBlock p batch n e else s.splitterBlock p batch n a)
    (hfirst : first = if a < e then s.mergeEnd p batch n a e else s.splitterFirst p batch n a)
    (hrow : InsertionRow p s batch n
      (elements (rangeBlocks s.pma left (s.splitterBlock p batch n (e + 1))))
      (batchPart batch ⟨first, s.splitterFirst p batch n (e + 1)⟩) blocks) :
    blocks.length ≤ s.splitterWidth p batch n e := by
  have hcounted := h.countedFirst_le hp hg
  have hpos := h.counted_pos hg
  rw [← hfirst] at hcounted
  rw [h.splitterWidth_eq hexact hg.lt]
  have hsame : s.splitterBlock p batch n e = s.splitterBlock p batch n a :=
    hg.same e hg.le (le_refl _)
  refine hrow.length_le hp ?_ hpos
  have hold : (elements (rangeBlocks s.pma left (s.splitterBlock p batch n (e + 1)))).length ≤
      (elements (rangeBlocks s.pma (s.splitterBlock p batch n e)
        (s.splitterBlock p batch n (e + 1)))).length := by
    by_cases hne : ∃ c, s.empty p c = false
    · have hle : s.splitterBlock p batch n e ≤ left := by
        rw [hsame, hleft]
        split
        · exact (h.normalBlock_spec hne hg).1.le
        · exact le_refl _
      rcases Nat.le_total left (s.splitterBlock p batch n (e + 1)) with hlr | hrl
      · rw [rangeBlocks_append hle hlr, elements_append, List.length_append]
        exact Nat.le_add_left _ _
      · rw [rangeBlocks, itemsIn, Nat.sub_eq_zero_of_le hrl]
        exact Nat.zero_le _
    · push Not at hne
      rw [h.valid.rangeBlocks_of_empty fun c => Bool.eq_true_of_not_eq_false (hne c)]
      exact Nat.zero_le _
  rw [length_batchPart (h.splitterFirst_le hg)]
  have : s.countedFirst p batch n e ≤ first + 1 := hcounted
  change _ ≤ _ + (_ - s.countedFirst p batch n e) + 1
  omega

end OverallocatedBatchedSparseArray

end BatchPMA
