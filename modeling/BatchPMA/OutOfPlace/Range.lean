import BatchPMA.InPlace.Fits
import BatchPMA.Block.Copies

/-!
# A task that rewrites a range

The insertion tasks of path B take the blocks of a range one after the other, merge batch elements
into them and write the results to the swap array.  The cells that a task has passed are empty; the
written blocks hold the union of what was in those cells and the batch elements used so far.
-/

namespace BatchPMA

open KeyedUnion Ranges

variable {K α : Type}

/-! ## Writing and clearing cells -/

/-- The cells of a range are emptied. -/
def cleared (p : BlockParams K α) (pma : ℕ → PmaEntry K α) (left right : ℕ) : ℕ → PmaEntry K α :=
  fun c => if left ≤ c ∧ c < right then PmaEntry.null p else pma c

/-- Blocks are written to consecutive cells. -/
def placed (swap : ℕ → PmaEntry K α) (start : ℕ) (blocks : List (PmaEntry K α)) :
    ℕ → PmaEntry K α :=
  fun c => if start ≤ c then (blocks[c - start]?).getD (swap c) else swap c

section

variable {p : BlockParams K α} {pma swap : ℕ → PmaEntry K α} {a b c start : ℕ}
  {blocks blocks' : List (PmaEntry K α)} {block : PmaEntry K α}

lemma cleared_self (p : BlockParams K α) (pma : ℕ → PmaEntry K α) (h : b ≤ a) :
    cleared p pma a b = pma := by
  funext c
  rw [cleared, if_neg (by omega)]

lemma cleared_of_not_mem (h : c < a ∨ b ≤ c) : cleared p pma a b c = pma c := by
  rw [cleared, if_neg (by omega)]

/-- The range grows by a cell, and by cells that are empty already. -/
lemma update_cleared (h1 : a ≤ b) (h2 : b < c)
    (hempty : ∀ j, b < j → j < c → pma j = PmaEntry.null p) :
    Function.update (cleared p pma a b) b (PmaEntry.null p) = cleared p pma a c := by
  funext j
  rw [Function.update_apply, cleared, cleared]
  rcases lt_trichotomy j b with hlt | rfl | hgt
  · rw [if_neg (by omega)]
    by_cases haj : a ≤ j
    · rw [if_pos ⟨haj, hlt⟩, if_pos ⟨haj, by omega⟩]
    · rw [if_neg (by omega), if_neg (by omega)]
  · rw [if_pos rfl, if_pos ⟨h1, h2⟩]
  · rw [if_neg (by omega), if_neg (by omega)]
    split
    · exact hempty j hgt (by omega)
    · rfl

lemma rangeBlocks_self (pma : ℕ → PmaEntry K α) (a : ℕ) : rangeBlocks pma a a = [] := by
  simp [rangeBlocks, itemsIn]

lemma placed_nil (swap : ℕ → PmaEntry K α) (start : ℕ) : placed swap start [] = swap := by
  funext c
  simp [placed]

lemma placed_concat (swap : ℕ → PmaEntry K α) (start : ℕ) (blocks : List (PmaEntry K α))
    (block : PmaEntry K α) : placed swap start (blocks ++ [block]) =
      Function.update (placed swap start blocks) (start + blocks.length) block := by
  funext c
  rw [Function.update_apply, placed, placed]
  by_cases hle : start ≤ c
  · rw [if_pos hle, if_pos hle]
    rcases lt_trichotomy (c - start) blocks.length with hlt | heq | hgt
    · rw [if_neg (by omega), List.getElem?_append_left hlt]
    · rw [if_pos (by omega), heq, List.getElem?_concat_length]
      rfl
    · rw [if_neg (by omega), List.getElem?_eq_none (by simp; omega),
        List.getElem?_eq_none (by omega)]
  · rw [if_neg hle, if_neg hle, if_neg (by omega)]

lemma placed_of_not_mem (h : c < start ∨ start + blocks.length ≤ c) :
    placed swap start blocks c = swap c := by
  rw [placed]
  split
  · rw [List.getElem?_eq_none (by omega)]
    rfl
  · rfl

end

namespace OverallocatedBatchedSparseArray

variable {p : OverallocatedParams K α} {s : OverallocatedBatchedSparseArray K α}

/-- `writeBlocks` is one write. -/
lemma writeBlocks_eq (start : ℕ) : ∀ (blocks written : List (PmaEntry K α)),
    writeBlocks start ({ s with swapPma := placed s.swapPma start written }, written.length) blocks =
      ({ s with swapPma := placed s.swapPma start (written ++ blocks) },
        (written ++ blocks).length) := by
  intro blocks
  induction blocks with
  | nil =>
      intro written
      rw [List.append_nil]
      rfl
  | cons block blocks ih =>
      intro written
      have hsplit : written ++ block :: blocks = (written ++ [block]) ++ blocks := by simp
      have hone : (writeBlock { s with swapPma := placed s.swapPma start written } block start
          written.length, written.length + 1) =
            (({ s with swapPma := placed s.swapPma start (written ++ [block]) } :
              OverallocatedBatchedSparseArray K α), (written ++ [block]).length) := by
        rw [writeBlock, getDenseWriteIndex, placed_concat, List.length_append,
          List.length_singleton]
      rw [hsplit, ← ih (written ++ [block]), ← hone]
      rfl

/-! ## What a task is given, and what it writes -/

variable [LinearOrder K] {s₀ : OverallocatedBatchedSparseArray K α} {batch : List α}
  {batchRange pmaRange : Interval} {batchIndex c : ℕ} {old old' new new' : List α}
  {blocks blocks' : List (PmaEntry K α)}

/-- A range of the pma that begins with a block, and batch elements that go into its blocks. -/
structure RangeInput (p : OverallocatedParams K α) (s₀ : OverallocatedBatchedSparseArray K α)
    (batch : List α) (batchRange pmaRange : Interval) : Prop where
  even : 2 ∣ p.blockSize
  two_le : 2 ≤ p.blockSize
  signed : p.blockSize ≤ 2 ^ 15
  zero_null : p.keyOf p.zero = p.nullKey
  valid : s₀.Valid p
  left_lt : pmaRange.left < pmaRange.right
  right_le : pmaRange.right ≤ s₀.size
  first : (s₀.pma pmaRange.left).isEmpty = false
  batch_le : batchRange.left ≤ batchRange.right
  batch_le' : batchRange.right ≤ batch.length
  increasing : Increasing p.toBlockParams batch
  key_ne_null : ∀ x ∈ batch, p.keyOf x ≠ p.nullKey
  below : ∀ i, batchRange.left ≤ i → i < batchRange.right → ∀ k, s₀.AboveCell pmaRange.right k →
    batchKey p.toBlockParams batch i < k

lemma RangeInput.ordered (hin : RangeInput p s₀ batch batchRange pmaRange) :
    Ordered p.keyOf (elements (rangeBlocks s₀.pma pmaRange.left pmaRange.right)) := by
  have hord := hin.valid.ordered
  rw [blocks_eq hin.left_lt.le hin.right_le, elements_append, elements_append] at hord
  exact Ordered.left (Ordered.right hord)

/-- Blocks that hold the union of old and new elements, and nothing in their dead cells that was
not in the array or the batch. -/
structure Row (p : OverallocatedParams K α) (s₀ : OverallocatedBatchedSparseArray K α)
    (batch old new : List α) (blocks : List (PmaEntry K α)) : Prop where
  valid : ∀ b ∈ blocks, b.Valid p.toBlockParams
  union : IsUnion p.keyOf old new (elements blocks)
  holds : ∀ P : α → Prop, P p.zero → (∀ c, (s₀.pma c).Holds P) → (∀ x ∈ batch, P x) →
    ∀ b ∈ blocks, b.Holds P

/-- If all blocks of the array are large enough, so are these. -/
structure Output (p : OverallocatedParams K α) (s₀ : OverallocatedBatchedSparseArray K α)
    (batch old new : List α) (blocks : List (PmaEntry K α)) : Prop
    extends Row p s₀ batch old new blocks where
  large : (∀ b ∈ s₀.blocks, p.minBlockSize ≤ b.size) → ∀ b ∈ blocks, p.minBlockSize ≤ b.size

lemma Row.append (h : Row p s₀ batch old new blocks) (h' : Row p s₀ batch old' new' blocks')
    (hlt : ∀ x ∈ old ++ new, ∀ y ∈ old' ++ new', p.keyOf x < p.keyOf y) :
    Row p s₀ batch (old ++ old') (new ++ new') (blocks ++ blocks') where
  valid := fun b hb => (List.mem_append.mp hb).elim (h.valid b) (h'.valid b)
  union := by
    rw [elements_append]
    exact IsUnion.append h.union h'.union hlt
  holds := fun P h1 h2 h3 b hb =>
    (List.mem_append.mp hb).elim (h.holds P h1 h2 h3 b) (h'.holds P h1 h2 h3 b)

lemma row_nil : Row p s₀ batch [] [] [] where
  valid := fun _ hb => absurd hb List.not_mem_nil
  union := IsUnion.nil_new List.Pairwise.nil
  holds := fun _ _ _ _ _ hb => absurd hb List.not_mem_nil

lemma Output.append (h : Output p s₀ batch old new blocks)
    (h' : Output p s₀ batch old' new' blocks')
    (hlt : ∀ x ∈ old ++ new, ∀ y ∈ old' ++ new', p.keyOf x < p.keyOf y) :
    Output p s₀ batch (old ++ old') (new ++ new') (blocks ++ blocks') where
  toRow := h.toRow.append h'.toRow hlt
  large := fun hall b hb => (List.mem_append.mp hb).elim (h.large hall b) (h'.large hall b)

/-- A block that is written as it is. -/
lemma output_block (batch : List α) (hvalid : s₀.Valid p) (hc : (s₀.pma c).isEmpty = false) :
    Output p s₀ batch (s₀.pma c).live [] [s₀.pma c] where
  valid := by
    intro b hb
    rw [List.mem_singleton.mp hb]
    exact (hvalid.cellsIn c (c + 1)).valid (le_refl c) (Nat.lt_succ_self c) hc
  union := by
    rw [elements_cons, elements_nil, List.append_nil]
    exact IsUnion.nil_new
      ((hvalid.cellsIn c (c + 1)).valid (le_refl c) (Nat.lt_succ_self c) hc).increasing
  large := by
    intro hall b hb
    rw [List.mem_singleton.mp hb]
    exact hall _ (mem_rangeBlocks.mpr ⟨c, Nat.zero_le c, hvalid.lt_size hc, hc, rfl⟩)
  holds := by
    intro P _ hold _ b hb
    rw [List.mem_singleton.mp hb]
    exact hold c

/-- The blocks of a range as they are. -/
lemma output_range (batch : List α) (hvalid : s₀.Valid p) {left right : ℕ} (hle : left ≤ right)
    (hright : right ≤ s₀.size) :
    Output p s₀ batch (elements (rangeBlocks s₀.pma left right)) []
      (rangeBlocks s₀.pma left right) where
  valid := fun b hb => (hvalid.cellsIn left right).valid_of_mem hb
  union := by
    have hord := hvalid.ordered
    rw [blocks_eq hle hright, elements_append, elements_append] at hord
    exact IsUnion.nil_new (Ordered.left (Ordered.right hord))
  large := by
    intro hall b hb
    refine hall b ?_
    rw [blocks_eq hle hright]
    exact List.mem_append_right _ (List.mem_append_left _ hb)
  holds := by
    intro P _ hold _ b hb
    obtain ⟨c, -, -, -, rfl⟩ := mem_rangeBlocks.mp hb
    exact hold c

/-! ## One block -/

omit [LinearOrder K] in
/-- Later blocks have larger keys than a block has in its dead cells, unless those are among its own
or earlier ones. -/
lemma mem_blocks_split (hc : c < s.size) (hne : (s.pma c).isEmpty = false) :
    s.blocks = rangeBlocks s.pma 0 c ++ (s.pma c :: rangeBlocks s.pma (c + 1) s.size) := by
  rw [blocks, rangeBlocks_append (Nat.zero_le c) hc.le, rangeBlocks_append (Nat.le_succ c) hc,
    rangeBlocks_succ, cellBlock_of_not_isEmpty hne]
  rfl

lemma Valid.blockInput (hvalid : s₀.Valid p) (heven : 2 ∣ p.blockSize) (htwo : 2 ≤ p.blockSize)
    (hsigned : p.blockSize ≤ 2 ^ 15) (hzero : p.keyOf p.zero = p.nullKey)
    (hne : (s₀.pma c).isEmpty = false) {es : List α} (hes : es ≠ [])
    (hinc : Increasing p.toBlockParams es) (hnull : ∀ x ∈ es, p.keyOf x ≠ p.nullKey)
    (hbelow : ∀ x ∈ es, ∀ k, s₀.AboveCell (c + 1) k → p.keyOf x < k) :
    BlockInput p (s₀.pma c) (s₀.AboveCell (c + 1)) es := by
  have hlt := hvalid.lt_size hne
  have hstale := hvalid.stale
  rw [mem_blocks_split hlt hne, staleOk_append] at hstale
  refine ⟨⟨heven, htwo, hzero, (hvalid.cellsIn c (c + 1)).valid (le_refl c) (Nat.lt_succ_self c) hne,
    fun x hx => ?_, hinc, hnull, hbelow⟩, hsigned, hes⟩
  rcases hstale.2.1 x hx with h1 | h1 | h1 | h1
  · exact Or.inl h1
  · exact h1.elim
  · exact Or.inr (Or.inl h1)
  · exact Or.inr (Or.inr h1)

/-- The state when the cells in front of `c` have been rewritten to `blocks`. -/
def rewritten (p : OverallocatedParams K α) (s : OverallocatedBatchedSparseArray K α)
    (left c start : ℕ) (blocks : List (PmaEntry K α)) (sizeManager : BlockSizeManager) :
    OverallocatedBatchedSparseArray K α :=
  { s with
    pma := cleared p.toBlockParams s.pma left c
    swapPma := placed s.swapPma start blocks
    sizeManager := sizeManager }

omit [LinearOrder K] in
lemma writePmaBlock_rewritten {left start next : ℕ} {sizeManager : BlockSizeManager}
    (hle : left ≤ c) (hlt : c < next)
    (hempty : ∀ j, c < j → j < next → s.pma j = PmaEntry.null p.toBlockParams) :
    (rewritten p s left c start blocks sizeManager).writePmaBlock p c start blocks.length =
      rewritten p s left next start (blocks ++ [s.pma c]) sizeManager := by
  have hcell : cleared p.toBlockParams s.pma left c c = s.pma c :=
    cleared_of_not_mem (Or.inr (le_refl c))
  simp only [writePmaBlock, writeBlock, getDenseWriteIndex, rewritten, placed_concat, hcell,
    update_cleared hle hlt hempty]

/-- **`insertElementsIntoBlock`** with the swap array as target. -/
lemma writeElementsIntoBlock_rewritten {left next : ℕ} {es : List α} (start : ℕ)
    (blocks : List (PmaEntry K α)) (sizeManager : BlockSizeManager) (hcell : s.pma c = s₀.pma c)
    (hin : BlockInput p (s₀.pma c) (s₀.AboveCell (c + 1)) es) (hsub : ∀ x ∈ es, x ∈ batch)
    (hc : (s₀.pma c).isEmpty = false) (hvalid : s₀.Valid p) (hle : left ≤ c) (hlt : c < next)
    (hempty : ∀ j, c < j → j < next → s.pma j = PmaEntry.null p.toBlockParams) :
    ∃ parts sizeManager', (rewritten p s left c start blocks sizeManager).writeElementsIntoBlock p c
        es start blocks.length =
          (rewritten p s left next start (blocks ++ parts) sizeManager',
            (blocks ++ parts).length) ∧
      Output p s₀ batch (s₀.pma c).live es parts ∧
      ((∀ b ∈ parts, p.minBlockSize ≤ b.size) ∨ parts.length = 1) := by
  have hself : cleared p.toBlockParams s.pma left c c = s₀.pma c :=
    (cleared_of_not_mem (Or.inr (le_refl c))).trans hcell
  have hmem : s₀.pma c ∈ s₀.blocks :=
    mem_rangeBlocks.mpr ⟨c, Nat.zero_le c, hvalid.lt_size hc, hc, rfl⟩
  have hout : ∀ {parts : List (PmaEntry K α)},
      Replaces p (s₀.pma c) (s₀.AboveCell (c + 1)) es parts →
      (∀ P : α → Prop, P p.zero → (s₀.pma c).Holds P → (∀ x ∈ es, P x) → ∀ b ∈ parts, b.Holds P) →
      Output p s₀ batch (s₀.pma c).live es parts ∧
        ((∀ b ∈ parts, p.minBlockSize ≤ b.size) ∨ parts.length = 1) := by
    intro parts hrep hholds
    refine ⟨⟨⟨hrep.valid, hrep.union, fun P h1 h2 h3 => hholds P h1 (h2 c) fun x hx =>
      h3 x (hsub x hx)⟩, fun hall => ?_⟩, ?_⟩
    · rcases hrep.large with hl | ⟨b, rfl, hb⟩
      · exact hl
      · intro b' hb'
        rw [List.mem_singleton.mp hb']
        exact le_trans (hall _ hmem) hb
    · rcases hrep.large with hl | ⟨b, rfl, -⟩
      · exact Or.inl hl
      · exact Or.inr rfl
  rw [writeElementsIntoBlock]
  split
  · rename_i hfit
    rw [blockSize, rewritten] at hfit
    simp only at hfit
    rw [hself] at hfit
    refine ⟨[mergeElements p (s₀.pma c) es], ((rewritten p s left c start blocks
      sizeManager).insertIntoBlockWithoutSplit p c es).sizeManager, ?_, hout (hin.merge hfit) ?_⟩
    swap
    · intro P h1 h2 h3 b hb
      rw [List.mem_singleton.mp hb, mergeElements]
      split
      · exact h2.mergeFaster h1 h3
      · exact h2.merge h1 h3
    · rw [List.length_append, List.length_singleton]
      congr 1
      simp only [insertIntoBlockWithoutSplit, writePmaBlock, writeBlock, getDenseWriteIndex,
        rewritten, placed_concat, hself, Function.update_idem, Function.update_self,
        update_cleared hle hlt hempty]
  · rename_i hfit
    rw [blockSize, rewritten] at hfit
    simp only at hfit
    rw [hself] at hfit
    refine ⟨splitBlocks p.toBlockParams (s₀.pma c) es,
      sizeManager.adjustBlockSize c (s₀.pma c).size 0, ?_, hout (hin.parts (not_le.mp hfit))
      fun P h1 h2 h3 => holds_splitBlocks h1 h2 h3⟩
    simp only [rewritten]
    rw [hself, update_cleared hle hlt hempty]
    exact writeBlocks_eq (s := { s with
      pma := cleared p.toBlockParams s.pma left next
      sizeManager := sizeManager.adjustBlockSize c (s₀.pma c).size 0 }) start _ blocks

/-! ## The loop -/

/-- What holds when the cells in front of `c` have been rewritten. -/
structure Rewriting (p : OverallocatedParams K α) (s₀ s : OverallocatedBatchedSparseArray K α)
    (batch : List α) (batchRange pmaRange : Interval) (start batchIndex c : ℕ)
    (blocks : List (PmaEntry K α)) (acc : OverallocatedBatchedSparseArray K α × ℕ) : Prop where
  state : ∃ sizeManager,
    acc = (rewritten p s pmaRange.left c start blocks sizeManager, blocks.length)
  le_index : batchRange.left ≤ batchIndex
  index_le : batchIndex ≤ batchRange.right
  le_block : pmaRange.left ≤ c
  block_le : c ≤ pmaRange.right
  nonempty : c < pmaRange.right → (s₀.pma c).isEmpty = false
  begins : c = pmaRange.left → blocks = [] ∧ batchIndex = batchRange.left
  head_le : pmaRange.left < c → c < pmaRange.right → batchIndex < batchRange.right →
    (s₀.pma c).head ≤ batchKey p.toBlockParams batch batchIndex
  passed : ∀ i, batchRange.left ≤ i → i < batchIndex → ∀ j, c ≤ j → j < pmaRange.right →
    (s₀.pma j).isEmpty = false → batchKey p.toBlockParams batch i < (s₀.pma j).head
  done : c = pmaRange.right → batchIndex = batchRange.right
  output : Output p s₀ batch (elements (rangeBlocks s₀.pma pmaRange.left c))
    (batchPart batch ⟨batchRange.left, batchIndex⟩) blocks
  single : s₀.blocks.length = 1 → c = pmaRange.left ∨
    (∀ b ∈ blocks, p.minBlockSize ≤ b.size) ∨ blocks.length = 1

/-- The state a task starts with, where other tasks may have been at work. -/
structure Agrees (p : OverallocatedParams K α) (s₀ s : OverallocatedBatchedSparseArray K α)
    (pmaRange : Interval) : Prop where
  cell_eq : ∀ c, pmaRange.left ≤ c → c < pmaRange.right → s.pma c = s₀.pma c
  next_eq : s.pma pmaRange.right = PmaEntry.null p.toBlockParams ∨
    s.pma pmaRange.right = s₀.pma pmaRange.right

variable {start next : ℕ} {acc : OverallocatedBatchedSparseArray K α × ℕ}

/-- The next block is the one of the original array. -/
lemma Agrees.findNext_eq (h : Agrees p s₀ s pmaRange) {c' : ℕ} {sizeManager : BlockSizeManager}
    (hc' : c' ≤ c + 1) (hle : pmaRange.left ≤ c) :
    ((rewritten p s pmaRange.left c' start blocks sizeManager).view p).findNext c pmaRange.right =
      (s₀.view p).findNext c pmaRange.right := by
  refine Scan.scanUp_congr fun i h1 h2 => ?_
  have hcell : cleared p.toBlockParams s.pma pmaRange.left c' i = s₀.pma i :=
    (cleared_of_not_mem (Or.inr (by omega))).trans (h.cell_eq i (by omega) (by omega))
  change decide ((cleared p.toBlockParams s.pma pmaRange.left c' i).head = p.nullKey) =
    decide ((s₀.pma i).head = p.nullKey)
  rw [hcell]

/-- The next block of a range. -/
lemma Valid.findNext_spec (hvalid : s₀.Valid p) {right : ℕ} (hc : c < right) :
    c < (s₀.view p).findNext c right ∧ (s₀.view p).findNext c right ≤ right ∧
      (∀ j, c < j → j < (s₀.view p).findNext c right → s₀.pma j = PmaEntry.null p.toBlockParams) ∧
      ((s₀.view p).findNext c right < right →
        (s₀.pma ((s₀.view p).findNext c right)).isEmpty = false) := by
  have hempty : ∀ j, (s₀.view p).empty j = (s₀.pma j).isEmpty := fun j => hvalid.empty_eq j
  refine ⟨(s₀.view p).le_skipEmpty _ _, (s₀.view p).skipEmpty_le hc, fun j h1 h2 => ?_,
    fun hlt => ?_⟩
  · have hskipped := ArrayView.skipEmpty_skipped (v := s₀.view p) right (Nat.succ_le_of_lt h1) h2
    rw [hempty] at hskipped
    refine (hvalid.cell j).resolve_right fun hv => ?_
    rw [hv.isEmpty_eq] at hskipped
    exact absurd hskipped (by simp)
  · rw [← hempty]
    exact ArrayView.skipEmpty_stop hlt

lemma RangeInput.ready (hin : RangeInput p s₀ batch batchRange pmaRange)
    (hag : Agrees p s₀ s pmaRange) {i : ℕ} (h1 : batchRange.left ≤ i) (h2 : i < batchRange.right) :
    batchKey p.toBlockParams batch i < s.head pmaRange.right ∨ s.empty p pmaRange.right = true := by
  rcases hag.next_eq with hnull | heq
  · right
    rw [empty, hnull]
    exact decide_eq_true rfl
  · cases hne : (s₀.pma pmaRange.right).isEmpty with
    | true =>
        right
        rw [empty, heq]
        rw [← hin.valid.empty_eq pmaRange.right, empty] at hne
        exact hne
    | false =>
        left
        rw [head, heq]
        exact hin.below i h1 h2 _ ⟨_, mem_rangeBlocks.mpr
          ⟨_, le_refl _, hin.valid.lt_size hne, hne, rfl⟩, le_refl _⟩

/-- With two blocks the array does not consist of one block. -/
lemma Valid.blocks_ne_one (hvalid : s₀.Valid p) {i j : ℕ} (hij : i < j)
    (hi : (s₀.pma i).isEmpty = false) (hj : (s₀.pma j).isEmpty = false) :
    s₀.blocks.length ≠ 1 := by
  have h1 := hvalid.lt_size hi
  have h2 := hvalid.lt_size hj
  have hpos : 0 < (rangeBlocks s₀.pma (i + 1) s₀.size).length :=
    List.length_pos_of_mem (mem_rangeBlocks.mpr ⟨j, hij, h2, hj, rfl⟩)
  rw [mem_blocks_split h1 hi, List.length_append, List.length_cons]
  omega

/-- The union with the next block. -/
lemma Rewriting.output_step (hin : RangeInput p s₀ batch batchRange pmaRange)
    (h : Rewriting p s₀ s batch batchRange pmaRange start batchIndex c blocks acc)
    (hlt : c < pmaRange.right) (hnext : next = (s₀.view p).findNext c pmaRange.right)
    {last : ℕ} {parts : List (PmaEntry K α)} (hle : batchIndex ≤ last)
    (hlast : last ≤ batchRange.right)
    (hout : Output p s₀ batch (s₀.pma c).live (batchPart batch ⟨batchIndex, last⟩) parts) :
    Output p s₀ batch (elements (rangeBlocks s₀.pma pmaRange.left next))
      (batchPart batch ⟨batchRange.left, last⟩) (blocks ++ parts) := by
  obtain ⟨h1, h2, h3, -⟩ := hin.valid.findNext_spec hlt
  rw [← hnext] at h1 h2 h3
  have hne := h.nonempty hlt
  have hcells := hin.valid.cellsIn pmaRange.left pmaRange.right
  have hord := hin.ordered
  have hlen := hin.batch_le'
  have hrange : rangeBlocks s₀.pma pmaRange.left next =
      rangeBlocks s₀.pma pmaRange.left c ++ [s₀.pma c] := by
    rw [rangeBlocks_append h.le_block h1.le, rangeBlocks_append (Nat.le_succ c) h1, rangeBlocks_succ,
      cellBlock_of_not_isEmpty hne]
    have hnil : rangeBlocks s₀.pma (c + 1) next = [] := by
      rw [List.eq_nil_iff_forall_not_mem]
      intro b hb
      obtain ⟨j, g1, g2, g3, -⟩ := mem_rangeBlocks.mp hb
      rw [h3 j (by omega) g2] at g3
      exact absurd g3 (by simp)
    rw [hnil, List.append_nil]
  rw [hrange, elements_append, elements_cons, elements_nil, List.append_nil,
    ← batchPart_append h.le_index hle]
  refine h.output.append hout fun x hx y hy => ?_
  have hheadIn : ∀ z ∈ (s₀.pma c).live, (s₀.pma c).head ≤ p.keyOf z := fun z hz =>
    (hcells.valid h.le_block hlt hne).head_le hz
  rcases List.mem_append.mp hx with hx | hx
  · obtain ⟨b, hb, hx⟩ := mem_elements.mp hx
    obtain ⟨j, g1, g2, g3, rfl⟩ := mem_rangeBlocks.mp hb
    have hhead := hcells.lt_head hord g1 g2 hlt g3 hne x hx
    rcases List.mem_append.mp hy with hy | hy
    · exact lt_of_lt_of_le hhead (hheadIn y hy)
    · obtain ⟨i, k1, k2, hi⟩ := mem_batchPart.mp hy
      rw [← batchKey_of_getElem? hi]
      exact lt_of_lt_of_le hhead (le_trans (h.head_le (by omega) hlt (by omega))
        (batchKey_le hin.increasing k1 (by omega)))
  · obtain ⟨i, k1, k2, hi⟩ := mem_batchPart.mp hx
    rw [← batchKey_of_getElem? hi]
    rcases List.mem_append.mp hy with hy | hy
    · exact lt_of_lt_of_le (h.passed i k1 k2 c (le_refl c) hlt hne) (hheadIn y hy)
    · obtain ⟨i', g1, g2, hi'⟩ := mem_batchPart.mp hy
      rw [← batchKey_of_getElem? hi']
      exact batchKey_lt hin.increasing (lt_of_lt_of_le k2 g1) (by omega)

/-- Where a batch element goes into the block, the search for the end of its elements starts in
front of the next block. -/
lemma Rewriting.nextBlock (hin : RangeInput p s₀ batch batchRange pmaRange)
    (h : Rewriting p s₀ s batch batchRange pmaRange start batchIndex c blocks acc)
    (hlt : c < pmaRange.right) (hnext : next = (s₀.view p).findNext c pmaRange.right)
    (hidx : batchIndex < batchRange.right)
    (hkey : next < pmaRange.right →
      batchKey p.toBlockParams batch batchIndex < (s₀.pma next).head) :
    s₀.NextBlock p pmaRange (batchKey p.toBlockParams batch batchIndex) c := by
  obtain ⟨h1, h2, h3, h4⟩ := hin.valid.findNext_spec hlt
  rw [← hnext] at h1 h2 h3 h4
  have hne := h.nonempty hlt
  have hcells := hin.valid.cellsIn pmaRange.left pmaRange.right
  have hord := hin.ordered
  refine ⟨h.le_block, hlt, hne, fun x hx => ?_, fun j k1 k2 k3 => ?_⟩
  · obtain ⟨b, hb, hx⟩ := mem_elements.mp hx
    obtain ⟨j, g1, g2, g3, rfl⟩ := mem_rangeBlocks.mp hb
    exact lt_of_lt_of_le (hcells.lt_head hord g1 g2 hlt g3 hne x hx)
      (h.head_le (by omega) hlt hidx)
  · rcases lt_trichotomy j next with hjn | rfl | hjn
    · rw [h3 j k1 hjn] at k3
      exact absurd k3 (by simp)
    · exact hkey k2
    · have hnr : next < pmaRange.right := hjn.trans k2
      obtain ⟨x, hx, hk⟩ := (hin.valid.cellsIn 0 s₀.size).valid (Nat.zero_le _)
        (hin.valid.lt_size (h4 hnr)) (h4 hnr) |>.head_mem
      refine (hkey hnr).trans ?_
      rw [← hk]
      exact hcells.lt_head hord (by have := h.le_block; omega) hjn k2 (h4 hnr) k3 x hx

/-- When the blocks for a cell are written, the next cell takes its place. -/
lemma Rewriting.advance (hin : RangeInput p s₀ batch batchRange pmaRange)
    (h : Rewriting p s₀ s batch batchRange pmaRange start batchIndex c blocks acc)
    (hlt : c < pmaRange.right) (hnext : next = (s₀.view p).findNext c pmaRange.right)
    {last : ℕ} {parts : List (PmaEntry K α)} {sizeManager : BlockSizeManager}
    (hle : batchIndex ≤ last) (hlast : last ≤ batchRange.right)
    (hout : Output p s₀ batch (s₀.pma c).live (batchPart batch ⟨batchIndex, last⟩) parts)
    (hsize : (∀ b ∈ parts, p.minBlockSize ≤ b.size) ∨ parts.length = 1)
    (hhead : next < pmaRange.right → last < batchRange.right →
      (s₀.pma next).head ≤ batchKey p.toBlockParams batch last)
    (hpassed : ∀ i, batchIndex ≤ i → i < last → ∀ j, next ≤ j → j < pmaRange.right →
      (s₀.pma j).isEmpty = false → batchKey p.toBlockParams batch i < (s₀.pma j).head)
    (hdone : next = pmaRange.right → last = batchRange.right) :
    Rewriting p s₀ s batch batchRange pmaRange start last next (blocks ++ parts)
      (rewritten p s pmaRange.left next start (blocks ++ parts) sizeManager,
        (blocks ++ parts).length) := by
  have hne := h.nonempty hlt
  obtain ⟨g1, g2, g3, g4⟩ := hin.valid.findNext_spec hlt
  rw [← hnext] at g1 g2 g3 g4
  refine ⟨⟨sizeManager, rfl⟩, le_trans h.le_index hle, hlast, le_trans h.le_block g1.le, g2, g4,
    fun heq => ?_, fun _ => hhead, fun i i1 i2 j j1 j2 j3 => ?_, hdone,
    h.output_step hin hlt hnext hle hlast hout, fun hone => Or.inr ?_⟩
  · have := h.le_block
    omega
  · rcases Nat.lt_or_ge i batchIndex with hi | hi
    · exact h.passed i i1 hi j (by omega) j2 j3
    · exact hpassed i hi i2 j j1 j2 j3
  · -- with a single block in the array this was the first one of the range
    rcases h.le_block.eq_or_lt with heq | hgt
    · rw [(h.begins heq.symm).1, List.nil_append]
      exact hsize
    · exact absurd hone (hin.valid.blocks_ne_one hgt hin.first hne)

/-- Up to the next block there are no blocks left. -/
lemma Rewriting.emptyBetween (hin : RangeInput p s₀ batch batchRange pmaRange)
    (hag : Agrees p s₀ s pmaRange)
    (h : Rewriting p s₀ s batch batchRange pmaRange start batchIndex c blocks acc)
    (hlt : c < pmaRange.right) (hnext : next = (s₀.view p).findNext c pmaRange.right) :
    ∀ j, c < j → j < next → s.pma j = PmaEntry.null p.toBlockParams := by
  obtain ⟨-, g2, g3, -⟩ := hin.valid.findNext_spec hlt
  rw [← hnext] at g2 g3
  intro j h1 h2
  rw [hag.cell_eq j (le_trans h.le_block h1.le) (by omega)]
  exact g3 j h1 h2

/-- The batch elements that go into a block lie below all blocks behind it. -/
lemma Rewriting.blockInput (hin : RangeInput p s₀ batch batchRange pmaRange)
    (h : Rewriting p s₀ s batch batchRange pmaRange start batchIndex c blocks acc)
    (hlt : c < pmaRange.right) {last : ℕ} (hle : batchIndex < last)
    (hlast : last ≤ batchRange.right)
    (hbefore : ∀ x ∈ batchPart batch ⟨batchIndex, last⟩, ∀ j, c < j → j < pmaRange.right →
      (s₀.pma j).isEmpty = false → p.keyOf x < (s₀.pma j).head) :
    BlockInput p (s₀.pma c) (s₀.AboveCell (c + 1)) (batchPart batch ⟨batchIndex, last⟩) := by
  have hlen := hin.batch_le'
  have hne : batchPart batch ⟨batchIndex, last⟩ ≠ [] := by
    rw [← List.length_pos_iff, length_batchPart (by omega)]
    omega
  have hinc : Increasing p.toBlockParams (batchPart batch ⟨batchIndex, last⟩) := by
    refine (increasing_batchPart_iff (by omega)).mpr fun i j _ hij hj => ?_
    exact batchKey_lt hin.increasing hij (by omega)
  refine hin.valid.blockInput hin.even hin.two_le hin.signed hin.zero_null (h.nonempty hlt) hne
    hinc (fun x hx => hin.key_ne_null x (List.mem_of_mem_drop (List.mem_of_mem_take hx))) ?_
  rintro x hx k ⟨b, hb, hk⟩
  obtain ⟨j, j1, j2, j3, rfl⟩ := mem_rangeBlocks.mp hb
  rcases Nat.lt_or_ge j pmaRange.right with hjr | hjr
  · exact lt_of_lt_of_le (hbefore x hx j (by omega) hjr j3) hk
  · obtain ⟨i, i1, i2, hi⟩ := mem_batchPart.mp hx
    rw [← batchKey_of_getElem? hi]
    exact hin.below i (le_trans h.le_index i1) (lt_of_lt_of_le i2 hlast) k
      ⟨_, mem_rangeBlocks.mpr ⟨j, hjr, j2, j3, rfl⟩, hk⟩

/-- **One iteration** with batch elements for the block. -/
lemma Rewriting.insert (hin : RangeInput p s₀ batch batchRange pmaRange)
    (hag : Agrees p s₀ s pmaRange) {sizeManager : BlockSizeManager}
    (h : Rewriting p s₀ s batch batchRange pmaRange start batchIndex c blocks
      (rewritten p s pmaRange.left c start blocks sizeManager, blocks.length))
    (hlt : c < pmaRange.right) (hnext : next = (s₀.view p).findNext c pmaRange.right)
    (hidx : batchIndex < batchRange.right)
    (hkey : next < pmaRange.right →
      batchKey p.toBlockParams batch batchIndex < (s₀.pma next).head)
    {last : ℕ} (hl : last = s₀.findLastBatchElementForBlock p batch batchIndex batchRange
      ((s₀.view p).findNext c pmaRange.right) pmaRange) :
    ∃ blocks', Rewriting p s₀ s batch batchRange pmaRange start last next blocks'
      ((rewritten p s pmaRange.left c start blocks sizeManager).writeElementsIntoBlock p c
        (batchPart batch ⟨batchIndex, last⟩) start blocks.length) := by
  have hne := h.nonempty hlt
  obtain ⟨g1, g2, g3, g4⟩ := hin.valid.findNext_spec hlt
  rw [← hnext] at g1 g2 g3 g4
  have hc := h.nextBlock hin hlt hnext hidx hkey
  obtain ⟨m1, m2, m3, m4⟩ := hc.elements (hin.valid.cellsIn _ _) hin.ordered hidx hl
  have hlen := hin.batch_le'
  obtain ⟨parts, sizeManager', heq, hout, hsize⟩ := writeElementsIntoBlock_rewritten
    start blocks sizeManager (hag.cell_eq c h.le_block hlt)
    (h.blockInput hin hlt m1 m2 fun x hx j j1 => m3 x hx j (by omega))
    (fun x hx => List.mem_of_mem_drop (List.mem_of_mem_take hx)) hne hin.valid h.le_block g1
    (h.emptyBetween hin hag hlt hnext)
  rw [heq]
  refine ⟨blocks ++ parts, h.advance hin hlt hnext m1.le m2 hout hsize
    (fun hnr hlt' => ?_) (fun i i1 i2 j j1 j2 j3 => ?_) fun heq' => ?_⟩
  · obtain ⟨j, j1, j2, j3, j4⟩ := m4 hlt'
    refine le_trans ?_ j4
    rcases lt_trichotomy j next with hjn | rfl | hjn
    · rw [g3 j j1 hjn] at j3
      exact absurd j3 (by simp)
    · exact le_refl _
    · obtain ⟨x, hx, hk⟩ := (hin.valid.cellsIn 0 s₀.size).valid (Nat.zero_le _)
        (hin.valid.lt_size (g4 hnr)) (g4 hnr) |>.head_mem
      rw [← hk]
      exact ((hin.valid.cellsIn _ _).lt_head hin.ordered (le_trans h.le_block g1.le) hjn j2
        (g4 hnr) j3 x hx).le
  · have hlt' : i < batch.length := by omega
    have hi : batch[i]? = some batch[i] := List.getElem?_eq_getElem hlt'
    rw [batchKey_of_getElem? hi]
    exact m3 _ (mem_batchPart.mpr ⟨i, i1, i2, hi⟩) j (by omega) j2 j3
  · by_contra hno
    obtain ⟨j, j1, j2, j3, -⟩ := m4 (by omega)
    rw [g3 j j1 (by omega)] at j3
    exact absurd j3 (by simp)

/-- **One iteration** that writes the block as it is. -/
lemma Rewriting.keep (hin : RangeInput p s₀ batch batchRange pmaRange)
    (hag : Agrees p s₀ s pmaRange) {sizeManager : BlockSizeManager}
    (h : Rewriting p s₀ s batch batchRange pmaRange start batchIndex c blocks
      (rewritten p s pmaRange.left c start blocks sizeManager, blocks.length))
    (hlt : c < pmaRange.right) (hnext : next = (s₀.view p).findNext c pmaRange.right)
    (hhead : next < pmaRange.right → batchIndex < batchRange.right →
      (s₀.pma next).head ≤ batchKey p.toBlockParams batch batchIndex)
    (hdone : next = pmaRange.right → batchIndex = batchRange.right) :
    Rewriting p s₀ s batch batchRange pmaRange start batchIndex next (blocks ++ [s₀.pma c])
      ((rewritten p s pmaRange.left c start blocks sizeManager).writePmaBlock p c start
        blocks.length, blocks.length + 1) := by
  have hne := h.nonempty hlt
  obtain ⟨g1, -, -, -⟩ := hin.valid.findNext_spec hlt
  rw [← hnext] at g1
  have hlen : blocks.length + 1 = (blocks ++ [s₀.pma c]).length := by
    rw [List.length_append, List.length_singleton]
  have hout := output_block batch hin.valid hne
  have hnil : batchPart batch ⟨batchIndex, batchIndex⟩ = [] := batchPart_self
  rw [← hnil] at hout
  rw [writePmaBlock_rewritten h.le_block g1 (h.emptyBetween hin hag hlt hnext),
    hag.cell_eq c h.le_block hlt, hlen]
  exact h.advance hin hlt hnext (le_refl _) h.index_le hout (Or.inr rfl) hhead
    (fun i i1 i2 => absurd i1 (by omega)) hdone

/-- **One iteration.** -/
lemma Rewriting.step (hin : RangeInput p s₀ batch batchRange pmaRange)
    (hag : Agrees p s₀ s pmaRange) {pmaOutputRange : Interval}
    (h : Rewriting p s₀ s batch batchRange pmaRange pmaOutputRange.left batchIndex c blocks acc)
    (hlt : c < pmaRange.right) (hnext : next = (s₀.view p).findNext c pmaRange.right) (n : ℕ) :
    ∃ batchIndex' blocks' acc',
      rewriteLoop p batch batchRange pmaRange pmaOutputRange (n + 1) batchIndex c next acc =
        rewriteLoop p batch batchRange pmaRange pmaOutputRange n batchIndex' next
          ((acc'.1.view p).findNext next pmaRange.right) acc' ∧
      Rewriting p s₀ s batch batchRange pmaRange pmaOutputRange.left batchIndex' next blocks'
        acc' := by
  obtain ⟨g1, g2, -, g4⟩ := hin.valid.findNext_spec hlt
  rw [← hnext] at g1 g2 g4
  obtain ⟨sizeManager, rfl⟩ := h.state
  have hsame : (rewritten p s pmaRange.left c pmaOutputRange.left blocks sizeManager).pma next =
      s.pma next := cleared_of_not_mem (Or.inr g1.le)
  have hhead : next < pmaRange.right → (rewritten p s pmaRange.left c pmaOutputRange.left blocks
      sizeManager).pma next = s₀.pma next := fun hnr =>
    hsame.trans (hag.cell_eq next (le_trans h.le_block g1.le) hnr)
  rw [rewriteLoop, if_pos hlt]
  simp only
  split
  · rename_i hcond
    obtain ⟨hidx, hcond⟩ := hcond
    have hkey : next < pmaRange.right →
        batchKey p.toBlockParams batch batchIndex < (s₀.pma next).head := by
      intro hnr
      rcases hcond with hcond | hcond
      · rw [head, hhead hnr] at hcond
        exact hcond
      · have hno := hin.valid.empty_eq next
        rw [empty] at hcond hno
        rw [hhead hnr, hno, g4 hnr] at hcond
        exact absurd hcond (by simp)
    have hlast : (rewritten p s pmaRange.left c pmaOutputRange.left blocks
        sizeManager).findLastBatchElementForBlock p batch batchIndex batchRange next pmaRange =
          s₀.findLastBatchElementForBlock p batch batchIndex batchRange
            ((s₀.view p).findNext c pmaRange.right) pmaRange := by
      rw [findLastBatchElementForBlock, findLastBatchElementForBlock, ← hnext]
      split
      · rfl
      · rename_i hnr
        rw [head, head, hhead (by omega)]
    obtain ⟨blocks', h'⟩ := h.insert hin hag hlt hnext hidx hkey rfl
    rw [hlast]
    exact ⟨_, blocks', _, rfl, h'⟩
  · rename_i hcond
    refine ⟨batchIndex, blocks ++ [s₀.pma c], _, rfl, h.keep hin hag hlt hnext
      (fun hnr hidx => ?_) fun heq => ?_⟩
    · refine not_lt.mp fun hlt' => hcond ⟨hidx, Or.inl ?_⟩
      rw [head, hhead hnr]
      exact hlt'
    · by_contra hno
      have hidx : batchIndex < batchRange.right := lt_of_le_of_ne h.index_le hno
      refine hcond ⟨hidx, ?_⟩
      rw [head, empty, hsame, heq]
      exact hin.ready hag h.le_index hidx

/-- **The loop** gets to the end of the range. -/
lemma Rewriting.run (hin : RangeInput p s₀ batch batchRange pmaRange)
    (hag : Agrees p s₀ s pmaRange) {pmaOutputRange : Interval} : ∀ (n : ℕ) {batchIndex c next : ℕ}
      {blocks : List (PmaEntry K α)} {acc : OverallocatedBatchedSparseArray K α × ℕ},
    Rewriting p s₀ s batch batchRange pmaRange pmaOutputRange.left batchIndex c blocks acc →
    (c < pmaRange.right → next = (s₀.view p).findNext c pmaRange.right) →
    pmaRange.right - c ≤ n →
    ∃ blocks', Rewriting p s₀ s batch batchRange pmaRange pmaOutputRange.left batchRange.right
      pmaRange.right blocks' (rewriteLoop p batch batchRange pmaRange pmaOutputRange n batchIndex c
        next acc) := by
  intro n
  induction n with
  | zero =>
      intro batchIndex c next blocks acc h _ hn
      have hc : c = pmaRange.right := le_antisymm h.block_le (by omega)
      subst hc
      rw [← h.done rfl]
      exact ⟨blocks, h⟩
  | succ n ih =>
      intro batchIndex c next blocks acc h hnext hn
      by_cases hlt : c < pmaRange.right
      · obtain ⟨batchIndex', blocks', acc', heq, h'⟩ := h.step hin hag hlt (hnext hlt) n
        have hgt := (hin.valid.findNext_spec hlt).1
        rw [← hnext hlt] at hgt
        rw [heq]
        refine ih h' (fun hlt' => ?_) (by omega)
        obtain ⟨sizeManager, rfl⟩ := h'.state
        exact hag.findNext_eq (Nat.le_succ _) h'.le_block
      · have hc : c = pmaRange.right := le_antisymm h.block_le (by omega)
        subst hc
        rw [rewriteLoop, if_neg hlt, ← h.done rfl]
        exact ⟨blocks, h⟩

/-- **`insertBatchRange`** on a range that begins with a block. -/
theorem insertBatchRange_rewrites (hin : RangeInput p s₀ batch batchRange pmaRange)
    (hag : Agrees p s₀ s pmaRange) (pmaOutputRange : Interval) :
    ∃ blocks sizeManager, s.insertBatchRange p batch batchRange pmaRange pmaOutputRange =
        (rewritten p s pmaRange.left pmaRange.right pmaOutputRange.left blocks sizeManager,
          blocks.length) ∧
      Output p s₀ batch (elements (rangeBlocks s₀.pma pmaRange.left pmaRange.right))
        (batchPart batch batchRange) blocks ∧
      (s₀.blocks.length = 1 → (∀ b ∈ blocks, p.minBlockSize ≤ b.size) ∨ blocks.length = 1) := by
  have hstart : Rewriting p s₀ s batch batchRange pmaRange pmaOutputRange.left batchRange.left
      pmaRange.left [] (s, 0) := by
    refine ⟨⟨s.sizeManager, ?_⟩, le_refl _, hin.batch_le, le_refl _, hin.left_lt.le,
      fun _ => hin.first, fun _ => ⟨rfl, rfl⟩, fun h => absurd h (lt_irrefl _),
      fun i h1 h2 => absurd h1 (by omega), fun h => absurd h hin.left_lt.ne, ?_,
      fun _ => Or.inl rfl⟩
    · rw [rewritten, cleared_self p.toBlockParams s.pma (le_refl _), placed_nil]
      rfl
    · have := output_range batch hin.valid (le_refl pmaRange.left)
        (hin.left_lt.le.trans hin.right_le)
      rw [rangeBlocks_self] at this
      rw [rangeBlocks_self, batchPart_self]
      exact this
  have hnext : (s.view p).findNext pmaRange.left pmaRange.right =
      (s₀.view p).findNext pmaRange.left pmaRange.right := by
    have := @Agrees.findNext_eq K α p s _ s₀ pmaRange pmaRange.left [] 0 hag pmaRange.left
      s.sizeManager (Nat.le_succ _) (le_refl _)
    rw [← this, rewritten, cleared_self p.toBlockParams s.pma (le_refl _), placed_nil]
  obtain ⟨blocks, h⟩ := hstart.run hin hag pmaRange.length (fun _ => hnext) (le_refl _)
  obtain ⟨sizeManager, heq⟩ := h.state
  have hpos : pmaRange.length ≠ 0 := by
    have := hin.left_lt
    rw [Interval.length]
    omega
  refine ⟨blocks, sizeManager, ?_, h.output, fun hone => (h.single hone).resolve_left fun heq' =>
    absurd heq' hin.left_lt.ne'⟩
  rw [insertBatchRange, if_neg hpos]
  exact heq

end OverallocatedBatchedSparseArray

end BatchPMA
