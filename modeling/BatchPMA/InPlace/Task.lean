import BatchPMA.InPlace.Placing
import BatchPMA.Insertion.InsertRange

/-!
# A task that inserts in place

A task works on a range of the pma and a range of the batch.  After any number of its iterations,
its cells hold the union of their old elements and the batch elements it has passed, and its cursor
is at a block from which the next search can start; that block may be a different one from the
block that was there when the iteration began.
-/

namespace BatchPMA

open KeyedUnion Ranges

variable {K α : Type} [LinearOrder K]

/-! ## Ordered ranges -/

section Ordered

variable {p : BlockParams K α} {pma : ℕ → PmaEntry K α} {left right c c' : ℕ}

/-- Elements of different cells. -/
lemma rangeBlocks_lt (h : Ordered p.keyOf (elements (rangeBlocks pma left right)))
    (h1 : left ≤ c) (h2 : c < c') (h3 : c' < right) (hc : (pma c).isEmpty = false)
    (hc' : (pma c').isEmpty = false) :
    ∀ x ∈ (pma c).live, ∀ y ∈ (pma c').live, p.keyOf x < p.keyOf y := by
  intro x hx y hy
  rw [rangeBlocks_append (show left ≤ c' by omega) h3.le, elements_append] at h
  exact Ordered.lt h x (mem_elements.mpr ⟨_, mem_rangeBlocks.mpr ⟨c, h1, h2, hc, rfl⟩, hx⟩) y
    (mem_elements.mpr ⟨_, mem_rangeBlocks.mpr ⟨c', le_refl _, h3, hc', rfl⟩, hy⟩)

lemma CellsIn.valid (h : CellsIn p pma left right) (h1 : left ≤ c) (h2 : c < right)
    (hc : (pma c).isEmpty = false) : (pma c).Valid p := by
  refine (h c h1 h2).resolve_left fun hnull => ?_
  rw [hnull] at hc
  exact absurd hc (by simp)

lemma CellsIn.valid_of_mem (h : CellsIn p pma left right) {b : PmaEntry K α}
    (hb : b ∈ rangeBlocks pma left right) : b.Valid p := by
  obtain ⟨c, h1, h2, h3, rfl⟩ := mem_rangeBlocks.mp hb
  exact h.valid h1 h2 h3

lemma CellsIn.mono (h : CellsIn p pma left right) {left' right' : ℕ} (h1 : left ≤ left')
    (h2 : right' ≤ right) : CellsIn p pma left' right' :=
  fun c g1 g2 => h c (le_trans h1 g1) (lt_of_lt_of_le g2 h2)

/-- The elements of a cell lie below the heads of later cells. -/
lemma CellsIn.lt_head (h : CellsIn p pma left right)
    (hord : Ordered p.keyOf (elements (rangeBlocks pma left right))) (h1 : left ≤ c) (h2 : c < c')
    (h3 : c' < right) (hc : (pma c).isEmpty = false) (hc' : (pma c').isEmpty = false) :
    ∀ x ∈ (pma c).live, p.keyOf x < (pma c').head := by
  intro x hx
  obtain ⟨y, hy, hk⟩ := (h.valid (by omega) h3 hc').head_mem
  rw [← hk]
  exact rangeBlocks_lt hord h1 h2 h3 hc hc' x hx y hy

end Ordered

namespace OverallocatedBatchedSparseArray

variable {p : OverallocatedParams K α} {s₀ s : OverallocatedBatchedSparseArray K α}
  {batch : List α} {batchRange pmaRange : Interval} {above : K → Prop} {single : Prop}

/-- In an ordered range the heads increase. -/
lemma headsIncreasingOn (h : CellsIn p.toBlockParams s.pma pmaRange.left pmaRange.right)
    (hord : Ordered p.keyOf (elements (rangeBlocks s.pma pmaRange.left pmaRange.right))) :
    (s.view p).HeadsIncreasingOn pmaRange.left pmaRange.right := by
  intro i j h1 h2 h3 hi hj
  have hi' : (s.pma i).isEmpty = false := by
    rw [← empty_eq_isEmpty (h i h1 (by omega))]
    exact hi
  have hj' : (s.pma j).isEmpty = false := by
    rw [← empty_eq_isEmpty (h j (by omega) h3)]
    exact hj
  obtain ⟨x, hx, hk⟩ := (h.valid h1 (by omega) hi').head_mem
  change (s.pma i).head < (s.pma j).head
  rw [← hk]
  exact h.lt_head hord h1 h2 h3 hi' hj' x hx

/-! ## What a task is given -/

/-- A range of the pma that begins with a block, and a range of the batch for it.  `above` are keys
behind the range, and `single` says that the array has one block only, which may be small. -/
structure TaskInput (p : OverallocatedParams K α) (s : OverallocatedBatchedSparseArray K α)
    (batch : List α) (batchRange pmaRange : Interval) (above : K → Prop) (single : Prop) :
    Prop where
  even : 2 ∣ p.blockSize
  two_le : 2 ≤ p.blockSize
  signed : p.blockSize ≤ 2 ^ 15
  zero_null : p.keyOf p.zero = p.nullKey
  left_lt : pmaRange.left < pmaRange.right
  first : (s.pma pmaRange.left).isEmpty = false
  cells : CellsIn p.toBlockParams s.pma pmaRange.left pmaRange.right
  ordered : Ordered p.keyOf (elements (rangeBlocks s.pma pmaRange.left pmaRange.right))
  stale : StaleOk p.toBlockParams True above (rangeBlocks s.pma pmaRange.left pmaRange.right)
  large : (∀ b ∈ rangeBlocks s.pma pmaRange.left pmaRange.right, p.minBlockSize ≤ b.size) ∨
    (rangeBlocks s.pma pmaRange.left pmaRange.right).length = 1 ∧ single
  batch_le : batchRange.left ≤ batchRange.right
  batch_le' : batchRange.right ≤ batch.length
  increasing : Increasing p.toBlockParams batch
  key_ne_null : ∀ x ∈ batch, p.keyOf x ≠ p.nullKey
  below : ∀ x ∈ batchPart batch batchRange, ∀ k, above k → p.keyOf x < k
  room : ((elements (rangeBlocks s.pma pmaRange.left pmaRange.right)).length +
    batchRange.length) / p.minBlockSize ≤ pmaRange.length

/-- What holds between the iterations of a task. -/
structure Progress (p : OverallocatedParams K α) (s₀ s : OverallocatedBatchedSparseArray K α)
    (batch : List α) (batchRange pmaRange : Interval) (above : K → Prop) (single : Prop)
    (cursor : InPlaceCursor K α) : Prop where
  le_index : batchRange.left ≤ cursor.batchIndex
  index_le : cursor.batchIndex ≤ batchRange.right
  lost : cursor.lost = []
  cells : CellsIn p.toBlockParams s.pma pmaRange.left pmaRange.right
  union : IsUnion p.keyOf (elements (rangeBlocks s₀.pma pmaRange.left pmaRange.right))
    (batchPart batch ⟨batchRange.left, cursor.batchIndex⟩)
    (elements (rangeBlocks s.pma pmaRange.left pmaRange.right))
  stale : StaleOk p.toBlockParams True above (rangeBlocks s.pma pmaRange.left pmaRange.right)
  large : (∀ b ∈ rangeBlocks s.pma pmaRange.left pmaRange.right, p.minBlockSize ≤ b.size) ∨
    (rangeBlocks s.pma pmaRange.left pmaRange.right).length = 1 ∧ single
  le_block : pmaRange.left ≤ cursor.blockIndex
  block_lt : cursor.blockIndex < pmaRange.right
  nonempty : (s.pma cursor.blockIndex).isEmpty = false
  head_le : cursor.blockIndex = pmaRange.left ∧ cursor.batchIndex = batchRange.left ∨
    (cursor.batchIndex < batchRange.right →
      (s.pma cursor.blockIndex).head ≤ batchKey p.toBlockParams batch cursor.batchIndex)

variable {cursor : InPlaceCursor K α}

/-- A task starts with the block its range begins with. -/
lemma TaskInput.start (h : s₀.TaskInput p batch batchRange pmaRange above single) :
    Progress p s₀ s₀ batch batchRange pmaRange above single
      ⟨batchRange.left, pmaRange.left, []⟩ where
  le_index := le_refl _
  index_le := h.batch_le
  lost := rfl
  cells := h.cells
  union := by
    rw [batchPart_self]
    exact IsUnion.nil_new h.ordered
  stale := h.stale
  large := h.large
  le_block := le_refl _
  block_lt := h.left_lt
  nonempty := h.first
  head_le := Or.inl ⟨rfl, rfl⟩

/-- Only the cells of the range matter. -/
lemma Progress.congr {s' : OverallocatedBatchedSparseArray K α}
    (h : Progress p s₀ s batch batchRange pmaRange above single cursor)
    (hpma : ∀ c, pmaRange.left ≤ c → c < pmaRange.right → s'.pma c = s.pma c) :
    Progress p s₀ s' batch batchRange pmaRange above single cursor := by
  have hblocks := rangeBlocks_congr hpma
  refine ⟨h.le_index, h.index_le, h.lost, fun c h1 h2 => ?_, ?_, ?_, ?_, h.le_block, h.block_lt,
    ?_, ?_⟩
  · rw [hpma c h1 h2]
    exact h.cells c h1 h2
  · rw [hblocks]
    exact h.union
  · rw [hblocks]
    exact h.stale
  · rw [hblocks]
    exact h.large
  · rw [hpma _ h.le_block h.block_lt]
    exact h.nonempty
  · rw [hpma _ h.le_block h.block_lt]
    exact h.head_le

/-! ## The block of the next element -/

/-- The block `c` that the next batch element goes into: the elements in front of it are smaller
than that element, the heads behind it are larger. -/
structure NextBlock (p : OverallocatedParams K α) (s : OverallocatedBatchedSparseArray K α)
    (pmaRange : Interval) (key : K) (c : ℕ) : Prop where
  left_le : pmaRange.left ≤ c
  lt_right : c < pmaRange.right
  nonempty : (s.pma c).isEmpty = false
  front : ∀ x ∈ elements (rangeBlocks s.pma pmaRange.left c), p.keyOf x < key
  back : ∀ j, c < j → j < pmaRange.right → (s.pma j).isEmpty = false → key < (s.pma j).head

/-- The search finds it. -/
lemma Progress.nextBlock (h : Progress p s₀ s batch batchRange pmaRange above single cursor)
    (key : K) (hkey : key = batchKey p.toBlockParams batch cursor.batchIndex)
    (hlt : cursor.batchIndex < batchRange.right) :
    s.NextBlock p pmaRange key
      ((s.view p).exponentialSearch key cursor.blockIndex pmaRange.right) := by
  have hinc := headsIncreasingOn h.cells h.union.ordered
  have hempty : ∀ j, pmaRange.left ≤ j → j < pmaRange.right →
      (s.view p).empty j = (s.pma j).isEmpty := fun j h1 h2 => empty_eq_isEmpty (h.cells j h1 h2)
  have hhead : ∀ j, (s.view p).head j = (s.pma j).head := fun _ => rfl
  by_cases hle : (s.pma cursor.blockIndex).head ≤ key
  · obtain ⟨c, hc, hlast⟩ := ArrayView.exists_isLastIn (v := s.view p) (e := key) h.block_lt
      (by rw [hempty _ h.le_block h.block_lt]; exact h.nonempty) hle
    have hleft : pmaRange.left ≤ c := le_trans h.le_block hc
    have hne : (s.pma c).isEmpty = false := by
      rw [← hempty c hleft hlast.lt_upper]
      exact hlast.nonempty
    rw [ArrayView.exponentialSearch_eq (hinc.mono h.le_block (le_refl _)) hlast hc]
    refine ⟨hleft, hlast.lt_upper, hne, fun x hx => ?_, fun j h1 h2 h3 => ?_⟩
    · obtain ⟨b, hb, hx⟩ := mem_elements.mp hx
      obtain ⟨j, h1, h2, h3, rfl⟩ := mem_rangeBlocks.mp hb
      exact lt_of_lt_of_le (h.cells.lt_head h.union.ordered h1 h2 hlast.lt_upper h3 hne x hx)
        hlast.head_le
    · exact hlast.lt_head j h1 h2 (by rw [hempty j (by omega) h2]; exact h3)
  · -- only the first element can lie below the first block
    obtain ⟨hb, hidx⟩ : cursor.blockIndex = pmaRange.left ∧ cursor.batchIndex = batchRange.left :=
      h.head_le.resolve_right fun hno => hle (hkey ▸ hno hlt)
    have hfirst := h.nonempty
    have hbelow := not_le.mp hle
    rw [hb] at hfirst hbelow ⊢
    have hleft : pmaRange.left < pmaRange.right := hb ▸ h.block_lt
    rw [ArrayView.exponentialSearch_first (v := s.view p) hleft
      (by rw [hempty _ (le_refl _) hleft]; exact hfirst) hbelow]
    refine ⟨le_refl _, hleft, hfirst, fun x hx => ?_, fun j h1 h2 h3 => ?_⟩
    · rw [rangeBlocks, itemsIn, Nat.sub_self] at hx
      exact absurd hx List.not_mem_nil
    · refine lt_trans hbelow (hinc _ j (le_refl _) h1 h2 ?_ ?_)
      · rw [hempty _ (le_refl _) hleft]
        exact hfirst
      · rw [hempty j (by omega) h2]
        exact h3

/-- The elements for a block: those below the head of the next block of the range. -/
lemma NextBlock.elements {c n : ℕ} (h : s.NextBlock p pmaRange (batchKey p.toBlockParams batch n) c)
    (hcells : CellsIn p.toBlockParams s.pma pmaRange.left pmaRange.right)
    (hord : Ordered p.keyOf (elements (rangeBlocks s.pma pmaRange.left pmaRange.right)))
    (hlt : n < batchRange.right) {last : ℕ}
    (hlast : last = s.findLastBatchElementForBlock p batch n batchRange
      ((s.view p).findNext c pmaRange.right) pmaRange) :
    n < last ∧ last ≤ batchRange.right ∧
      (∀ e ∈ batchPart batch ⟨n, last⟩, ∀ j, c < j → j < pmaRange.right →
        (s.pma j).isEmpty = false → p.keyOf e < (s.pma j).head) ∧
      (last < batchRange.right → ∃ j, c < j ∧ j < pmaRange.right ∧ (s.pma j).isEmpty = false ∧
        (s.pma j).head ≤ batchKey p.toBlockParams batch last) := by
  have hleft := h.left_le
  have hempty : ∀ j, pmaRange.left ≤ j → j < pmaRange.right →
      (s.view p).empty j = (s.pma j).isEmpty := fun j h1 h2 => empty_eq_isEmpty (hcells j h1 h2)
  have hgt : c + 1 ≤ (s.view p).findNext c pmaRange.right := (s.view p).le_skipEmpty _ _
  have hskipped : ∀ j, c < j → j < (s.view p).findNext c pmaRange.right →
      (s.view p).empty j = true := fun j h1 h2 =>
    ArrayView.skipEmpty_skipped pmaRange.right (Nat.succ_le_of_lt h1) h2
  have hstop : (s.view p).findNext c pmaRange.right < pmaRange.right →
      (s.view p).empty ((s.view p).findNext c pmaRange.right) = false :=
    ArrayView.skipEmpty_stop
  have hle' : (s.view p).findNext c pmaRange.right ≤ pmaRange.right :=
    (s.view p).skipEmpty_le h.lt_right
  generalize (s.view p).findNext c pmaRange.right = next at *
  rw [findLastBatchElementForBlock] at hlast
  split at hlast
  · -- there is no other block
    rename_i hend
    subst hlast
    refine ⟨hlt, le_refl _, fun e _ j h1 h2 h3 => ?_, fun h' => absurd h' (lt_irrefl _)⟩
    have := hskipped j h1 (by omega)
    rw [hempty j (by omega) h2, h3] at this
    exact absurd this (by simp)
  · rename_i hend
    have hnr : next < pmaRange.right := by omega
    have hne : (s.pma next).isEmpty = false := by
      rw [← hempty next (by omega) hnr]
      exact hstop hnr
    have hkey : batchKey p.toBlockParams batch n < s.head next := h.back next hgt hnr hne
    obtain ⟨k, hk⟩ : ∃ k, batchRange.right - n = k + 1 := ⟨batchRange.right - n - 1, by omega⟩
    have hgt' : n + 1 ≤ last := by
      rw [hlast, hk, Scan.scanUp, if_pos (decide_eq_true hkey)]
      exact Scan.le_scanUp _ _ _
    have hle'' : last ≤ batchRange.right := by
      have := Scan.scanUp_le (fun i => decide (batchKey p.toBlockParams batch i < s.head next))
        (batchRange.right - n) n
      omega
    refine ⟨hgt', hle'', fun e he j h1 h2 h3 => ?_, fun hlt' => ⟨next, hgt, hnr, hne, ?_⟩⟩
    · obtain ⟨i, g1, g2, g3⟩ := mem_batchPart.mp he
      rw [hlast] at g2
      have hskip : decide (batchKey p.toBlockParams batch i < s.head next) = true :=
        Scan.scanUp_skipped g1 g2
      rw [← batchKey_of_getElem? g3]
      refine lt_of_lt_of_le (of_decide_eq_true hskip) ?_
      rcases Nat.lt_trichotomy j next with hjn | rfl | hjn
      · have := hskipped j h1 hjn
        rw [hempty j (by omega) h2, h3] at this
        exact absurd this (by simp)
      · exact le_refl _
      · refine (headsIncreasingOn hcells hord next j (by omega) hjn h2 ?_ ?_).le
        · rw [hempty next (by omega) hnr]
          exact hne
        · rw [hempty j (by omega) h2]
          exact h3
    · have hst := Scan.scanUp_stop (p := fun i => decide
        (batchKey p.toBlockParams batch i < s.head next)) (n := batchRange.right - n) (c := n)
        (by omega)
      rw [← hlast] at hst
      exact not_lt.mp (of_decide_eq_false hst)

/-! ## One iteration -/

/-- Keys from the head of a block behind the cell `c` on. -/
def AboveIn (s : OverallocatedBatchedSparseArray K α) (pmaRange : Interval) (above : K → Prop)
    (c : ℕ) (k : K) : Prop :=
  above k ∨ ∃ b ∈ rangeBlocks s.pma (c + 1) pmaRange.right, b.head ≤ k

omit [LinearOrder K] in
/-- The range around a block. -/
lemma rangeBlocks_around {c : ℕ} (h1 : pmaRange.left ≤ c) (h2 : c < pmaRange.right)
    (hne : (s.pma c).isEmpty = false) : rangeBlocks s.pma pmaRange.left pmaRange.right =
      rangeBlocks s.pma pmaRange.left c ++
        (s.pma c :: rangeBlocks s.pma (c + 1) pmaRange.right) := by
  rw [rangeBlocks_append h1 h2.le, rangeBlocks_append (Nat.le_succ c) h2, rangeBlocks_succ,
    cellBlock_of_not_isEmpty hne]
  rfl

section

variable (hin : s₀.TaskInput p batch batchRange pmaRange above single)
  (h : Progress p s₀ s batch batchRange pmaRange above single cursor)
  (hlt : cursor.batchIndex < batchRange.right) {c last : ℕ}
  (hc : s.NextBlock p pmaRange (batchKey p.toBlockParams batch cursor.batchIndex) c)
  (hlast : last = s.findLastBatchElementForBlock p batch cursor.batchIndex batchRange
    ((s.view p).findNext c pmaRange.right) pmaRange)
include hin h hlt hc hlast

/-- What goes into the next block. -/
lemma Progress.blockInput : BlockInput p (s.pma c) (s.AboveIn pmaRange above c)
    (batchPart batch ⟨cursor.batchIndex, last⟩) := by
  obtain ⟨g1, g2, g3, -⟩ := hc.elements h.cells h.union.ordered hlt hlast
  have hstale := h.stale
  have hle := h.le_index
  rw [rangeBlocks_around hc.left_le hc.lt_right hc.nonempty, staleOk_append] at hstale
  refine ⟨⟨hin.even, hin.two_le, hin.zero_null,
    h.cells.valid hc.left_le hc.lt_right hc.nonempty, fun x hx => ?_, ?_, fun e he => ?_,
    fun e he k hk => ?_⟩, hin.signed, ?_⟩
  · rcases hstale.2.1 x hx with h1 | h1 | h1 | h1
    · exact Or.inl h1
    · exact Or.inr (Or.inl (Or.inl h1))
    · exact Or.inr (Or.inl (Or.inr h1))
    · exact Or.inr (Or.inr h1)
  · refine (increasing_batchPart_iff (by have := hin.batch_le'; omega)).mpr fun i j _ hij hj => ?_
    exact batchKey_lt hin.increasing hij (by have := hin.batch_le'; omega)
  · obtain ⟨i, -, -, hi⟩ := mem_batchPart.mp he
    exact hin.key_ne_null e (List.mem_of_getElem? hi)
  · rcases hk with hk | ⟨b, hb, hk⟩
    · exact hin.below e (batchPart_subset hle g2 he) k hk
    · obtain ⟨j, k1, k2, k3, rfl⟩ := mem_rangeBlocks.mp hb
      exact lt_of_lt_of_le (g3 e he j (by omega) k2 k3) hk
  · rw [← List.length_pos_iff, length_batchPart (by have := hin.batch_le'; omega)]
    omega

/-- With the next elements the range holds the union again. -/
lemma Progress.union_step {parts : List (PmaEntry K α)}
    (hrep : Replaces p (s.pma c) (s.AboveIn pmaRange above c)
      (batchPart batch ⟨cursor.batchIndex, last⟩) parts) :
    IsUnion p.keyOf (elements (rangeBlocks s₀.pma pmaRange.left pmaRange.right))
      (batchPart batch ⟨batchRange.left, last⟩)
      (elements (rangeBlocks s.pma pmaRange.left c ++
        (parts ++ rangeBlocks s.pma (c + 1) pmaRange.right))) := by
  obtain ⟨g1, g2, g3, -⟩ := hc.elements h.cells h.union.ordered hlt hlast
  have hord := h.union.ordered
  rw [rangeBlocks_around hc.left_le hc.lt_right hc.nonempty, elements_append, elements_cons] at hord
  have hge : ∀ e ∈ batchPart batch ⟨cursor.batchIndex, last⟩,
      batchKey p.toBlockParams batch cursor.batchIndex ≤ p.keyOf e := by
    intro e he
    obtain ⟨i, k1, k2, hi⟩ := mem_batchPart.mp he
    rw [← batchKey_of_getElem? hi]
    exact batchKey_le hin.increasing k1 (by have := hin.batch_le'; omega)
  have hback : ∀ e ∈ batchPart batch ⟨cursor.batchIndex, last⟩,
      ∀ y ∈ elements (rangeBlocks s.pma (c + 1) pmaRange.right), p.keyOf e < p.keyOf y := by
    intro e he y hy
    obtain ⟨b, hb, hy⟩ := mem_elements.mp hy
    obtain ⟨j, k1, k2, k3, rfl⟩ := mem_rangeBlocks.mp hb
    have hleft := hc.left_le
    exact lt_of_lt_of_le (g3 e he j (by omega) k2 k3)
      ((h.cells.valid (by omega) k2 k3).head_le hy)
  have h1 := IsUnion.append hrep.union (IsUnion.nil_new (Ordered.right (Ordered.right hord)))
    fun x hx y hy => by
      rw [List.append_nil] at hy
      rcases List.mem_append.mp hx with hx | hx
      · exact Ordered.lt (Ordered.right hord) x hx y hy
      · exact hback x hx y hy
  have h2 := IsUnion.append (IsUnion.nil_new (Ordered.left hord)) h1 fun x hx y hy => by
    rw [List.append_nil] at hx hy
    rcases List.mem_append.mp hy with hy | hy
    · exact Ordered.lt hord x hx y hy
    · exact lt_of_lt_of_le (hc.front x hx) (hge y hy)
  rw [List.append_nil, List.nil_append] at h2
  have hunion := h.union
  rw [rangeBlocks_around hc.left_le hc.lt_right hc.nonempty, elements_append, elements_cons] at hunion
  have := hunion.trans h2 fun x hx y hy => by
    obtain ⟨i, k1, k2, hi⟩ := mem_batchPart.mp hx
    refine (lt_of_lt_of_le ?_ (hge y hy)).ne
    rw [← batchKey_of_getElem? hi]
    exact batchKey_lt hin.increasing k2 (by have := hin.batch_le'; omega)
  rw [batchPart_append h.le_index g1.le] at this
  rw [elements_append, elements_append]
  exact this

omit hin hlt hlast in
/-- No dead cell gets in the way later. -/
lemma Progress.stale_step {parts : List (PmaEntry K α)}
    (hrep : Replaces p (s.pma c) (s.AboveIn pmaRange above c)
      (batchPart batch ⟨cursor.batchIndex, last⟩) parts) :
    StaleOk p.toBlockParams True above (rangeBlocks s.pma pmaRange.left c ++
      (parts ++ rangeBlocks s.pma (c + 1) pmaRange.right)) := by
  have hstale := h.stale
  rw [rangeBlocks_around hc.left_le hc.lt_right hc.nonempty, staleOk_append] at hstale
  rw [staleOk_append, staleOk_append]
  refine ⟨hstale.1.mono fun k hk => hk.imp id ?_, hrep.stale, hstale.2.2⟩
  rintro ⟨b, hb, hk⟩
  rcases List.mem_cons.mp hb with rfl | hb
  · -- the part with the first element of the block
    obtain ⟨x, hx, hxk⟩ := (h.cells.valid hc.left_le hc.lt_right hc.nonempty).head_mem
    obtain ⟨b', hb', hxb⟩ := mem_elements.mp (hrep.union.mem_old hx)
    refine ⟨b', List.mem_append_left _ hb', le_trans ((hrep.valid b' hb').head_le hxb) ?_⟩
    rw [hxk]
    exact hk
  · exact ⟨b, List.mem_append_right _ hb, hk⟩

/-- All parts find room in the range. -/
lemma Progress.room_step {parts : List (PmaEntry K α)}
    (hrep : Replaces p (s.pma c) (s.AboveIn pmaRange above c)
      (batchPart batch ⟨cursor.batchIndex, last⟩) parts)
    (hparts : ∀ b ∈ parts, p.minBlockSize ≤ b.size) :
    (rangeBlocks s.pma pmaRange.left c).length + parts.length +
      (rangeBlocks s.pma (c + 1) pmaRange.right).length ≤ pmaRange.length := by
  obtain ⟨g1, g2, -, -⟩ := hc.elements h.cells h.union.ordered hlt hlast
  have haround := rangeBlocks_around (s := s) hc.left_le hc.lt_right hc.nonempty
  have hmin : 0 < p.minBlockSize := by
    have := hin.two_le
    rw [BlockParams.minBlockSize]
    omega
  -- every block is at least half full now
  have hfull : ∀ b ∈ rangeBlocks s.pma pmaRange.left c ++
      (parts ++ rangeBlocks s.pma (c + 1) pmaRange.right), p.minBlockSize ≤ b.live.length := by
    intro b hb
    have hcases : b ∈ parts ∨ b ∈ rangeBlocks s.pma pmaRange.left c ∨
        b ∈ rangeBlocks s.pma (c + 1) pmaRange.right := by
      rcases List.mem_append.mp hb with hb | hb
      · exact Or.inr (Or.inl hb)
      · exact (List.mem_append.mp hb).imp id Or.inr
    rcases hcases with hb | hb
    · rw [(hrep.valid b hb).length_live]
      exact hparts b hb
    · have hmem : b ∈ rangeBlocks s.pma pmaRange.left pmaRange.right := by
        rw [haround, List.mem_append, List.mem_cons]
        exact hb.imp id Or.inr
      rw [(h.cells.valid_of_mem hmem).length_live]
      rcases h.large with hl | ⟨hone, -⟩
      · exact hl b hmem
      · -- a single block leaves nothing beside it
        rw [haround, List.length_append, List.length_cons] at hone
        have h1 := List.eq_nil_of_length_eq_zero
          (show (rangeBlocks s.pma pmaRange.left c).length = 0 by omega)
        have h2 := List.eq_nil_of_length_eq_zero
          (show (rangeBlocks s.pma (c + 1) pmaRange.right).length = 0 by omega)
        rw [h1, h2] at hb
        exact absurd hb (by simp)
  have hcount := List.card_nsmul_le_sum ((rangeBlocks s.pma pmaRange.left c ++
      (parts ++ rangeBlocks s.pma (c + 1) pmaRange.right)).map fun b => b.live.length)
    p.minBlockSize fun x hx => by
      obtain ⟨b, hb, rfl⟩ := List.mem_map.mp hx
      exact hfull b hb
  rw [← List.length_flatMap, List.length_map, smul_eq_mul] at hcount
  have hunion := h.union_step hin hlt hc hlast hrep
  have hle := hunion.length_le
  rw [length_batchPart (by have := hin.batch_le'; omega)] at hle
  have htotal : (rangeBlocks s.pma pmaRange.left c ++
      (parts ++ rangeBlocks s.pma (c + 1) pmaRange.right)).length * p.minBlockSize ≤
        (elements (rangeBlocks s₀.pma pmaRange.left pmaRange.right)).length +
          batchRange.length := by
    refine le_trans hcount (le_trans hle ?_)
    rw [Interval.length]
    omega
  have := le_trans ((Nat.le_div_iff_mul_le hmin).mpr htotal) hin.room
  rw [List.length_append, List.length_append] at this
  omega

omit hin hlt hlast in
/-- The blocks stay large enough. -/
lemma Progress.large_step {parts : List (PmaEntry K α)}
    (hrep : Replaces p (s.pma c) (s.AboveIn pmaRange above c)
      (batchPart batch ⟨cursor.batchIndex, last⟩) parts) :
    (∀ b ∈ rangeBlocks s.pma pmaRange.left c ++
        (parts ++ rangeBlocks s.pma (c + 1) pmaRange.right), p.minBlockSize ≤ b.size) ∨
      (rangeBlocks s.pma pmaRange.left c ++
        (parts ++ rangeBlocks s.pma (c + 1) pmaRange.right)).length = 1 ∧ single := by
  have haround := rangeBlocks_around (s := s) hc.left_le hc.lt_right hc.nonempty
  rcases h.large with hl | ⟨hone, hsingle⟩
  · refine Or.inl fun b hb => ?_
    have hold : ∀ b ∈ rangeBlocks s.pma pmaRange.left c ++
        (s.pma c :: rangeBlocks s.pma (c + 1) pmaRange.right), p.minBlockSize ≤ b.size := by
      rw [← haround]
      exact hl
    have hself := hold (s.pma c) (List.mem_append_right _ List.mem_cons_self)
    rcases List.mem_append.mp hb with hb | hb
    · exact hold b (List.mem_append_left _ hb)
    · rcases List.mem_append.mp hb with hb | hb
      · rcases hrep.large with hp | ⟨b', rfl, hle⟩
        · exact hp b hb
        · rw [List.mem_singleton.mp hb]
          omega
      · exact hold b (List.mem_append_right _ (List.mem_cons_of_mem _ hb))
  · rw [haround, List.length_append, List.length_cons] at hone
    have h1 := List.eq_nil_of_length_eq_zero
      (show (rangeBlocks s.pma pmaRange.left c).length = 0 by omega)
    have h2 := List.eq_nil_of_length_eq_zero
      (show (rangeBlocks s.pma (c + 1) pmaRange.right).length = 0 by omega)
    rw [h1, h2, List.nil_append, List.append_nil]
    rcases hrep.large with hp | ⟨b', rfl, -⟩
    · exact Or.inl hp
    · exact Or.inr ⟨rfl, hsingle⟩

end

/-- **One iteration** inserts at least one element and keeps everything. -/
theorem Progress.step (hin : s₀.TaskInput p batch batchRange pmaRange above single)
    (h : Progress p s₀ s batch batchRange pmaRange above single cursor)
    (hlt : cursor.batchIndex < batchRange.right) :
    s.RangeEdit (insertBatchStep p batch batchRange pmaRange (s, cursor)).1 pmaRange ∧
      Progress p s₀ (insertBatchStep p batch batchRange pmaRange (s, cursor)).1 batch batchRange
        pmaRange above single (insertBatchStep p batch batchRange pmaRange (s, cursor)).2 ∧
      cursor.batchIndex <
        (insertBatchStep p batch batchRange pmaRange (s, cursor)).2.batchIndex := by
  have hc := h.nextBlock _ rfl hlt
  rw [insertBatchStep]
  simp only
  rw [if_pos hlt]
  generalize (s.view p).exponentialSearch (batchKey p.toBlockParams batch cursor.batchIndex)
    cursor.blockIndex pmaRange.right = c at *
  obtain ⟨last, hlast⟩ : ∃ last, last = s.findLastBatchElementForBlock p batch cursor.batchIndex
    batchRange ((s.view p).findNext c pmaRange.right) pmaRange := ⟨_, rfl⟩
  rw [← hlast]
  obtain ⟨g1, g2, g3, g4⟩ := hc.elements h.cells h.union.ordered hlt hlast
  have hinput := h.blockInput hin hlt hc hlast
  obtain ⟨k1, k2, k3, parts, hrep, k4, k5⟩ := insertElementsIntoBlock_spec (p := p) hinput h.cells
    hc.left_le hc.lt_right fun parts hrep hparts => h.room_step hin hlt hc hlast hrep hparts
  have hpart := hrep.valid _ k5
  refine ⟨k2, ⟨le_trans h.le_index g1.le, g2, ?_, k3, ?_, ?_, ?_, hc.left_le, hc.lt_right,
    hpart.isEmpty_eq, Or.inr fun hlt' => ?_⟩, g1⟩
  · simp only
    rw [h.lost, k1]
    rfl
  · rw [k4]
    exact h.union_step hin hlt hc hlast hrep
  · rw [k4]
    exact h.stale_step hc hrep
  · rw [k4]
    exact h.large_step hc hrep
  · -- whatever part is there now, its elements are smaller than the next one of the batch
    simp only at hlt' ⊢
    obtain ⟨x, hx, hk⟩ := hpart.head_mem
    rw [← hk]
    obtain ⟨j, m1, m2, m3, m4⟩ := g4 hlt'
    rcases hrep.union.mem_cases (mem_elements.mpr ⟨_, k5, hx⟩) with hx | hx
    · exact (lt_of_lt_of_le (h.cells.lt_head h.union.ordered hc.left_le m1 m2 hc.nonempty m3 x hx)
        m4).le
    · obtain ⟨i, n1, n2, hi⟩ := mem_batchPart.mp hx
      rw [← batchKey_of_getElem? hi]
      exact (batchKey_lt hin.increasing n2 (by have := hin.batch_le'; omega)).le

end OverallocatedBatchedSparseArray

end BatchPMA
