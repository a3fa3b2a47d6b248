import BatchPMA.Insertion.Routing
import BatchPMA.Insertion.Splitting
import BatchPMA.Rebalance.Content

/-!
# One insertion task

`insertBatchRange` goes through a range of the pma from left to right.  When it has passed the
cells in front of `m` and the batch elements in front of `n`, these cells hold the union of their
old elements and these batch elements; the cells from `m` on are untouched.
-/

namespace BatchPMA

open KeyedUnion Ranges

variable {K α : Type} [LinearOrder K]

/-! ## Parts of the batch -/

section BatchPart

variable {p : BlockParams K α} {batch : List α} {a b c : ℕ}

omit [LinearOrder K] in
lemma batchPart_self : batchPart batch ⟨a, a⟩ = [] := by
  simp [batchPart, Interval.length]

omit [LinearOrder K] in
lemma batchPart_append (h1 : a ≤ b) (h2 : b ≤ c) :
    batchPart batch ⟨a, b⟩ ++ batchPart batch ⟨b, c⟩ = batchPart batch ⟨a, c⟩ := by
  simp only [batchPart, Interval.length]
  rw [show c - a = (b - a) + (c - b) by omega, List.take_add, List.drop_drop,
    show a + (b - a) = b by omega]

omit [LinearOrder K] in
lemma mem_batchPart {x : α} :
    x ∈ batchPart batch ⟨a, b⟩ ↔ ∃ i, a ≤ i ∧ i < b ∧ batch[i]? = some x := by
  simp only [batchPart, Interval.length, List.mem_iff_getElem?]
  constructor
  · rintro ⟨i, hi⟩
    rcases Nat.lt_or_ge i (b - a) with hlt | hge
    · rw [List.getElem?_take_of_lt hlt, List.getElem?_drop] at hi
      exact ⟨a + i, by omega, by omega, hi⟩
    · rw [List.getElem?_take_eq_none hge] at hi
      exact absurd hi (by simp)
  · rintro ⟨i, h1, h2, hi⟩
    refine ⟨i - a, ?_⟩
    rw [List.getElem?_take_of_lt (by omega), List.getElem?_drop, show a + (i - a) = i by omega]
    exact hi

omit [LinearOrder K] in
lemma batchPart_subset {range : Interval} (h1 : range.left ≤ a) (h2 : b ≤ range.right) :
    batchPart batch ⟨a, b⟩ ⊆ batchPart batch range := by
  intro x hx
  obtain ⟨i, g1, g2, g3⟩ := mem_batchPart.mp hx
  exact mem_batchPart.mpr ⟨i, by omega, by omega, g3⟩

omit [LinearOrder K] in
lemma length_batchPart (h : b ≤ batch.length) : (batchPart batch ⟨a, b⟩).length = b - a := by
  rw [batchPart, List.length_take, List.length_drop]
  simp only [Interval.length]
  omega

omit [LinearOrder K] in
lemma batchKey_of_getElem? {i : ℕ} {x : α} (h : batch[i]? = some x) :
    batchKey p batch i = p.keyOf x := by
  rw [batchKey, List.getD_eq_getElem?_getD, h, Option.getD_some]

/-- A part of the batch is sorted if its keys are. -/
lemma increasing_batchPart_iff (hb : b ≤ batch.length) : Increasing p (batchPart batch ⟨a, b⟩) ↔
    ∀ i j, a ≤ i → i < j → j < b → batchKey p batch i < batchKey p batch j := by
  have hget : ∀ i, (hi : i < (batchPart batch ⟨a, b⟩).length) →
      p.keyOf (batchPart batch ⟨a, b⟩)[i] = batchKey p batch (a + i) := by
    intro i hi
    rw [length_batchPart hb] at hi
    have : (batchPart batch ⟨a, b⟩)[i]? = batch[a + i]? := by
      simp only [batchPart, Interval.length]
      rw [List.getElem?_take_of_lt hi, List.getElem?_drop]
    rw [batchKey_of_getElem? (x := (batchPart batch ⟨a, b⟩)[i])]
    rw [← this]
    exact List.getElem?_eq_getElem _
  rw [Increasing, List.pairwise_iff_getElem]
  constructor
  · intro h i j h1 h2 h3
    have hi : i - a < (batchPart batch ⟨a, b⟩).length := by rw [length_batchPart hb]; omega
    have hj : j - a < (batchPart batch ⟨a, b⟩).length := by rw [length_batchPart hb]; omega
    have := h (i - a) (j - a) hi hj (by omega)
    rw [hget _ hi, hget _ hj, show a + (i - a) = i by omega, show a + (j - a) = j by omega] at this
    exact this
  · intro h i j hi hj hij
    rw [hget i hi, hget j hj]
    rw [length_batchPart hb] at hj
    exact h (a + i) (a + j) (by omega) (by omega) (by omega)

end BatchPart

namespace BatchedSparseArray

variable {p : BatchedParams K α} {s : BatchedSparseArray K α} {batch : List α}
  {batchRange pmaRange bufferRange : Interval}

/-! ## What an insertion task is given -/

/-- The block of a cell, if there is one. -/
def ownBlock (p : BatchedParams K α) (s : BatchedSparseArray K α) (c : ℕ) :
    List (PmaEntry K α) := if s.empty p c then [] else [s.pma c]

/-- The keys from the head of a block on that lies at `m` or behind it. -/
def AboveCell (p : BatchedParams K α) (s : BatchedSparseArray K α) (m : ℕ) (k : K) : Prop :=
  ∃ j, m ≤ j ∧ s.empty p j = false ∧ (s.pma j).head ≤ k

/-- A range of the pma that begins with a block, and a sorted range of the batch below the blocks
behind it.  What a split has left behind in dead cells lies in later blocks. -/
structure RangeInput (p : BatchedParams K α) (s : BatchedSparseArray K α) (batch : List α)
    (batchRange pmaRange : Interval) : Prop where
  even : 2 ∣ p.blockSize
  four_le : 4 ≤ p.blockSize
  zero_null : p.keyOf p.zero = p.nullKey
  right_le : pmaRange.right ≤ s.size
  left_lt : pmaRange.left < pmaRange.right
  first : s.empty p pmaRange.left = false
  valid : ∀ c, pmaRange.left ≤ c → c < pmaRange.right → s.empty p c = false →
    (s.pma c).Valid p.toBlockParams
  ordered : ∀ c c', pmaRange.left ≤ c → c < c' → c' < pmaRange.right → s.empty p c = false →
    s.empty p c' = false → ∀ x ∈ (s.pma c).live, ∀ y ∈ (s.pma c').live, p.keyOf x < p.keyOf y
  dead : ∀ c, pmaRange.left ≤ c → c < pmaRange.right → s.empty p c = false →
    ∀ x ∈ (s.pma c).dead, p.keyOf x = p.nullKey ∨ s.AboveCell p (c + 1) (p.keyOf x)
  batch_lt : batchRange.left < batchRange.right
  batch_le : batchRange.right ≤ batch.length
  increasing : Increasing p.toBlockParams (batchPart batch batchRange)
  key_ne_null : ∀ x ∈ batchPart batch batchRange, p.keyOf x ≠ p.nullKey
  below : ∀ x ∈ batchPart batch batchRange, ∀ j, pmaRange.right ≤ j → s.empty p j = false →
    p.keyOf x < (s.pma j).head
  pointers : ∀ c, pmaRange.left ≤ c → c < pmaRange.right → s.bufferPointers c = .zero

section Facts

variable (h : s.RangeInput p batch batchRange pmaRange)
include h

lemma RangeInput.batchKey_lt {i j : ℕ} (h1 : batchRange.left ≤ i) (h2 : i < j)
    (h3 : j < batchRange.right) :
    batchKey p.toBlockParams batch i < batchKey p.toBlockParams batch j :=
  (increasing_batchPart_iff h.batch_le).mp h.increasing i j h1 h2 h3

lemma RangeInput.increasing_part {a b : ℕ} (h1 : batchRange.left ≤ a) (h2 : b ≤ batchRange.right) :
    Increasing p.toBlockParams (batchPart batch ⟨a, b⟩) :=
  (increasing_batchPart_iff (le_trans h2 h.batch_le)).mpr fun i j hi hij hj =>
    h.batchKey_lt (by omega) hij (by omega)

/-- The elements of a block lie below the heads of later blocks of the range. -/
lemma RangeInput.live_lt_head {c c' : ℕ} (h1 : pmaRange.left ≤ c) (h2 : c < c')
    (h3 : c' < pmaRange.right) (hc : s.empty p c = false) (hc' : s.empty p c' = false) :
    ∀ x ∈ (s.pma c).live, p.keyOf x < (s.pma c').head := by
  intro x hx
  obtain ⟨y, hy, hk⟩ := (h.valid c' (by omega) h3 hc').head_mem
  rw [← hk]
  exact h.ordered c c' h1 h2 h3 hc hc' x hx y hy

lemma RangeInput.head_lt {c c' : ℕ} (h1 : pmaRange.left ≤ c) (h2 : c < c')
    (h3 : c' < pmaRange.right) (hc : s.empty p c = false) (hc' : s.empty p c' = false) :
    (s.pma c).head < (s.pma c').head := by
  obtain ⟨x, hx, hk⟩ := (h.valid c h1 (by omega) hc).head_mem
  rw [← hk]
  exact h.live_lt_head h1 h2 h3 hc hc' x hx

end Facts

omit [LinearOrder K] in
lemma empty_congr [DecidableEq K] {s' : BatchedSparseArray K α} (hsize : s'.size = s.size) {c : ℕ}
    (hc : s'.pma c = s.pma c) : s'.empty p c = s.empty p c := by
  rw [empty, empty, hsize, hc]

/-! ## One cell -/

/-- What the insertion of `new` makes of a cell: `own` stays there and `out` goes to the buffer. -/
structure CellDone (p : BatchedParams K α) (s : BatchedSparseArray K α) (c : ℕ) (new : List α)
    (own out : List (PmaEntry K α)) : Prop where
  valid : ∀ b ∈ own ++ out, b.Valid p.toBlockParams
  large : ∀ b ∈ out, p.minBlockSize ≤ b.size
  union : IsUnion p.keyOf (elements (s.ownBlock p c)) new (elements (own ++ out))
  dead : DeadOk p.toBlockParams (s.AboveCell p (c + 1)) (own ++ out)
  count : out.length ≤ 2 * new.length

/-- The blocks that `insertElementsIntoBlock` writes to the buffer. -/
def cellOut (p : BatchedParams K α) (s : BatchedSparseArray K α) (c : ℕ) (new : List α) :
    List (PmaEntry K α) :=
  if (s.pma c).size + new.length ≤ p.blockSize then []
  else splitBlocks p.toBlockParams (s.pma c) new

lemma ownBlock_of_false {c : ℕ} (h : s.empty p c = false) : s.ownBlock p c = [s.pma c] := by
  rw [ownBlock, h]
  rfl

lemma ownBlock_of_true {c : ℕ} (h : s.empty p c = true) : s.ownBlock p c = [] := by
  rw [ownBlock, h]
  rfl

lemma mem_ownBlock {c : ℕ} {b : PmaEntry K α} :
    b ∈ s.ownBlock p c ↔ s.empty p c = false ∧ b = s.pma c := by
  rw [ownBlock]
  split <;> rename_i h <;> simp [h]

/-- The head of a cell can only become smaller. -/
lemma CellDone.head_le {c : ℕ} {new : List α} {own out : List (PmaEntry K α)}
    (h : s.CellDone p c new own out) (hc : s.empty p c = false)
    (hv : (s.pma c).Valid p.toBlockParams) : ∃ b ∈ own ++ out, b.head ≤ (s.pma c).head := by
  obtain ⟨x, hx, hk⟩ := hv.head_mem
  have hin : x ∈ elements (s.ownBlock p c) := by
    rw [ownBlock_of_false hc]
    simpa using hx
  obtain ⟨b, hb, hxb⟩ := mem_elements.mp (h.union.mem_old hin)
  exact ⟨b, hb, hk ▸ (h.valid b hb).head_le hxb⟩

/-- An empty cell, or a block that takes no new elements. -/
lemma RangeInput.cell_untouched (h : s.RangeInput p batch batchRange pmaRange) {c : ℕ}
    (h1 : pmaRange.left ≤ c) (h2 : c < pmaRange.right) :
    s.CellDone p c [] (s.ownBlock p c) [] := by
  cases hc : s.empty p c with
  | true =>
      rw [ownBlock_of_true hc]
      exact ⟨by simp, by simp, by
        rw [ownBlock_of_true hc]; exact IsUnion.nil_new List.Pairwise.nil, trivial, by simp⟩
  | false =>
      have hv := h.valid c h1 h2 hc
      rw [ownBlock_of_false hc]
      refine ⟨fun b hb => ?_, by simp, ?_, ⟨fun x hx => ?_, trivial⟩, by simp⟩
      · rw [List.mem_singleton.mp hb]
        exact hv
      · rw [ownBlock_of_false hc]
        simp only [elements_cons, elements_nil, List.append_nil]
        exact IsUnion.nil_new hv.increasing
      · exact (h.dead c h1 h2 hc x hx).imp id Or.inl

/-- **`insertElementsIntoBlock`** on a block of the range. -/
lemma RangeInput.cell_filled (h : s.RangeInput p batch batchRange pmaRange) {c : ℕ} {new : List α}
    (h1 : pmaRange.left ≤ c) (h2 : c < pmaRange.right) (hc : s.empty p c = false)
    (hne : new ≠ []) (hinc : Increasing p.toBlockParams new)
    (hsub : new ⊆ batchPart batch batchRange)
    (hbelow : ∀ e ∈ new, ∀ j, c < j → s.empty p j = false → p.keyOf e < (s.pma j).head)
    {acc : BatchedSparseArray K α} (hsize : acc.size = s.size) (hpma : acc.pma c = s.pma c)
    (k : ℕ) :
    s.CellDone p c new (ownBlock p (acc.insertElementsIntoBlock p c new bufferRange k).1 c)
      (s.cellOut p c new) := by
  have hv := h.valid c h1 h2 hc
  have hlt : c < s.size := lt_of_lt_of_le h2 h.right_le
  have habove : ∀ e ∈ new, ∀ k, s.AboveCell p (c + 1) k → p.keyOf e < k := by
    rintro e he k ⟨j, hj, hne, hle⟩
    exact lt_of_lt_of_le (hbelow e he j (by omega) hne) hle
  have hnull : ∀ e ∈ new, p.keyOf e ≠ p.nullKey := fun e he => h.key_ne_null e (hsub he)
  have hpos : 0 < new.length := List.length_pos_iff.mpr hne
  rw [insertElementsIntoBlock, hpma, cellOut]
  split
  · -- all elements fit into the block
    rename_i hfit
    have hfree : ∀ x ∈ new, p.keyOf x ≠ p.nullKey ∧ (s.pma c).DeadHidden p.toBlockParams x := by
      refine fun x hx => ⟨hnull x hx, PmaEntry.DeadFree.hidden fun d hd heq => ?_⟩
      rcases h.dead c h1 h2 hc d hd with h3 | h3
      · exact hnull x hx (heq ▸ h3)
      · exact absurd (habove x hx _ h3) (by rw [heq]; exact lt_irrefl _)
    have hm := hv.filled.merge_spec hfit hinc hfree
    have hmv := hm.filled.valid (lt_of_lt_of_le hv.size_pos (hm.le_size hv.filled))
    have hown : ownBlock p (acc.insertIntoBlockWithoutSplit p c new) c =
        [(s.pma c).merge p.toBlockParams new] := by
      have hpma' : (acc.insertIntoBlockWithoutSplit p c new).pma c =
          (s.pma c).merge p.toBlockParams new := by
        rw [insertIntoBlockWithoutSplit, hpma]
        exact Function.update_self ..
      rw [ownBlock_of_false, hpma']
      rw [empty, hpma', if_neg (by
        change ¬ acc.size ≤ c
        rw [hsize]; omega)]
      exact decide_eq_false hmv.head_ne_null
    simp only [hown]
    refine ⟨fun b hb => ?_, by simp, ?_, ⟨fun x hx => ?_, trivial⟩, by simp⟩
    · rw [List.append_nil, List.mem_singleton] at hb
      rw [hb]
      exact hmv
    · rw [ownBlock_of_false hc]
      simp only [elements_cons, elements_nil, List.append_nil]
      exact hm.union
    · exact (h.dead c h1 h2 hc x (hm.dead.mem hx)).imp id Or.inl
  · -- the block moves to the buffer
    rename_i hfit
    have hown : ownBlock p (acc.insertIntoBlockWithSplit p c new bufferRange k).1 c = [] := by
      have hpma' : (acc.insertIntoBlockWithSplit p c new bufferRange k).1.pma c =
          PmaEntry.null p.toBlockParams := Function.update_self ..
      rw [ownBlock_of_true]
      rw [empty, hpma']
      simp
    have hinput : SplitState.SplitInput p.toBlockParams False (s.pma c) (s.AboveCell p (c + 1)) new :=
      ⟨h.even, le_trans (by decide) h.four_le, h.zero_null, hv,
        fun x hx => (h.dead c h1 h2 hc x hx).imp id Or.inl, hinc, hnull, habove⟩
    have hsplit := splitBlocks_spec hinput (not_le.mp hfit)
    have hfour := h.four_le
    have hmin : p.toBlockParams.minBlockSize = p.blockSize / 2 := rfl
    simp only [hown]
    refine ⟨hsplit.valid, hsplit.large, ?_, hsplit.dead, ?_⟩
    · rw [ownBlock_of_false hc]
      simp only [elements_cons, elements_nil, List.append_nil]
      exact hsplit.union
    · exact le_trans (length_splitBlocks_le h.even (by omega) _ hpos) (two_add_le (by omega) hpos)

/-! ## The range up to a cell -/

/-- The blocks that belong to a cell: the one in it, and those written to the buffer for it. -/
def extended (p : BatchedParams K α) (s : BatchedSparseArray K α) (out : ℕ → List (PmaEntry K α))
    (c : ℕ) : List (PmaEntry K α) := s.ownBlock p c ++ out c

/-- The calls of `writeToBufferArray` for the cells `[a, b)`. -/
def writesIn (out : ℕ → List (PmaEntry K α)) (bufferStart a b : ℕ) : List (BufferWrite K α) :=
  (itemsIn (fun c => (out c).map (Prod.mk c)) a b).mapIdx fun i q =>
    ⟨getDenseWriteIndex bufferStart i, q.2, q.1⟩

/-- The cells in front of `m` have taken the batch elements in front of `n`; `out` are the blocks
written to the buffer, cell by cell. -/
structure RangeState (p : BatchedParams K α) (s : BatchedSparseArray K α) (batch : List α)
    (batchRange pmaRange bufferRange : Interval) (m n : ℕ) (out : ℕ → List (PmaEntry K α))
    (acc : BatchedSparseArray K α × List (BufferWrite K α)) : Prop where
  left_le : pmaRange.left ≤ m
  first_le : batchRange.left ≤ n
  frame : acc.1 = { s with
    pma := acc.1.pma
    bufferPointers := acc.1.bufferPointers }
  outside : ∀ c, c < pmaRange.left ∨ m ≤ c → acc.1.pma c = s.pma c ∧ out c = []
  pointers : ∀ c, acc.1.bufferPointers c = if (out c).isEmpty then s.bufferPointers c else
    ⟨getDenseWriteIndex bufferRange.left (itemsIn out pmaRange.left c).length,
      getDenseWriteIndex bufferRange.left (itemsIn out pmaRange.left (c + 1)).length⟩
  writes : acc.2 = writesIn out bufferRange.left pmaRange.left m
  valid : ∀ c, pmaRange.left ≤ c → c < m → ∀ b ∈ acc.1.extended p out c, b.Valid p.toBlockParams
  large : ∀ c, ∀ b ∈ out c, p.minBlockSize ≤ b.size
  union : IsUnion p.keyOf (elements (itemsIn (s.ownBlock p) pmaRange.left m))
    (batchPart batch ⟨batchRange.left, n⟩)
    (elements (itemsIn (acc.1.extended p out) pmaRange.left m))
  dead : DeadOk p.toBlockParams (s.AboveCell p m)
    (itemsIn (acc.1.extended p out) pmaRange.left m)
  count : (itemsIn out pmaRange.left m).length ≤ 2 * (n - batchRange.left)
  /-- What has been inserted lies below the blocks that are still to come. -/
  below : ∀ x ∈ batchPart batch ⟨batchRange.left, n⟩, ∀ j, m ≤ j → s.empty p j = false →
    p.keyOf x < (s.pma j).head

omit [LinearOrder K] in
lemma length_itemsIn_tagged (out : ℕ → List (PmaEntry K α)) (a b : ℕ) :
    (itemsIn (fun c => (out c).map (Prod.mk c)) a b).length = (itemsIn out a b).length := by
  simp [itemsIn, List.length_flatMap]

omit [LinearOrder K] in
lemma length_writesIn (out : ℕ → List (PmaEntry K α)) (bufferStart a b : ℕ) :
    (writesIn out bufferStart a b).length = (itemsIn out a b).length := by
  rw [writesIn, List.length_mapIdx, length_itemsIn_tagged]

omit [LinearOrder K] in
lemma writesIn_succ (out : ℕ → List (PmaEntry K α)) (bufferStart : ℕ) {a b : ℕ} (h : a ≤ b) :
    writesIn out bufferStart a (b + 1) = writesIn out bufferStart a b ++
      denseWrites bufferStart (itemsIn out a b).length b (out b) := by
  rw [writesIn, itemsIn_append _ h (Nat.le_succ b), itemsIn_succ, List.mapIdx_append,
    length_itemsIn_tagged]
  congr 1
  rw [denseWrites]
  refine List.ext_getElem? fun i => ?_
  rw [List.getElem?_mapIdx, List.getElem?_mapIdx, List.getElem?_map, Option.map_map,
    Nat.add_comm i]
  rfl

omit [LinearOrder K] in
lemma writesIn_congr {out out' : ℕ → List (PmaEntry K α)} {bufferStart a b : ℕ}
    (h : ∀ c, a ≤ c → c < b → out c = out' c) :
    writesIn out bufferStart a b = writesIn out' bufferStart a b := by
  rw [writesIn, writesIn, itemsIn_congr fun c h1 h2 => by rw [h c h1 h2]]

section Run

variable {m n n' : ℕ} {out : ℕ → List (PmaEntry K α)}
  {acc acc' : BatchedSparseArray K α × List (BufferWrite K α)}

/-- Before the first block. -/
lemma RangeInput.start : s.RangeState p batch batchRange pmaRange bufferRange pmaRange.left
    batchRange.left (fun _ => []) (s, []) where
  left_le := le_refl _
  first_le := le_refl _
  frame := rfl
  outside := fun c _ => ⟨rfl, rfl⟩
  pointers := fun c => rfl
  writes := by simp [writesIn, itemsIn]
  valid := fun c h1 h2 => by omega
  large := fun c b hb => absurd hb List.not_mem_nil
  union := by
    rw [batchPart_self]
    simp only [itemsIn, Nat.sub_self, List.range'_zero, List.flatMap_nil, elements_nil]
    exact IsUnion.nil_new List.Pairwise.nil
  dead := by
    simp only [itemsIn, Nat.sub_self, List.range'_zero, List.flatMap_nil]
    trivial
  count := by simp [itemsIn]
  below := fun x hx => by
    rw [batchPart_self] at hx
    exact absurd hx List.not_mem_nil

lemma RangeState.size_eq
    (st : s.RangeState p batch batchRange pmaRange bufferRange m n out acc) :
    acc.1.size = s.size := by rw [st.frame]

lemma RangeState.length_eq
    (st : s.RangeState p batch batchRange pmaRange bufferRange m n out acc) :
    acc.2.length = (itemsIn out pmaRange.left m).length := by rw [st.writes, length_writesIn]

/-- From `m` on the state is the old one. -/
lemma RangeState.empty_eq
    (st : s.RangeState p batch batchRange pmaRange bufferRange m n out acc) {c : ℕ} (hc : m ≤ c) :
    acc.1.empty p c = s.empty p c := by
  refine empty_congr ?_ (st.outside c (Or.inr hc)).1
  exact st.size_eq

/-- One more cell. -/
lemma RangeState.extend (st : s.RangeState p batch batchRange pmaRange bufferRange m n out acc)
    (hvalid : s.empty p m = false → (s.pma m).Valid p.toBlockParams) (hn : n ≤ n')
    (hlen : n' ≤ batch.length) {new : List (PmaEntry K α)}
    (hframe : acc'.1 = { acc.1 with
      pma := acc'.1.pma
      bufferPointers := acc'.1.bufferPointers })
    (hother : ∀ j, j ≠ m → acc'.1.pma j = acc.1.pma j ∧
      acc'.1.bufferPointers j = acc.1.bufferPointers j)
    (hptr : acc'.1.bufferPointers m = if new.isEmpty then acc.1.bufferPointers m else
      ⟨getDenseWriteIndex bufferRange.left acc.2.length,
        getDenseWriteIndex bufferRange.left (acc.2.length + new.length)⟩)
    (hwrites : acc'.2 = acc.2 ++ denseWrites bufferRange.left acc.2.length m new)
    (hcell : s.CellDone p m (batchPart batch ⟨n, n'⟩) (ownBlock p acc'.1 m) new)
    (hlt : ∀ x ∈ elements (itemsIn (s.ownBlock p) pmaRange.left m) ++
      batchPart batch ⟨batchRange.left, n⟩, ∀ y ∈ elements (s.ownBlock p m) ++
        batchPart batch ⟨n, n'⟩, p.keyOf x < p.keyOf y)
    (hbelow : ∀ x ∈ batchPart batch ⟨n, n'⟩, ∀ j, m < j → s.empty p j = false →
      p.keyOf x < (s.pma j).head) :
    s.RangeState p batch batchRange pmaRange bufferRange (m + 1) n' (Function.update out m new)
      acc' := by
  have hl := st.left_le
  have hf := st.first_le
  have hsize : acc'.1.size = s.size := by rw [hframe]; exact st.size_eq
  have hout : ∀ c, c ≠ m → Function.update out m new c = out c := fun c hc =>
    Function.update_of_ne hc _ _
  have hext : ∀ c, c < m → extended p acc'.1 (Function.update out m new) c =
      extended p acc.1 out c := by
    intro c hc
    rw [extended, extended, hout c (by omega), ownBlock, ownBlock, (hother c (by omega)).1,
      empty_congr (hsize.trans st.size_eq.symm) (hother c (by omega)).1]
  have hextm : extended p acc'.1 (Function.update out m new) m = ownBlock p acc'.1 m ++ new := by
    rw [extended, Function.update_self]
  have hitems : itemsIn (extended p acc'.1 (Function.update out m new)) pmaRange.left (m + 1) =
      itemsIn (extended p acc.1 out) pmaRange.left m ++ (ownBlock p acc'.1 m ++ new) := by
    rw [itemsIn_append _ hl (Nat.le_succ m), itemsIn_succ, hextm,
      itemsIn_congr fun c _ hc => hext c hc]
  have hold : itemsIn (s.ownBlock p) pmaRange.left (m + 1) =
      itemsIn (s.ownBlock p) pmaRange.left m ++ s.ownBlock p m := by
    rw [itemsIn_append _ hl (Nat.le_succ m), itemsIn_succ]
  have hitemsOut : ∀ c ≤ m, itemsIn (Function.update out m new) pmaRange.left c =
      itemsIn out pmaRange.left c := fun c hc => itemsIn_congr fun i _ hi => hout i (by omega)
  have hitemsOut' : itemsIn (Function.update out m new) pmaRange.left (m + 1) =
      itemsIn out pmaRange.left m ++ new := by
    rw [itemsIn_append _ hl (Nat.le_succ m), itemsIn_succ, Function.update_self,
      hitemsOut m (le_refl _)]
  refine ⟨by omega, by omega, ?_, fun c hc => ?_, fun c => ?_, ?_, fun c h1 h2 => ?_,
    fun c => ?_, ?_, ?_, ?_, fun x hx j hj hne => ?_⟩
  · rw [hframe, st.frame]
  · have hc' : c ≠ m := by omega
    obtain ⟨g1, g2⟩ := st.outside c (by omega)
    exact ⟨(hother c hc').1.trans g1, (hout c hc').trans g2⟩
  · rcases Nat.lt_trichotomy c m with hc | rfl | hc
    · rw [(hother c (by omega)).2, st.pointers c, hout c (by omega), hitemsOut c (by omega),
        hitemsOut (c + 1) (by omega)]
    · rw [hptr, Function.update_self, hitemsOut c (le_refl _), hitemsOut', st.length_eq,
        List.length_append, st.pointers c, (st.outside c (Or.inr (le_refl _))).2]
      rfl
    · obtain ⟨-, g2⟩ := st.outside c (by omega)
      rw [(hother c (by omega)).2, st.pointers c, hout c (by omega), g2]
      rfl
  · rw [hwrites, st.writes, length_writesIn, writesIn_succ _ _ hl, hitemsOut m (le_refl _),
      Function.update_self, writesIn_congr fun c _ hc => (hout c (by omega)).symm]
  · rcases Nat.lt_or_ge c m with hc | hc
    · rw [hext c hc]
      exact st.valid c h1 hc
    · obtain rfl : c = m := by omega
      rw [hextm]
      exact hcell.valid
  · rcases eq_or_ne c m with rfl | hc
    · rw [Function.update_self]
      exact hcell.large
    · rw [hout c hc]
      exact st.large c
  · rw [hitems, hold, elements_append, elements_append, ← batchPart_append hf hn]
    exact st.union.append hcell.union hlt
  · rw [hitems, deadOk_append]
    refine ⟨st.dead.mono ?_, hcell.dead⟩
    rintro k ⟨j, hj, hne, hle⟩
    rcases Nat.eq_or_lt_of_le hj with rfl | hj'
    · obtain ⟨b, hb, hhead⟩ := hcell.head_le hne (hvalid hne)
      exact Or.inr ⟨b, hb, le_trans hhead hle⟩
    · exact Or.inl ⟨j, hj', hne, hle⟩
  · rw [hitemsOut', List.length_append]
    have h1 := st.count
    have h2 := hcell.count
    rw [length_batchPart hlen] at h2
    omega
  · rw [← batchPart_append hf hn] at hx
    rcases List.mem_append.mp hx with hx | hx
    · exact st.below x hx j (by omega) hne
    · exact hbelow x hx j hj hne

omit [LinearOrder K] in
lemma mem_elements_itemsIn {f : ℕ → List (PmaEntry K α)} {x : α} {a b : ℕ} :
    x ∈ elements (itemsIn f a b) ↔ ∃ c, a ≤ c ∧ c < b ∧ x ∈ elements (f c) := by
  simp only [elements, itemsIn, List.mem_flatMap, List.mem_range'_1]
  constructor
  · rintro ⟨e, ⟨c, ⟨h1, h2⟩, h3⟩, h4⟩
    exact ⟨c, h1, by omega, e, h3, h4⟩
  · rintro ⟨c, h1, h2, e, h3, h4⟩
    exact ⟨e, ⟨c, ⟨h1, by omega⟩, h3⟩, h4⟩

lemma mem_elements_ownBlock {c : ℕ} {x : α} :
    x ∈ elements (s.ownBlock p c) ↔ s.empty p c = false ∧ x ∈ (s.pma c).live := by
  rw [mem_elements]
  constructor
  · rintro ⟨b, hb, hx⟩
    obtain ⟨h1, rfl⟩ := mem_ownBlock.mp hb
    exact ⟨h1, hx⟩
  · rintro ⟨h1, hx⟩
    exact ⟨_, mem_ownBlock.mpr ⟨h1, rfl⟩, hx⟩

/-- What lies in front of `m`, old or new, is below the blocks from `m` on. -/
lemma RangeState.lt_head (h : s.RangeInput p batch batchRange pmaRange)
    (st : s.RangeState p batch batchRange pmaRange bufferRange m n out acc) {j : ℕ} (hj : m ≤ j)
    (hjr : j < pmaRange.right) (hne : s.empty p j = false) :
    ∀ x ∈ elements (itemsIn (s.ownBlock p) pmaRange.left m) ++
      batchPart batch ⟨batchRange.left, n⟩, p.keyOf x < (s.pma j).head := by
  intro x hx
  rcases List.mem_append.mp hx with hx | hx
  · obtain ⟨c, h1, h2, hx⟩ := mem_elements_itemsIn.mp hx
    obtain ⟨hc, hx⟩ := mem_elements_ownBlock.mp hx
    exact h.live_lt_head h1 (by omega) hjr hc hne x hx
  · exact st.below x hx j hj hne

/-- A cell that takes no elements. -/
lemma RangeState.skip_one (h : s.RangeInput p batch batchRange pmaRange)
    (st : s.RangeState p batch batchRange pmaRange bufferRange m n out acc)
    (hm : m < pmaRange.right) (hn : n ≤ batchRange.right) :
    s.RangeState p batch batchRange pmaRange bufferRange (m + 1) n out acc := by
  obtain ⟨hpma, hout⟩ := st.outside m (Or.inr (le_refl _))
  have hown : ownBlock p acc.1 m = s.ownBlock p m := by
    rw [ownBlock, ownBlock, st.empty_eq (le_refl _), hpma]
  have hupd : Function.update out m [] = out := by
    rw [← hout]
    exact Function.update_eq_self _ _
  have hcell := h.cell_untouched st.left_le hm
  rw [← hown] at hcell
  have hext := @RangeState.extend _ _ _ _ _ _ _ _ _ _ _ _ _ _ acc st (h.valid m st.left_le hm)
    (le_refl n) (le_trans hn h.batch_le) [] rfl (fun j _ => ⟨rfl, rfl⟩) rfl (by simp [denseWrites])
    (by rw [batchPart_self]; exact hcell) (fun x hx y hy => ?_) (fun x hx => ?_)
  · rwa [hupd] at hext
  · rw [batchPart_self, List.append_nil] at hy
    obtain ⟨hc, hy⟩ := mem_elements_ownBlock.mp hy
    exact lt_of_lt_of_le (st.lt_head h (le_refl _) hm hc x hx)
      ((h.valid m st.left_le hm hc).head_le hy)
  · rw [batchPart_self] at hx
    exact absurd hx List.not_mem_nil

lemma RangeState.skip (h : s.RangeInput p batch batchRange pmaRange)
    (st : s.RangeState p batch batchRange pmaRange bufferRange m n out acc)
    (hn : n ≤ batchRange.right) {m' : ℕ} (hm : m ≤ m') (hm' : m' ≤ pmaRange.right) :
    s.RangeState p batch batchRange pmaRange bufferRange m' n out acc := by
  induction m', hm using Nat.le_induction with
  | base => exact st
  | succ k hk ih => exact (ih (by omega)).skip_one h (by omega) hn

/-- The heads of the range stay in order. -/
lemma RangeState.headsIncreasing (h : s.RangeInput p batch batchRange pmaRange)
    (st : s.RangeState p batch batchRange pmaRange bufferRange m n out acc) :
    (acc.1.view p).HeadsIncreasingOn pmaRange.left pmaRange.right := by
  intro i j hi hij hj hei hej
  change acc.1.empty p i = false at hei
  change acc.1.empty p j = false at hej
  change (acc.1.pma i).head < (acc.1.pma j).head
  have hmem : ∀ {c}, acc.1.empty p c = false → acc.1.pma c ∈ acc.1.extended p out c := fun hc =>
    List.mem_append_left _ (mem_ownBlock.mpr ⟨hc, rfl⟩)
  rcases Nat.lt_or_ge i m with him | him
  · obtain ⟨x, hx, hkx⟩ := (st.valid i hi him _ (hmem hei)).head_mem
    have hx' : x ∈ elements (acc.1.extended p out i) := mem_elements.mpr ⟨_, hmem hei, hx⟩
    rcases Nat.lt_or_ge j m with hjm | hjm
    · obtain ⟨y, hy, hky⟩ := (st.valid j (by omega) hjm _ (hmem hej)).head_mem
      have hord := st.union.ordered
      rw [itemsIn_append _ (show pmaRange.left ≤ j by omega) hjm.le, elements_append] at hord
      rw [← hkx, ← hky]
      exact hord.lt x (mem_elements_itemsIn.mpr ⟨i, hi, hij, hx'⟩) y
        (mem_elements_itemsIn.mpr ⟨j, le_refl _, hjm, mem_elements.mpr ⟨_, hmem hej, hy⟩⟩)
    · rw [(st.outside j (Or.inr hjm)).1, ← hkx]
      rw [st.empty_eq hjm] at hej
      refine st.lt_head h hjm hj hej x (List.mem_append.mpr ?_)
      exact st.union.mem_cases (mem_elements_itemsIn.mpr ⟨i, hi, him, hx'⟩)
  · rw [(st.outside i (Or.inr him)).1, (st.outside j (Or.inr (by omega))).1]
    rw [st.empty_eq him] at hei
    rw [st.empty_eq (by omega)] at hej
    exact h.head_lt hi hij hj hei hej

/-- **One iteration of the loop.**  The elements that lie below the next block go into the block
`m`. -/
lemma RangeState.fill (h : s.RangeInput p batch batchRange pmaRange)
    (st : s.RangeState p batch batchRange pmaRange bufferRange m n out acc)
    (hm : m < pmaRange.right) (hc : s.empty p m = false) (hn : n < n') (hn' : n' ≤ batchRange.right)
    (hhead : m = pmaRange.left ∨ (s.pma m).head ≤ batchKey p.toBlockParams batch n)
    (hbelow : ∀ x ∈ batchPart batch ⟨n, n'⟩, ∀ j, m < j → s.empty p j = false →
      p.keyOf x < (s.pma j).head) :
    s.RangeState p batch batchRange pmaRange bufferRange (m + 1) n'
      (Function.update out m (s.cellOut p m (batchPart batch ⟨n, n'⟩)))
      ((acc.1.insertElementsIntoBlock p m (batchPart batch ⟨n, n'⟩) bufferRange acc.2.length).1,
        acc.2 ++ (acc.1.insertElementsIntoBlock p m (batchPart batch ⟨n, n'⟩) bufferRange
          acc.2.length).2) := by
  have hlen : n' ≤ batch.length := le_trans hn' h.batch_le
  have hf := st.first_le
  obtain ⟨hpma, hout⟩ := st.outside m (Or.inr (le_refl _))
  have hsub : batchPart batch ⟨n, n'⟩ ⊆ batchPart batch batchRange := batchPart_subset hf hn'
  have hne : batchPart batch ⟨n, n'⟩ ≠ [] := by
    intro hnil
    have := length_batchPart (a := n) hlen
    rw [hnil, List.length_nil] at this
    omega
  have hcell := @RangeInput.cell_filled _ _ _ _ _ _ _ _ bufferRange h _ _ st.left_le hm hc hne
    (h.increasing_part hf hn') hsub hbelow _ st.size_eq hpma acc.2.length
  refine st.extend (h.valid m st.left_le hm) hn.le hlen ?_ (fun j hj => ?_) ?_ ?_ hcell
    (fun x hx y hy => ?_) hbelow
  · rw [insertElementsIntoBlock]
    split <;> rfl
  · rw [insertElementsIntoBlock]
    split
    · exact ⟨Function.update_of_ne hj _ _, rfl⟩
    · exact ⟨Function.update_of_ne hj _ _, Function.update_of_ne hj _ _⟩
  · rw [insertElementsIntoBlock, cellOut, hpma]
    split
    · rfl
    · have hb : splitBlocks p.toBlockParams (s.pma m) (batchPart batch ⟨n, n'⟩) ≠ [] :=
        splitBlocks_ne_nil _ _
      have hpos := List.length_pos_iff.mpr hb
      rw [if_neg (by simpa using hb)]
      simp only [insertIntoBlockWithSplit, hpma, Function.update_self]
      congr 1
      simp only [getDenseWriteIndex]
      omega
  · rw [insertElementsIntoBlock, cellOut, hpma]
    split
    · simp [denseWrites]
    · rw [insertIntoBlockWithSplit, hpma]
  · rcases List.mem_append.mp hy with hy | hy
    · obtain ⟨-, hy⟩ := mem_elements_ownBlock.mp hy
      exact lt_of_lt_of_le (st.lt_head h (le_refl _) hm hc x hx)
        ((h.valid m st.left_le hm hc).head_le hy)
    · obtain ⟨i, g1, g2, g3⟩ := mem_batchPart.mp hy
      rcases List.mem_append.mp hx with hx' | hx'
      · rcases hhead with rfl | hle
        · obtain ⟨c, h1, h2, -⟩ := mem_elements_itemsIn.mp hx'
          omega
        · refine lt_of_lt_of_le (lt_of_lt_of_le (st.lt_head h (le_refl _) hm hc x hx) hle) ?_
          rw [← batchKey_of_getElem? g3]
          rcases Nat.eq_or_lt_of_le g1 with rfl | hlt
          · exact le_refl _
          · exact (h.batchKey_lt hf hlt (by omega)).le
      · obtain ⟨i', g1', g2', g3'⟩ := mem_batchPart.mp hx'
        rw [← batchKey_of_getElem? g3, ← batchKey_of_getElem? g3']
        exact h.batchKey_lt g1' (by omega) (by omega)

/-- Where the search of an iteration goes on: the next element lies below the first block, or it
belongs to a block that has not been passed. -/
def RangeInput.Next (p : BatchedParams K α) (s : BatchedSparseArray K α) (batch : List α)
    (pmaRange : Interval) (m n block : ℕ) : Prop :=
  m = pmaRange.left ∧ block = pmaRange.left ∧
    batchKey p.toBlockParams batch n < (s.pma pmaRange.left).head ∨
  ∃ j, m ≤ j ∧ j < pmaRange.right ∧ s.empty p j = false ∧
    (s.pma j).head ≤ batchKey p.toBlockParams batch n

/-- The block that `exponentialSearch` finds. -/
lemma RangeState.search (h : s.RangeInput p batch batchRange pmaRange)
    (st : s.RangeState p batch batchRange pmaRange bufferRange m n out acc) {block : ℕ}
    (hl : pmaRange.left ≤ block) (hb : block ≤ m)
    (hnext : RangeInput.Next p s batch pmaRange m n block) :
    ∃ c, (acc.1.view p).exponentialSearch (batchKey p.toBlockParams batch n) block
        pmaRange.right = c ∧ m ≤ c ∧ c < pmaRange.right ∧ s.empty p c = false ∧
      (c = pmaRange.left ∨ (s.pma c).head ≤ batchKey p.toBlockParams batch n) ∧
      ∀ j, c < j → j < pmaRange.right → s.empty p j = false →
        batchKey p.toBlockParams batch n < (s.pma j).head := by
  rcases hnext with ⟨rfl, rfl, hlt⟩ | ⟨j, hj, hjr, hne, hle⟩
  · refine ⟨pmaRange.left, ArrayView.exponentialSearch_first h.left_lt ?_ ?_, le_refl _, h.left_lt,
      h.first, Or.inl rfl, fun j h1 h2 h3 => lt_trans hlt (h.head_lt (le_refl _) h1 h2 h.first h3)⟩
    · exact (st.empty_eq (le_refl _)).trans h.first
    · change _ < (acc.1.pma _).head
      rw [(st.outside _ (Or.inr (le_refl _))).1]
      exact hlt
  · have hview : (acc.1.view p).head j ≤ batchKey p.toBlockParams batch n := by
      change (acc.1.pma j).head ≤ _
      rw [(st.outside j (Or.inr hj)).1]
      exact hle
    obtain ⟨c, hjc, hc⟩ := ArrayView.exists_isLastIn hjr ((st.empty_eq hj).trans hne) hview
    have hcm : m ≤ c := by omega
    refine ⟨c, ArrayView.exponentialSearch_eq ((st.headsIncreasing h).mono hl (le_refl _)) hc
      (by omega), hcm, hc.lt_upper, ?_, Or.inr ?_, fun i h1 h2 h3 => ?_⟩
    · rw [← st.empty_eq hcm]
      exact hc.nonempty
    · have := hc.head_le
      change (acc.1.pma c).head ≤ _ at this
      rwa [(st.outside c (Or.inr hcm)).1] at this
    · have := hc.lt_head i h1 h2 ((st.empty_eq (by omega)).trans h3)
      change _ < (acc.1.pma i).head at this
      rwa [(st.outside i (Or.inr (by omega))).1] at this

/-- `findLastBatchElementForBlock` takes the elements below the next block. -/
lemma RangeState.lastElement (h : s.RangeInput p batch batchRange pmaRange)
    (st : s.RangeState p batch batchRange pmaRange bufferRange m n out acc)
    (hn : n < batchRange.right) {next : ℕ} (hle : next ≤ pmaRange.right) (hm : m ≤ next)
    (hne : next < pmaRange.right → s.empty p next = false)
    (hfirst : next < pmaRange.right →
      batchKey p.toBlockParams batch n < (s.pma next).head) :
    n < acc.1.findLastBatchElementForBlock p batch n batchRange next pmaRange ∧
      acc.1.findLastBatchElementForBlock p batch n batchRange next pmaRange ≤ batchRange.right ∧
      (∀ x ∈ batchPart batch ⟨n, acc.1.findLastBatchElementForBlock p batch n batchRange next
          pmaRange⟩, ∀ j, next ≤ j → s.empty p j = false → p.keyOf x < (s.pma j).head) ∧
      (acc.1.findLastBatchElementForBlock p batch n batchRange next pmaRange < batchRange.right →
        next < pmaRange.right ∧ (s.pma next).head ≤ batchKey p.toBlockParams batch
          (acc.1.findLastBatchElementForBlock p batch n batchRange next pmaRange)) := by
  have hf := st.first_le
  have hl := st.left_le
  rw [findLastBatchElementForBlock]
  split
  · rename_i heq
    exact ⟨hn, le_refl _, fun x hx j hj hj' => h.below x (batchPart_subset hf (le_refl _) hx) j
      (by omega) hj', fun hlt => absurd hlt (lt_irrefl _)⟩
  · rename_i hneq
    have hlt : next < pmaRange.right := by omega
    have hhead : (acc.1.view p).head next = (s.pma next).head := by
      change (acc.1.pma next).head = _
      rw [(st.outside next (Or.inr hm)).1]
    rw [hhead]
    have hup := Scan.scanUp_le (fun i => decide (batchKey p.toBlockParams batch i <
      (s.pma next).head)) (batchRange.right - n) n
    have hdown := Scan.le_scanUp (fun i => decide (batchKey p.toBlockParams batch i <
      (s.pma next).head)) (batchRange.right - n) n
    have hstop : ∀ hlt : Scan.scanUp (fun i => decide (batchKey p.toBlockParams batch i <
        (s.pma next).head)) (batchRange.right - n) n < batchRange.right,
        (s.pma next).head ≤ batchKey p.toBlockParams batch (Scan.scanUp (fun i =>
          decide (batchKey p.toBlockParams batch i < (s.pma next).head))
            (batchRange.right - n) n) := fun hlt => by
      simpa using Scan.scanUp_stop (p := fun i => decide (batchKey p.toBlockParams batch i <
        (s.pma next).head)) (n := batchRange.right - n) (c := n) (by omega)
    have hskip : ∀ i, n ≤ i → i < Scan.scanUp (fun i => decide (batchKey p.toBlockParams batch i <
        (s.pma next).head)) (batchRange.right - n) n →
        batchKey p.toBlockParams batch i < (s.pma next).head := fun i h1 h2 => by
      simpa using Scan.scanUp_skipped h1 h2
    generalize Scan.scanUp (fun i => decide (batchKey p.toBlockParams batch i <
      (s.pma next).head)) (batchRange.right - n) n = n' at *
    refine ⟨?_, by omega, fun x hx j hj hj' => ?_, fun hlt' => ⟨hlt, hstop hlt'⟩⟩
    · refine lt_of_le_of_ne hdown fun heq => ?_
      have := hstop (by omega)
      rw [← heq] at this
      exact absurd (hfirst hlt) (not_lt.mpr this)
    · obtain ⟨i, h1, h2, h3⟩ := mem_batchPart.mp hx
      rcases Nat.lt_or_ge j pmaRange.right with hjr | hjr
      · have hkey := hskip i h1 h2
        rw [batchKey_of_getElem? h3] at hkey
        rcases Nat.eq_or_lt_of_le hj with rfl | hj
        · exact hkey
        · exact lt_trans hkey (h.head_lt (by omega) hj hjr (hne hlt) hj')
      · exact h.below x (batchPart_subset hf (by omega) hx) j hjr hj'

lemma insertBatchLoop_of_le {block : ℕ} (hn : batchRange.right ≤ n) :
    ∀ fuel, insertBatchLoop p batch batchRange pmaRange bufferRange fuel n block acc = (acc, n)
  | 0 => rfl
  | fuel + 1 => by rw [insertBatchLoop, if_neg (not_lt.mpr hn)]

/-- **The loop of `insertBatchRange`.**  Every iteration uses up an element of the batch, and the
loop ends with `batchIndex` at the end of the range. -/
lemma RangeState.loop (h : s.RangeInput p batch batchRange pmaRange) :
    ∀ (fuel m n block : ℕ) (out : ℕ → List (PmaEntry K α))
      (acc : BatchedSparseArray K α × List (BufferWrite K α)),
      s.RangeState p batch batchRange pmaRange bufferRange m n out acc → m ≤ pmaRange.right →
      n ≤ batchRange.right → batchRange.right - n ≤ fuel → pmaRange.left ≤ block → block ≤ m →
      (n < batchRange.right → RangeInput.Next p s batch pmaRange m n block) →
      (∃ out', s.RangeState p batch batchRange pmaRange bufferRange pmaRange.right batchRange.right
        out' (insertBatchLoop p batch batchRange pmaRange bufferRange fuel n block acc).1) ∧
      (insertBatchLoop p batch batchRange pmaRange bufferRange fuel n block acc).2 =
        batchRange.right ∧
      ∀ k, insertBatchLoop p batch batchRange pmaRange bufferRange (fuel + k) n block acc =
        insertBatchLoop p batch batchRange pmaRange bufferRange fuel n block acc
  | 0, m, n, block, out, acc, st, hm, hn, hfuel, _, _, _ => by
      obtain rfl : n = batchRange.right := by omega
      exact ⟨⟨out, st.skip h hn hm (le_refl _)⟩, rfl, fun k => insertBatchLoop_of_le (le_refl _) _⟩
  | fuel + 1, m, n, block, out, acc, st, hm, hn, hfuel, hl, hb, hnext => by
      rcases Nat.lt_or_ge n batchRange.right with hlt | hge
      · simp only [Nat.add_right_comm fuel 1, insertBatchLoop, if_pos hlt]
        obtain ⟨c, hsearch, hmc, hcr, hc, hhead, hlast⟩ := st.search h hl hb (hnext hlt)
        simp only [hsearch]
        -- the next block behind `c`
        have hge : c + 1 ≤ (acc.1.view p).findNext c pmaRange.right :=
          ArrayView.le_skipEmpty _ (c + 1) _
        have hle : (acc.1.view p).findNext c pmaRange.right ≤ pmaRange.right :=
          ArrayView.skipEmpty_le _ hcr
        have hskipped : ∀ i, c < i → i < (acc.1.view p).findNext c pmaRange.right →
            s.empty p i = true := fun i h1 h2 => by
          rw [← st.empty_eq (by omega)]
          exact ArrayView.skipEmpty_skipped _ h1 h2
        have hstop : (acc.1.view p).findNext c pmaRange.right < pmaRange.right →
            s.empty p ((acc.1.view p).findNext c pmaRange.right) = false := fun h1 => by
          rw [← st.empty_eq (by omega)]
          exact ArrayView.skipEmpty_stop h1
        generalize (acc.1.view p).findNext c pmaRange.right = next at *
        have hst := st.skip h hn hmc hcr.le
        obtain ⟨g1, g2, g3, g4⟩ := st.lastElement h hlt hle (by omega) hstop
          (fun h1 => hlast next (by omega) h1 (hstop h1))
        generalize acc.1.findLastBatchElementForBlock p batch n batchRange next pmaRange = n' at *
        have hbelow : ∀ x ∈ batchPart batch ⟨n, n'⟩, ∀ j, c < j → s.empty p j = false →
            p.keyOf x < (s.pma j).head := by
          intro x hx j hj hne
          refine g3 x hx j ?_ hne
          by_contra hlt'
          rw [hskipped j hj (by omega)] at hne
          exact absurd hne (by simp)
        have hfill := hst.fill h hcr hc g1 g2 hhead hbelow
        exact RangeState.loop h fuel next n' c _ _ (hfill.skip h g2 hge hle) hle g2 (by omega)
          (by have := st.left_le; omega) (by omega) fun hlt' => Or.inr
            ⟨next, le_refl _, (g4 hlt').1, hstop (g4 hlt').1, (g4 hlt').2⟩
      · obtain rfl : n = batchRange.right := by omega
        rw [insertBatchLoop_of_le hge]
        exact ⟨⟨out, st.skip h hn hm (le_refl _)⟩, rfl, fun k => insertBatchLoop_of_le hge _⟩

end Run

end BatchedSparseArray

end BatchPMA
