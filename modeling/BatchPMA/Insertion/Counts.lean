import BatchPMA.Model.Insertion
import BatchPMA.Block.Valid

/-!
# How many blocks are written

Bounds on the number of blocks the three insertion routines write, from the sizes of blocks alone:
between two splits at least `MinBlockSize` elements are used up.  `splits` is the number of splits
that `n` elements can cause in a block with room for `room` more.
-/

namespace BatchPMA

variable {K α : Type}

/-- The first split takes an element more than there is room for, each further one
`minBlockSize` elements. -/
def splits (minBlockSize n room : ℕ) : ℕ := (n - room + (minBlockSize - 1)) / minBlockSize

section Splits

variable {m n n' room room' : ℕ}

lemma splits_mono (h : n - room ≤ n' - room') : splits m n room ≤ splits m n' room' :=
  Nat.div_le_div_right (by omega)

/-- A split pays for `minBlockSize` elements. -/
lemma splits_full (hm : 0 < m) (hn : 0 < n) : splits m n m + 1 ≤ splits m n 0 := by
  rw [splits, splits, Nat.sub_zero]
  rcases Nat.lt_or_ge n m with hlt | hge
  · rw [Nat.sub_eq_zero_of_le hlt.le, Nat.zero_add, Nat.div_eq_of_lt (by omega)]
    exact (Nat.le_div_iff_mul_le hm).mpr (by omega)
  · rw [← Nat.add_div_right _ hm]
    exact Nat.div_le_div_right (by omega)

lemma splits_le (hm : 0 < m) (hn : 0 < n) (room : ℕ) :
    splits m n room ≤ 1 + (n - 1) / m := by
  have h : splits m n room ≤ splits m n 0 := splits_mono (by omega)
  refine le_trans h (le_of_eq ?_)
  rw [splits, Nat.add_comm 1, ← Nat.add_div_right _ hm]
  congr 1
  omega

/-- Two blocks for every element, even if the routine splits at once. -/
lemma two_add_le (hm : 2 ≤ m) (hn : 0 < n) : 2 + (n - 1) / m ≤ 2 * n := by
  have h2 : (n - 1) / m ≤ (n - 1) / 2 := Nat.div_le_div_left hm (by norm_num)
  omega

end Splits

/-! ## Sizes of blocks -/

namespace PmaEntry

variable {p : BlockParams K α} {b : PmaEntry K α}

lemma size_insertAtIndex (b : PmaEntry K α) (e : α) (i : ℕ) :
    (b.insertAtIndex p e i).size = b.size + 1 := rfl

lemma isEmpty_split (b : PmaEntry K α) : (b.split p).2.isEmpty = false := rfl

variable [LinearOrder K]

lemma size_insertWithIndex (b : PmaEntry K α) (e : α) (i : ℕ) :
    b.size ≤ (b.insertWithIndex p e i).1.size ∧
      (b.insertWithIndex p e i).1.size ≤ b.size + 1 := by
  rw [insertWithIndex]
  simp only
  split
  · exact ⟨le_refl _, Nat.le_succ _⟩
  · split <;> simp [updateHead, size_insertAtIndex]

lemma size_mergeLoop : ∀ (es : List α) (b : PmaEntry K α) (start : ℕ),
    (mergeLoop p es b start).size ≤ b.size + es.length
  | [], b, start => le_refl _
  | e :: es, b, start => by
      rw [mergeLoop]
      simp only [List.length_cons]
      refine le_trans (size_mergeLoop es _ _) ?_
      split
      · omega
      · rw [size_insertAtIndex]
        omega

lemma size_merge_le (b : PmaEntry K α) (es : List α) :
    (b.merge p es).size ≤ b.size + es.length := by
  cases es with
  | nil => exact le_refl _
  | cons e es =>
      rw [merge]
      simp only [List.length_cons]
      refine le_trans (size_mergeLoop es _ _) ?_
      split
      · omega
      · split <;> simp only [updateHead, size_insertAtIndex] <;> omega

end PmaEntry

variable [LinearOrder K] {p : BlockParams K α}

/-! ## Splitting a block -/

namespace SplitState

/-- The number of blocks that would be written if the loop ended here. -/
def count (st : SplitState K α) : ℕ := st.finish.length

omit [LinearOrder K] in
lemma count_eq (st : SplitState K α) :
    st.count = st.written.length + 1 + if st.rightHalf.isEmpty then 0 else 1 := by
  rw [count, finish]
  split <;> simp

/-- A right half has just been split off, and the insertion block has kept its lower half. -/
def HalfFull (p : BlockParams K α) (st : SplitState K α) : Prop :=
  st.rightHalf.isEmpty = false → st.rightHalf.size = p.minBlockSize ∧
    p.minBlockSize ≤ st.insertionBlock.size

variable {st : SplitState K α}

lemma count_switch (st : SplitState K α) (e : α) : (st.switch p e).count = st.count := by
  rw [switch]
  split
  · rename_i h
    rw [count_eq, count_eq]
    simp [h.1]
  · rfl

lemma count_insert (st : SplitState K α) (e : α) : (st.insert p e).count = st.count := by
  rw [count_eq, count_eq]
  rfl

omit [LinearOrder K] in
lemma count_split (st : SplitState K α) : (st.split p).count = st.count + 1 := by
  rw [split]
  simp only
  split
  · rename_i h
    rw [count_eq, count_eq]
    simp [h, PmaEntry.isEmpty_split]
  · rename_i h
    rw [count_eq, count_eq]
    simp [h]

/-- Switching the roles does not take room. -/
lemma HalfFull.switch (h : st.HalfFull p) (e : α) : (st.switch p e).HalfFull p ∧
    (st.switch p e).insertionBlock.size ≤ st.insertionBlock.size := by
  rw [SplitState.switch]
  split
  · rename_i hcond
    obtain ⟨h1, h2⟩ := h hcond.1
    exact ⟨fun hne => absurd hne (by simp), by simp only; omega⟩
  · exact ⟨h, le_refl _⟩

lemma HalfFull.insert (h : st.HalfFull p) (e : α) : (st.insert p e).HalfFull p := fun hne =>
  ⟨(h hne).1, le_trans (h hne).2 (PmaEntry.size_insertWithIndex _ _ _).1⟩

omit [LinearOrder K] in
lemma HalfFull.split (h : st.HalfFull p) : (st.split p).HalfFull p ∧
    (st.split p).insertionBlock.size = p.minBlockSize := by
  rw [SplitState.split]
  simp only
  split
  · exact ⟨fun _ => ⟨rfl, le_refl _⟩, rfl⟩
  · rename_i hne
    exact ⟨fun _ => ⟨(h (by simpa using hne)).1, le_refl _⟩, rfl⟩

/-- The number of blocks grows by one with each split. -/
lemma count_loop (heven : 2 ∣ p.blockSize) (hm : 0 < p.minBlockSize) :
    ∀ (n : ℕ) (es : List α) (st : SplitState K α), st.HalfFull p →
      (loop p n es st).count ≤ st.count +
        splits p.minBlockSize es.length (p.blockSize - st.insertionBlock.size)
  | 0, es, st, _ => Nat.le_add_right _ _
  | n + 1, [], st, _ => Nat.le_add_right _ _
  | n + 1, e :: es, st, h => by
      have hbs : p.blockSize = 2 * p.minBlockSize := by
        rw [BlockParams.minBlockSize]
        omega
      obtain ⟨hs, hsize⟩ := h.switch e
      have hcount := count_switch (p := p) st e
      rw [loop]
      split
      · rename_i hlt
        have ih := count_loop heven hm n es _ (hs.insert e)
        have hins := (PmaEntry.size_insertWithIndex (p := p) (st.switch p e).insertionBlock e
          (st.switch p e).lastInsertionIndex).2
        rw [count_insert, hcount] at ih
        refine le_trans ih (Nat.add_le_add_left (splits_mono ?_) _)
        have hfield : ((st.switch p e).insert p e).insertionBlock =
          ((st.switch p e).insertionBlock.insertWithIndex p e
            (st.switch p e).lastInsertionIndex).1 := rfl
        rw [hfield, List.length_cons]
        omega
      · rename_i hge
        obtain ⟨hs', hsize'⟩ := hs.split
        have ih := count_loop heven hm n (e :: es) _ hs'
        rw [count_split, hcount, hsize'] at ih
        have hroom : p.blockSize - p.minBlockSize = p.minBlockSize := by omega
        have hfull := splits_full hm (show 0 < (e :: es).length by simp)
        have hzero : p.blockSize - st.insertionBlock.size = 0 := by omega
        rw [hroom] at ih
        rw [hzero]
        omega

end SplitState

omit [LinearOrder K] in
lemma count_start (block : PmaEntry K α) :
    SplitState.count ⟨[], block, PmaEntry.null p, 0⟩ = 1 := rfl

lemma splitBlocks_ne_nil (block : PmaEntry K α) (elements : List α) :
    splitBlocks p block elements ≠ [] := by
  rw [splitBlocks, SplitState.finish]
  simp

/-- The number of blocks that a block is turned into. -/
theorem length_splitBlocks_le (heven : 2 ∣ p.blockSize) (hm : 0 < p.minBlockSize)
    (block : PmaEntry K α) {elements : List α} (hne : 0 < elements.length) :
    (splitBlocks p block elements).length ≤ 2 + (elements.length - 1) / p.minBlockSize := by
  have h := SplitState.count_loop heven hm (2 * elements.length) elements
    ⟨[], block, PmaEntry.null p, 0⟩ fun hne => absurd hne (by simp)
  have hle := splits_le hm hne (p.blockSize - block.size)
  rw [count_start] at h
  have : (splitBlocks p block elements).length ≤
      1 + splits p.minBlockSize elements.length (p.blockSize - block.size) := h
  omega

/-! ## Merging into an empty range -/

lemma length_emptyRangeLoop (hpos : 0 < p.blockSize) :
    ∀ (n : ℕ) (es : List α) (block : PmaEntry K α),
      (emptyRangeLoop p n es block).length ≤ es.length + 1
  | 0, es, block => by
      rw [emptyRangeLoop]
      split <;> simp
  | n + 1, [], block => by
      rw [emptyRangeLoop]
      split <;> simp
  | n + 1, e :: es, block => by
      have ih := fun b => length_emptyRangeLoop hpos n
        ((e :: es).drop (min p.blockSize (es.length + 1))) b
      simp only [List.length_drop, List.length_cons] at ih
      rw [emptyRangeLoop]
      split
      · have := ih ((nextBlock p block (es.length + 1)).2.merge p
          ((e :: es).take (min p.blockSize (es.length + 1))))
        simp only [List.length_cons]
        omega
      · have := ih (block.merge p ((e :: es).take (min p.blockSize (es.length + 1))))
        simp only [List.length_cons]
        omega

lemma length_emptyRangeBlocks_le (hpos : 0 < p.blockSize) (elements : List α) :
    (emptyRangeBlocks p elements).length ≤ elements.length + 1 :=
  length_emptyRangeLoop hpos _ _ _

/-! ## Inverse merges -/

omit [LinearOrder K] in
lemma size_nextBlock_le (block : PmaEntry K α) (n : ℕ) :
    (nextBlock p block n).2.size ≤ p.minBlockSize := by
  rw [nextBlock]
  split
  · exact le_refl _
  · exact Nat.zero_le _

namespace MergeState

/-- The number of elements that are left. -/
def left (st : MergeState K α) : ℕ := st.batch.length + st.rest.length

/-- What is used up, and the room it takes. -/
structure Uses (p : BlockParams K α) (st st' : MergeState K α) (n : ℕ) : Prop where
  written_eq : st'.written = st.written
  le_room : n ≤ p.blockSize - st.insertionBlock.size
  left_le : st'.left + n ≤ st.left
  size_le : st'.insertionBlock.size ≤ st.insertionBlock.size + n

lemma uses_takeFromBlock {st : MergeState K α} (hroom : st.insertionBlock.size < p.blockSize)
    (x : α) {batch rest : List α} (hleft : batch.length + rest.length + 1 ≤ st.left) :
    st.Uses p (st.takeFromBlock p x batch rest) 1 := by
  refine ⟨rfl, by omega, ?_, (PmaEntry.size_insertWithIndex _ _ _).2⟩
  have := (List.dropWhile_suffix (l := batch) fun y =>
    decide (p.keyOf y = p.keyOf x)).sublist.length_le
  simp only [left, takeFromBlock] at *
  omega

lemma uses_takeFromBatch {st : MergeState K α} (hroom : st.insertionBlock.size < p.blockSize)
    (y : α) {batch : List α} (hleft : batch.length + st.rest.length + 1 ≤ st.left) :
    st.Uses p (st.takeFromBatch p y batch) 1 := by
  rw [takeFromBatch]
  split
  · exact ⟨rfl, by omega, hleft, (PmaEntry.size_insertWithIndex _ _ _).2⟩
  · exact ⟨rfl, by omega, hleft, Nat.le_succ _⟩

lemma uses_mergeBatch (st : MergeState K α) :
    st.Uses p (st.mergeBatch p) (min (p.blockSize - st.insertionBlock.size) st.batch.length) := by
  refine ⟨rfl, min_le_left _ _, ?_, ?_⟩
  · simp only [left, mergeBatch, List.length_drop]
    omega
  · refine le_trans (PmaEntry.size_merge_le _ _) ?_
    simp only [List.length_take]
    omega

lemma uses_mergeRest (st : MergeState K α) :
    st.Uses p (st.mergeRest p) (min (p.blockSize - st.insertionBlock.size) st.rest.length) := by
  refine ⟨rfl, min_le_left _ _, ?_, ?_⟩
  · simp only [left, mergeRest, List.length_drop]
    omega
  · refine le_trans (PmaEntry.size_merge_le _ _) ?_
    simp only [List.length_take]
    omega

lemma uses_step {st : MergeState K α} (hroom : st.insertionBlock.size < p.blockSize) :
    ∃ n, st.Uses p (st.step p) n := by
  rw [step]
  split
  · rename_i x rest y batch hrest hbatch
    split
    · exact ⟨1, uses_takeFromBlock hroom x (by simp [left, hrest, hbatch])⟩
    · split
      · exact ⟨1, uses_takeFromBlock hroom x (by simp [left, hrest, hbatch]; omega)⟩
      · exact ⟨1, uses_takeFromBatch hroom y (by simp [left, hrest, hbatch])⟩
  · exact ⟨_, st.uses_mergeBatch⟩
  · exact ⟨_, st.uses_mergeRest⟩

/-- Every full block but the first has taken `minBlockSize` elements. -/
lemma length_written_loop (heven : 2 ∣ p.blockSize) (hm : 0 < p.minBlockSize) :
    ∀ (n : ℕ) (st : MergeState K α), st.insertionBlock.size ≤ p.blockSize →
      (loop p n st).written.length ≤ st.written.length +
        splits p.minBlockSize st.left (p.blockSize - st.insertionBlock.size)
  | 0, st, _ => Nat.le_add_right _ _
  | n + 1, st, hsize => by
      have hbs : p.blockSize = 2 * p.minBlockSize := by
        rw [BlockParams.minBlockSize]
        omega
      rw [loop]
      split
      · exact Nat.le_add_right _ _
      · rename_i hne
        have hpos : 0 < st.left := by
          rw [left]
          by_contra hz
          exact hne ⟨List.length_eq_zero_iff.mp (by omega), List.length_eq_zero_iff.mp (by omega)⟩
        -- flushing a full block pays for a split
        have hflush : (st.flush p).insertionBlock.size < p.blockSize ∧
            (st.flush p).left = st.left ∧ (st.flush p).written.length +
              splits p.minBlockSize st.left (p.blockSize - (st.flush p).insertionBlock.size) ≤
            st.written.length +
              splits p.minBlockSize st.left (p.blockSize - st.insertionBlock.size) := by
          rw [flush]
          split
          · rename_i hfull
            have hnext := size_nextBlock_le (p := p) st.insertionBlock
              (max st.batch.length st.rest.length)
            have h1 : splits p.minBlockSize st.left (p.blockSize - (nextBlock p st.insertionBlock
                (max st.batch.length st.rest.length)).2.size) ≤
                splits p.minBlockSize st.left p.minBlockSize := splits_mono (by omega)
            have h2 := splits_full hm hpos
            simp only [List.length_append, List.length_singleton]
            rw [hfull, Nat.sub_self]
            exact ⟨by omega, rfl, by omega⟩
          · exact ⟨by omega, rfl, le_refl _⟩
        obtain ⟨hroom, hleft, hle⟩ := hflush
        obtain ⟨k, hwritten, hk, hl, hs⟩ := uses_step hroom
        have ih := length_written_loop heven hm n ((st.flush p).step p) (by omega)
        have hmono : splits p.minBlockSize ((st.flush p).step p).left
            (p.blockSize - ((st.flush p).step p).insertionBlock.size) ≤
            splits p.minBlockSize st.left (p.blockSize - (st.flush p).insertionBlock.size) :=
          splits_mono (by omega)
        rw [hwritten] at ih
        omega

end MergeState

/-- The number of blocks that an inverse merge writes, for a part of a merge block that fits into
one block. -/
theorem length_inverseMergeBlocks_le (heven : 2 ∣ p.blockSize) (hm : 0 < p.minBlockSize)
    {batch rest : List α} (hne : 0 < batch.length) (hrest : rest.length ≤ p.blockSize) :
    (inverseMergeBlocks p batch rest).length ≤ 2 + (batch.length - 1) / p.minBlockSize := by
  have h := MergeState.length_written_loop heven hm (batch.length + rest.length)
    ⟨[], (PmaEntry.null p).allocateBlock p, p.nullKey, batch, rest⟩ (Nat.zero_le _)
  have hroom : splits p.minBlockSize (batch.length + rest.length) (p.blockSize - 0) ≤
      splits p.minBlockSize batch.length 0 := splits_mono (by omega)
  have hle := splits_le hm hne 0
  have hsum : (MergeState.loop p (batch.length + rest.length)
      ⟨[], (PmaEntry.null p).allocateBlock p, p.nullKey, batch, rest⟩).written.length ≤
      0 + splits p.minBlockSize (batch.length + rest.length) (p.blockSize - 0) := h
  rw [inverseMergeBlocks, MergeState.finish, List.length_append]
  split
  · simp only [List.length_singleton]
    omega
  · simp only [List.length_nil]
    omega

end BatchPMA
