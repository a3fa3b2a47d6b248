import BatchPMA.Model.InPlace

/-!
# The aggregates of the size manager

An aggregate is exact if it is the sum of the sizes of the blocks it covers.  When blocks move by
one cell, every border between two aggregates is crossed by one block, and everything in front of
a border changes by the size of that block; so it is enough to know how the prefix sums change.
-/

namespace BatchPMA

variable {blockSize blockSize' : ℕ → ℕ} {a b c : ℕ}

/-! ## Sums of block sizes -/

@[simp] lemma linearNumberOfElements_self : linearNumberOfElements blockSize a a = 0 := by
  simp [linearNumberOfElements]

lemma linearNumberOfElements_append (h1 : a ≤ b) (h2 : b ≤ c) :
    linearNumberOfElements blockSize a b + linearNumberOfElements blockSize b c =
      linearNumberOfElements blockSize a c := by
  have hr : List.range' a (b - a) ++ List.range' b (c - b) = List.range' a (c - a) := by
    have := @List.range'_append a (b - a) (c - b) 1
    rw [Nat.one_mul, Nat.add_sub_cancel' h1] at this
    rw [this]
    congr 1
    omega
  rw [linearNumberOfElements, linearNumberOfElements, linearNumberOfElements, ← hr,
    List.map_append, List.sum_append]

lemma linearNumberOfElements_succ (h : a ≤ b) : linearNumberOfElements blockSize a (b + 1) =
    linearNumberOfElements blockSize a b + blockSize b := by
  rw [← linearNumberOfElements_append h (Nat.le_succ b)]
  congr 1
  rw [linearNumberOfElements, Nat.succ_eq_add_one, Nat.add_sub_cancel_left, List.range'_one]
  simp

namespace BlockSizeManager

variable {m : BlockSizeManager}

/-! ## Exact aggregates -/

/-- Every aggregate is the sum over the cells that it covers. -/
def Exact (m : BlockSizeManager) (blockSize : ℕ → ℕ) : Prop :=
  ∀ i < m.size, m.aggregates i =
    linearNumberOfElements blockSize (getBlockIndex i) (getBlockIndex (i + 1))

lemma le_getBlockIndex_nextAggregate (left : ℕ) : left ≤ getBlockIndex (nextAggregate left) := by
  rw [getBlockIndex, nextAggregate, aggregateIndex, sizeAggregateWidth]
  split <;> omega

lemma getBlockIndex_aggregateIndex_le (right : ℕ) : getBlockIndex (aggregateIndex right) ≤ right :=
  Nat.div_mul_le_self _ _

/-- The aggregates of a run of cells. -/
lemma Exact.sum_aggregates (h : m.Exact blockSize) {start : ℕ} : ∀ {n : ℕ}, start + n ≤ m.size →
    ((List.range' start n).map m.aggregates).sum =
      linearNumberOfElements blockSize (getBlockIndex start) (getBlockIndex (start + n))
  | 0, _ => by simp
  | n + 1, hn => by
      rw [List.range'_concat, List.map_append, List.sum_append, h.sum_aggregates (by omega),
        Nat.one_mul, List.map_singleton, List.sum_singleton, h (start + n) (by omega),
        linearNumberOfElements_append]
      · rfl
      · exact Nat.mul_le_mul_right _ (Nat.le_add_right _ _)
      · exact Nat.mul_le_mul_right _ (Nat.le_succ _)

/-- **The two size managers agree** if the aggregates are exact. -/
theorem Exact.getNumberOfElements_eq (h : m.Exact blockSize) {left right : ℕ}
    (hright : aggregateIndex right ≤ m.size) :
    m.getNumberOfElements blockSize left right = linearNumberOfElements blockSize left right := by
  rw [getNumberOfElements]
  split
  · rename_i hlt
    have h1 := le_getBlockIndex_nextAggregate left
    have h2 := getBlockIndex_aggregateIndex_le right
    have h3 : getBlockIndex (nextAggregate left) ≤ getBlockIndex (aggregateIndex right) :=
      Nat.mul_le_mul_right _ hlt.le
    rw [h.sum_aggregates (by omega), Nat.add_sub_cancel' hlt.le,
      linearNumberOfElements_append h1 h3, linearNumberOfElements_append (le_trans h1 h3) h2]
  · rfl

/-- Exactness by prefix sums. -/
lemma exact_iff : m.Exact blockSize ↔ ∀ i < m.size, m.aggregates i =
    linearNumberOfElements blockSize 0 (getBlockIndex (i + 1)) -
      linearNumberOfElements blockSize 0 (getBlockIndex i) := by
  refine forall₂_congr fun i _ => ?_
  have := @linearNumberOfElements_append blockSize _ _ _ (Nat.zero_le (getBlockIndex i))
    (show getBlockIndex i ≤ getBlockIndex (i + 1) from Nat.mul_le_mul_right _ (Nat.le_succ i))
  omega

/-! ## Adjusting one block -/

@[simp] lemma size_fetchAdd (i : ℕ) (value : ℤ) : (m.fetchAdd i value).size = m.size := rfl

lemma aggregates_fetchAdd (j : ℕ) (value : ℤ) (i : ℕ) :
    (m.fetchAdd j value).aggregates i = m.aggregates i + if i = j then value else 0 := by
  rw [fetchAdd]
  simp only [Function.update_apply]
  split
  · rename_i h
    rw [h]
  · rw [add_zero]

@[simp] lemma size_adjustBlockSize (i oldSize newSize : ℕ) :
    (m.adjustBlockSize i oldSize newSize).size = m.size := rfl

/-- A block that gets a new size changes the prefix sums behind it. -/
lemma prefix_adjust {n : ℕ} (hin : blockSize' a = n)
    (hout : ∀ c, c ≠ a → blockSize' c = blockSize c) : ∀ x,
    linearNumberOfElements blockSize' 0 x =
      linearNumberOfElements blockSize 0 x + if a < x then (n : ℤ) - blockSize a else 0
  | 0 => by simp
  | x + 1 => by
      rw [linearNumberOfElements_succ (Nat.zero_le x), linearNumberOfElements_succ (Nat.zero_le x),
        prefix_adjust hin hout x]
      rcases Nat.lt_trichotomy x a with hlt | rfl | hgt
      · rw [if_neg (by omega), if_neg (by omega), hout x (by omega)]
        ring
      · rw [if_neg (lt_irrefl _), if_pos (Nat.lt_succ_self _), hin]
        ring
      · rw [if_pos hgt, if_pos (by omega), hout x (by omega)]
        ring

lemma aggregateIndex_eq_iff {i : ℕ} :
    i = aggregateIndex a ↔ getBlockIndex i ≤ a ∧ a < getBlockIndex (i + 1) := by
  rw [aggregateIndex, getBlockIndex, getBlockIndex, sizeAggregateWidth]
  omega

/-- **`adjustBlockSize`.** -/
lemma Exact.adjustBlockSize (h : m.Exact blockSize) {n : ℕ} (hin : blockSize' a = n)
    (hout : ∀ c, c ≠ a → blockSize' c = blockSize c) :
    (m.adjustBlockSize a (blockSize a) n).Exact blockSize' := by
  rw [exact_iff] at h ⊢
  intro i hi
  rw [BlockSizeManager.adjustBlockSize, aggregates_fetchAdd, h i hi, prefix_adjust hin hout,
    prefix_adjust hin hout, if_congr aggregateIndex_eq_iff rfl rfl]
  have hle : getBlockIndex i ≤ getBlockIndex (i + 1) := Nat.mul_le_mul_right _ (Nat.le_succ i)
  split_ifs <;> omega

/-! ## Moving blocks by one cell -/

/-- Moving a value across every border of a run of aggregates. -/
lemma foldl_move {f : BlockSizeManager → ℕ → BlockSizeManager} {v : ℕ → ℤ}
    (hf : ∀ m j i, 0 < j → (f m j).aggregates i = m.aggregates i +
      ((if i + 1 = j then v j else 0) - if i = j then v j else 0)) {start : ℕ} (hstart : 0 < start) :
    ∀ (n : ℕ) (m : BlockSizeManager) (i : ℕ),
      ((List.range' start n).foldl f m).aggregates i = m.aggregates i +
        ((if start ≤ i + 1 ∧ i + 1 < start + n then v (i + 1) else 0) -
          if start ≤ i ∧ i < start + n then v i else 0)
  | 0, m, i => by
      rw [if_neg (by omega), if_neg (by omega)]
      simp
  | n + 1, m, i => by
      rw [List.range'_concat, List.foldl_append, List.foldl_cons, List.foldl_nil,
        hf _ _ _ (by omega), foldl_move hf hstart n m i, Nat.one_mul]
      rcases Nat.lt_trichotomy (i + 1) (start + n) with hlt | heq | hgt
      · rw [if_neg (show ¬ i + 1 = start + n by omega), if_neg (show ¬ i = start + n by omega),
          if_congr (show start ≤ i + 1 ∧ i + 1 < start + (n + 1) ↔
            start ≤ i + 1 ∧ i + 1 < start + n by omega) rfl rfl,
          if_congr (show start ≤ i ∧ i < start + (n + 1) ↔ start ≤ i ∧ i < start + n by omega)
            rfl rfl]
        ring
      · rw [← heq, if_pos rfl, if_neg (show ¬ i = i + 1 by omega), if_neg (lt_irrefl _ ∘ And.right),
          if_pos (show start ≤ i + 1 ∧ i + 1 < start + (n + 1) by omega),
          if_congr (show start ≤ i ∧ i < start + (n + 1) ↔ start ≤ i ∧ i < i + 1 by omega) rfl rfl]
        ring
      · rcases Nat.eq_or_lt_of_le (show start + n ≤ i by omega) with heq | hlt
        · rw [heq, if_neg (show ¬ i + 1 = i by omega), if_pos rfl,
            if_neg (show ¬ (start ≤ i + 1 ∧ i + 1 < i) by omega),
            if_neg (show ¬ (start ≤ i ∧ i < i) by omega),
            if_neg (show ¬ (start ≤ i + 1 ∧ i + 1 < start + (n + 1)) by omega),
            if_pos (show start ≤ i ∧ i < start + (n + 1) by omega)]
          ring
        · rw [if_neg (show ¬ i + 1 = start + n by omega), if_neg (show ¬ i = start + n by omega),
            if_neg (show ¬ (start ≤ i + 1 ∧ i + 1 < start + n) by omega),
            if_neg (show ¬ (start ≤ i ∧ i < start + n) by omega),
            if_neg (show ¬ (start ≤ i + 1 ∧ i + 1 < start + (n + 1)) by omega),
            if_neg (show ¬ (start ≤ i ∧ i < start + (n + 1)) by omega)]
          ring

lemma size_foldl {f : BlockSizeManager → ℕ → BlockSizeManager}
    (hf : ∀ m j, (f m j).size = m.size) : ∀ (l : List ℕ) (m : BlockSizeManager),
    (l.foldl f m).size = m.size
  | [], _ => rfl
  | j :: l, m => (size_foldl hf l (f m j)).trans (hf m j)

@[simp] lemma size_shiftLeft (left stop : ℕ) : (m.shiftLeft blockSize left stop).size = m.size :=
  size_foldl (fun m _ => by rw [size_fetchAdd, size_fetchAdd]) _ _

@[simp] lemma size_shiftRight (left right : ℕ) :
    (m.shiftRight blockSize left right).size = m.size :=
  size_foldl (fun m _ => by rw [size_fetchAdd, size_fetchAdd]) _ _

lemma aggregates_shiftLeft (left stop i : ℕ) :
    (m.shiftLeft blockSize left stop).aggregates i = m.aggregates i +
      ((if left < getBlockIndex (i + 1) ∧ getBlockIndex (i + 1) ≤ stop then
          (blockSize (getBlockIndex (i + 1) - 1) : ℤ) else 0) -
        if left < getBlockIndex i ∧ getBlockIndex i ≤ stop then
          (blockSize (getBlockIndex i - 1) : ℤ) else 0) := by
  rw [shiftLeft]
  simp only
  rw [foldl_move (v := fun j => (blockSize (getBlockIndex j - 1) : ℤ)) (fun m j i hj => ?_)
    (Nat.succ_pos _)]
  · simp only [aggregateIndex, getBlockIndex, sizeAggregateWidth]
    congr 2
    · exact if_congr (by omega) rfl rfl
    · exact if_congr (by omega) rfl rfl
  · simp only [aggregates_fetchAdd]
    split_ifs <;> omega

lemma aggregates_shiftRight {left : ℕ} (hleft : 0 < left) (right i : ℕ) :
    (m.shiftRight blockSize left right).aggregates i = m.aggregates i +
      ((if left ≤ getBlockIndex i ∧ getBlockIndex i ≤ right then
          (blockSize (getBlockIndex i) : ℤ) else 0) -
        if left ≤ getBlockIndex (i + 1) ∧ getBlockIndex (i + 1) ≤ right then
          (blockSize (getBlockIndex (i + 1)) : ℤ) else 0) := by
  have hnext : ∀ j, nextAggregate left ≤ j ↔ left ≤ getBlockIndex j := by
    intro j
    rw [nextAggregate, aggregateIndex, getBlockIndex, sizeAggregateWidth]
    split <;> omega
  have hlast : ∀ j, j < aggregateIndex right + 1 ↔ getBlockIndex j ≤ right := by
    intro j
    rw [aggregateIndex, getBlockIndex, sizeAggregateWidth]
    omega
  have hpos : 0 < nextAggregate left := by
    by_contra h0
    have := (hnext 0).mp (by omega)
    rw [getBlockIndex, Nat.zero_mul] at this
    omega
  have hrun : ∀ j, (nextAggregate left ≤ j ∧
      j < nextAggregate left + (aggregateIndex right + 1 - nextAggregate left)) ↔
        left ≤ getBlockIndex j ∧ getBlockIndex j ≤ right := by
    intro j
    rw [← hnext, ← hlast]
    omega
  rw [shiftRight]
  simp only
  rw [foldl_move (v := fun j => -(blockSize (getBlockIndex j) : ℤ)) (fun m j i hj => ?_) hpos,
    if_congr (hrun _) rfl rfl, if_congr (hrun _) rfl rfl]
  · split_ifs <;> omega
  · simp only [aggregates_fetchAdd]
    split_ifs <;> omega

/-- Blocks have moved to the right, from `a` on and over the free cell `b`. -/
lemma prefix_shiftRight {n : ℕ} (hab : a ≤ b) (hfree : blockSize b = 0) (hin : blockSize' a = n)
    (hmoved : ∀ c, a < c → c ≤ b → blockSize' c = blockSize (c - 1))
    (hout : ∀ c, c < a ∨ b < c → blockSize' c = blockSize c) : ∀ x,
    linearNumberOfElements blockSize' 0 x = linearNumberOfElements blockSize 0 x +
      ((if a < x then (n : ℤ) else 0) - if a + 1 ≤ x ∧ x ≤ b then (blockSize' x : ℤ) else 0)
  | 0 => by simp
  | x + 1 => by
      rw [linearNumberOfElements_succ (Nat.zero_le x), linearNumberOfElements_succ (Nat.zero_le x),
        prefix_shiftRight hab hfree hin hmoved hout x]
      have hnext : a + 1 ≤ x + 1 ∧ x + 1 ≤ b → blockSize' (x + 1) = blockSize x := fun h => by
        rw [hmoved (x + 1) (by omega) h.2, Nat.add_sub_cancel]
      have hlast : x = b → blockSize x = 0 := fun h => h ▸ hfree
      rcases Nat.lt_trichotomy x a with hlt | rfl | hgt
      · have := hout x (Or.inl hlt)
        split_ifs <;> omega
      · split_ifs <;> omega
      · have := hout x
        split_ifs <;> omega

/-- Blocks have moved to the left, up to `b` and over the free cell `a`. -/
lemma prefix_shiftLeft {n : ℕ} (hab : a ≤ b) (hfree : blockSize a = 0) (hin : blockSize' b = n)
    (hmoved : ∀ c, a ≤ c → c < b → blockSize' c = blockSize (c + 1))
    (hout : ∀ c, c < a ∨ b < c → blockSize' c = blockSize c) : ∀ x,
    linearNumberOfElements blockSize' 0 x = linearNumberOfElements blockSize 0 x +
      ((if b < x then (n : ℤ) else 0) + if a < x ∧ x ≤ b then (blockSize' (x - 1) : ℤ) else 0)
  | 0 => by simp
  | x + 1 => by
      rw [linearNumberOfElements_succ (Nat.zero_le x), linearNumberOfElements_succ (Nat.zero_le x),
        prefix_shiftLeft hab hfree hin hmoved hout x]
      have hprev : a < x → x ≤ b → blockSize' (x - 1) = blockSize x := fun h1 h2 => by
        rw [hmoved (x - 1) (by omega) (by omega), Nat.sub_add_cancel (by omega)]
      have hfirst : x = a → blockSize x = 0 := fun h => h ▸ hfree
      have hlast : x = b → blockSize' x = n := fun h => h ▸ hin
      have := hout x
      rw [Nat.add_sub_cancel]
      split_ifs <;> omega

lemma getBlockIndex_lt (i : ℕ) : getBlockIndex i < getBlockIndex (i + 1) := by
  rw [getBlockIndex, getBlockIndex, sizeAggregateWidth]
  omega

/-- **`shiftRight`**, behind the adjustment for the new block. -/
lemma Exact.shiftRight (h : m.Exact blockSize) {n : ℕ} (hab : a ≤ b) (hfree : blockSize b = 0)
    (hin : blockSize' a = n) (hmoved : ∀ c, a < c → c ≤ b → blockSize' c = blockSize (c - 1))
    (hout : ∀ c, c < a ∨ b < c → blockSize' c = blockSize c) :
    ((m.adjustBlockSize a 0 n).shiftRight blockSize' (a + 1) b).Exact blockSize' := by
  rw [exact_iff] at h ⊢
  intro i hi
  rw [size_shiftRight] at hi
  have hpre := prefix_shiftRight hab hfree hin hmoved hout
  rw [aggregates_shiftRight (Nat.succ_pos a), BlockSizeManager.adjustBlockSize, aggregates_fetchAdd,
    h i hi, hpre, hpre, if_congr aggregateIndex_eq_iff rfl rfl]
  have := getBlockIndex_lt i
  split_ifs <;> omega

/-- **`shiftLeft`**, behind the adjustment for the new block. -/
lemma Exact.shiftLeft (h : m.Exact blockSize) {n : ℕ} (hab : a ≤ b) (hfree : blockSize a = 0)
    (hin : blockSize' b = n) (hmoved : ∀ c, a ≤ c → c < b → blockSize' c = blockSize (c + 1))
    (hout : ∀ c, c < a ∨ b < c → blockSize' c = blockSize c) :
    ((m.adjustBlockSize b 0 n).shiftLeft blockSize' a b).Exact blockSize' := by
  rw [exact_iff] at h ⊢
  intro i hi
  rw [size_shiftLeft] at hi
  have hpre := prefix_shiftLeft hab hfree hin hmoved hout
  rw [aggregates_shiftLeft, BlockSizeManager.adjustBlockSize, aggregates_fetchAdd,
    h i hi, hpre, hpre, if_congr aggregateIndex_eq_iff rfl rfl]
  have := getBlockIndex_lt i
  split_ifs <;> omega

/-- **`recompute`.** -/
lemma exact_recompute (sdsSize : ℕ) : (m.recompute blockSize sdsSize).Exact blockSize := by
  intro i hi
  exact if_pos hi

lemma size_recompute (sdsSize : ℕ) :
    (m.recompute blockSize sdsSize).size = aggregateIndex sdsSize + 1 := rfl

end BlockSizeManager

end BatchPMA
