import BatchPMA.Hierarchy.Geometry

/-!
# Growing the hierarchy

`resize` either only notes the new size, or it doubles the capacity until the new size fits and
starts over with a tree of zeros.
-/

namespace BatchPMA

namespace RebalancingManager

variable {m : RebalancingManager} {n : ℕ}

/-- The loop of `resize`: it doubles the capacity some number of times. -/
lemma growLoop_spec (newSize : ℕ) : ∀ (fuel : ℕ) (m : RebalancingManager),
    0 < m.capacity → newSize < m.capacity + fuel → ∃ k, growLoop newSize fuel m =
      { m with
        logCapacity := m.logCapacity + k
        logCapacityWithSuperRoot := m.logCapacityWithSuperRoot + k
        capacity := m.capacity * 2 ^ k } ∧ newSize < m.capacity * 2 ^ k
  | 0, m, _, h => ⟨0, by simp [growLoop], by simpa using h⟩
  | fuel + 1, m, hpos, h => by
      rw [growLoop]
      split
      · rename_i hle
        obtain ⟨k, heq, hlt⟩ := growLoop_spec newSize fuel
          { m with
            logCapacity := m.logCapacity + 1
            logCapacityWithSuperRoot := m.logCapacityWithSuperRoot + 1
            capacity := m.capacity * 2 } (by simp only; omega) (by simp only; omega)
        refine ⟨k + 1, ?_, ?_⟩
        · rw [heq]
          simp only [pow_succ, mk.injEq, true_and, and_true]
          refine ⟨by omega, by omega, by ring⟩
        · rw [pow_succ]
          calc newSize < m.capacity * 2 * 2 ^ k := hlt
            _ = m.capacity * (2 ^ k * 2) := by ring
      · rename_i hlt
        exact ⟨0, by simp, by simpa using hlt⟩

/-- Nothing but the size changes when the tree is large enough. -/
lemma resize_of_le (h : m.lowestLevelNodeIndex n + 1 ≤ m.capacity) :
    m.resize n = { m with size := m.lowestLevelNodeIndex n + 1 } := by
  rw [resize]
  simp only
  rw [if_neg]
  omega

/-- A tree that has been replaced. -/
structure Grown (m m' : RebalancingManager) : Prop where
  levels : m'.LevelsValid
  le : m.logCapacity ≤ m'.logCapacity
  zero : ∀ i l, m'.aggregate i l = .zero
  aggregateWidth_eq : m'.aggregateWidth = m.aggregateWidth
  density_eq : m'.density = m.density
  next_eq : m'.nextLevelRecountingNodes = m.nextLevelRecountingNodes

lemma resize_of_lt (hm : m.LevelsValid) (hsize : m.size ≤ m.capacity)
    (h : m.capacity < m.lowestLevelNodeIndex n + 1) :
    m.Grown (m.resize n) ∧ m.lowestLevelNodeIndex n + 1 < (m.resize n).capacity := by
  have hpos : 0 < m.capacity := by rw [hm.capacity_eq]; exact Nat.two_pow_pos _
  obtain ⟨k, heq, hlt⟩ := growLoop_spec (m.lowestLevelNodeIndex n + 1)
    (m.lowestLevelNodeIndex n + 1 + 1) { m with size := m.lowestLevelNodeIndex n + 1 } hpos
    (by simp only; omega)
  rw [resize]
  simp only
  rw [if_pos ⟨by omega, h⟩, heq]
  refine ⟨⟨⟨?_, ?_, rfl, rfl⟩, Nat.le_add_right _ _, fun _ _ => rfl, rfl, rfl, rfl⟩, hlt⟩
  · change m.capacity * 2 ^ k = 2 ^ (m.logCapacity + k)
    rw [hm.capacity_eq, pow_add]
  · change m.logCapacityWithSuperRoot + k = m.logCapacity + k + 1
    rw [hm.super_eq]
    omega

/-- Either way. -/
lemma resize_or_grown (hm : m.LevelsValid) (hsize : m.size ≤ m.capacity) (n : ℕ) :
    (m.resize n = { m with size := m.lowestLevelNodeIndex n + 1 } ∧
        m.lowestLevelNodeIndex n + 1 ≤ m.capacity) ∨
      m.Grown (m.resize n) ∧ m.capacity < m.lowestLevelNodeIndex n + 1 ∧
        m.lowestLevelNodeIndex n + 1 < (m.resize n).capacity := by
  rcases Nat.lt_or_ge m.capacity (m.lowestLevelNodeIndex n + 1) with hlt | hle
  · obtain ⟨hgrown, hcap⟩ := resize_of_lt hm hsize hlt
    exact Or.inr ⟨hgrown, hlt, hcap⟩
  · exact Or.inl ⟨resize_of_le hle, hle⟩

lemma growLoop_aggregateWidth (newSize : ℕ) : ∀ (fuel : ℕ) (m : RebalancingManager),
    (growLoop newSize fuel m).aggregateWidth = m.aggregateWidth
  | 0, _ => rfl
  | fuel + 1, m => by
      rw [growLoop]
      split
      · exact growLoop_aggregateWidth newSize fuel _
      · rfl

@[simp] lemma aggregateWidth_resize (m : RebalancingManager) (n : ℕ) :
    (m.resize n).aggregateWidth = m.aggregateWidth := by
  rw [resize]
  simp only
  split
  · exact growLoop_aggregateWidth _ _ _
  · rfl

lemma growLoop_size (newSize : ℕ) : ∀ (fuel : ℕ) (m : RebalancingManager),
    (growLoop newSize fuel m).size = m.size
  | 0, _ => rfl
  | fuel + 1, m => by
      rw [growLoop]
      split
      · exact growLoop_size newSize fuel _
      · rfl

lemma size_resize (m : RebalancingManager) (n : ℕ) :
    (m.resize n).size = m.lowestLevelNodeIndex n + 1 := by
  rw [resize]
  simp only
  split
  · exact growLoop_size _ _ _
  · rfl

/-! ## The layout in every run -/

/-- What index computations rely on, for an array of the given size. -/
structure Layout (m : RebalancingManager) (sdsSize : ℕ) : Prop where
  capacity_eq : m.capacity = 2 ^ m.logCapacity
  super_eq : m.logCapacityWithSuperRoot = m.logCapacity + 1
  injective : ∀ level index level' index', m.IsNode level index → m.IsNode level' index' →
    m.aggregateIndex index level = m.aggregateIndex index' level' → level = level' ∧ index = index'
  bounded : ∀ level index, m.IsNode level index → m.aggregateIndex index level < m.aggregatesSize
  children : ∀ level index, 1 ≤ level → level ≤ m.logCapacity → m.IsNode level index → ∀ c,
    ((m.rebalancingRange ⟨level, index⟩).contains c ↔
      (m.rebalancingRange ⟨level - 1, leftChild index⟩).contains c ∨
        (m.rebalancingRange ⟨level - 1, rightChild index⟩).contains c) ∧
      ¬ ((m.rebalancingRange ⟨level - 1, leftChild index⟩).contains c ∧
        (m.rebalancingRange ⟨level - 1, rightChild index⟩).contains c)
  leaf_lt : ∀ i ≤ sdsSize, m.lowestLevelNodeIndex i < m.capacity
  root_contains : ∀ i < sdsSize, (m.rebalancingRange ⟨m.logCapacity, 0⟩).contains i

/-- What every call of `resize` keeps; `sdsSize` is the size it was last called with. -/
structure Resized (m : RebalancingManager) (sdsSize : ℕ) : Prop where
  levels : m.LevelsValid
  aggregatesSize_eq : m.aggregatesSize = 2 * m.capacity
  size_eq : m.size = m.lowestLevelNodeIndex sdsSize + 1
  size_le : m.size ≤ m.capacity
  width_pos : 0 < m.aggregateWidth

lemma resized_create {aggregateWidth sdsSize : ℕ} (density : DensityManager)
    (hpos : 0 < aggregateWidth)
    (hfit : sdsSize / aggregateWidth + 1 ≤ 2 ^ logInitialHierarchyCapacity) :
    (create aggregateWidth density sdsSize).Resized sdsSize :=
  ⟨⟨rfl, rfl, rfl, rfl⟩, rfl, rfl, hfit, hpos⟩

/-- **One call of `resize`.** -/
lemma Resized.resize {sdsSize : ℕ} (h : m.Resized sdsSize) (newSdsSize : ℕ) :
    (m.resize newSdsSize).Resized newSdsSize := by
  have hsize : (m.resize newSdsSize).size = m.lowestLevelNodeIndex newSdsSize + 1 := by
    rcases Nat.lt_or_ge m.capacity (m.lowestLevelNodeIndex newSdsSize + 1) with hlt | hge
    · obtain ⟨k, heq, -⟩ := growLoop_spec (m.lowestLevelNodeIndex newSdsSize + 1)
        (m.lowestLevelNodeIndex newSdsSize + 1 + 1)
        { m with size := m.lowestLevelNodeIndex newSdsSize + 1 }
        (by rw [h.levels.capacity_eq]; exact Nat.two_pow_pos _) (by simp only; omega)
      have hold := h.size_le
      rw [RebalancingManager.resize]
      simp only
      rw [if_pos ⟨by omega, hlt⟩, heq]
      rfl
    · rw [resize_of_le hge]
  have hnode : (m.resize newSdsSize).lowestLevelNodeIndex newSdsSize =
      m.lowestLevelNodeIndex newSdsSize := by
    rw [lowestLevelNodeIndex, aggregateWidth_resize, lowestLevelNodeIndex]
  have hwidth : 0 < (m.resize newSdsSize).aggregateWidth := by
    rw [aggregateWidth_resize]
    exact h.width_pos
  rcases Nat.lt_or_ge m.capacity (m.lowestLevelNodeIndex newSdsSize + 1) with hlt | hge
  · obtain ⟨hgrown, hcap⟩ := resize_of_lt h.levels h.size_le hlt
    refine ⟨hgrown.levels, ?_, by rw [hsize, hnode], by omega, hwidth⟩
    have hold := h.size_le
    rw [RebalancingManager.resize]
    simp only
    rw [if_pos ⟨by omega, hlt⟩]
    rfl
  · have heq := resize_of_le hge
    refine ⟨?_, ?_, by rw [hsize, hnode], ?_, hwidth⟩
    · rw [heq]
      exact ⟨h.levels.capacity_eq, h.levels.super_eq, h.levels.starts_eq, h.levels.widths_eq⟩
    · rw [heq]
      exact h.aggregatesSize_eq
    · rw [heq]
      exact hge

/-- Any number of calls. -/
lemma Resized.foldl : ∀ (sizes : List ℕ) {m : RebalancingManager} {sdsSize : ℕ},
    m.Resized sdsSize →
      (sizes.foldl RebalancingManager.resize m).Resized (sizes.getLastD sdsSize)
  | [], _, _, h => h
  | n :: sizes, m, sdsSize, h => by
      rw [List.foldl_cons, List.getLastD_cons]
      exact Resized.foldl sizes (h.resize n)

/-- The ranges of the children meet in the middle of the range of their parent. -/
lemma LevelsValid.range_children (h : m.LevelsValid) {l i : ℕ} (hl : l + 1 ≤ m.logCapacity) :
    ∃ a b c, a ≤ b ∧ b ≤ c ∧ m.rebalancingRange ⟨l + 1, i⟩ = ⟨a, c⟩ ∧
      m.rebalancingRange ⟨l, leftChild i⟩ = ⟨a, b⟩ ∧
      m.rebalancingRange ⟨l, rightChild i⟩ = ⟨b, c⟩ := by
  refine ⟨i * 2 * (2 ^ l * m.aggregateWidth), (i * 2 + 1) * (2 ^ l * m.aggregateWidth),
    (i * 2 + 1 + 1) * (2 ^ l * m.aggregateWidth), Nat.mul_le_mul_right _ (Nat.le_succ _),
    Nat.mul_le_mul_right _ (Nat.le_succ _), ?_,
    @LevelsValid.rebalancingRange_eq _ h ⟨l, leftChild i⟩ (by simp only; omega),
    @LevelsValid.rebalancingRange_eq _ h ⟨l, rightChild i⟩ (by simp only; omega)⟩
  rw [h.rebalancingRange_eq hl]
  simp only [pow_succ, Interval.mk.injEq]
  exact ⟨by ring, by ring⟩

lemma Resized.layout {sdsSize : ℕ} (h : m.Resized sdsSize) : m.Layout sdsSize := by
  have hleaf : ∀ i ≤ sdsSize, m.lowestLevelNodeIndex i < m.capacity := by
    intro i hi
    have h1 : m.lowestLevelNodeIndex i ≤ m.lowestLevelNodeIndex sdsSize := Nat.div_le_div_right hi
    have h2 := h.size_eq
    have h3 := h.size_le
    omega
  refine ⟨h.levels.capacity_eq, h.levels.super_eq,
    fun _ _ _ _ hn hn' heq => h.levels.aggregateIndex_inj hn hn' heq, fun level index hn => ?_,
    fun level index h1 h2 _ c => ?_, hleaf, fun i hi => ?_⟩
  · have hstart := h.levels.levelStart_add hn.1
    have hindex := hn.2
    have hle : 2 ^ (m.logCapacity - level) ≤ 2 ^ (m.logCapacity + 1 - level) :=
      Nat.pow_le_pow_right (by omega) (by omega)
    rw [aggregateIndex, h.aggregatesSize_eq, h.levels.capacity_eq, ← pow_succ']
    omega
  · obtain ⟨l, rfl⟩ : ∃ l, level = l + 1 := ⟨level - 1, by omega⟩
    obtain ⟨x, y, z, hxy, hyz, hr, hleft, hright⟩ := h.levels.range_children (i := index) h2
    rw [Nat.add_sub_cancel, hr, hleft, hright]
    simp only [Interval.contains]
    omega
  · have hlt := hleaf i hi.le
    rw [h.levels.rebalancingRange_eq (le_refl _), ← h.levels.capacity_eq]
    refine ⟨by simp, ?_⟩
    rw [Nat.zero_add, Nat.one_mul]
    exact (Nat.div_lt_iff_lt_mul h.width_pos).mp hlt

/-- **The layout of the hierarchy** in every run of `resize` calls from the constructor on. -/
theorem resize_layout (aggregateWidth : ℕ) (density : DensityManager) (sdsSize : ℕ)
    (sizes : List ℕ) (hpos : 0 < aggregateWidth)
    (hfit : sdsSize / aggregateWidth + 1 ≤ 2 ^ logInitialHierarchyCapacity) :
    (sizes.foldl resize (create aggregateWidth density sdsSize)).Layout
      (sizes.getLastD sdsSize) :=
  ((resized_create density hpos hfit).foldl sizes).layout

/-- Two calls, of which the second one makes the tree grow by two levels. -/
theorem resize_layout_grown :
    ([1000, 200000].foldl resize (create 4 densityOne 0)).Layout 200000 ∧
      ([1000, 200000].foldl resize (create 4 densityOne 0)).logCapacity = 16 :=
  ⟨resize_layout 4 densityOne 0 [1000, 200000] (by decide) (by decide), by decide⟩

end RebalancingManager

end BatchPMA
