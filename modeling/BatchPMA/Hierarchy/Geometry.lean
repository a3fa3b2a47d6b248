import BatchPMA.Model.Hierarchy
import BatchPMA.Library.Dyadic

/-!
# The layout of the hierarchy

The levels of the tree lie one behind the other in the flat vector, level `l` with
`2 ^ (logCapacity - l)` entries, and the super root is the entry behind the root.  `LevelsValid`
says that the level information is the one `recomputeLevelInfo` writes; from it follow the closed
forms of `levelStart` and `levelAggregateWidth`, and that different nodes have different entries.
-/

namespace BatchPMA

namespace RebalancingManager

/-- The level information fits the capacity. -/
structure LevelsValid (m : RebalancingManager) : Prop where
  capacity_eq : m.capacity = 2 ^ m.logCapacity
  super_eq : m.logCapacityWithSuperRoot = m.logCapacity + 1
  starts_eq : m.levelStarts = m.recomputeLevelInfo.levelStarts
  widths_eq : m.levelAggregateWidths = m.recomputeLevelInfo.levelAggregateWidths

/-- `index` is the number of a node of the given level; the super root is node `0` of its
level. -/
def IsNode (m : RebalancingManager) (level index : ℕ) : Prop :=
  level ≤ m.logCapacity + 1 ∧ index < 2 ^ (m.logCapacity - level)

variable {m : RebalancingManager}

/-! ## Closed forms -/

/-- The start of a level and the size of everything from it on add up to the same total. -/
lemma levelInfo_starts : ∀ n cs aw l, l ≤ n →
    ((levelInfo n cs (2 ^ n / 2) aw).1 ++ [(levelInfo n cs (2 ^ n / 2) aw).2.2]).getD l 0
      + 2 ^ (n - l) = cs + 2 ^ n
  | 0, cs, aw, l, hl => by
      obtain rfl : l = 0 := by omega
      simp [levelInfo]
  | n + 1, cs, aw, 0, _ => by simp [levelInfo]
  | n + 1, cs, aw, l + 1, hl => by
      have hw : 2 ^ (n + 1) / 2 = 2 ^ n := by rw [pow_succ]; omega
      have ih := levelInfo_starts n (cs + 2 ^ n) (aw * 2) l (by omega)
      rw [hw, levelInfo, Nat.add_sub_add_right]
      simp only [List.cons_append, List.getD_cons_succ]
      rw [ih, pow_succ]
      omega

lemma levelInfo_widths : ∀ n cs w aw l, l < n →
    (levelInfo n cs w aw).2.1.getD l 0 = aw * 2 ^ l
  | n + 1, cs, w, aw, 0, _ => by simp [levelInfo]
  | n + 1, cs, w, aw, l + 1, hl => by
      have ih := levelInfo_widths n (cs + w) (w / 2) (aw * 2) l (by omega)
      rw [levelInfo]
      simp only [List.getD_cons_succ]
      rw [ih, pow_succ]
      ring

lemma length_levelInfo_widths : ∀ n cs w aw, (levelInfo n cs w aw).2.1.length = n
  | 0, _, _, _ => rfl
  | n + 1, cs, w, aw => by
      rw [levelInfo]
      simp only [List.length_cons]
      rw [length_levelInfo_widths n]

namespace LevelsValid

lemma levelStart_add (h : m.LevelsValid) {l : ℕ} (hl : l ≤ m.logCapacity + 1) :
    m.levelStart l + 2 ^ (m.logCapacity + 1 - l) = 2 ^ (m.logCapacity + 1) := by
  have hw : m.capacity = 2 ^ (m.logCapacity + 1) / 2 := by rw [h.capacity_eq, pow_succ]; omega
  have := levelInfo_starts (m.logCapacity + 1) 0 1 l hl
  rw [levelStart, h.starts_eq, recomputeLevelInfo, hw]
  simpa using this

/-- The next level starts right behind the nodes of a level. -/
lemma levelStart_succ (h : m.LevelsValid) {l : ℕ} (hl : l ≤ m.logCapacity) :
    m.levelStart (l + 1) = m.levelStart l + 2 ^ (m.logCapacity - l) := by
  have h1 := h.levelStart_add (l := l) (by omega)
  have h2 := h.levelStart_add (l := l + 1) (by omega)
  have h3 : m.logCapacity + 1 - l = m.logCapacity - l + 1 := by omega
  rw [Nat.add_sub_add_right] at h2
  rw [h3, pow_succ] at h1
  omega

lemma levelAggregateWidth_eq (h : m.LevelsValid) {l : ℕ} (hl : l ≤ m.logCapacity) :
    m.levelAggregateWidth l = 2 ^ l := by
  have hlen := length_levelInfo_widths (m.logCapacity + 1) 0 m.capacity 1
  rw [levelAggregateWidth, h.widths_eq, recomputeLevelInfo]
  simp only
  have hw := levelInfo_widths (m.logCapacity + 1) 0 m.capacity 1 l (by omega)
  rw [List.getD_eq_getElem?_getD] at hw ⊢
  rw [List.getElem?_append_left (by omega), hw, Nat.one_mul]

lemma numberOfAggregatesInLevel_eq (h : m.LevelsValid) {l : ℕ} (hl : l ≤ m.logCapacity) :
    m.numberOfAggregatesInLevel l = 2 ^ (m.logCapacity - l) := by
  rw [numberOfAggregatesInLevel]
  split
  · rename_i h0
    rw [h0, h.capacity_eq, Nat.sub_zero]
  · rw [h.levelAggregateWidth_eq hl, h.capacity_eq, Nat.pow_div hl (by norm_num)]

lemma levelStart_mono (h : m.LevelsValid) {l l' : ℕ} (hle : l ≤ l') (hl' : l' ≤ m.logCapacity + 1) :
    m.levelStart l ≤ m.levelStart l' := by
  induction l' with
  | zero =>
      obtain rfl : l = 0 := by omega
      exact le_refl _
  | succ n ih =>
      rcases Nat.eq_or_lt_of_le hle with rfl | hlt
      · exact le_refl _
      · have h1 := ih (by omega) (by omega)
        rw [h.levelStart_succ (l := n) (by omega)]
        exact le_trans h1 (Nat.le_add_right _ _)

/-- The entries of a lower level lie in front of those of a higher level. -/
lemma aggregateIndex_lt (h : m.LevelsValid) {l l' i i' : ℕ} (hn : m.IsNode l i) (hlt : l < l')
    (hn' : m.IsNode l' i') : m.aggregateIndex i l < m.aggregateIndex i' l' := by
  have h1 := h.levelStart_succ (l := l) (by have := hn'.1; omega)
  have h2 := h.levelStart_mono (by omega : l + 1 ≤ l') hn'.1
  have h3 := hn.2
  rw [aggregateIndex, aggregateIndex]
  omega

/-- Different nodes have different entries. -/
lemma aggregateIndex_inj (h : m.LevelsValid) {l l' i i' : ℕ} (hn : m.IsNode l i)
    (hn' : m.IsNode l' i') (heq : m.aggregateIndex i l = m.aggregateIndex i' l') :
    l = l' ∧ i = i' := by
  rcases Nat.lt_trichotomy l l' with hlt | rfl | hlt
  · have := h.aggregateIndex_lt hn hlt hn'
    omega
  · rw [aggregateIndex, aggregateIndex] at heq
    exact ⟨rfl, by omega⟩
  · have := h.aggregateIndex_lt hn' hlt hn
    omega

/-- The range of a node below the super root. -/
lemma rebalancingRange_eq (h : m.LevelsValid) {node : RebalancingNode}
    (hl : node.level ≤ m.logCapacity) : m.rebalancingRange node =
      ⟨node.index * (2 ^ node.level * m.aggregateWidth),
        (node.index + 1) * (2 ^ node.level * m.aggregateWidth)⟩ := by
  have hne : node.level ≠ m.logCapacityWithSuperRoot := by rw [h.super_eq]; omega
  rw [rebalancingRange, if_neg hne, h.levelAggregateWidth_eq hl]

end LevelsValid

/-! ## Nodes and their relatives -/

lemma IsNode.of_lt {level index : ℕ} (hl : level ≤ m.logCapacity)
    (hi : index < 2 ^ (m.logCapacity - level)) : m.IsNode level index :=
  ⟨by omega, hi⟩

lemma IsNode.superRoot (m : RebalancingManager) : m.IsNode (m.logCapacity + 1) 0 :=
  ⟨le_refl _, Nat.two_pow_pos _⟩

/-- Nodes of the level above have both children in the tree. -/
lemma children_lt {k l i : ℕ} (hl : l < k) (hi : i < 2 ^ (k - (l + 1))) :
    i * 2 < 2 ^ (k - l) ∧ i * 2 + 1 < 2 ^ (k - l) := by
  have : k - l = k - (l + 1) + 1 := by omega
  rw [this, pow_succ]
  omega

/-- The parent of a node is a node; that of the root is numbered `0` as well. -/
lemma parent_lt {k l i : ℕ} (hl : l ≤ k) (hi : i < 2 ^ (k - l)) :
    parent i < 2 ^ (k - (l + 1)) := by
  rw [parent]
  rcases Nat.eq_or_lt_of_le hl with rfl | hlt
  · rw [Nat.sub_self, pow_zero] at hi
    exact lt_of_eq_of_lt (by omega) (Nat.two_pow_pos _)
  · have : k - l = k - (l + 1) + 1 := by omega
    rw [this, pow_succ] at hi
    omega

end RebalancingManager

end BatchPMA
