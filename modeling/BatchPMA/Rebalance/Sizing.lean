import BatchPMA.Rebalance.Filter
import BatchPMA.Hierarchy.Growth
import BatchPMA.Hierarchy.Exact

/-!
# The size of the pma for the rebalancing tasks

Step B-4 takes the new size of the pma from the last task in the list.  The list is ordered by
level, and within a level by the order in which the threads collected the nodes; it is not ordered
by position.  At most one task reaches behind the current size, and the new size is large enough
if and only if that task is the last one.
-/

namespace BatchPMA

open RebalancingManager

variable {K α : Type}

lemma lt_doubleUntil {newSize : ℕ} : ∀ {n capacity : ℕ}, 0 < capacity → newSize < capacity + n →
    newSize < doubleUntil newSize n capacity
  | 0, capacity, _, h => by simpa [doubleUntil] using h
  | n + 1, capacity, hpos, h => by
      rw [doubleUntil]
      split
      · exact lt_doubleUntil (by omega) (by omega)
      · omega

namespace BatchedSparseArray

/-- What holds in front of step B-3: the flags are those of the collected nodes, which are ordered
by level, have room for their blocks and begin in the used part of the array. -/
structure Collected (s : BatchedSparseArray K α) : Prop where
  levels : s.rebalancingManager.LevelsValid
  width_pos : 0 < s.rebalancingManager.aggregateWidth
  flags : s.rebalancingManager.FlagsMatch s.rebalancingNodes
  sorted : s.rebalancingNodes.Pairwise fun a b => a.level ≤ b.level
  nodup : s.rebalancingNodes.Nodup
  fits : ∀ node ∈ s.rebalancingNodes, s.rebalancingManager.numberOfBlocks node ≤
    (s.rebalancingManager.rebalancingRange node).length
  left_lt : ∀ node ∈ s.rebalancingNodes,
    (s.rebalancingManager.rebalancingRange node).left < max 1 s.size
  swapCapacity_eq : s.swapCapacity = s.capacity
  size_lt : s.size < s.capacity

variable {p : BatchedParams K α} {s : BatchedSparseArray K α}

/-- The same nodes collected in another order. -/
lemma Collected.reorder (h : s.Collected) {nodes : List RebalancingNode}
    (hp : nodes.Perm s.rebalancingNodes) (hs : nodes.Pairwise fun a b => a.level ≤ b.level) :
    Collected { s with rebalancingNodes := nodes } where
  levels := h.levels
  width_pos := h.width_pos
  flags := ⟨fun node hn => h.flags.isNode node (hp.mem_iff.mp hn),
    fun l i hli => (h.flags.flags l i hli).trans hp.mem_iff.symm⟩
  sorted := hs
  nodup := hp.nodup_iff.mpr h.nodup
  fits node hn := h.fits node (hp.mem_iff.mp hn)
  left_lt node hn := h.left_lt node (hp.mem_iff.mp hn)
  swapCapacity_eq := h.swapCapacity_eq
  size_lt := h.size_lt

lemma dominated_perm {nodes nodes' : List RebalancingNode} (hp : nodes.Perm nodes')
    (node : RebalancingNode) : Dominated nodes node ↔ Dominated nodes' node :=
  exists_congr fun _ => and_congr_left fun _ => hp.mem_iff

lemma keptNodes_perm {nodes : List RebalancingNode} (hp : nodes.Perm s.rebalancingNodes) :
    (keptNodes { s with rebalancingNodes := nodes }).Perm s.keptNodes := by
  rw [keptNodes, keptNodes]
  simp only [dominated_perm hp]
  exact hp.filter _

/-! ## Kept nodes -/

lemma Collected.kept_disjoint (h : s.Collected) {a b : RebalancingNode} (ha : a ∈ s.keptNodes)
    (hb : b ∈ s.keptNodes) {c : ℕ}
    (hca : (s.rebalancingManager.rebalancingRange a).contains c)
    (hcb : (s.rebalancingManager.rebalancingRange b).contains c) : a = b :=
  keptNodes_disjoint h.levels h.width_pos h.flags ha hb hca hcb

/-- Only one kept node reaches behind the current size. -/
lemma Collected.straddling_unique (h : s.Collected) {a b : RebalancingNode}
    (ha : a ∈ s.keptNodes) (hb : b ∈ s.keptNodes)
    (har : s.size < (s.rebalancingManager.rebalancingRange a).right)
    (hbr : s.size < (s.rebalancingManager.rebalancingRange b).right) : a = b := by
  have hal := h.left_lt a (mem_keptNodes.mp ha).1
  have hbl := h.left_lt b (mem_keptNodes.mp hb).1
  -- both ranges contain the last cell that is looked at
  exact h.kept_disjoint ha hb (c := max 1 s.size - 1) ⟨by omega, by omega⟩ ⟨by omega, by omega⟩

/-! ## The new size -/

lemma Collected.newPmaSize_eq (h : s.Collected) : s.createRebalancingTasks.newPmaSize =
    match s.keptNodes.getLast? with
    | none => s.size
    | some node => max s.size (s.rebalancingManager.rebalancingRange node).right := by
  rw [newPmaSize, createRebalancingTasks_eq h.levels h.flags, List.getLast?_map]
  cases s.keptNodes.getLast? <;> rfl

/-- Every task that is kept lies in the resized pma, and that in its capacity. -/
def PmaSized (p : BatchedParams K α) (s : BatchedSparseArray K α) : Prop :=
  let s₁ := s.createRebalancingTasks
  let s₂ := (s₁.increaseSwapPmaSize p s₁.newPmaSize).resizeMainPma p s₁.newPmaSize
  ∀ task ∈ s₁.rebalancingTasks, task.pmaRange.right ≤ s₁.newPmaSize ∧
    (∀ cell, task.pmaRange.contains cell → cell < s₂.size) ∧ s₂.size < s₂.capacity

/-- The array after steps B-4 and B-8 has the new size and room for it. -/
lemma resize_spec (hswap : s.swapCapacity = s.capacity) (hpos : 0 < s.capacity) (n : ℕ) :
    ((s.increaseSwapPmaSize p n).resizeMainPma p n).size = n ∧
      n < ((s.increaseSwapPmaSize p n).resizeMainPma p n).capacity := by
  rw [increaseSwapPmaSize]
  split
  · have hlt := lt_doubleUntil (n := n + 1) (hswap ▸ hpos : 0 < s.swapCapacity)
      (show n < s.swapCapacity + (n + 1) by omega)
    rw [resizeMainPma]
    split
    · exact ⟨rfl, hlt⟩
    · rename_i heq
      simp only [ne_eq, not_not] at heq
      exact ⟨rfl, by simp only; omega⟩
  · rw [resizeMainPma, if_neg (by simp [hswap])]
    exact ⟨rfl, by simp only; omega⟩

/-- The new size is large enough exactly if no kept node reaches behind the end of the last one
and the old size. -/
lemma Collected.pmaSized_iff (h : s.Collected) : s.PmaSized p ↔ ∀ node ∈ s.keptNodes,
    (s.rebalancingManager.rebalancingRange node).right ≤ s.createRebalancingTasks.newPmaSize := by
  obtain ⟨hsize, hcap⟩ := resize_spec (p := p) (s := s.createRebalancingTasks) h.swapCapacity_eq
    (show 0 < s.capacity by have := h.size_lt; omega) s.createRebalancingTasks.newPmaSize
  have hiff : s.PmaSized p ↔ ∀ task ∈ s.createRebalancingTasks.rebalancingTasks,
      task.pmaRange.right ≤ s.createRebalancingTasks.newPmaSize := by
    refine forall₂_congr fun task _ => ⟨fun hall => hall.1, fun hle => ⟨hle, fun c hc => ?_, ?_⟩⟩
    · rw [hsize]
      exact lt_of_lt_of_le hc.2 hle
    · rwa [hsize]
  rw [hiff, createRebalancingTasks_eq h.levels h.flags]
  simp only [List.forall_mem_map]
  rfl

/-- A kept node behind which another one was collected, and that reaches behind the size. -/
lemma Collected.not_pmaSized (h : s.Collected) {a b : RebalancingNode} (ha : a ∈ s.keptNodes)
    (hlast : s.keptNodes.getLast? = some b) (hne : b ≠ a)
    (har : s.size < (s.rebalancingManager.rebalancingRange a).right) : ¬ s.PmaSized p := by
  intro hall
  have hle := (h.pmaSized_iff).mp hall a ha
  rw [h.newPmaSize_eq, hlast] at hle
  simp only at hle
  have hlr : s.size < (s.rebalancingManager.rebalancingRange b).right := by omega
  exact hne (h.straddling_unique (List.mem_of_getLast? hlast) ha hlr har)

/-- All nodes of a level, with `a` in front. -/
lemma exists_reordering (h : s.Collected) {a : RebalancingNode} (ha : a ∈ s.rebalancingNodes) :
    ∃ before after : List RebalancingNode, (before ++ a :: after).Perm s.rebalancingNodes ∧
      (before ++ a :: after).Pairwise (fun x y => x.level ≤ y.level) ∧
      ∀ x ∈ before, x.level < a.level := by
  have hin : a ∈ s.rebalancingNodes.filter fun x => ¬ x.level < a.level :=
    List.mem_filter.mpr ⟨ha, by simp⟩
  refine ⟨s.rebalancingNodes.filter fun x => x.level < a.level,
    (s.rebalancingNodes.filter fun x => ¬ x.level < a.level).erase a, ?_, ?_, fun x hx => ?_⟩
  · refine ((List.perm_cons_erase hin).symm.append_left _).trans ?_
    have := List.filter_append_perm (fun x : RebalancingNode => decide (x.level < a.level))
      s.rebalancingNodes
    simp only [← decide_not] at this
    exact this
  · have hge : ∀ x ∈ (s.rebalancingNodes.filter fun x => ¬ x.level < a.level).erase a,
        a.level ≤ x.level := fun x hx => by
      have := (List.mem_filter.mp (List.mem_of_mem_erase hx)).2
      simpa using this
    refine List.pairwise_append.mpr ⟨h.sorted.filter _, List.pairwise_cons.mpr ⟨hge, ?_⟩, ?_⟩
    · exact (h.sorted.filter _).sublist List.erase_sublist
    · intro x hx y hy
      have hlt : x.level < a.level := by simpa using (List.mem_filter.mp hx).2
      rcases List.mem_cons.mp hy with rfl | hy
      · exact hlt.le
      · exact le_trans hlt.le (hge y hy)
  · simpa using (List.mem_filter.mp hx).2

/-- The last element of a sorted list has the highest level. -/
lemma level_le_getLast {nodes : List RebalancingNode}
    (hs : nodes.Pairwise fun a b => a.level ≤ b.level) {last : RebalancingNode}
    (hlast : nodes.getLast? = some last) : ∀ a ∈ nodes, a.level ≤ last.level := by
  intro a ha
  obtain ⟨front, rfl⟩ := List.getLast?_eq_some_iff.mp hlast
  rcases List.mem_append.mp ha with hf | hl
  · exact (List.pairwise_append.mp hs).2.2 a hf last (List.mem_singleton_self _)
  · rw [List.mem_singleton.mp hl]

/-- **The size of the pma.**  The new size is large enough in every order in which the nodes can
have been collected if and only if a kept node that reaches behind the current size is the only
one of the highest level. -/
theorem newPmaSize_suffices_iff (p : BatchedParams K α) (s : BatchedSparseArray K α)
    (h : s.Collected) :
    (∀ nodes, nodes.Perm s.rebalancingNodes → nodes.Pairwise (fun a b => a.level ≤ b.level) →
      PmaSized p { s with rebalancingNodes := nodes }) ↔
    ∀ a ∈ s.keptNodes, s.size < (s.rebalancingManager.rebalancingRange a).right →
      ∀ b ∈ s.keptNodes, b ≠ a → b.level < a.level := by
  constructor
  · intro hall a ha har b hb hne
    by_contra hlev
    -- collect `a` as the first one of its level; then `b` comes later
    obtain ⟨before, after, hp, hs, hbefore⟩ := exists_reordering h (mem_keptNodes.mp ha).1
    have hc := h.reorder hp hs
    have hkept : keptNodes { s with rebalancingNodes := before ++ a :: after } =
        before.filter (fun x => ¬ Dominated s.rebalancingNodes x) ++
          a :: after.filter (fun x => ¬ Dominated s.rebalancingNodes x) := by
      rw [keptNodes]
      simp only [dominated_perm hp]
      rw [List.filter_append, List.filter_cons_of_pos (by simpa using (mem_keptNodes.mp ha).2)]
    have hbin : b ∈ after.filter (fun x => ¬ Dominated s.rebalancingNodes x) := by
      have hbmem := (keptNodes_perm hp).mem_iff.mpr hb
      rw [hkept] at hbmem
      rcases List.mem_append.mp hbmem with hb' | hb'
      · exact absurd (hbefore b (List.mem_filter.mp hb').1) hlev
      · exact (List.mem_cons.mp hb').resolve_left hne
    obtain ⟨last, hlast⟩ : ∃ last,
        (after.filter fun x => ¬ Dominated s.rebalancingNodes x).getLast? = some last :=
      Option.isSome_iff_exists.mp (List.getLast?_isSome.mpr (List.ne_nil_of_mem hbin))
    have hlin := (List.mem_filter.mp (List.mem_of_getLast? hlast)).1
    refine hc.not_pmaSized (a := a) (b := last) ?_ ?_ ?_ har (hall _ hp hs)
    · rw [hkept]
      exact List.mem_append_right _ List.mem_cons_self
    · rw [hkept, List.getLast?_append, List.getLast?_cons, hlast]
      rfl
    · -- no node was collected twice
      rintro rfl
      exact (List.nodup_cons.mp (List.nodup_append.mp hc.nodup).2.1).1 hlin
  · intro hcond nodes hp hs
    have hc := h.reorder hp hs
    rw [hc.pmaSized_iff]
    intro a ha
    have hmem : ∀ {x}, x ∈ keptNodes { s with rebalancingNodes := nodes } → x ∈ s.keptNodes :=
      fun hx => (keptNodes_perm hp).mem_iff.mp hx
    obtain ⟨last, hlast⟩ : ∃ last,
        (keptNodes { s with rebalancingNodes := nodes }).getLast? = some last :=
      Option.isSome_iff_exists.mp (List.getLast?_isSome.mpr (List.ne_nil_of_mem ha))
    rw [hc.newPmaSize_eq, hlast]
    simp only
    rcases Nat.lt_or_ge s.size (s.rebalancingManager.rebalancingRange a).right with hlt | hle
    · have hlev := level_le_getLast (hs.filter _) hlast a ha
      obtain rfl : last = a := by
        by_contra hne
        have := hcond a (hmem ha) hlt last (hmem (List.mem_of_getLast? hlast)) hne
        omega
      exact le_max_right _ _
    · exact le_trans hle (le_max_left _ _)

/-! ## Nodes at the ends of the array -/

/-- The array after a global rebalance of `65537` blocks, of size `minRangeLength 65537` with
segments of four cells, in which the given nodes have been collected with three blocks each. -/
def collectedNodes (nodes : List RebalancingNode) : BatchedSparseArray ℕ ℕ :=
  let manager := (RebalancingManager.create 4 densityOne 0).resize 117966
  { create (keyOnlyBatched 4 4) 2 with
    capacity := 2 ^ 17
    swapCapacity := 2 ^ 17
    size := 117966
    rebalancingManager :=
      { manager with
        aggregates := fun i =>
          if i ∈ nodes.map fun node => manager.aggregateIndex node.index node.level then ⟨3, true⟩
          else .zero }
    rebalancingNodes := nodes }

section CollectedNodes

variable {nodes : List RebalancingNode}

lemma collectedNodes_levels : (collectedNodes nodes).rebalancingManager.LevelsValid ∧
    29491 < 2 ^ (collectedNodes nodes).rebalancingManager.logCapacity ∧
    (collectedNodes nodes).rebalancingManager.aggregateWidth = 4 := by
  obtain ⟨hgrown, hcap⟩ := resize_of_lt (n := 117966) (create_levelsValid 4 densityOne 0)
    (by decide) (by decide)
  have hleaf : (RebalancingManager.create 4 densityOne 0).lowestLevelNodeIndex 117966 = 29491 := rfl
  rw [hleaf, hgrown.levels.capacity_eq] at hcap
  exact ⟨⟨hgrown.levels.capacity_eq, hgrown.levels.super_eq, hgrown.levels.starts_eq,
    hgrown.levels.widths_eq⟩, lt_trans (Nat.lt_succ_self _) hcap, hgrown.aggregateWidth_eq⟩

/-- The nodes begin in the used part of the array. -/
def InArray (nodes : List RebalancingNode) : Prop :=
  ∀ node ∈ nodes, node.level ≤ 14 ∧ node.index * 2 ^ node.level ≤ 29491

lemma InArray.isNode (h : InArray nodes) {node : RebalancingNode} (hn : node ∈ nodes) :
    node.level ≤ (collectedNodes nodes).rebalancingManager.logCapacity ∧
      (collectedNodes nodes).rebalancingManager.IsNode node.level node.index := by
  obtain ⟨-, hcap, -⟩ := @collectedNodes_levels nodes
  obtain ⟨hlevel, hindex⟩ := h node hn
  have hheight : 14 ≤ (collectedNodes nodes).rebalancingManager.logCapacity := by
    by_contra hlt
    have := Nat.pow_le_pow_right (n := 2) (by norm_num)
      (show (collectedNodes nodes).rebalancingManager.logCapacity ≤ 14 by omega)
    omega
  have hle := hlevel.trans hheight
  refine ⟨hle, by omega, ?_⟩
  refine Nat.lt_of_mul_lt_mul_right (a := 2 ^ node.level) ?_
  rw [← pow_add, Nat.sub_add_cancel hle]
  omega

/-- The counter of a tree node. -/
lemma collectedNodes_aggregate (h : InArray nodes) {l i : ℕ}
    (hli : (collectedNodes nodes).rebalancingManager.IsNode l i) :
    (collectedNodes nodes).rebalancingManager.aggregate i l =
      if ⟨l, i⟩ ∈ nodes then ⟨3, true⟩ else .zero := by
  have hin : ((collectedNodes nodes).rebalancingManager.aggregateIndex i l ∈
      nodes.map fun node =>
        (collectedNodes nodes).rebalancingManager.aggregateIndex node.index node.level) ↔
      ⟨l, i⟩ ∈ nodes := by
    refine ⟨fun hmem => ?_, fun hmem => List.mem_map.mpr ⟨_, hmem, rfl⟩⟩
    obtain ⟨node, hn, heq⟩ := List.mem_map.mp hmem
    obtain ⟨rfl, rfl⟩ := collectedNodes_levels.1.aggregateIndex_inj (h.isNode hn).2 hli heq
    exact hn
  rw [aggregate]
  exact if_congr hin rfl rfl

lemma collectedNodes_collected (hs : nodes.Pairwise fun a b => a.level ≤ b.level)
    (hn : nodes.Nodup) (h : InArray nodes) : (collectedNodes nodes).Collected := by
  obtain ⟨hlevels, -, hwidth⟩ := @collectedNodes_levels nodes
  refine ⟨hlevels, by rw [hwidth]; norm_num, ⟨fun node hin => (h.isNode hin).2,
    fun l i hli => ?_⟩, hs, hn, fun node hin => ?_, fun node hin => ?_, rfl,
    by simp [collectedNodes]⟩
  · rw [collectedNodes_aggregate h hli]
    split
    · exact iff_of_true rfl ‹_›
    · exact iff_of_false (by simp [ManagerEntry.zero]) ‹_›
  · have hle := (h.isNode hin).1
    have hpos := Nat.two_pow_pos node.level
    have hmem : (⟨node.level, node.index⟩ : RebalancingNode) ∈ nodes := hin
    rw [hlevels.rebalancingRange_eq hle, hwidth, RebalancingManager.numberOfBlocks,
      if_neg (by rw [hlevels.super_eq]; omega), collectedNodes_aggregate h (h.isNode hin).2,
      if_pos hmem, Interval.length]
    simp only
    rw [Nat.add_mul, Nat.one_mul, Nat.add_sub_cancel_left]
    omega
  · have hle := (h.isNode hin).1
    have hindex := (h node hin).2
    have hsize : (collectedNodes nodes).size = 117966 := rfl
    rw [hlevels.rebalancingRange_eq hle, hwidth, hsize, ← Nat.mul_assoc]
    simp only
    omega

end CollectedNodes

/-- The first leaf and the parent of the last two leaves, two cells of which are behind the size:
the parent is the only node of its level. -/
theorem newPmaSize_suffices_lastParent : (collectedNodes [⟨0, 0⟩, ⟨1, 14745⟩]).Collected ∧
    (collectedNodes [⟨0, 0⟩, ⟨1, 14745⟩]).keptNodes = [⟨0, 0⟩, ⟨1, 14745⟩] ∧ ∀ nodes,
    nodes.Perm (collectedNodes [⟨0, 0⟩, ⟨1, 14745⟩]).rebalancingNodes →
      nodes.Pairwise (fun a b => a.level ≤ b.level) →
        PmaSized (keyOnlyBatched 4 4)
          { collectedNodes [⟨0, 0⟩, ⟨1, 14745⟩] with rebalancingNodes := nodes } := by
  have hc := @collectedNodes_collected [⟨0, 0⟩, ⟨1, 14745⟩] (by simp) (by simp) (by
    unfold InArray
    decide)
  have hkept : (collectedNodes [⟨0, 0⟩, ⟨1, 14745⟩]).keptNodes = [⟨0, 0⟩, ⟨1, 14745⟩] := by decide
  refine ⟨hc, hkept, (newPmaSize_suffices_iff (keyOnlyBatched 4 4) _ hc).mpr ?_⟩
  intro a ha har b hb hne
  obtain ⟨hlevels, -, hwidth⟩ := @collectedNodes_levels [⟨0, 0⟩, ⟨1, 14745⟩]
  rw [hkept] at ha hb
  simp only [List.mem_cons, List.not_mem_nil, or_false] at ha hb
  rcases ha with rfl | rfl
  · -- the first leaf ends in front of the size
    rw [hlevels.rebalancingRange_eq (Nat.zero_le _), hwidth] at har
    exact absurd har (by decide)
  · rcases hb with rfl | rfl
    · exact Nat.zero_lt_one
    · exact absurd rfl hne

/-- The last leaf, whose last two cells are behind the size, collected in front of the first. -/
theorem newPmaSize_misses_lastLeaf : (collectedNodes [⟨0, 29491⟩, ⟨0, 0⟩]).Collected ∧
    ¬ PmaSized (keyOnlyBatched 4 4) (collectedNodes [⟨0, 29491⟩, ⟨0, 0⟩]) := by
  have hc := @collectedNodes_collected [⟨0, 29491⟩, ⟨0, 0⟩] (by simp) (by simp) (by
    unfold InArray
    decide)
  refine ⟨hc, hc.not_pmaSized (a := ⟨0, 29491⟩) (b := ⟨0, 0⟩) (by decide) (by decide) (by simp) ?_⟩
  obtain ⟨hlevels, -, hwidth⟩ := @collectedNodes_levels [⟨0, 29491⟩, ⟨0, 0⟩]
  rw [hlevels.rebalancingRange_eq (Nat.zero_le _), hwidth]
  decide

end BatchedSparseArray

end BatchPMA
