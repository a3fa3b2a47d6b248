import BatchPMA.Hierarchy.Overflow
import BatchPMA.Model.Rebalancing

/-!
# Filtering the rebalancing nodes

Step B-3 keeps the nodes that have no other rebalancing node above them.  It works on the flags
and clears them as it goes, but the flag of a topmost node is never cleared, so the result is the
same as filtering the list by `Dominated`.  The ranges of the remaining tasks are pairwise
disjoint.
-/

namespace BatchPMA

open RebalancingManager Dyadic

/-- `node` is a proper ancestor of `other`. -/
def RebalancingNode.Above (node other : RebalancingNode) : Prop :=
  other.level < node.level ∧ node.index = other.index / 2 ^ (node.level - other.level)

instance (node other : RebalancingNode) : Decidable (node.Above other) :=
  inferInstanceAs (Decidable (_ ∧ _))

/-- Some node of the list is a proper ancestor. -/
def Dominated (nodes : List RebalancingNode) (node : RebalancingNode) : Prop :=
  ∃ other ∈ nodes, other.Above node

instance (nodes : List RebalancingNode) (node : RebalancingNode) :
    Decidable (Dominated nodes node) :=
  inferInstanceAs (Decidable (∃ other ∈ nodes, other.Above node))

lemma RebalancingNode.Above.trans {a b c : RebalancingNode} (h : a.Above b) (h' : b.Above c) :
    a.Above c := by
  refine ⟨lt_trans h'.1 h.1, ?_⟩
  rw [h.2, h'.2, Nat.div_div_eq_div_mul, ← pow_add]
  congr 2
  have := h.1
  have := h'.1
  omega

/-- A dominated node has a topmost node above it. -/
lemma Dominated.exists_topmost {nodes : List RebalancingNode} {bound : ℕ}
    (hb : ∀ node ∈ nodes, node.level ≤ bound) : ∀ (n : ℕ) {node : RebalancingNode},
      bound - node.level ≤ n → Dominated nodes node →
        ∃ other ∈ nodes, other.Above node ∧ ¬ Dominated nodes other
  | 0, node, hn, ⟨other, hin, habove⟩ => by
      have h1 := hb other hin
      have h2 := habove.1
      omega
  | n + 1, node, hn, ⟨other, hin, habove⟩ => by
      by_cases hd : Dominated nodes other
      · have h2 := habove.1
        obtain ⟨top, htop, hab, hnd⟩ := Dominated.exists_topmost hb n (by omega) hd
        exact ⟨top, htop, hab.trans habove, hnd⟩
      · exact ⟨other, hin, habove, hd⟩

namespace RebalancingManager

variable {m : RebalancingManager}

/-- What the loop of `rebalancingNodeDominated` looks for. -/
lemma dominatedLoop_eq_true : ∀ n index level, m.dominatedLoop n index level = true ↔
    ∃ d < n, (m.aggregate (index / 2 ^ d) (level + d)).rebalanced = true
  | 0, _, _ => by simp [dominatedLoop]
  | n + 1, index, level => by
      rw [dominatedLoop, Bool.or_eq_true, dominatedLoop_eq_true n]
      constructor
      · rintro (h | ⟨d, hd, h⟩)
        · exact ⟨0, Nat.succ_pos n, by simpa using h⟩
        · refine ⟨d + 1, by omega, ?_⟩
          rw [pow_succ', ← Nat.div_div_eq_div_mul, Nat.add_comm d 1, ← Nat.add_assoc]
          exact h
      · rintro ⟨d, hd, h⟩
        cases d with
        | zero => exact Or.inl (by simpa using h)
        | succ d =>
            refine Or.inr ⟨d, by omega, ?_⟩
            rw [pow_succ', ← Nat.div_div_eq_div_mul, Nat.add_comm d 1, ← Nat.add_assoc] at h
            exact h

/-- The nodes above a node of the tree are nodes of the tree. -/
lemma IsNode.ancestor {l i : ℕ} (h : m.IsNode l i) {d : ℕ} (hd : l + d ≤ m.logCapacity + 1) :
    m.IsNode (l + d) (i / 2 ^ d) := by
  refine ⟨hd, ?_⟩
  have := ancestor_lt (l := d) h.2
  rwa [Nat.sub_sub] at this

/-- `rebalancingNodeDominated` looks for a flag on a node above. -/
lemma dominated_iff (hm : m.LevelsValid) {node : RebalancingNode}
    (hn : m.IsNode node.level node.index) :
    (m.rebalancingNodeDominated node).1 = true ↔ ∃ l i, m.IsNode l i ∧
      RebalancingNode.Above ⟨l, i⟩ node ∧ (m.aggregate i l).rebalanced = true := by
  have hloop : (m.rebalancingNodeDominated node).1 = true ↔
      m.dominatedLoop (m.logCapacityWithSuperRoot - node.level) (parent node.index)
        (node.level + 1) = true := by
    rw [rebalancingNodeDominated]
    split
    · rename_i h
      simp [h]
    · rename_i h
      simp [h]
  rw [hloop, dominatedLoop_eq_true, hm.super_eq]
  constructor
  · rintro ⟨d, hd, h⟩
    rw [parent, Nat.div_div_eq_div_mul, ← pow_succ', Nat.add_assoc, Nat.add_comm 1 d] at h
    refine ⟨node.level + (d + 1), node.index / 2 ^ (d + 1), hn.ancestor (by omega),
      ⟨by simp, by simp⟩, h⟩
  · rintro ⟨l, i, hli, ⟨hlt, hi⟩, h⟩
    simp only at hlt hi
    refine ⟨l - node.level - 1, by have := hli.1; omega, ?_⟩
    have h1 : l - node.level - 1 + 1 = l - node.level := by omega
    have h2 : node.level + 1 + (l - node.level - 1) = l := by omega
    rw [parent, Nat.div_div_eq_div_mul, ← pow_succ', h1, h2, ← hi]
    exact h

/-! ## Clearing flags -/

lemma clearRebalancedFlag_eq (m : RebalancingManager) (node : RebalancingNode) :
    m.clearRebalancedFlag node = m.withCounters
      (Function.update m.aggregates (m.aggregateIndex node.index node.level)
        { m.aggregate node.index node.level with rebalanced := false })
      m.nextLevelRecountingNodes := rfl

lemma numberOfBlocks_clearRebalancedFlag (m : RebalancingManager) (node : RebalancingNode)
    (i l : ℕ) : ((m.clearRebalancedFlag node).aggregate i l).numberOfBlocks =
      (m.aggregate i l).numberOfBlocks := by
  rw [clearRebalancedFlag_eq, aggregate_withCounters, Function.update_apply]
  split
  · rename_i h
    rw [aggregate, aggregate, h]
  · rfl

lemma rebalanced_clearRebalancedFlag (hm : m.LevelsValid) {node : RebalancingNode}
    (hn : m.IsNode node.level node.index) {l i : ℕ} (hli : m.IsNode l i) :
    ((m.clearRebalancedFlag node).aggregate i l).rebalanced = true ↔
      (m.aggregate i l).rebalanced = true ∧ ⟨l, i⟩ ≠ node := by
  rw [clearRebalancedFlag_eq, aggregate_withCounters, Function.update_apply]
  split
  · rename_i h
    obtain ⟨rfl, rfl⟩ := hm.aggregateIndex_inj hli hn h
    simp
  · rename_i h
    have : (⟨l, i⟩ : RebalancingNode) ≠ node := by
      rintro rfl
      exact h rfl
    simp only [this, ne_eq, not_false_eq_true, and_true]
    rfl

/-- A task depends only on the counters, not on the flags. -/
lemma getRebalancingTask_congr {m' : RebalancingManager}
    (hframe : ∃ a next, m' = m.withCounters a next)
    (hcounts : ∀ i l, (m'.aggregate i l).numberOfBlocks = (m.aggregate i l).numberOfBlocks)
    (node : RebalancingNode) : m'.getRebalancingTask node = m.getRebalancingTask node := by
  obtain ⟨a, next, rfl⟩ := hframe
  have hn : (m.withCounters a next).numberOfBlocks node = m.numberOfBlocks node := by
    rw [numberOfBlocks, numberOfBlocks, hcounts, hcounts]
    rfl
  have hr : (m.withCounters a next).rebalancingRange node = m.rebalancingRange node := by
    rw [rebalancingRange, rebalancingRange, hcounts]
    rfl
  rw [getRebalancingTask, getRebalancingTask, hn, hr]

/-! ## The loop -/

/-- After the nodes `done` have been looked at. -/
structure Filtering (m : RebalancingManager) (nodes done : List RebalancingNode)
    (acc : RebalancingManager × List RebalancingTask) : Prop where
  frame : ∃ a, acc.1 = m.withCounters a m.nextLevelRecountingNodes
  counts : ∀ i l, (acc.1.aggregate i l).numberOfBlocks = (m.aggregate i l).numberOfBlocks
  flags : ∀ l i, m.IsNode l i → ((acc.1.aggregate i l).rebalanced = true ↔
    ⟨l, i⟩ ∈ nodes ∧ ¬ (⟨l, i⟩ ∈ done ∧ Dominated nodes ⟨l, i⟩))
  tasks : acc.2 = (done.filter fun node => ¬ Dominated nodes node).map m.getRebalancingTask

variable {nodes done : List RebalancingNode} {acc : RebalancingManager × List RebalancingTask}

/-- The flags that are still set decide domination as the list does. -/
lemma Filtering.dominated_iff (hm : m.LevelsValid) (hf : m.FlagsMatch nodes)
    (h : Filtering m nodes done acc) {node : RebalancingNode}
    (hn : m.IsNode node.level node.index) :
    (acc.1.rebalancingNodeDominated node).1 = true ↔ Dominated nodes node := by
  obtain ⟨a, hframe⟩ := h.frame
  have hacc : acc.1.LevelsValid := by rw [hframe]; exact hm.withCounters a _
  have hnode : ∀ {l i}, acc.1.IsNode l i ↔ m.IsNode l i := by rw [hframe]; simp
  rw [RebalancingManager.dominated_iff hacc (hnode.mpr hn)]
  constructor
  · rintro ⟨l, i, hli, habove, hflag⟩
    exact ⟨⟨l, i⟩, ((h.flags l i (hnode.mp hli)).mp hflag).1, habove⟩
  · intro hdom
    have hb : ∀ node ∈ nodes, node.level ≤ m.logCapacity + 1 :=
      fun node hin => (hf.isNode node hin).1
    obtain ⟨top, htop, habove, hundom⟩ := hdom.exists_topmost hb _ (le_refl _)
    refine ⟨top.level, top.index, hnode.mpr (hf.isNode top htop), habove, ?_⟩
    exact (h.flags _ _ (hf.isNode top htop)).mpr ⟨htop, fun hc => hundom hc.2⟩

lemma Filtering.step (hm : m.LevelsValid) (hf : m.FlagsMatch nodes)
    (h : Filtering m nodes done acc) {node : RebalancingNode} (hin : node ∈ nodes) :
    Filtering m nodes (done ++ [node]) (BatchedSparseArray.filterNode acc node) := by
  have hn := hf.isNode node hin
  obtain ⟨a, hframe⟩ := h.frame
  have hacc : acc.1.LevelsValid := by rw [hframe]; exact hm.withCounters a _
  have hnode : ∀ {l i}, m.IsNode l i → acc.1.IsNode l i := by
    intro l i hli
    rw [hframe]
    exact hli
  by_cases hdom : Dominated nodes node
  · have hd := (h.dominated_iff hm hf hn).mpr hdom
    have hloop : acc.1.dominatedLoop (acc.1.logCapacityWithSuperRoot - node.level)
        (parent node.index) (node.level + 1) = true := by
      rw [rebalancingNodeDominated] at hd
      split at hd
      · rename_i hc
        exact hc
      · simp at hd
    have heq : BatchedSparseArray.filterNode acc node =
        ((acc.1.clearRebalancedFlag node).clearRebalancedFlag node, acc.2) := by
      simp [BatchedSparseArray.filterNode, rebalancingNodeDominated, hloop]
    have hclear : (acc.1.clearRebalancedFlag node).LevelsValid := hacc.withCounters _ _
    rw [heq]
    refine ⟨⟨_, by rw [hframe]; rfl⟩, fun i l => ?_, fun l i hli => ?_, ?_⟩
    · rw [numberOfBlocks_clearRebalancedFlag, numberOfBlocks_clearRebalancedFlag, h.counts]
    · rw [rebalanced_clearRebalancedFlag hclear (hnode hn) (hnode hli),
        rebalanced_clearRebalancedFlag hacc (hnode hn) (hnode hli), h.flags l i hli]
      simp only [List.mem_append, List.mem_singleton]
      by_cases heq' : (⟨l, i⟩ : RebalancingNode) = node
      · simp [heq', hdom]
      · simp [heq']
    · rw [h.tasks, List.filter_append]
      simp [hdom]
  · have hd : ¬ (acc.1.rebalancingNodeDominated node).1 = true :=
      fun hd => hdom ((h.dominated_iff hm hf hn).mp hd)
    have hloop : ¬ acc.1.dominatedLoop (acc.1.logCapacityWithSuperRoot - node.level)
        (parent node.index) (node.level + 1) = true := by
      intro hc
      rw [rebalancingNodeDominated, if_pos hc] at hd
      exact hd rfl
    have heq : BatchedSparseArray.filterNode acc node =
        (acc.1, acc.2 ++ [acc.1.getRebalancingTask node]) := by
      simp [BatchedSparseArray.filterNode, rebalancingNodeDominated, hloop]
    rw [heq]
    refine ⟨h.frame, h.counts, fun l i hli => ?_, ?_⟩
    · rw [h.flags l i hli]
      simp only [List.mem_append, List.mem_singleton]
      by_cases heq' : (⟨l, i⟩ : RebalancingNode) = node
      · simp [heq', hdom]
      · simp [heq']
    · rw [h.tasks, List.filter_append, List.map_append,
        getRebalancingTask_congr ⟨a, _, hframe⟩ h.counts]
      simp [hdom]

lemma Filtering.foldl (hm : m.LevelsValid) (hf : m.FlagsMatch nodes) :
    ∀ (rest done : List RebalancingNode) (acc : RebalancingManager × List RebalancingTask),
      (∀ node ∈ rest, node ∈ nodes) → Filtering m nodes done acc →
        Filtering m nodes (done ++ rest) (rest.foldl BatchedSparseArray.filterNode acc)
  | [], done, acc, _, h => by simpa using h
  | node :: rest, done, acc, hsub, h => by
      have := Filtering.foldl hm hf rest (done ++ [node]) _
        (fun other ho => hsub other (List.mem_cons_of_mem _ ho))
        (h.step hm hf (hsub node List.mem_cons_self))
      rwa [List.append_assoc, List.singleton_append] at this

lemma FlagsMatch.filtering (hf : m.FlagsMatch nodes) : Filtering m nodes [] (m, []) where
  frame := ⟨m.aggregates, rfl⟩
  counts _ _ := rfl
  flags l i hli := by rw [hf.flags l i hli]; simp
  tasks := rfl

end RebalancingManager

/-! ## Step B-3 -/

namespace BatchedSparseArray

variable {K α : Type} {s : BatchedSparseArray K α}

/-- The nodes that are not dominated, in the order in which they were collected. -/
def keptNodes (s : BatchedSparseArray K α) : List RebalancingNode :=
  s.rebalancingNodes.filter fun node => ¬ Dominated s.rebalancingNodes node

lemma mem_keptNodes {node : RebalancingNode} : node ∈ s.keptNodes ↔
    node ∈ s.rebalancingNodes ∧ ¬ Dominated s.rebalancingNodes node := by
  simp [keptNodes]

/-- **Step B-3.**  The tasks are those of the nodes without a rebalancing node above. -/
theorem createRebalancingTasks_eq (hm : s.rebalancingManager.LevelsValid)
    (hf : s.rebalancingManager.FlagsMatch s.rebalancingNodes) :
    s.createRebalancingTasks.rebalancingTasks =
      s.keptNodes.map s.rebalancingManager.getRebalancingTask := by
  have h := Filtering.foldl hm hf s.rebalancingNodes [] _ (fun _ h => h) hf.filtering
  exact h.tasks

/-- What step B-3 leaves of the hierarchy: the flags of the nodes that are kept. -/
lemma filtering_createRebalancingTasks (hm : s.rebalancingManager.LevelsValid)
    (hf : s.rebalancingManager.FlagsMatch s.rebalancingNodes) :
    (∃ a, s.createRebalancingTasks.rebalancingManager =
        s.rebalancingManager.withCounters a s.rebalancingManager.nextLevelRecountingNodes) ∧
      (∀ i l, (s.createRebalancingTasks.rebalancingManager.aggregate i l).numberOfBlocks =
        (s.rebalancingManager.aggregate i l).numberOfBlocks) ∧
      ∀ l i, s.rebalancingManager.IsNode l i →
        ((s.createRebalancingTasks.rebalancingManager.aggregate i l).rebalanced = true ↔
          ⟨l, i⟩ ∈ s.keptNodes) := by
  have h := Filtering.foldl hm hf s.rebalancingNodes [] _ (fun _ h => h) hf.filtering
  refine ⟨h.frame, h.counts, fun l i hli => (h.flags l i hli).trans ?_⟩
  rw [mem_keptNodes, List.nil_append]
  tauto

end BatchedSparseArray

/-! ## Ranges -/

namespace RebalancingManager

variable {m : RebalancingManager}

/-- A cell lies in the range of a node if the node is above the leaf of the cell. -/
lemma LevelsValid.contains_iff (hm : m.LevelsValid) (hw : 0 < m.aggregateWidth)
    {node : RebalancingNode} (hl : node.level ≤ m.logCapacity) {cell : ℕ} :
    (m.rebalancingRange node).contains cell ↔
      node.index = cell / m.aggregateWidth / 2 ^ node.level := by
  have hpos : 0 < 2 ^ node.level * m.aggregateWidth := Nat.mul_pos (Nat.two_pow_pos _) hw
  rw [hm.rebalancingRange_eq hl, Interval.contains, Nat.div_div_eq_div_mul, Nat.mul_comm m.aggregateWidth]
  simp only
  constructor
  · rintro ⟨h1, h2⟩
    exact (Nat.div_eq_of_lt_le h1 h2).symm
  · intro h
    rw [h]
    refine ⟨Nat.div_mul_le_self _ _, ?_⟩
    rw [Nat.add_mul, Nat.one_mul]
    exact Nat.lt_div_mul_add hpos

/-- Two nodes whose ranges share a cell are equal or one is above the other. -/
lemma LevelsValid.comparable (hm : m.LevelsValid) (hw : 0 < m.aggregateWidth)
    {a b : RebalancingNode} (ha : a.level ≤ m.logCapacity) (hb : b.level ≤ m.logCapacity)
    {cell : ℕ} (hca : (m.rebalancingRange a).contains cell)
    (hcb : (m.rebalancingRange b).contains cell) : a = b ∨ a.Above b ∨ b.Above a := by
  rw [hm.contains_iff hw ha] at hca
  rw [hm.contains_iff hw hb] at hcb
  rcases Nat.lt_trichotomy a.level b.level with hlt | heq | hlt
  · refine Or.inr (Or.inr ⟨hlt, ?_⟩)
    rw [hca, hcb, Nat.div_div_eq_div_mul _ (2 ^ a.level), ← pow_add, Nat.add_sub_cancel' hlt.le]
  · refine Or.inl ?_
    rw [heq] at hca
    cases a
    cases b
    simp only [RebalancingNode.mk.injEq] at *
    exact ⟨heq, hca.trans hcb.symm⟩
  · refine Or.inr (Or.inl ⟨hlt, ?_⟩)
    rw [hca, hcb, Nat.div_div_eq_div_mul _ (2 ^ b.level), ← pow_add, Nat.add_sub_cancel' hlt.le]

/-- The super root is the only node behind the last level. -/
lemma IsNode.eq_superRoot {node : RebalancingNode} (hn : m.IsNode node.level node.index)
    (hl : m.logCapacity < node.level) : node = ⟨m.logCapacity + 1, 0⟩ := by
  have hlevel : node.level = m.logCapacity + 1 := by
    have := hn.1
    omega
  have hindex := hn.2
  rw [hlevel, Nat.sub_eq_zero_of_le (Nat.le_succ _), pow_zero] at hindex
  cases node
  simp only [RebalancingNode.mk.injEq] at *
  exact ⟨hlevel, by omega⟩

/-- The super root is above all other nodes. -/
lemma superRoot_above {node : RebalancingNode} (hn : m.IsNode node.level node.index)
    (hl : node.level ≤ m.logCapacity) :
    RebalancingNode.Above ⟨m.logCapacity + 1, 0⟩ node := by
  refine ⟨Nat.lt_succ_of_le hl, ?_⟩
  have hlt : 2 ^ (m.logCapacity - node.level) ≤ 2 ^ (m.logCapacity + 1 - node.level) :=
    Nat.pow_le_pow_right (by norm_num) (by omega)
  exact (Nat.div_eq_of_lt (lt_of_lt_of_le hn.2 hlt)).symm

end RebalancingManager

/-! ## Kept nodes -/

namespace BatchedSparseArray

open RebalancingManager

variable {K α : Type} {s : BatchedSparseArray K α}

/-- The ranges of two kept nodes have no cell in common. -/
lemma keptNodes_disjoint (hm : s.rebalancingManager.LevelsValid)
    (hw : 0 < s.rebalancingManager.aggregateWidth)
    (hf : s.rebalancingManager.FlagsMatch s.rebalancingNodes) {a b : RebalancingNode}
    (ha : a ∈ s.keptNodes) (hb : b ∈ s.keptNodes) {c : ℕ}
    (hca : (s.rebalancingManager.rebalancingRange a).contains c)
    (hcb : (s.rebalancingManager.rebalancingRange b).contains c) : a = b := by
  rw [mem_keptNodes] at ha hb
  have hna := hf.isNode a ha.1
  have hnb := hf.isNode b hb.1
  -- a super root is above everything else
  have hsuper : ∀ x y : RebalancingNode, x ∈ s.rebalancingNodes → y ∈ s.rebalancingNodes →
      ¬ Dominated s.rebalancingNodes y → s.rebalancingManager.logCapacity < x.level → x = y := by
    intro x y hx hy hyd hlt
    have hnx := hf.isNode x hx
    have hny := hf.isNode y hy
    have hxl : x.level = s.rebalancingManager.logCapacity + 1 := by have := hnx.1; omega
    have hxi : x.index = 0 := by
      have := hnx.2
      rw [hxl, Nat.sub_eq_zero_of_le (Nat.le_succ _), pow_zero] at this
      omega
    have hxe : x = ⟨s.rebalancingManager.logCapacity + 1, 0⟩ := by
      cases x
      simp only [RebalancingNode.mk.injEq]
      exact ⟨hxl, hxi⟩
    by_cases hyl : y.level ≤ s.rebalancingManager.logCapacity
    · exact absurd ⟨x, hx, by rw [hxe]; exact superRoot_above hny hyl⟩ hyd
    · have hyl' : y.level = s.rebalancingManager.logCapacity + 1 := by have := hny.1; omega
      have hyi : y.index = 0 := by
        have := hny.2
        rw [hyl', Nat.sub_eq_zero_of_le (Nat.le_succ _), pow_zero] at this
        omega
      rw [hxe]
      cases y
      simp only [RebalancingNode.mk.injEq] at *
      exact ⟨hyl'.symm, hyi.symm⟩
  by_cases hal : a.level ≤ s.rebalancingManager.logCapacity
  · by_cases hbl : b.level ≤ s.rebalancingManager.logCapacity
    · rcases hm.comparable hw hal hbl hca hcb with heq | hab | hba
      · exact heq
      · exact absurd ⟨a, ha.1, hab⟩ hb.2
      · exact absurd ⟨b, hb.1, hba⟩ ha.2
    · exact (hsuper b a hb.1 ha.1 ha.2 (by omega)).symm
  · exact hsuper a b ha.1 hb.1 hb.2 (by omega)

/-- What step B-3 does: the tasks are those of the maximal nodes, their ranges are disjoint, every
other node is below one of them, and the flags that stay are theirs. -/
structure MaximalKept (s : BatchedSparseArray K α) : Prop where
  mem_tasks : ∀ task, task ∈ s.createRebalancingTasks.rebalancingTasks ↔
    ∃ node ∈ s.rebalancingNodes, (¬ ∃ other ∈ s.rebalancingNodes, other.Above node) ∧
      task = s.rebalancingManager.getRebalancingTask node
  once : (s.createRebalancingTasks.rebalancingTasks.map (·.rootNode)).Nodup
  disjoint : s.createRebalancingTasks.rebalancingTasks.Pairwise fun a b =>
    ∀ c, a.pmaRange.contains c → ¬ b.pmaRange.contains c
  removed : ∀ node ∈ s.rebalancingNodes, (∃ other ∈ s.rebalancingNodes, other.Above node) →
    ∃ task ∈ s.createRebalancingTasks.rebalancingTasks, task.rootNode.Above node
  flags : ∀ l i, s.rebalancingManager.IsNode l i →
    ((s.createRebalancingTasks.rebalancingManager.aggregate i l).rebalanced = true ↔
      ∃ task ∈ s.createRebalancingTasks.rebalancingTasks, task.rootNode = ⟨l, i⟩)

/-- **The domination filter.**  In whatever order the nodes are processed, the maximal ones are
kept. -/
theorem createRebalancingTasks_keeps_maximal (s : BatchedSparseArray K α)
    (hm : s.rebalancingManager.LevelsValid)
    (hf : s.rebalancingManager.FlagsMatch s.rebalancingNodes) (hn : s.rebalancingNodes.Nodup) :
    s.MaximalKept := by
  have htasks := createRebalancingTasks_eq hm hf
  have hkept : s.keptNodes.Nodup := hn.filter _
  have hmem : ∀ node, (∃ task ∈ s.createRebalancingTasks.rebalancingTasks, task.rootNode = node) ↔
      node ∈ s.keptNodes := by
    intro node
    rw [htasks]
    simp only [List.mem_map, exists_exists_and_eq_and]
    exact ⟨fun ⟨other, ho, heq⟩ => heq ▸ ho, fun h => ⟨node, h, rfl⟩⟩
  refine ⟨fun task => ?_, ?_, ?_, fun node hin hdom => ?_, fun l i hli => ?_⟩
  · rw [htasks, List.mem_map]
    constructor
    · rintro ⟨node, hk, rfl⟩
      exact ⟨node, (mem_keptNodes.mp hk).1, (mem_keptNodes.mp hk).2, rfl⟩
    · rintro ⟨node, h1, h2, rfl⟩
      exact ⟨node, mem_keptNodes.mpr ⟨h1, h2⟩, rfl⟩
  · rw [htasks, List.map_map]
    have : (fun task : RebalancingTask => task.rootNode) ∘
        s.rebalancingManager.getRebalancingTask = id := rfl
    rw [this, List.map_id]
    exact hkept
  · rw [htasks, List.pairwise_map]
    refine hkept.imp_of_mem fun {a b} ha hb hne c hca hcb => ?_
    rcases Nat.eq_zero_or_pos s.rebalancingManager.aggregateWidth with hw | hw
    · -- without segments all ranges but that of the super root are empty
      have hsuper : ∀ x ∈ s.keptNodes, (s.rebalancingManager.rebalancingRange x).contains c →
          x = ⟨s.rebalancingManager.logCapacity + 1, 0⟩ := by
        intro x hx hxc
        have hnode := hf.isNode x (mem_keptNodes.mp hx).1
        by_cases hl : x.level ≤ s.rebalancingManager.logCapacity
        · rw [hm.rebalancingRange_eq hl, hw] at hxc
          exact absurd hxc.2 (by simp)
        · exact hnode.eq_superRoot (by omega)
      exact hne ((hsuper a ha hca).trans (hsuper b hb hcb).symm)
    · exact hne (keptNodes_disjoint hm hw hf ha hb hca hcb)
  · obtain ⟨top, htop, habove, hnd⟩ := Dominated.exists_topmost
      (fun other ho => (hf.isNode other ho).1) _ (le_refl _) hdom
    obtain ⟨task, ht, heq⟩ := (hmem top).mpr (mem_keptNodes.mpr ⟨htop, hnd⟩)
    exact ⟨task, ht, heq ▸ habove⟩
  · rw [(filtering_createRebalancingTasks hm hf).2.2 l i hli, hmem]

end BatchedSparseArray

namespace RebalancingManager

variable {m : RebalancingManager}

/-- The hierarchy with the flags of the given nodes set and all counters zero. -/
def withFlags (m : RebalancingManager) (nodes : List RebalancingNode) : RebalancingManager :=
  { m with
    aggregates := fun j =>
      if ∃ node ∈ nodes, j = m.aggregateIndex node.index node.level then ⟨0, true⟩ else .zero }

lemma LevelsValid.withFlags_flagsMatch (hm : m.LevelsValid) {nodes : List RebalancingNode}
    (hn : ∀ node ∈ nodes, m.IsNode node.level node.index) : (m.withFlags nodes).FlagsMatch nodes := by
  refine ⟨hn, fun l i hli => ?_⟩
  change (if ∃ node ∈ nodes, m.aggregateIndex i l = m.aggregateIndex node.index node.level
    then (⟨0, true⟩ : ManagerEntry) else .zero).rebalanced = true ↔ _
  constructor
  · intro h
    split at h
    · rename_i hex
      obtain ⟨node, hin, heq⟩ := hex
      obtain ⟨rfl, rfl⟩ := hm.aggregateIndex_inj hli (hn node hin) heq
      exact hin
    · exact absurd h (by simp [ManagerEntry.zero])
  · intro hin
    rw [if_pos ⟨_, hin, rfl⟩]

end RebalancingManager

namespace BatchedSparseArray

/-- A fresh array in which two leaves, the parent of one of them and the super root have been
collected. -/
def collectedChain : BatchedSparseArray ℕ ℕ :=
  { create (keyOnlyBatched 4 4) 2 with
    rebalancingManager := (RebalancingManager.create 4 densityOne 0).withFlags
      [⟨0, 4⟩, ⟨0, 1⟩, ⟨1, 0⟩, ⟨15, 0⟩]
    rebalancingNodes := [⟨0, 4⟩, ⟨0, 1⟩, ⟨1, 0⟩, ⟨15, 0⟩] }

theorem createRebalancingTasks_keeps_superRoot : collectedChain.MaximalKept ∧
    collectedChain.createRebalancingTasks.rebalancingTasks.map (·.rootNode) = [⟨15, 0⟩] := by
  have hm : (RebalancingManager.create 4 densityOne 0).LevelsValid := create_levelsValid 4 densityOne 0
  have hflags := @LevelsValid.withFlags_flagsMatch _ hm [⟨0, 4⟩, ⟨0, 1⟩, ⟨1, 0⟩, ⟨15, 0⟩]
    (by simp [IsNode, RebalancingManager.create, recomputeLevelInfo, logInitialHierarchyCapacity])
  have hlevels : collectedChain.rebalancingManager.LevelsValid :=
    ⟨hm.capacity_eq, hm.super_eq, hm.starts_eq, hm.widths_eq⟩
  refine ⟨createRebalancingTasks_keeps_maximal collectedChain hlevels hflags (by decide), ?_⟩
  rw [createRebalancingTasks_eq hlevels hflags]
  decide

end BatchedSparseArray

end BatchPMA
