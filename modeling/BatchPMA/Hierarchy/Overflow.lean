import BatchPMA.Hierarchy.Exact
import BatchPMA.Hierarchy.Density

/-!
# Overflows and rebalancing nodes

A leaf into which new blocks were written is marked for rebalancing.  If it is above its threshold
the mark moves to its parent, and so on; the first node on the way up that is within its threshold
is collected.  `Climbing` is the invariant of that movement.

At the root the mark has nowhere to go.  The super root is collected by a test of its own, which
compares the number of blocks with the number of cells and not with the threshold of the root.  An
overflow that ends up between the two is dropped; `update_rebalances_iff` says that this is the
only way to lose one.
-/

namespace BatchPMA

open RebalancingManager Dyadic

/-- A node within its threshold fits into its range. -/
lemma RebalancingManager.LevelsValid.threshold_le {m : RebalancingManager} (h : m.LevelsValid)
    (hd : m.density.Valid m.aggregateWidth) {l : ℕ} (hl : l ≤ m.logCapacity) :
    m.threshold l ≤ 2 ^ l * m.aggregateWidth := by
  rw [threshold, h.levelAggregateWidth_eq hl]
  exact hd.maxBlocks_le l m.logCapacity hl

/-- The node is the leaf itself or one of its ancestors, the super root included. -/
def RebalancingNode.Covers (node : RebalancingNode) (leaf : ℕ) : Prop :=
  node.index = leaf / 2 ^ node.level

/-- The flags of the tree are those of the listed nodes. -/
structure RebalancingManager.FlagsMatch (m : RebalancingManager) (nodes : List RebalancingNode) :
    Prop where
  isNode : ∀ node ∈ nodes, m.IsNode node.level node.index
  flags : ∀ l i, m.IsNode l i → ((m.aggregate i l).rebalanced = true ↔ ⟨l, i⟩ ∈ nodes)

namespace UpdateState

/-- No flag is set and no rebalancing node is left over, as after every batch. -/
structure FlagsClear (st : UpdateState) : Prop where
  rebalanced : ∀ l i, st.manager.IsNode l i → (st.manager.aggregate i l).rebalanced = false
  rebalancingNodes : st.rebalancingNodes = []

/-- In front of level `l`: each overflow has been collected, or it is above all thresholds so far
and marked in `map`. -/
structure Climbing (m : RebalancingManager) (f : ℕ → ℕ) (overflows : Finset ℕ) (l : ℕ)
    (map : BucketMap) (st : UpdateState) : Prop where
  climbs : ∀ j ∈ overflows, (∃ l' < l, ⟨l', j / 2 ^ l'⟩ ∈ st.rebalancingNodes) ∨
    ((∀ l' < l, m.threshold l' < subtotal f l' (j / 2 ^ l')) ∧ j / 2 ^ l ∈ map.flagged)
  collected : ∀ node ∈ st.rebalancingNodes, node.level < l ∧
    node.index < 2 ^ (m.logCapacity - node.level) ∧
    subtotal f node.level node.index ≤ m.threshold node.level
  flags : ∀ l' i, m.IsNode l' i →
    ((st.manager.aggregate i l').rebalanced = true ↔ ⟨l', i⟩ ∈ st.rebalancingNodes)
  nodup : st.rebalancingNodes.Nodup
  sorted : st.rebalancingNodes.Pairwise fun a b => a.level ≤ b.level

variable {m : RebalancingManager} {f : ℕ → ℕ} {l : ℕ} {st : UpdateState} {sds : SdsView}
  {overflows : Finset ℕ}

lemma FlagsClear.climbing (h : st.FlagsClear) :
    st.Climbing st.manager f st.recountingNodesMap.flagged 0 st.recountingNodesMap where
  climbs j hj := Or.inr ⟨fun l' hl' => absurd hl' (Nat.not_lt_zero _), by simpa using hj⟩
  collected node hn := by rw [h.rebalancingNodes] at hn; exact absurd hn List.not_mem_nil
  flags l' i hn := by simp [h.rebalanced l' i hn, h.rebalancingNodes]
  nodup := by rw [h.rebalancingNodes]; exact List.nodup_nil
  sorted := by rw [h.rebalancingNodes]; exact List.Pairwise.nil

/-- A level visited with the right counts. -/
lemma Climbing.pass (hm : m.LevelsValid) (hp : st.Pending m f l) (hl : l ≤ m.logCapacity)
    (h : st.Climbing m f overflows l st.recountingNodesMap) {order : List ℕ} (hnd : order.Nodup)
    (horder : ∀ k, k ∈ order ↔ k ∈ st.recountingNodesMap.keys) :
    (st.pass l st.recountingNodesMap.flag (subtotal f l) order).Climbing m f overflows (l + 1)
      (passNext st.manager l st.recountingNodesMap.flag (subtotal f l) order) := by
  obtain ⟨a, next, hframe⟩ := hp.frame
  have hthr : ∀ l', st.manager.threshold l' = m.threshold l' := fun l' => by rw [hframe]; rfl
  have hM : st.manager.LevelsValid := by rw [hframe]; exact hm.withCounters _ _
  have hnode : ∀ {l' i}, m.IsNode l' i → st.manager.IsNode l' i := fun hn => by rw [hframe]; exact hn
  have hkeys : ∀ k ∈ order, k < 2 ^ (m.logCapacity - l) := fun k hk =>
    hp.keys_lt k ((horder k).mp hk)
  rw [pass_eq _ _ _ _ _ hnd]
  refine ⟨fun j hj => ?_, fun node hn => ?_, fun l' i hn => ?_, ?_, ?_⟩
  · rcases h.climbs j hj with ⟨l', hl', hin⟩ | ⟨habove, hflag⟩
    · exact Or.inl ⟨l', by omega, List.mem_append_left _ hin⟩
    · have hin : j / 2 ^ l ∈ order :=
        (horder _).mpr (st.recountingNodesMap.flagged_subset hflag)
      rcases Nat.lt_or_ge (m.threshold l) (subtotal f l (j / 2 ^ l)) with hgt | hle
      · -- above the threshold: the parent is marked
        refine Or.inr ⟨fun l' hl' => ?_, mem_flagged_passNext.mpr (Or.inr ⟨j / 2 ^ l, hin, ?_⟩)⟩
        · rcases Nat.eq_or_lt_of_le (Nat.lt_succ_iff.mp hl') with rfl | hlt
          · exact hgt
          · exact habove l' hlt
        · exact ⟨decide_eq_true hflag, by rwa [hthr], (ancestor_succ j l).symm⟩
      · -- within the threshold: the node is collected now or was before
        refine Or.inl ⟨l, Nat.lt_succ_self l, List.mem_append.mpr ?_⟩
        by_cases hr : (st.manager.aggregate (j / 2 ^ l) l).rebalanced = true
        · exact Or.inl ((h.flags l _ (IsNode.of_lt hl (hkeys _ hin))).mp hr)
        · refine Or.inr (mem_passCollected.mpr ⟨rfl, hin, ?_⟩)
          simp only [collects, BucketMap.flag, hflag, hthr, hle, hr, decide_true, Bool.and_true,
            Bool.not_false]
  · rcases List.mem_append.mp hn with hold | hnew
    · obtain ⟨h1, h2, h3⟩ := h.collected node hold
      exact ⟨by omega, h2, h3⟩
    · obtain ⟨hlev, hin, hc⟩ := mem_passCollected.mp hnew
      simp only [collects, Bool.and_eq_true, decide_eq_true_eq, hthr] at hc
      rw [hlev]
      exact ⟨Nat.lt_succ_self l, hkeys _ hin, hc.1.2⟩
  · rw [aggregate_withCounters, List.mem_append, mem_passCollected]
    by_cases hl' : l' = l
    · subst hl'
      rw [passAggregates_self, ← h.flags l' i hn]
      simp only [true_and]
      split
      · rename_i hin
        simp only [visitedEntry, collects, hin, true_and, Bool.or_eq_true, Bool.and_eq_true,
          decide_eq_true_eq, Bool.not_eq_true']
        cases (st.manager.aggregate i l').rebalanced <;> simp
      · rename_i hout
        simp [hout]
    · rw [passAggregates_other hM (fun k hk => hnode (IsNode.of_lt hl (hkeys k hk))) (hnode hn) hl',
        h.flags l' i hn]
      simp [hl']
  · refine List.Nodup.append h.nodup ?_ ?_
    · refine (hnd.filter _).map fun k k' hkk => ?_
      exact congrArg RebalancingNode.index hkk
    · intro node hold hnew
      have h1 := (h.collected node hold).1
      have h2 := (mem_passCollected.mp hnew).1
      omega
  · refine List.pairwise_append.mpr ⟨h.sorted, ?_, fun node hold other hnew => ?_⟩
    · refine List.pairwise_of_forall_mem_list fun node hn other ho => ?_
      rw [(mem_passCollected.mp hn).1, (mem_passCollected.mp ho).1]
    · rw [(mem_passCollected.mp hnew).1]
      exact (h.collected node hold).1.le

lemma pass_next (st : UpdateState) (flag : ℕ → Bool) (count : ℕ → ℕ) {order : List ℕ}
    (hnd : order.Nodup) : (st.pass l flag count order).manager.nextLevelRecountingNodes =
      passNext st.manager l flag count order := by
  rw [pass_eq _ _ _ _ _ hnd, next_withCounters]

/-- **The way up.**  After the first levels have been visited. -/
theorem Consistent.climbing (h : st.Consistent) (hf : st.FlagsClear) (sched : Schedule)
    (sds : SdsView) : ∀ n ≤ st.manager.logCapacity,
      (st.updateLevels sched sds n).Climbing st.manager (st.leafCount sds)
        st.recountingNodesMap.flagged (n + 1)
        (st.updateLevels sched sds n).manager.nextLevelRecountingNodes
  | 0, _ => by
      have hstart : st.updateLevels sched sds 0 =
          st.updateLevelZero sds (sched.visit 0 st.recountingNodesMap.keys) := rfl
      rw [hstart, updateLevelZero_eq_pass_leafCount sds st (sched.mem_visit 0 _),
        pass_next _ _ _ (sched.visit_nodup 0 _)]
      exact Climbing.pass h.levels h.pending (Nat.zero_le _) hf.climbing (sched.visit_nodup 0 _)
        (sched.mem_visit 0 _)
  | n + 1, hn => by
      have hp := (h.visited sched sds n (by omega)).nextLevel (by omega)
      have ih := h.climbing hf sched sds n (by omega)
      have hc : (st.updateLevels sched sds n).nextLevel.Climbing st.manager (st.leafCount sds)
          st.recountingNodesMap.flagged (n + 1)
          (st.updateLevels sched sds n).nextLevel.recountingNodesMap :=
        ⟨ih.climbs, ih.collected, ih.flags, ih.nodup, ih.sorted⟩
      rw [updateLevels_succ, updateLevel,
        hp.updateHigherLevel_eq_pass h.levels hn (fun k hk => (sched.mem_visit _ _ k).mp hk),
        pass_next _ _ _ (sched.visit_nodup _ _)]
      exact hc.pass h.levels hp hn (sched.visit_nodup _ _) (sched.mem_visit _ _)

/-! ## Where rebalancing nodes come from -/

/-- More blocks than the level below may hold in one node, unless the node is a leaf or was marked
by an entry left over from the last update. -/
def Crowded (m : RebalancingManager) (f : ℕ → ℕ) (l i : ℕ) : Prop :=
  l = 0 ∨ (l = 1 ∧ i = 0) ∨ m.threshold (l - 1) < subtotal f l i

/-- Everything that is marked or collected is above a marked leaf, or leftmost on its level, and
it is crowded. -/
structure Sourced (m : RebalancingManager) (f : ℕ → ℕ) (overflows : Finset ℕ) (l : ℕ)
    (map : BucketMap) (st : UpdateState) : Prop where
  marked : ∀ i ∈ map.flagged, (i = 0 ∨ ∃ j ∈ overflows, i = j / 2 ^ l) ∧ Crowded m f l i
  collected : ∀ node ∈ st.rebalancingNodes,
    (node.index = 0 ∨ ∃ j ∈ overflows, node.index = j / 2 ^ node.level) ∧
      Crowded m f node.level node.index

lemma Sourced.pass (hframe : ∃ a next, st.manager = m.withCounters a next)
    (h : st.Sourced m f overflows l st.recountingNodesMap)
    (hnext : ∀ i ∈ st.manager.nextLevelRecountingNodes.flagged, l = 0 ∧ i = 0) {order : List ℕ}
    (hnd : order.Nodup) :
    (st.pass l st.recountingNodesMap.flag (subtotal f l) order).Sourced m f overflows (l + 1)
      (passNext st.manager l st.recountingNodesMap.flag (subtotal f l) order) := by
  obtain ⟨a, next, hm⟩ := hframe
  have hthr : st.manager.threshold l = m.threshold l := by rw [hm]; rfl
  rw [pass_eq _ _ _ _ _ hnd]
  have hflag : ∀ k, st.recountingNodesMap.flag k = true →
      (k = 0 ∨ ∃ j ∈ overflows, k = j / 2 ^ l) ∧ Crowded m f l k :=
    fun k hk => h.marked k (of_decide_eq_true hk)
  refine ⟨fun i hi => ?_, fun node hn => ?_⟩
  · rcases mem_flagged_passNext.mp hi with hold | ⟨k, -, hk, hover, rfl⟩
    · obtain ⟨rfl, rfl⟩ := hnext i hold
      exact ⟨Or.inl rfl, Or.inr (Or.inl ⟨rfl, rfl⟩)⟩
    · refine ⟨?_, Or.inr (Or.inr ?_)⟩
      · rcases (hflag k hk).1 with rfl | ⟨j, hj, rfl⟩
        · exact Or.inl rfl
        · exact Or.inr ⟨j, hj, (ancestor_succ j l).symm⟩
      · -- the child that was passed on is one of the two children
        rw [Nat.add_sub_cancel, subtotal_succ, RebalancingManager.parent]
        rw [hthr] at hover
        rcases Nat.even_or_odd' k with ⟨c, rfl | rfl⟩
        · rw [Nat.mul_div_cancel_left c two_pos, Nat.mul_comm c 2]
          omega
        · rw [Nat.mul_add_div two_pos, Nat.mul_comm (c + 1 / 2) 2]
          simp only [Nat.reduceDiv, Nat.add_zero]
          omega
  · rcases List.mem_append.mp hn with hold | hnew
    · exact h.collected node hold
    · obtain ⟨hlev, -, hc⟩ := mem_passCollected.mp hnew
      simp only [collects, Bool.and_eq_true] at hc
      rw [hlev]
      exact hflag _ hc.1.1

lemma Consistent.sourced (h : st.Consistent) (hf : st.FlagsClear) (sched : Schedule)
    (sds : SdsView) (hnext : ∀ i ∈ st.manager.nextLevelRecountingNodes.flagged, i = 0) :
    ∀ n ≤ st.manager.logCapacity, (st.updateLevels sched sds n).Sourced st.manager
      (st.leafCount sds) st.recountingNodesMap.flagged (n + 1)
      (st.updateLevels sched sds n).manager.nextLevelRecountingNodes
  | 0, _ => by
      have hstart : st.updateLevels sched sds 0 =
          st.updateLevelZero sds (sched.visit 0 st.recountingNodesMap.keys) := rfl
      rw [hstart, updateLevelZero_eq_pass_leafCount sds st (sched.mem_visit 0 _),
        pass_next _ _ _ (sched.visit_nodup 0 _)]
      refine Sourced.pass ⟨_, _, rfl⟩ ⟨fun i hi => ⟨Or.inr ⟨i, hi, by simp⟩, Or.inl rfl⟩,
        fun node hn => ?_⟩ (fun i hi => ⟨rfl, hnext i hi⟩) (sched.visit_nodup 0 _)
      rw [hf.rebalancingNodes] at hn
      exact absurd hn List.not_mem_nil
  | n + 1, hn => by
      have hp := (h.visited sched sds n (by omega)).nextLevel (by omega)
      have ih := h.sourced hf sched sds hnext n (by omega)
      have hs : (st.updateLevels sched sds n).nextLevel.Sourced st.manager (st.leafCount sds)
          st.recountingNodesMap.flagged (n + 1)
          (st.updateLevels sched sds n).nextLevel.recountingNodesMap := ⟨ih.marked, ih.collected⟩
      rw [updateLevels_succ, updateLevel,
        hp.updateHigherLevel_eq_pass h.levels hn (fun k hk => (sched.mem_visit _ _ k).mp hk),
        pass_next _ _ _ (sched.visit_nodup _ _)]
      refine hs.pass hp.frame (fun i hi => ?_) (sched.visit_nodup _ _)
      simp [nextLevel] at hi

/-! ## The root -/

/-- The rebalancing nodes after `update`: those collected on the way up, and the super root if the
blocks do not fit into the range of the root. -/
lemma Consistent.mem_rebalancingNodes (h : st.Consistent) (hf : st.FlagsClear) (sched : Schedule)
    (sds : SdsView) {node : RebalancingNode} :
    node ∈ (st.update sched sds).rebalancingNodes ↔
      node ∈ (st.updateLevels sched sds st.manager.logCapacity).rebalancingNodes ∨
        (node = ⟨st.manager.logCapacity + 1, 0⟩ ∧
          st.manager.aggregateWidth * 2 ^ st.manager.logCapacity <
            subtotal (st.leafCount sds) st.manager.logCapacity 0) := by
  have hv := h.visited sched sds _ (le_refl st.manager.logCapacity)
  have hc := h.climbing hf sched sds _ (le_refl st.manager.logCapacity)
  obtain ⟨a, next, hframe⟩ := hv.frame
  have hroot := hv.counted _ (le_refl _) 0 (Nat.two_pow_pos _)
  -- the super root has not been collected before
  have hsuper : ((st.updateLevels sched sds st.manager.logCapacity).manager.aggregate 0
      (st.manager.logCapacity + 1)).rebalanced = false := by
    rw [← Bool.not_eq_true, hc.flags _ _ (IsNode.superRoot _)]
    intro hin
    have := (hc.collected _ hin).1
    simp at this
  have hwidth : (st.updateLevels sched sds st.manager.logCapacity).manager.aggregateWidth *
      (st.updateLevels sched sds st.manager.logCapacity).manager.levelAggregateWidth
        st.manager.logCapacity = st.manager.aggregateWidth * 2 ^ st.manager.logCapacity := by
    rw [hframe, aggregateWidth_withCounters, levelAggregateWidth_withCounters,
      h.levels.levelAggregateWidth_eq (le_refl _)]
  have hcap : (st.updateLevels sched sds st.manager.logCapacity).manager.logCapacity =
      st.manager.logCapacity := by rw [hframe, logCapacity_withCounters]
  rw [h.update_eq, checkSuperRoot]
  simp only [hcap, hwidth, hroot, hsuper]
  split
  · rename_i hgt
    simp [hgt]
  · rename_i hle
    simp [hle]

/-- The list of rebalancing nodes after `update`. -/
lemma Consistent.rebalancingNodes_update (h : st.Consistent) (hf : st.FlagsClear)
    (sched : Schedule) (sds : SdsView) :
    (st.update sched sds).manager.FlagsMatch (st.update sched sds).rebalancingNodes ∧
      (st.update sched sds).rebalancingNodes.Nodup ∧
      (st.update sched sds).rebalancingNodes.Pairwise fun a b => a.level ≤ b.level := by
  have hv := h.visited sched sds _ (le_refl st.manager.logCapacity)
  have hc := h.climbing hf sched sds _ (le_refl st.manager.logCapacity)
  obtain ⟨a, next, hframe⟩ := hv.frame
  have hcap : (st.updateLevels sched sds st.manager.logCapacity).manager.logCapacity =
      st.manager.logCapacity := by rw [hframe, logCapacity_withCounters]
  have hlevels : (st.updateLevels sched sds st.manager.logCapacity).manager.LevelsValid := by
    rw [hframe]
    exact h.levels.withCounters a next
  have hnode : ∀ {l i}, (st.updateLevels sched sds st.manager.logCapacity).manager.IsNode l i ↔
      st.manager.IsNode l i := by rw [hframe]; simp
  have hmatch : (st.updateLevels sched sds st.manager.logCapacity).manager.FlagsMatch
      (st.updateLevels sched sds st.manager.logCapacity).rebalancingNodes := by
    refine ⟨fun node hn => ?_, fun l i hli => hc.flags l i (hnode.mp hli)⟩
    obtain ⟨hlev, hidx, -⟩ := hc.collected node hn
    exact hnode.mpr (IsNode.of_lt (by omega) hidx)
  have hnew : ⟨st.manager.logCapacity + 1, 0⟩ ∉
      (st.updateLevels sched sds st.manager.logCapacity).rebalancingNodes := by
    intro hin
    have := (hc.collected _ hin).1
    simp at this
  rw [h.update_eq, checkSuperRoot]
  simp only
  split
  · split
    · exact ⟨hmatch, hc.nodup, hc.sorted⟩
    · rw [hcap]
      refine ⟨⟨fun node hn => ?_, fun l i hli => ?_⟩, ?_, ?_⟩
      · rcases List.mem_append.mp hn with hin | hin
        · exact hmatch.isNode node hin
        · rw [List.mem_singleton] at hin
          rw [hin]
          exact hnode.mpr (IsNode.superRoot _)
      · -- only the flag of the super root has changed
        rw [List.mem_append, List.mem_singleton]
        by_cases hidx : (⟨l, i⟩ : RebalancingNode) = ⟨st.manager.logCapacity + 1, 0⟩
        · simp only [RebalancingNode.mk.injEq] at hidx
          obtain ⟨rfl, rfl⟩ := hidx
          simp [setAggregate, aggregate, aggregateIndex, levelStart]
        · have hne : (st.updateLevels sched sds st.manager.logCapacity).manager.aggregateIndex i l ≠
              (st.updateLevels sched sds st.manager.logCapacity).manager.aggregateIndex 0
                (st.manager.logCapacity + 1) := by
            intro heq
            obtain ⟨rfl, rfl⟩ := hlevels.aggregateIndex_inj hli
              (hnode.mpr (IsNode.superRoot _)) heq
            exact hidx rfl
          rw [or_iff_left hidx, ← hmatch.flags l i hli]
          exact iff_of_eq (congrArg (fun e => ManagerEntry.rebalanced e = true)
            (Function.update_of_ne hne _ _))
      · exact hc.nodup.append (List.nodup_singleton _) (by simpa using hnew)
      · refine List.pairwise_append.mpr ⟨hc.sorted, List.pairwise_singleton _ _, ?_⟩
        intro node hold other hother
        rw [List.mem_singleton] at hother
        rw [hother]
        exact (hc.collected node hold).1.le
  · exact ⟨hmatch, hc.nodup, hc.sorted⟩

/-- An overflow that is above every threshold on its way to the root, in a tree whose root still
has room for all blocks. -/
def OverflowDropped (sds : SdsView) (st : UpdateState) : Prop :=
  ∃ j ∈ st.recountingNodesMap.flagged,
    (∀ l ≤ st.manager.logCapacity,
      st.manager.threshold l < subtotal (st.leafCount sds) l (j / 2 ^ l)) ∧
    subtotal (st.leafCount sds) st.manager.logCapacity 0 ≤
      st.manager.aggregateWidth * 2 ^ st.manager.logCapacity

/-- Every marked leaf has a rebalancing node at or above it, and every rebalancing node has a
range that its blocks fit into. -/
def OverflowsRebalanced (st st' : UpdateState) : Prop :=
  (∀ leaf ∈ st.recountingNodesMap.flagged, ∃ node ∈ st'.rebalancingNodes, node.Covers leaf) ∧
    ∀ node ∈ st'.rebalancingNodes,
      st'.manager.numberOfBlocks node ≤ (st'.manager.rebalancingRange node).length

/-- Every rebalancing node fits into its range. -/
lemma Consistent.numberOfBlocks_le_length (h : st.Consistent) (hf : st.FlagsClear)
    (hd : st.manager.density.Valid st.manager.aggregateWidth) (sched : Schedule)
    {node : RebalancingNode} (hn : node ∈ (st.update sched sds).rebalancingNodes) :
    (st.update sched sds).manager.numberOfBlocks node ≤
      ((st.update sched sds).manager.rebalancingRange node).length := by
  obtain ⟨a, next, hframe⟩ := h.frame sched sds
  have hsuper : (st.update sched sds).manager.logCapacityWithSuperRoot =
      st.manager.logCapacity + 1 := by rw [hframe]; exact h.levels.super_eq
  rcases (h.mem_rebalancingNodes hf sched sds).mp hn with hin | ⟨rfl, -⟩
  · obtain ⟨hlev, hidx, hthr⟩ :=
      (h.climbing hf sched sds _ (le_refl st.manager.logCapacity)).collected node hin
    have hl : node.level ≤ st.manager.logCapacity := by omega
    rw [numberOfBlocks, rebalancingRange, if_neg (by omega), if_neg (by omega), Interval.length,
      h.numberOfBlocks_update sched sds hl hidx, hframe]
    simp only [aggregateWidth_withCounters, levelAggregateWidth_withCounters]
    rw [h.levels.levelAggregateWidth_eq hl, Nat.add_mul, Nat.one_mul, Nat.add_sub_cancel_left]
    exact le_trans hthr (h.levels.threshold_le hd hl)
  · rw [numberOfBlocks, rebalancingRange, if_pos hsuper.symm, if_pos hsuper.symm, Interval.length]
    rw [hframe]
    exact hd.le_minRangeLength _

/-- An overflow that is dropped has no rebalancing node at or above it. -/
lemma Consistent.not_rebalanced_of_dropped (h : st.Consistent) (hf : st.FlagsClear)
    (sched : Schedule) (hdrop : st.OverflowDropped sds) :
    ¬ OverflowsRebalanced st (st.update sched sds) := by
  rintro ⟨hcov, -⟩
  obtain ⟨j, hj, habove, hroom⟩ := hdrop
  obtain ⟨node, hn, hcover⟩ := hcov j hj
  rcases (h.mem_rebalancingNodes hf sched sds).mp hn with hin | ⟨-, hgt⟩
  · obtain ⟨hlev, -, hthr⟩ :=
      (h.climbing hf sched sds _ (le_refl st.manager.logCapacity)).collected node hin
    have := habove node.level (by omega)
    rw [hcover] at hthr
    omega
  · omega

/-- **Overflows are rebalanced.**  Every overflow finds a rebalancing node with enough room if and
only if none is dropped at the root. -/
theorem update_rebalances_iff (sched : Schedule) (sds : SdsView) (st : UpdateState)
    (h : st.Consistent) (hf : st.FlagsClear)
    (hd : st.manager.density.Valid st.manager.aggregateWidth) :
    OverflowsRebalanced st (st.update sched sds) ↔ ¬ st.OverflowDropped sds := by
  have hc := h.climbing hf sched sds _ (le_refl st.manager.logCapacity)
  constructor
  · exact fun hall hdrop => h.not_rebalanced_of_dropped hf sched hdrop hall
  · intro hno
    refine ⟨fun j hj => ?_, fun node hn => h.numberOfBlocks_le_length hf hd sched hn⟩
    rcases hc.climbs j hj with ⟨l, hl, hin⟩ | ⟨habove, -⟩
    · exact ⟨_, (h.mem_rebalancingNodes hf sched sds).mpr (Or.inl hin), rfl⟩
    · -- nothing was collected on the way up, so the blocks do not fit and the super root is
      have hgt : st.manager.aggregateWidth * 2 ^ st.manager.logCapacity <
          subtotal (st.leafCount sds) st.manager.logCapacity 0 := by
        by_contra hle
        exact hno ⟨j, hj, fun l hl => habove l (by omega), not_lt.mp hle⟩
      refine ⟨⟨st.manager.logCapacity + 1, 0⟩,
        (h.mem_rebalancingNodes hf sched sds).mpr (Or.inr ⟨rfl, hgt⟩), ?_⟩
      have hlt := h.keys_lt j (st.recountingNodesMap.flagged_subset hj)
      exact (Nat.div_eq_of_lt (lt_trans hlt (Nat.pow_lt_pow_right (by norm_num)
        (Nat.lt_succ_self _)))).symm

/-! ## The first batch -/

lemma firstBatch_flagsClear (w : ℕ) : (firstBatch w).FlagsClear := ⟨fun _ _ _ => rfl, rfl⟩

lemma firstBatch_subtotal {w : ℕ} (hw : 0 < w) (n : ℕ) {l : ℕ} (hl : l ≤ 14) :
    subtotal ((firstBatch w).leafCount (firstBatchView n)) l 0 = n := by
  rw [subtotal_leafCount (firstBatch_leaves hw n).1 (firstBatch_leaves hw n).2 hl
    (Nat.two_pow_pos _), firstBatchView_trueBlocks hw, if_pos rfl]

/-- A first batch of three blocks stays within the threshold of its leaf. -/
theorem update_rebalances_threeBlocks : (firstBatch 4).Consistent ∧ ∀ sched : Schedule,
    OverflowsRebalanced (firstBatch 4) ((firstBatch 4).update sched (firstBatchView 3)) := by
  refine ⟨firstBatch_consistent 4, ?_⟩
  intro sched
  refine (update_rebalances_iff sched (firstBatchView 3) (firstBatch 4) (firstBatch_consistent 4)
    (firstBatch_flagsClear 4) (densityOne_valid (show 4 < 2 ^ 53 by norm_num))).mpr ?_
  rintro ⟨j, hj, habove, -⟩
  obtain rfl : j = 0 := by simpa [firstBatch, BucketMap.insert] using hj
  have hzero := habove 0 (Nat.zero_le _)
  rw [Nat.zero_div, firstBatch_subtotal four_pos 3 (Nat.zero_le _)] at hzero
  have hthr : (firstBatch 4).manager.threshold 0 = 4 := by decide +kernel
  omega

/-- A first batch of `60000` blocks at segment width `4`: more than the threshold of the root, at
most its `65536` cells, and nothing is rebalanced. -/
theorem update_drops_firstBatch : (firstBatch 4).Consistent ∧ ∀ sched : Schedule,
    ¬ OverflowsRebalanced (firstBatch 4)
      ((firstBatch 4).update sched (firstBatchView 60000)) := by
  refine ⟨firstBatch_consistent 4, ?_⟩
  intro sched
  refine (firstBatch_consistent 4).not_rebalanced_of_dropped (firstBatch_flagsClear 4) sched
    ⟨0, by simp [firstBatch, BucketMap.insert], fun l hl => ?_, ?_⟩
  · have hlevels := (firstBatch_consistent 4).levels
    have hl14 : l ≤ 14 := hl
    rw [Nat.zero_div, firstBatch_subtotal four_pos 60000 hl14]
    rcases Nat.eq_or_lt_of_le hl14 with rfl | hlt
    · have hthr : (firstBatch 4).manager.threshold 14 = 58982 := by decide +kernel
      omega
    · -- below the root the ranges themselves are too small
      have h1 := hlevels.threshold_le (densityOne_valid (show 4 < 2 ^ 53 by norm_num)) hl
      have h2 : 2 ^ l ≤ 2 ^ 13 := Nat.pow_le_pow_right (by norm_num) (by omega)
      have h3 : (firstBatch 4).manager.aggregateWidth = 4 := rfl
      rw [h3] at h1
      omega
  · have hcap : (firstBatch 4).manager.logCapacity = 14 := rfl
    have hwidth : (firstBatch 4).manager.aggregateWidth = 4 := rfl
    rw [hcap, hwidth, firstBatch_subtotal four_pos 60000 (le_refl _)]
    norm_num

end UpdateState

end BatchPMA
