import BatchPMA.Hierarchy.Overflow

/-!
# What holds of every mark

A mark starts at a leaf, or at a node that the last update has left behind, and moves to the parent
when its node is above its threshold.  A property that follows this movement holds of every
collected node.  A collected node above the leaves has more blocks than a node of the level below
may hold, and it is above a marked leaf.  No mark leaves the tree through a root within its
threshold, but one can stay behind in the map: that of a root that has been collected.
-/

namespace BatchPMA

open RebalancingManager Dyadic

namespace UpdateState

variable {P : ℕ → ℕ → Prop} {m : RebalancingManager} {f : ℕ → ℕ} {l : ℕ} {st : UpdateState}
  {sds : SdsView}

/-- `P` holds of every mark in front of level `l` and of every collected node. -/
structure Marked (P : ℕ → ℕ → Prop) (l : ℕ) (map : BucketMap) (st : UpdateState) : Prop where
  marks : ∀ i ∈ map.flagged, P l i
  collected : ∀ node ∈ st.rebalancingNodes, P node.level node.index

lemma Marked.pass (hp : st.Pending m f l) (h : st.Marked P l st.recountingNodesMap)
    (hup : ∀ k < 2 ^ (m.logCapacity - l), P l k → m.threshold l < subtotal f l k →
      P (l + 1) (parent k))
    (hnext : ∀ i ∈ st.manager.nextLevelRecountingNodes.flagged, P (l + 1) i) {order : List ℕ}
    (hnd : order.Nodup) (horder : ∀ k, k ∈ order ↔ k ∈ st.recountingNodesMap.keys) :
    (st.pass l st.recountingNodesMap.flag (subtotal f l) order).Marked P (l + 1)
      (passNext st.manager l st.recountingNodesMap.flag (subtotal f l) order) := by
  obtain ⟨a, next, hframe⟩ := hp.frame
  have hthr : st.manager.threshold l = m.threshold l := by rw [hframe]; rfl
  rw [pass_eq _ _ _ _ _ hnd]
  have hflag : ∀ k, st.recountingNodesMap.flag k = true → P l k :=
    fun k hk => h.marks k (of_decide_eq_true hk)
  refine ⟨fun i hi => ?_, fun node hn => ?_⟩
  · rcases mem_flagged_passNext.mp hi with hold | ⟨k, hin, hk, hover, rfl⟩
    · exact hnext i hold
    · rw [hthr] at hover
      exact hup k (hp.keys_lt k ((horder k).mp hin)) (hflag k hk) hover
  · rcases List.mem_append.mp hn with hold | hnew
    · exact h.collected node hold
    · obtain ⟨hlev, -, hc⟩ := mem_passCollected.mp hnew
      simp only [collects, Bool.and_eq_true] at hc
      rw [hlev]
      exact hflag _ hc.1.1

/-- **Marks.**  After the first levels have been visited. -/
theorem Consistent.marked (h : st.Consistent) (hf : st.FlagsClear) (sched : Schedule)
    (sds : SdsView) (hzero : ∀ j ∈ st.recountingNodesMap.flagged, P 0 j)
    (hleft : ∀ i ∈ st.manager.nextLevelRecountingNodes.flagged, P 1 i)
    (hup : ∀ l, ∀ k < 2 ^ (st.manager.logCapacity - l), P l k →
      st.manager.threshold l < subtotal (st.leafCount sds) l k → P (l + 1) (parent k)) :
    ∀ n ≤ st.manager.logCapacity, (st.updateLevels sched sds n).Marked P (n + 1)
      (st.updateLevels sched sds n).manager.nextLevelRecountingNodes
  | 0, _ => by
      have hstart : st.updateLevels sched sds 0 =
          st.updateLevelZero sds (sched.visit 0 st.recountingNodesMap.keys) := rfl
      rw [hstart, updateLevelZero_eq_pass_leafCount sds st (sched.mem_visit 0 _),
        pass_next _ _ _ (sched.visit_nodup 0 _)]
      refine Marked.pass h.pending ⟨hzero, fun node hn => ?_⟩ (hup 0) hleft
        (sched.visit_nodup 0 _) (sched.mem_visit 0 _)
      rw [hf.rebalancingNodes] at hn
      exact absurd hn List.not_mem_nil
  | n + 1, hn => by
      have hp := (h.visited sched sds n (by omega)).nextLevel (by omega)
      have ih := h.marked hf sched sds hzero hleft hup n (by omega)
      have hs : (st.updateLevels sched sds n).nextLevel.Marked P (n + 1)
          (st.updateLevels sched sds n).nextLevel.recountingNodesMap := ⟨ih.marks, ih.collected⟩
      rw [updateLevels_succ, updateLevel,
        hp.updateHigherLevel_eq_pass h.levels hn (fun k hk => (sched.mem_visit _ _ k).mp hk),
        pass_next _ _ _ (sched.visit_nodup _ _)]
      refine hs.pass hp (hup (n + 1)) (fun i hi => ?_) (sched.visit_nodup _ _) (sched.mem_visit _ _)
      simp [nextLevel] at hi

/-! ## What update leaves behind -/

lemma Consistent.keys_updateLevels (h : st.Consistent) (sched : Schedule) (sds : SdsView) :
    ∀ n ≤ st.manager.logCapacity, ∀ k ∈ (st.updateLevels sched sds n).recountingNodesMap.keys,
      k < 2 ^ (st.manager.logCapacity - n)
  | 0, _, k, hk => by
      have hstart : st.updateLevels sched sds 0 =
          st.updateLevelZero sds (sched.visit 0 st.recountingNodesMap.keys) := rfl
      rw [hstart, updateLevelZero_eq_pass_leafCount sds st (sched.mem_visit 0 _),
        pass_eq _ _ _ _ _ (sched.visit_nodup 0 _)] at hk
      exact h.keys_lt k hk
  | n + 1, hn, k, hk => by
      have hp := (h.visited sched sds n (by omega)).nextLevel (by omega)
      rw [updateLevels_succ, updateLevel,
        hp.updateHigherLevel_eq_pass h.levels hn (fun k hk => (sched.mem_visit _ _ k).mp hk),
        pass_eq _ _ _ _ _ (sched.visit_nodup _ _)] at hk
      exact hp.keys_lt k hk

lemma checkSuperRoot_maps (st : UpdateState) :
    st.checkSuperRoot.recountingNodesMap = st.recountingNodesMap ∧
      st.checkSuperRoot.manager.nextLevelRecountingNodes =
        st.manager.nextLevelRecountingNodes := by
  rw [checkSuperRoot]
  split
  · split
    · exact ⟨rfl, rfl⟩
    · exact ⟨rfl, rfl⟩
  · exact ⟨rfl, rfl⟩

/-- Neither map has an entry but `0`. -/
lemma Consistent.keys_update (h : st.Consistent) (sched : Schedule) (sds : SdsView) :
    (∀ k ∈ (st.update sched sds).recountingNodesMap.keys, k = 0) ∧
      ∀ k ∈ (st.update sched sds).manager.nextLevelRecountingNodes.keys, k = 0 := by
  rw [h.update_eq, (checkSuperRoot_maps _).1, (checkSuperRoot_maps _).2]
  refine ⟨fun k hk => ?_, fun k hk => ?_⟩
  · have := h.keys_updateLevels sched sds _ (le_refl _) k hk
    simpa using this
  · have := (h.visited sched sds _ (le_refl _)).next_lt k hk
    rw [Nat.sub_eq_zero_of_le (Nat.le_succ _)] at this
    simpa using this

/-- A mark of a higher level comes from a child above its threshold. -/
def FromChild (m : RebalancingManager) (f : ℕ → ℕ) (l i : ℕ) : Prop :=
  l = 0 ∨ ∃ k < 2 ^ (m.logCapacity - (l - 1)), i = parent k ∧ m.threshold (l - 1) < subtotal f (l - 1) k

lemma Consistent.fromChild (h : st.Consistent) (hf : st.FlagsClear) (sched : Schedule)
    (sds : SdsView) (hleft : st.manager.nextLevelRecountingNodes.flagged = ∅) :
    (st.updateLevels sched sds st.manager.logCapacity).Marked
      (FromChild st.manager (st.leafCount sds)) (st.manager.logCapacity + 1)
      (st.updateLevels sched sds st.manager.logCapacity).manager.nextLevelRecountingNodes := by
  refine h.marked hf sched sds (fun _ _ => Or.inl rfl) (fun i hi => ?_)
    (fun l k hk _ hover => Or.inr ⟨k, hk, rfl, hover⟩) _ (le_refl _)
  rw [hleft] at hi
  exact absurd hi (Finset.notMem_empty i)

/-- **Crowded nodes.**  A collected node of a higher level has more blocks than a node of the level
below may hold. -/
lemma Consistent.threshold_lt (h : st.Consistent) (hf : st.FlagsClear) (sched : Schedule)
    (sds : SdsView) (hleft : st.manager.nextLevelRecountingNodes.flagged = ∅)
    (hroom : subtotal (st.leafCount sds) st.manager.logCapacity 0 ≤
      st.manager.aggregateWidth * 2 ^ st.manager.logCapacity) {node : RebalancingNode}
    (hn : node ∈ (st.update sched sds).rebalancingNodes) :
    node.level ≤ st.manager.logCapacity ∧ (node.level = 0 ∨
      st.manager.threshold (node.level - 1) <
        subtotal (st.leafCount sds) node.level node.index) := by
  rcases (h.mem_rebalancingNodes hf sched sds).mp hn with hin | ⟨-, hgt⟩
  · refine ⟨Nat.lt_succ_iff.mp
      ((h.climbing hf sched sds _ (le_refl st.manager.logCapacity)).collected node hin).1, ?_⟩
    rcases (h.fromChild hf sched sds hleft).collected node hin with h0 | ⟨k, -, hpar, hover⟩
    · exact Or.inl h0
    · rcases Nat.eq_zero_or_pos node.level with h0 | hpos
      · exact Or.inl h0
      · -- the child that was passed on is one of the two children
        refine Or.inr (lt_of_lt_of_le hover ?_)
        obtain ⟨l, hl⟩ := Nat.exists_eq_succ_of_ne_zero hpos.ne'
        rw [hl, hpar, subtotal_succ, RebalancingManager.parent, Nat.succ_sub_one]
        rcases Nat.even_or_odd' k with ⟨c, rfl | rfl⟩
        · rw [Nat.mul_div_cancel_left c two_pos, Nat.mul_comm c 2]
          omega
        · rw [Nat.mul_add_div two_pos, Nat.mul_comm (c + 1 / 2) 2]
          simp only [Nat.reduceDiv, Nat.add_zero]
          omega
  · omega

/-- No mark is left over when the root is within its threshold. -/
lemma Consistent.leftover_update (h : st.Consistent) (hf : st.FlagsClear) (sched : Schedule)
    (sds : SdsView) (hleft : st.manager.nextLevelRecountingNodes.flagged = ∅)
    (hroom : subtotal (st.leafCount sds) st.manager.logCapacity 0 ≤
      st.manager.threshold st.manager.logCapacity) :
    (st.update sched sds).manager.nextLevelRecountingNodes.flagged = ∅ := by
  rw [h.update_eq, (checkSuperRoot_maps _).2, Finset.eq_empty_iff_forall_notMem]
  intro i hi
  rcases (h.fromChild hf sched sds hleft).marks i hi with h0 | ⟨k, hk, -, hover⟩
  · omega
  · rw [Nat.add_sub_cancel] at hk hover
    obtain rfl : k = 0 := by simpa using hk
    omega

/-- Every marked leaf has a collected node at or above it when the root is within its threshold. -/
lemma Consistent.covers_update (h : st.Consistent) (hf : st.FlagsClear) (sched : Schedule)
    (sds : SdsView)
    (hroom : subtotal (st.leafCount sds) st.manager.logCapacity 0 ≤
      st.manager.threshold st.manager.logCapacity) :
    ∀ leaf ∈ st.recountingNodesMap.flagged, ∃ node ∈ (st.update sched sds).rebalancingNodes,
      node.Covers leaf := by
  intro j hj
  rcases (h.climbing hf sched sds _ (le_refl st.manager.logCapacity)).climbs j hj with
    ⟨l, hl, hin⟩ | ⟨habove, -⟩
  · exact ⟨_, (h.mem_rebalancingNodes hf sched sds).mpr (Or.inl hin), rfl⟩
  · have hlt := h.keys_lt j (st.recountingNodesMap.flagged_subset hj)
    have hroot := habove st.manager.logCapacity (Nat.lt_succ_self _)
    rw [Nat.div_eq_of_lt hlt] at hroot
    omega

/-! ## Requests and nodes -/

/-- Without marks that are left over, every collected node is above a marked leaf. -/
lemma Consistent.covered_update (h : st.Consistent) (hf : st.FlagsClear) (sched : Schedule)
    (sds : SdsView) (hleft : st.manager.nextLevelRecountingNodes.flagged = ∅)
    (hroom : subtotal (st.leafCount sds) st.manager.logCapacity 0 ≤
      st.manager.aggregateWidth * 2 ^ st.manager.logCapacity) {node : RebalancingNode}
    (hn : node ∈ (st.update sched sds).rebalancingNodes) :
    ∃ leaf ∈ st.recountingNodesMap.flagged, node.Covers leaf := by
  have hmarked := h.marked (P := fun l i => ∃ leaf ∈ st.recountingNodesMap.flagged, i = leaf / 2 ^ l)
    hf sched sds (fun j hj => ⟨j, hj, (Nat.div_one j).symm⟩) (fun i hi => ?_)
    (fun l k _ ⟨leaf, hleaf, hk⟩ _ => ⟨leaf, hleaf, ?_⟩) _ (le_refl st.manager.logCapacity)
  · rcases (h.mem_rebalancingNodes hf sched sds).mp hn with hin | ⟨-, hgt⟩
    · exact hmarked.collected node hin
    · omega
  · rw [hleft] at hi
    exact absurd hi (Finset.notMem_empty i)
  · rw [hk]
    exact (ancestor_succ leaf l).symm

/-- The marked nodes of a level that are within the threshold are collected when it is visited. -/
lemma Climbing.mem_pass {overflows : Finset ℕ} {map : BucketMap} (hp : st.Pending m f l)
    (hl : l ≤ m.logCapacity) (h : st.Climbing m f overflows l map) {order : List ℕ}
    (hnd : order.Nodup) (horder : ∀ k, k ∈ order ↔ k ∈ st.recountingNodesMap.keys) {k : ℕ} :
    k ∈ (st.pass l st.recountingNodesMap.flag (subtotal f l) order).recountingNodesMap.flagged ∧
        subtotal f l k ≤ m.threshold l ↔
      ⟨l, k⟩ ∈ (st.pass l st.recountingNodesMap.flag (subtotal f l) order).rebalancingNodes := by
  obtain ⟨a, next, hframe⟩ := hp.frame
  have hthr : st.manager.threshold l = m.threshold l := by rw [hframe]; rfl
  rw [pass_eq _ _ _ _ _ hnd]
  simp only [List.mem_append, mem_passCollected, horder, collects, Bool.and_eq_true, hthr,
    BucketMap.flag, decide_eq_true_eq, Bool.not_eq_true', true_and]
  constructor
  · rintro ⟨hk, hle⟩
    have hkey := st.recountingNodesMap.flagged_subset hk
    refine Or.inr ⟨hkey, ⟨hk, hle⟩, ?_⟩
    by_contra hset
    have hin := (h.flags l k (IsNode.of_lt hl (hp.keys_lt k hkey))).mp (by simpa using hset)
    exact absurd (h.collected _ hin).1 (lt_irrefl l)
  · rintro (hold | ⟨-, ⟨hk, hle⟩, -⟩)
    · exact absurd (h.collected _ hold).1 (lt_irrefl l)
    · exact ⟨hk, hle⟩

/-- The same after the first levels have been visited. -/
lemma Consistent.flagged_updateLevels (h : st.Consistent) (hf : st.FlagsClear) (sched : Schedule)
    (sds : SdsView) {k : ℕ} : ∀ n ≤ st.manager.logCapacity,
    (k ∈ (st.updateLevels sched sds n).recountingNodesMap.flagged ∧
      subtotal (st.leafCount sds) n k ≤ st.manager.threshold n ↔
    ⟨n, k⟩ ∈ (st.updateLevels sched sds n).rebalancingNodes)
  | 0, hn => by
      have hstart : st.updateLevels sched sds 0 =
          st.updateLevelZero sds (sched.visit 0 st.recountingNodesMap.keys) := rfl
      rw [hstart, updateLevelZero_eq_pass_leafCount sds st (sched.mem_visit 0 _)]
      exact Climbing.mem_pass h.pending hn hf.climbing (sched.visit_nodup 0 _) (sched.mem_visit 0 _)
  | n + 1, hn => by
      have hp := (h.visited sched sds n (by omega)).nextLevel (by omega)
      have hc := h.climbing hf sched sds n (by omega)
      have hnext : (st.updateLevels sched sds n).nextLevel.Climbing st.manager (st.leafCount sds)
          st.recountingNodesMap.flagged (n + 1)
          (st.updateLevels sched sds n).nextLevel.recountingNodesMap :=
        ⟨hc.climbs, hc.collected, hc.flags, hc.nodup, hc.sorted⟩
      rw [updateLevels_succ, updateLevel,
        hp.updateHigherLevel_eq_pass h.levels hn (fun k hk => (sched.mem_visit _ _ k).mp hk)]
      exact Climbing.mem_pass hp hn hnext (sched.visit_nodup _ _) (sched.mem_visit _ _)

/-- The mark that `update` leaves in the map is that of the root. -/
lemma Consistent.flagged_update (h : st.Consistent) (hf : st.FlagsClear) (sched : Schedule)
    (sds : SdsView) (hroom : subtotal (st.leafCount sds) st.manager.logCapacity 0 ≤
      st.manager.threshold st.manager.logCapacity) {k : ℕ} :
    k ∈ (st.update sched sds).recountingNodesMap.flagged ↔
      k = 0 ∧ ⟨st.manager.logCapacity, 0⟩ ∈ (st.update sched sds).rebalancingNodes := by
  have hroot := h.flagged_updateLevels hf sched sds (k := 0) _ (le_refl st.manager.logCapacity)
  rw [and_iff_left hroom] at hroot
  have hnode : (⟨st.manager.logCapacity, 0⟩ : RebalancingNode) ∈
      (st.update sched sds).rebalancingNodes ↔
        ⟨st.manager.logCapacity, 0⟩ ∈
          (st.updateLevels sched sds st.manager.logCapacity).rebalancingNodes := by
    rw [h.mem_rebalancingNodes hf sched sds]
    simp
  have hmap : (st.update sched sds).recountingNodesMap =
      (st.updateLevels sched sds st.manager.logCapacity).recountingNodesMap := by
    rw [h.update_eq, (checkSuperRoot_maps _).1]
  rw [hnode, ← hroot, ← hmap]
  constructor
  · intro hk
    obtain rfl : k = 0 := (h.keys_update sched sds).1 k
      ((st.update sched sds).recountingNodesMap.flagged_subset hk)
    exact ⟨rfl, hk⟩
  · rintro ⟨rfl, hk⟩
    exact hk

end UpdateState

end BatchPMA
