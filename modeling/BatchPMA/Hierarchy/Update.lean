import BatchPMA.Hierarchy.Pass

/-!
# The counters after an update

`update` goes through the tree level by level.  `Pending` is what holds before a level is visited,
`Visited` what holds after it: the counters of all lower levels are the sums over their leaves, and
a node that is not going to be visited already has the right value.  A parent is left out only if
neither child changed, which is what keeps the invariant going.

A leaf counts what the array holds if it was marked, and otherwise what was stored for it.
-/

namespace BatchPMA

open RebalancingManager Dyadic

namespace UpdateState

/-- What has to hold of a state before `update`: the tree fits its level information, every node
of a higher level stores the sum of its children, and the entries of the two maps are nodes of
the level they are used on. -/
structure Consistent (st : UpdateState) : Prop where
  levels : st.manager.LevelsValid
  sums : ∀ l < st.manager.logCapacity, ∀ i < 2 ^ (st.manager.logCapacity - (l + 1)),
    (st.manager.aggregate i (l + 1)).numberOfBlocks =
      (st.manager.aggregate (i * 2) l).numberOfBlocks +
        (st.manager.aggregate (i * 2 + 1) l).numberOfBlocks
  keys_lt : ∀ i ∈ st.recountingNodesMap.keys, i < 2 ^ st.manager.logCapacity
  leftover_lt : ∀ i ∈ st.manager.nextLevelRecountingNodes.keys,
    i < 2 ^ (st.manager.logCapacity - 1)

/-- The number of blocks `update` takes a leaf to have. -/
def leafCount (sds : SdsView) (st : UpdateState) (i : ℕ) : ℕ :=
  if i ∈ st.recountingNodesMap.keys then st.manager.aggregateNodeRangeLevelZero sds i
  else (st.manager.aggregate i 0).numberOfBlocks

/-- Before level `l` is visited: the nodes of that level that are not visited have the right
value already, and the levels above add up. -/
structure Pending (m : RebalancingManager) (f : ℕ → ℕ) (l : ℕ) (st : UpdateState) : Prop where
  frame : ∃ a next, st.manager = m.withCounters a next
  counted : ∀ l' < l, ∀ i < 2 ^ (m.logCapacity - l'),
    (st.manager.aggregate i l').numberOfBlocks = subtotal f l' i
  unvisited : ∀ i < 2 ^ (m.logCapacity - l), i ∉ st.recountingNodesMap.keys →
    (st.manager.aggregate i l).numberOfBlocks = subtotal f l i
  above : ∀ l', l ≤ l' → l' < m.logCapacity → ∀ i < 2 ^ (m.logCapacity - (l' + 1)),
    (st.manager.aggregate i (l' + 1)).numberOfBlocks =
      (st.manager.aggregate (i * 2) l').numberOfBlocks +
        (st.manager.aggregate (i * 2 + 1) l').numberOfBlocks
  keys_lt : ∀ i ∈ st.recountingNodesMap.keys, i < 2 ^ (m.logCapacity - l)
  next_lt : ∀ i ∈ st.manager.nextLevelRecountingNodes.keys, i < 2 ^ (m.logCapacity - (l + 1))

/-- After level `l` has been visited. -/
structure Visited (m : RebalancingManager) (f : ℕ → ℕ) (l : ℕ) (st : UpdateState) : Prop where
  frame : ∃ a next, st.manager = m.withCounters a next
  counted : ∀ l' ≤ l, ∀ i < 2 ^ (m.logCapacity - l'),
    (st.manager.aggregate i l').numberOfBlocks = subtotal f l' i
  unvisited : l < m.logCapacity → ∀ i < 2 ^ (m.logCapacity - (l + 1)),
    i ∉ st.manager.nextLevelRecountingNodes.keys →
      (st.manager.aggregate i (l + 1)).numberOfBlocks = subtotal f (l + 1) i
  above : ∀ l', l < l' → l' < m.logCapacity → ∀ i < 2 ^ (m.logCapacity - (l' + 1)),
    (st.manager.aggregate i (l' + 1)).numberOfBlocks =
      (st.manager.aggregate (i * 2) l').numberOfBlocks +
        (st.manager.aggregate (i * 2 + 1) l').numberOfBlocks
  next_lt : ∀ i ∈ st.manager.nextLevelRecountingNodes.keys, i < 2 ^ (m.logCapacity - (l + 1))

variable {m : RebalancingManager} {f : ℕ → ℕ} {l : ℕ} {st : UpdateState} {sds : SdsView}

/-- Swapping the maps turns what a level leaves behind into what the next one starts from. -/
lemma Visited.nextLevel (h : st.Visited m f l) (hl : l < m.logCapacity) :
    st.nextLevel.Pending m f (l + 1) where
  frame := by
    obtain ⟨a, next, hm⟩ := h.frame
    exact ⟨a, .clear, by rw [UpdateState.nextLevel, hm]; rfl⟩
  counted l' hl' i hi := h.counted l' (Nat.lt_succ_iff.mp hl') i hi
  unvisited i hi hout := h.unvisited hl i hi hout
  above l' hl' hk i hi := h.above l' hl' hk i hi
  keys_lt := h.next_lt
  next_lt i hi := by simp [UpdateState.nextLevel] at hi

/-! ## Visiting a level -/

/-- A level visited with the right counts. -/
lemma Pending.pass (hm : m.LevelsValid) (h : st.Pending m f l) (hl : l ≤ m.logCapacity)
    (flag : ℕ → Bool) {order : List ℕ} (hnd : order.Nodup)
    (horder : ∀ k, k ∈ order ↔ k ∈ st.recountingNodesMap.keys) :
    (st.pass l flag (subtotal f l) order).Visited m f l := by
  obtain ⟨a, next, hframe⟩ := h.frame
  have hk : st.manager.logCapacity = m.logCapacity := by rw [hframe]; rfl
  have hM : st.manager.LevelsValid := by rw [hframe]; exact hm.withCounters _ _
  have hnodes : ∀ k ∈ order, st.manager.IsNode l k := fun k hk' =>
    IsNode.of_lt (by omega) (by rw [hk]; exact h.keys_lt k ((horder k).mp hk'))
  -- the level itself, and the levels that are not touched
  have hself : ∀ i < 2 ^ (m.logCapacity - l),
      (passAggregates st.manager l flag (subtotal f l) order
        (st.manager.aggregateIndex i l)).numberOfBlocks = subtotal f l i := by
    intro i hi
    rw [passAggregates_self]
    split
    · rfl
    · rename_i hout
      exact h.unvisited i hi (fun hin => hout ((horder i).mpr hin))
  have hother : ∀ l' ≤ m.logCapacity, l' ≠ l → ∀ i < 2 ^ (m.logCapacity - l'),
      passAggregates st.manager l flag (subtotal f l) order
        (st.manager.aggregateIndex i l') = st.manager.aggregate i l' := by
    intro l' hl' hne i hi
    exact passAggregates_other hM hnodes (IsNode.of_lt (by omega) (by rwa [hk])) hne
  rw [pass_eq _ _ _ _ _ hnd]
  refine ⟨⟨_, _, by rw [hframe]; rfl⟩, ?_, ?_, ?_, ?_⟩
  · intro l' hl' i hi
    rw [aggregate_withCounters]
    rcases Nat.eq_or_lt_of_le hl' with rfl | hlt
    · exact hself i hi
    · rw [hother l' (by omega) (by omega) i hi]
      exact h.counted l' hlt i hi
  · intro hlt i hi hout
    rw [next_withCounters, mem_keys_passNext, not_or] at hout
    -- neither child has changed
    have hchild : ∀ c < 2 ^ (m.logCapacity - l), parent c = i →
        (st.manager.aggregate c l).numberOfBlocks = subtotal f l c := by
      intro c hc hpar
      by_cases hin : c ∈ order
      · have hpass : ¬ passesOn st.manager l (subtotal f l c) (st.manager.aggregate c l) = true :=
          fun hp => hout.2 ⟨c, hin, hp, hpar⟩
        simp only [passesOn, Bool.or_eq_true, decide_eq_true_eq, not_or, not_not] at hpass
        exact hpass.1.symm
      · exact h.unvisited c hc (fun hin' => hin ((horder c).mpr hin'))
    obtain ⟨h1, h2⟩ := children_lt hlt hi
    rw [aggregate_withCounters, hother (l + 1) hlt (by omega) i hi, h.above l (le_refl _) hlt i hi,
      hchild _ h1 (by rw [parent]; omega), hchild _ h2 (by rw [parent]; omega), subtotal_succ]
  · intro l' hl' hlt i hi
    obtain ⟨h1, h2⟩ := children_lt hlt hi
    simp only [aggregate_withCounters]
    rw [hother (l' + 1) hlt (by omega) i hi, hother l' (by omega) (by omega) _ h1,
      hother l' (by omega) (by omega) _ h2]
    exact h.above l' (by omega) hlt i hi
  · intro i hi
    rw [next_withCounters, mem_keys_passNext] at hi
    rcases hi with hi | ⟨k, hin, -, rfl⟩
    · exact h.next_lt i hi
    · exact parent_lt hl (h.keys_lt k ((horder k).mp hin))

/-- A loop over the nodes of a level whose counts do not depend on the nodes visited before is a
pass.  `R` is what the counts depend on. -/
lemma foldl_updateNode_eq_pass {flag : ℕ → Bool} {count : UpdateState → ℕ → ℕ} {c : ℕ → ℕ}
    (R : UpdateState → Prop) : ∀ (order : List ℕ) (st : UpdateState),
      (∀ st' k, R st' → k ∈ order → count st' k = c k ∧ R (st'.updateNode k l (flag k) (c k))) →
      R st →
      order.foldl (fun st' k => st'.updateNode k l (flag k) (count st' k)) st =
        st.pass l flag c order
  | [], _, _, _ => rfl
  | k :: order, st, hR, hst => by
      obtain ⟨hc, hnext⟩ := hR st k hst List.mem_cons_self
      have ih := foldl_updateNode_eq_pass R order (st.updateNode k l (flag k) (c k))
        (fun st' k' h hk' => hR st' k' h (List.mem_cons_of_mem _ hk')) hnext
      rw [List.foldl_cons, hc, ih]
      rfl

/-- The loop over level zero. -/
lemma updateLevelZero_eq_pass (hframe : ∃ a next, st.manager = m.withCounters a next)
    (order : List ℕ) : st.updateLevelZero sds order =
      st.pass 0 st.recountingNodesMap.flag (m.aggregateNodeRangeLevelZero sds) order := by
  refine foldl_updateNode_eq_pass (fun st' => ∃ a next, st'.manager = m.withCounters a next)
    order st ?_ hframe
  rintro st' k ⟨a, next, hm⟩ -
  exact ⟨by rw [hm, aggregateNodeRangeLevelZero_withCounters],
    ⟨_, _, by rw [updateNode_eq, hm]; rfl⟩⟩

/-- The loop over a higher level: the counters it adds up are those of the level below. -/
lemma Pending.updateHigherLevel_eq_pass (hm : m.LevelsValid) (h : st.Pending m f (l + 1))
    (hl : l + 1 ≤ m.logCapacity) {order : List ℕ}
    (horder : ∀ k ∈ order, k ∈ st.recountingNodesMap.keys) :
    st.updateHigherLevel order (l + 1) =
      st.pass (l + 1) st.recountingNodesMap.flag (subtotal f (l + 1)) order := by
  refine foldl_updateNode_eq_pass (fun st' => (∃ a next, st'.manager = m.withCounters a next) ∧
    ∀ i < 2 ^ (m.logCapacity - l), (st'.manager.aggregate i l).numberOfBlocks = subtotal f l i)
    order st ?_ ⟨h.frame, h.counted l (Nat.lt_succ_self l)⟩
  rintro st' k ⟨⟨a, next, hframe⟩, hcount⟩ hk
  have hklt : k < 2 ^ (m.logCapacity - (l + 1)) := h.keys_lt k (horder k hk)
  obtain ⟨h1, h2⟩ := children_lt (by omega) hklt
  refine ⟨?_, ⟨_, _, by rw [updateNode_eq, hframe]; rfl⟩, fun i hi => ?_⟩
  · rw [aggregateNodeHigherLevel, leftChild, rightChild, Nat.add_sub_cancel, hcount _ h1,
      hcount _ h2, subtotal_succ]
  · have hne : m.aggregateIndex i l ≠ m.aggregateIndex k (l + 1) := by
      intro heq
      have := (hm.aggregateIndex_inj (IsNode.of_lt (by omega) hi) (IsNode.of_lt hl hklt) heq).1
      omega
    rw [updateNode_eq, aggregate_withCounters, hframe, ← hcount i hi, hframe]
    exact congrArg _ (Function.update_of_ne hne _ _)

/-! ## The whole run -/

/-- The first `n + 1` levels of `update`. -/
def updateLevels (sched : Schedule) (sds : SdsView) (st : UpdateState) (n : ℕ) : UpdateState :=
  (List.range' 1 n).foldl (updateLevel sched)
    (st.updateLevelZero sds (sched.visit 0 st.recountingNodesMap.keys))

lemma updateLevels_succ (sched : Schedule) (st : UpdateState) (n : ℕ) :
    st.updateLevels sched sds (n + 1) = (st.updateLevels sched sds n).updateLevel sched (n + 1) := by
  rw [updateLevels, List.range'_concat, List.foldl_append, Nat.one_mul, Nat.add_comm 1 n]
  rfl

lemma Consistent.pending (h : st.Consistent) :
    st.Pending st.manager (st.leafCount sds) 0 where
  frame := ⟨st.manager.aggregates, st.manager.nextLevelRecountingNodes, rfl⟩
  counted l' hl' := absurd hl' (Nat.not_lt_zero _)
  unvisited i _ hout := by rw [subtotal_zero, leafCount, if_neg hout]
  above l' _ hk i hi := h.sums l' hk i hi
  keys_lt i hi := by rw [Nat.sub_zero]; exact h.keys_lt i hi
  next_lt i hi := h.leftover_lt i hi

lemma pass_congr {flag : ℕ → Bool} {c c' : ℕ → ℕ} {order : List ℕ}
    (hc : ∀ k ∈ order, c k = c' k) : st.pass l flag c order = st.pass l flag c' order :=
  List.foldl_ext _ _ st fun st' k hk => by rw [hc k hk]

/-- Level zero as a pass with the counts of the leaves. -/
lemma updateLevelZero_eq_pass_leafCount (sds : SdsView) (st : UpdateState) {order : List ℕ}
    (horder : ∀ k, k ∈ order ↔ k ∈ st.recountingNodesMap.keys) :
    st.updateLevelZero sds order =
      st.pass 0 st.recountingNodesMap.flag (subtotal (st.leafCount sds) 0) order := by
  rw [updateLevelZero_eq_pass
    ⟨st.manager.aggregates, st.manager.nextLevelRecountingNodes, rfl⟩ order]
  refine pass_congr fun k hk => ?_
  rw [subtotal_zero, leafCount, if_pos ((horder k).mp hk)]

/-- **Counters.**  After the first levels have been visited, their counters are the sums over the
leaves. -/
theorem Consistent.visited (h : st.Consistent) (sched : Schedule) (sds : SdsView) :
    ∀ n ≤ st.manager.logCapacity,
      (st.updateLevels sched sds n).Visited st.manager (st.leafCount sds) n
  | 0, _ => by
      have hstart : st.updateLevels sched sds 0 =
          st.updateLevelZero sds (sched.visit 0 st.recountingNodesMap.keys) := rfl
      rw [hstart, updateLevelZero_eq_pass_leafCount sds st (sched.mem_visit 0 _)]
      exact h.pending.pass h.levels (Nat.zero_le _) _ (sched.visit_nodup 0 _) (sched.mem_visit 0 _)
  | n + 1, hn => by
      have hp := (h.visited sched sds n (by omega)).nextLevel (by omega)
      rw [updateLevels_succ, updateLevel, hp.updateHigherLevel_eq_pass h.levels hn (fun k hk => (sched.mem_visit _ _ k).mp hk)]
      exact hp.pass h.levels hn _ (sched.visit_nodup _ _) (sched.mem_visit _ _)

lemma Consistent.update_eq (h : st.Consistent) (sched : Schedule) (sds : SdsView) :
    st.update sched sds = (st.updateLevels sched sds st.manager.logCapacity).checkSuperRoot := by
  obtain ⟨a, next, hframe⟩ := (h.visited sched sds 0 (Nat.zero_le _)).frame
  have hk : (st.updateLevelZero sds (sched.visit 0 st.recountingNodesMap.keys)).manager.logCapacity
      = st.manager.logCapacity := by
    have hlevels : (st.updateLevels sched sds 0).manager.logCapacity = st.manager.logCapacity := by
      rw [hframe, logCapacity_withCounters]
    exact hlevels
  rw [update, hk]
  rfl

/-- The check for a global rebalance only sets a flag. -/
lemma numberOfBlocks_checkSuperRoot (st : UpdateState) (i l : ℕ) :
    (st.checkSuperRoot.manager.aggregate i l).numberOfBlocks =
      (st.manager.aggregate i l).numberOfBlocks := by
  rw [checkSuperRoot]
  split
  · split
    · rfl
    · by_cases hidx : st.manager.aggregateIndex i l =
          st.manager.aggregateIndex 0 (st.manager.logCapacity + 1)
      · have := congrArg ManagerEntry.numberOfBlocks
          (Function.update_apply st.manager.aggregates
            (st.manager.aggregateIndex 0 (st.manager.logCapacity + 1))
            { st.manager.aggregate 0 (st.manager.logCapacity + 1) with rebalanced := true }
            (st.manager.aggregateIndex i l))
        rw [if_pos hidx] at this
        refine this.trans ?_
        rw [aggregate, aggregate, hidx]
      · exact congrArg _ (Function.update_of_ne hidx _ _)
  · rfl

/-- **Counters after an update.** -/
theorem Consistent.numberOfBlocks_update (h : st.Consistent) (sched : Schedule) (sds : SdsView)
    {l i : ℕ} (hl : l ≤ st.manager.logCapacity) (hi : i < 2 ^ (st.manager.logCapacity - l)) :
    ((st.update sched sds).manager.aggregate i l).numberOfBlocks =
      subtotal (st.leafCount sds) l i := by
  rw [h.update_eq, numberOfBlocks_checkSuperRoot]
  exact (h.visited sched sds _ (le_refl _)).counted l hl i hi

/-! ## Independence of the order -/

/-- Equal up to the order in which the rebalancing nodes were collected. -/
structure Agree (a b : UpdateState) : Prop where
  manager : a.manager = b.manager
  recountingNodesMap : a.recountingNodesMap = b.recountingNodesMap
  rebalancingNodes : a.rebalancingNodes.Perm b.rebalancingNodes

lemma Agree.nextLevel {a b : UpdateState} (h : Agree a b) : Agree a.nextLevel b.nextLevel where
  manager := by rw [UpdateState.nextLevel, UpdateState.nextLevel, h.manager]
  recountingNodesMap := by rw [UpdateState.nextLevel, UpdateState.nextLevel, h.manager]
  rebalancingNodes := h.rebalancingNodes

lemma Agree.pass {a b : UpdateState} (h : Agree a b) (flag : ℕ → Bool) (count : ℕ → ℕ)
    {order order' : List ℕ} (hnd : order.Nodup) (hnd' : order'.Nodup)
    (hmem : ∀ k, k ∈ order ↔ k ∈ order') :
    Agree (a.pass l flag count order) (b.pass l flag count order') := by
  have hperm : order.Perm order' := (List.perm_ext_iff_of_nodup hnd hnd').mpr hmem
  obtain ⟨h1, h2, h3⟩ := pass_perm b.manager l flag count hperm
  rw [pass_eq _ _ _ _ _ hnd, pass_eq _ _ _ _ _ hnd']
  refine ⟨?_, h.recountingNodesMap, ?_⟩
  · rw [h.manager, h1, h2]
  · rw [h.manager]
    exact h.rebalancingNodes.append h3

lemma Agree.checkSuperRoot {a b : UpdateState} (h : Agree a b) :
    Agree a.checkSuperRoot b.checkSuperRoot := by
  rw [UpdateState.checkSuperRoot, UpdateState.checkSuperRoot, h.manager]
  simp only
  split
  · split
    · exact h
    · exact ⟨rfl, h.recountingNodesMap, h.rebalancingNodes.append (List.Perm.refl _)⟩
  · exact h

/-- **Order independence.**  Two schedules lead to states that agree. -/
theorem Consistent.agree_updateLevels (h : st.Consistent) (sched sched' : Schedule)
    (sds : SdsView) : ∀ n ≤ st.manager.logCapacity,
      Agree (st.updateLevels sched sds n) (st.updateLevels sched' sds n)
  | 0, _ => by
      have hstart : ∀ sc : Schedule, st.updateLevels sc sds 0 =
          st.updateLevelZero sds (sc.visit 0 st.recountingNodesMap.keys) := fun _ => rfl
      rw [hstart, hstart, updateLevelZero_eq_pass_leafCount sds st (sched.mem_visit 0 _),
        updateLevelZero_eq_pass_leafCount sds st (sched'.mem_visit 0 _)]
      refine Agree.pass ⟨rfl, rfl, List.Perm.refl _⟩ _ _ (sched.visit_nodup 0 _)
        (sched'.visit_nodup 0 _) fun k => ?_
      rw [sched.mem_visit, sched'.mem_visit]
  | n + 1, hn => by
      have ih := (h.agree_updateLevels sched sched' sds n (by omega)).nextLevel
      have hp := (h.visited sched sds n (by omega)).nextLevel (by omega)
      have hp' := (h.visited sched' sds n (by omega)).nextLevel (by omega)
      rw [updateLevels_succ, updateLevels_succ, updateLevel, updateLevel,
        hp.updateHigherLevel_eq_pass h.levels hn (fun k hk => (sched.mem_visit _ _ k).mp hk),
        hp'.updateHigherLevel_eq_pass h.levels hn (fun k hk => (sched'.mem_visit _ _ k).mp hk),
        ih.recountingNodesMap]
      refine Agree.pass ih _ _ (sched.visit_nodup _ _) (sched'.visit_nodup _ _) fun k => ?_
      rw [sched.mem_visit, sched'.mem_visit]

theorem Consistent.agree_update (h : st.Consistent) (sched sched' : Schedule) (sds : SdsView) :
    Agree (st.update sched sds) (st.update sched' sds) := by
  rw [h.update_eq, h.update_eq]
  exact (h.agree_updateLevels sched sched' sds _ (le_refl _)).checkSuperRoot

end UpdateState

end BatchPMA
