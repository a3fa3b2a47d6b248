import BatchPMA.Hierarchy.Geometry

/-!
# One level of the update

`update` visits the marked nodes of a level in an arbitrary order.  What a visit does depends only
on the entry of the node itself, its new count and its flag, so the effect of a whole level can be
written down in closed form: `pass_eq` says what a level does to the counters, to the map for the
next level and to the list of rebalancing nodes.  Only the order of that list shows in which order
the nodes were visited.
-/

namespace BatchPMA

namespace RebalancingManager

/-- The same tree with other counters and another map for the next level. -/
def withCounters (m : RebalancingManager) (aggregates : ℕ → ManagerEntry) (next : BucketMap) :
    RebalancingManager :=
  { m with aggregates := aggregates, nextLevelRecountingNodes := next }

section

variable (m : RebalancingManager) (a : ℕ → ManagerEntry) (next : BucketMap)

@[simp] lemma aggregates_withCounters : (m.withCounters a next).aggregates = a := rfl

@[simp] lemma next_withCounters :
    (m.withCounters a next).nextLevelRecountingNodes = next := rfl

@[simp] lemma withCounters_withCounters (b : ℕ → ManagerEntry) (next' : BucketMap) :
    (m.withCounters a next).withCounters b next' = m.withCounters b next' := rfl

@[simp] lemma logCapacity_withCounters : (m.withCounters a next).logCapacity = m.logCapacity := rfl

@[simp] lemma aggregateWidth_withCounters :
    (m.withCounters a next).aggregateWidth = m.aggregateWidth := rfl

@[simp] lemma levelStart_withCounters (level : ℕ) :
    (m.withCounters a next).levelStart level = m.levelStart level := rfl

@[simp] lemma levelAggregateWidth_withCounters (level : ℕ) :
    (m.withCounters a next).levelAggregateWidth level = m.levelAggregateWidth level := rfl

@[simp] lemma aggregateIndex_withCounters (index level : ℕ) :
    (m.withCounters a next).aggregateIndex index level = m.aggregateIndex index level := rfl

@[simp] lemma aggregate_withCounters (index level : ℕ) :
    (m.withCounters a next).aggregate index level = a (m.aggregateIndex index level) := rfl

@[simp] lemma threshold_withCounters (level : ℕ) :
    (m.withCounters a next).threshold level = m.threshold level := rfl

@[simp] lemma isNode_withCounters (level index : ℕ) :
    (m.withCounters a next).IsNode level index ↔ m.IsNode level index := Iff.rfl

@[simp] lemma aggregateNodeRangeLevelZero_withCounters (sds : SdsView) (index : ℕ) :
    (m.withCounters a next).aggregateNodeRangeLevelZero sds index
      = m.aggregateNodeRangeLevelZero sds index := rfl

lemma LevelsValid.withCounters {m : RebalancingManager} (h : m.LevelsValid)
    (a : ℕ → ManagerEntry) (next : BucketMap) : (m.withCounters a next).LevelsValid :=
  ⟨h.capacity_eq, h.super_eq, h.starts_eq, h.widths_eq⟩

end

end RebalancingManager

namespace UpdateState

/-- The entry a visit leaves behind. -/
def visitedEntry (m : RebalancingManager) (level : ℕ) (flag : Bool) (count : ℕ)
    (old : ManagerEntry) : ManagerEntry :=
  ⟨count, old.rebalanced || (flag && decide (count ≤ m.threshold level))⟩

/-- Whether a visit has the parent visited on the next level. -/
def passesOn (m : RebalancingManager) (level count : ℕ) (old : ManagerEntry) : Bool :=
  decide (count ≠ old.numberOfBlocks) || decide (m.threshold level < count)

/-- Whether a visit adds its node to the rebalancing nodes. -/
def collects (m : RebalancingManager) (level : ℕ) (flag : Bool) (count : ℕ)
    (old : ManagerEntry) : Bool :=
  flag && decide (count ≤ m.threshold level) && !old.rebalanced

@[simp] lemma passesOn_withCounters (m : RebalancingManager) (a : ℕ → ManagerEntry)
    (next : BucketMap) (level count : ℕ) (old : ManagerEntry) :
    passesOn (m.withCounters a next) level count old = passesOn m level count old := rfl

@[simp] lemma collects_withCounters (m : RebalancingManager) (a : ℕ → ManagerEntry)
    (next : BucketMap) (level : ℕ) (flag : Bool) (count : ℕ) (old : ManagerEntry) :
    collects (m.withCounters a next) level flag count old = collects m level flag count old := rfl

/-- What one visit does. -/
lemma updateNode_eq (st : UpdateState) (index level : ℕ) (flag : Bool) (count : ℕ) :
    st.updateNode index level flag count =
      { manager := st.manager.withCounters
          (Function.update st.manager.aggregates (st.manager.aggregateIndex index level)
            (visitedEntry st.manager level flag count (st.manager.aggregate index level)))
          (if passesOn st.manager level count (st.manager.aggregate index level) then
            st.manager.nextLevelRecountingNodes.insert (RebalancingManager.parent index)
              (flag && decide (st.manager.threshold level < count))
          else st.manager.nextLevelRecountingNodes)
        recountingNodesMap := st.recountingNodesMap
        rebalancingNodes := st.rebalancingNodes ++
          if collects st.manager level flag count (st.manager.aggregate index level) then
            [⟨level, index⟩] else [] } := by
  have hidx (m : RebalancingManager) :
      m.aggregate index level = m.aggregates (m.levelStart level + index) := rfl
  have hself := Function.update_eq_self (st.manager.levelStart level + index)
    st.manager.aggregates
  simp only [updateNode, RebalancingManager.setNumberOfBlocks, RebalancingManager.setAggregate,
    hidx, RebalancingManager.aggregateIndex, RebalancingManager.withCounters, visitedEntry,
    passesOn, collects]
  rcases hentry : st.manager.aggregates (st.manager.levelStart level + index) with ⟨n, r⟩
  rw [hentry] at hself
  -- the four truth values that the branches depend on
  by_cases hw : count ≤ st.manager.threshold level
  · have hw' : ¬ st.manager.threshold level < count := not_lt.mpr hw
    by_cases hn : count = n
    · subst hn
      cases flag <;> cases r <;> simp [hw, hw', hself, hentry]
    · cases flag <;> cases r <;> simp [hw, hw', hn, RebalancingManager.levelStart]
  · have hw' : st.manager.threshold level < count := not_le.mp hw
    cases flag <;> cases r <;> simp [hw, hw', RebalancingManager.levelStart]

/-! ## A whole level -/

/-- Visits the nodes of `order`, with the flags and the new counts given as functions. -/
def pass (level : ℕ) (flag : ℕ → Bool) (count : ℕ → ℕ) (order : List ℕ) (st : UpdateState) :
    UpdateState :=
  order.foldl (fun st' k => st'.updateNode k level (flag k) (count k)) st

/-- The counters of a level after it has been visited. -/
def passAggregates (m : RebalancingManager) (level : ℕ) (flag : ℕ → Bool) (count : ℕ → ℕ)
    (order : List ℕ) (j : ℕ) : ManagerEntry :=
  if m.levelStart level ≤ j ∧ j - m.levelStart level ∈ order then
    visitedEntry m level (flag (j - m.levelStart level)) (count (j - m.levelStart level))
      (m.aggregates j)
  else m.aggregates j

/-- The map for the next level after a level has been visited. -/
def passNext (m : RebalancingManager) (level : ℕ) (flag : ℕ → Bool) (count : ℕ → ℕ)
    (order : List ℕ) : BucketMap :=
  (order.filter fun k => passesOn m level (count k) (m.aggregate k level)).foldl
    (fun map k => map.insert (RebalancingManager.parent k)
      (flag k && decide (m.threshold level < count k))) m.nextLevelRecountingNodes

/-- The rebalancing nodes a level contributes. -/
def passCollected (m : RebalancingManager) (level : ℕ) (flag : ℕ → Bool) (count : ℕ → ℕ)
    (order : List ℕ) : List RebalancingNode :=
  (order.filter fun k => collects m level (flag k) (count k) (m.aggregate k level)).map
    fun k => ⟨level, k⟩

/-- **One level.**  The effect of visiting the nodes of a level in any order without
repetitions. -/
theorem pass_eq (level : ℕ) (flag : ℕ → Bool) (count : ℕ → ℕ) :
    ∀ (order : List ℕ) (st : UpdateState), order.Nodup →
      st.pass level flag count order =
        { manager := st.manager.withCounters (passAggregates st.manager level flag count order)
            (passNext st.manager level flag count order)
          recountingNodesMap := st.recountingNodesMap
          rebalancingNodes := st.rebalancingNodes ++
            passCollected st.manager level flag count order }
  | [], st, _ => by
      have : passAggregates st.manager level flag count [] = st.manager.aggregates := by
        funext j
        simp [passAggregates]
      simp [pass, passNext, passCollected, this, RebalancingManager.withCounters]
  | k :: order, st, hnd => by
      obtain ⟨hk, hnd⟩ := List.nodup_cons.mp hnd
      have hstep : st.pass level flag count (k :: order) =
          (st.updateNode k level (flag k) (count k)).pass level flag count order := rfl
      -- a node that is still to be visited has its old entry
      have hold : ∀ k' ∈ order, Function.update st.manager.aggregates
          (st.manager.aggregateIndex k level)
          (visitedEntry st.manager level (flag k) (count k) (st.manager.aggregate k level))
          (st.manager.aggregateIndex k' level) = st.manager.aggregate k' level := by
        intro k' hk'
        refine Function.update_of_ne (fun heq => hk ?_) _ _
        obtain rfl : k' = k := by
          rw [RebalancingManager.aggregateIndex, RebalancingManager.aggregateIndex] at heq
          omega
        exact hk'
      rw [hstep, pass_eq level flag count order _ hnd, updateNode_eq]
      simp only [RebalancingManager.withCounters_withCounters]
      congr 1
      · congr 1
        · funext j
          rw [passAggregates, passAggregates]
          simp only [RebalancingManager.levelStart_withCounters,
            RebalancingManager.aggregates_withCounters, List.mem_cons]
          by_cases hj : j = st.manager.aggregateIndex k level
          · -- the entry of `k` itself, which is not visited again
            have hjk : j - st.manager.levelStart level = k := by
              rw [hj, RebalancingManager.aggregateIndex, Nat.add_sub_cancel_left]
            have hle : st.manager.levelStart level ≤ j := by
              rw [hj]
              exact Nat.le_add_right _ _
            have hout : ¬ (st.manager.levelStart level ≤ j ∧
                j - st.manager.levelStart level ∈ order) := fun h => hk (hjk ▸ h.2)
            refine (if_neg hout).trans (Eq.trans ?_ (if_pos ⟨hle, Or.inl hjk⟩).symm)
            rw [hjk, hj, Function.update_self]
            rfl
          · have hjk : st.manager.levelStart level ≤ j → j - st.manager.levelStart level ≠ k := by
              intro hle heq
              exact hj (by rw [RebalancingManager.aggregateIndex]; omega)
            rw [Function.update_of_ne hj]
            refine if_congr ⟨fun h => ⟨h.1, Or.inr h.2⟩, fun h => ⟨h.1, ?_⟩⟩ rfl rfl
            exact h.2.resolve_left (hjk h.1)
        · rw [passNext, passNext, List.filter_cons]
          simp only [RebalancingManager.aggregate_withCounters, passesOn_withCounters,
            RebalancingManager.next_withCounters, RebalancingManager.threshold_withCounters]
          rw [List.filter_congr fun k' hk' => congrArg (passesOn _ _ _) (hold k' hk')]
          split <;> rfl
      · rw [passCollected, passCollected, List.filter_cons]
        simp only [RebalancingManager.aggregate_withCounters, collects_withCounters]
        rw [List.filter_congr fun k' hk' => congrArg (collects _ _ _ _) (hold k' hk'),
          List.append_assoc]
        split <;> rfl

section

variable {m : RebalancingManager} {level : ℕ} {flag : ℕ → Bool} {count : ℕ → ℕ}
  {order : List ℕ}

/-! ## Reading off the result -/

lemma passAggregates_self (index : ℕ) :
    passAggregates m level flag count order (m.aggregateIndex index level) =
      if index ∈ order then
        visitedEntry m level (flag index) (count index) (m.aggregate index level)
      else m.aggregate index level := by
  have hsub : m.aggregateIndex index level - m.levelStart level = index :=
    Nat.add_sub_cancel_left _ _
  have hle : m.levelStart level ≤ m.aggregateIndex index level := Nat.le_add_right _ _
  rw [passAggregates]
  simp only [hsub, hle, true_and]
  rfl

/-- Nodes of other levels keep their entries. -/
lemma passAggregates_other (h : m.LevelsValid) (horder : ∀ k ∈ order, m.IsNode level k)
    {level' index : ℕ} (hn : m.IsNode level' index) (hne : level' ≠ level) :
    passAggregates m level flag count order (m.aggregateIndex index level') =
      m.aggregate index level' := by
  refine if_neg fun hin => hne ?_
  refine (h.aggregateIndex_inj hn (horder _ hin.2) ?_).1
  rw [RebalancingManager.aggregateIndex, RebalancingManager.aggregateIndex] at *
  omega

lemma mem_keys_foldl_insert (f : ℕ → ℕ) (g : ℕ → Bool) (i : ℕ) : ∀ (l : List ℕ) (map : BucketMap),
    i ∈ (l.foldl (fun map k => map.insert (f k) (g k)) map).keys ↔
      i ∈ map.keys ∨ ∃ k ∈ l, f k = i
  | [], map => by simp
  | k :: l, map => by
      rw [List.foldl_cons, mem_keys_foldl_insert f g i l]
      simp only [BucketMap.keys_insert, Finset.mem_insert, List.mem_cons, exists_eq_or_imp,
        eq_comm (a := i)]
      tauto

lemma mem_flagged_foldl_insert (f : ℕ → ℕ) (g : ℕ → Bool) (i : ℕ) :
    ∀ (l : List ℕ) (map : BucketMap),
      i ∈ (l.foldl (fun map k => map.insert (f k) (g k)) map).flagged ↔
        i ∈ map.flagged ∨ ∃ k ∈ l, f k = i ∧ g k = true
  | [], map => by simp
  | k :: l, map => by
      rw [List.foldl_cons, mem_flagged_foldl_insert f g i l]
      simp only [BucketMap.mem_flagged_insert, List.mem_cons, exists_eq_or_imp,
        eq_comm (a := i)]
      tauto

lemma mem_keys_passNext {i : ℕ} :
    i ∈ (passNext m level flag count order).keys ↔ i ∈ m.nextLevelRecountingNodes.keys ∨
      ∃ k ∈ order, passesOn m level (count k) (m.aggregate k level) = true ∧
        RebalancingManager.parent k = i := by
  rw [passNext, mem_keys_foldl_insert]
  simp only [List.mem_filter, and_assoc]

lemma mem_flagged_passNext {i : ℕ} :
    i ∈ (passNext m level flag count order).flagged ↔ i ∈ m.nextLevelRecountingNodes.flagged ∨
      ∃ k ∈ order, flag k = true ∧ m.threshold level < count k ∧
        RebalancingManager.parent k = i := by
  rw [passNext, mem_flagged_foldl_insert]
  refine or_congr Iff.rfl (exists_congr fun k => ?_)
  simp only [List.mem_filter, passesOn, Bool.or_eq_true, Bool.and_eq_true, decide_eq_true_eq]
  tauto

lemma mem_passCollected {node : RebalancingNode} :
    node ∈ passCollected m level flag count order ↔ node.level = level ∧ node.index ∈ order ∧
      collects m level (flag node.index) (count node.index) (m.aggregate node.index level)
        = true := by
  rw [passCollected, List.mem_map]
  constructor
  · rintro ⟨k, hk, rfl⟩
    exact ⟨rfl, List.mem_filter.mp hk⟩
  · rintro ⟨rfl, hk⟩
    exact ⟨node.index, List.mem_filter.mpr hk, rfl⟩

/-- Visiting the same nodes in another order. -/
lemma pass_perm (m : RebalancingManager) (level : ℕ) (flag : ℕ → Bool) (count : ℕ → ℕ)
    {order' : List ℕ} (hp : order.Perm order') :
    passAggregates m level flag count order = passAggregates m level flag count order' ∧
      passNext m level flag count order = passNext m level flag count order' ∧
      (passCollected m level flag count order).Perm (passCollected m level flag count order') := by
  refine ⟨?_, ?_, (hp.filter _).map _⟩
  · funext j
    rw [passAggregates, passAggregates]
    simp only [hp.mem_iff]
  · exact (hp.filter _).foldl_eq' (fun _ _ _ _ _ => BucketMap.insert_comm _ _ _ _ _) _

end

end UpdateState

end BatchPMA
