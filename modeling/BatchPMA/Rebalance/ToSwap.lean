import BatchPMA.Rebalance.Distribution
import BatchPMA.Rebalance.Lookup

/-!
# Step B-5: all blocks of the tasks reach the swap array

`Ready` collects what holds in front of step B-5.  The moves of the step are those of the blocks
of all tasks, one task after the other; every thread makes the moves of its own share, so all of
them are made whatever the order of the threads.
-/

namespace BatchPMA

open RebalancingManager Segments

namespace BatchedSparseArray

variable {K α : Type} [DecidableEq K] {p : BatchedParams K α} {s s₀ : BatchedSparseArray K α}

/-- The cells whose blocks a task moves. -/
def treeRange (s : BatchedSparseArray K α) (task : RebalancingTask) : Interval :=
  s.rebalancingManager.rebalancingRange (treeNode s.rebalancingManager task.rootNode)

/-- What holds in front of step B-5. -/
structure Ready (p : BatchedParams K α) (s : BatchedSparseArray K α) : Prop where
  levels : s.rebalancingManager.LevelsValid
  width_pos : 0 < s.rebalancingManager.aggregateWidth
  counters : s.rebalancingManager.CountersExact (s.sdsView p)
  capacity : max 1 s.size ≤ s.capacity
  isNode : ∀ task ∈ s.rebalancingTasks,
    s.rebalancingManager.IsNode task.rootNode.level task.rootNode.index
  numberOfBlocks_eq : ∀ task ∈ s.rebalancingTasks,
    task.numberOfBlocks = s.rebalancingManager.numberOfBlocks task.rootNode
  left_eq : ∀ task ∈ s.rebalancingTasks, task.pmaRange.left = (s.treeRange task).left
  tree_le : ∀ task ∈ s.rebalancingTasks, (s.treeRange task).right ≤ task.pmaRange.right
  used_le : ∀ task ∈ s.rebalancingTasks,
    min task.pmaRange.right (max 1 s.size) ≤ (s.treeRange task).right
  left_lt : ∀ task ∈ s.rebalancingTasks, task.pmaRange.left < max 1 s.size
  fits : ∀ task ∈ s.rebalancingTasks, task.numberOfBlocks ≤ task.pmaRange.length
  disjoint : s.rebalancingTasks.Pairwise fun a b =>
    ∀ c, a.pmaRange.contains c → ¬ b.pmaRange.contains c
  behind : ∀ c, max 1 s.size ≤ c → (s.bufferPointers c).length = 0
  buffers_disjoint : ∀ c c' j, (s.bufferPointers c).contains j → (s.bufferPointers c').contains j →
    c = c'
  buffers_full : ∀ c j, (s.bufferPointers c).contains j → 0 < (s.bufferArray j).size

/-- The blocks of all tasks, one task after the other. -/
def sourcePlaces (p : BatchedParams K α) (s : BatchedSparseArray K α) : List Place :=
  s.rebalancingTasks.flatMap fun task =>
    s.placesIn p task.pmaRange.left (s.treeRange task).right

/-- The cells of the swap array that they are moved to. -/
def swapPlaces (s : BatchedSparseArray K α) : List Place :=
  s.rebalancingTasks.flatMap fun task =>
    (List.range task.numberOfBlocks).map fun k => .swap (task.pmaRange.left + k)

def source (p : BatchedParams K α) (s : BatchedSparseArray K α) (g : ℕ) : Place :=
  (s.sourcePlaces p).getD g (.swap 0)

def swapTarget (s : BatchedSparseArray K α) (g : ℕ) : Place := s.swapPlaces.getD g (.swap 0)

/-! ## The numbers of the blocks -/

lemma Ready.pointersInCapacity (h : s.Ready p) : s.PointersInCapacity :=
  fun c hc => h.behind c (le_trans h.capacity hc)

lemma cellPlaces_behind (h : ∀ c, max 1 s.size ≤ c → (s.bufferPointers c).length = 0) {c : ℕ}
    (hc : max 1 s.size ≤ c) : s.cellPlaces p c = [] := by
  have hempty : s.empty p c = true := by
    rw [empty, if_pos (by omega)]
  rw [cellPlaces, hempty, h c hc]
  rfl

lemma placesIn_behind (h : ∀ c, max 1 s.size ≤ c → (s.bufferPointers c).length = 0) {a b : ℕ}
    (ha : max 1 s.size ≤ a) : s.placesIn p a b = [] :=
  Ranges.itemsIn_eq_nil fun _ hc _ => cellPlaces_behind h (le_trans ha hc)

lemma Ready.left_lt_tree (h : s.Ready p) {task : RebalancingTask}
    (ht : task ∈ s.rebalancingTasks) : task.pmaRange.left < (s.treeRange task).right := by
  have hl : (treeNode s.rebalancingManager task.rootNode).level ≤
      s.rebalancingManager.logCapacity := by
    rw [treeNode]
    split
    · exact le_refl _
    · omega
  have hpos : 0 < 2 ^ (treeNode s.rebalancingManager task.rootNode).level *
      s.rebalancingManager.aggregateWidth := Nat.mul_pos (Nat.two_pow_pos _) h.width_pos
  rw [h.left_eq task ht, treeRange, h.levels.rebalancingRange_eq hl, Nat.add_mul, Nat.one_mul]
  exact Nat.lt_add_of_pos_right hpos

/-- A task has as many blocks as there are places in its cells. -/
lemma Ready.length_placesIn (h : s.Ready p) {task : RebalancingTask}
    (ht : task ∈ s.rebalancingTasks) :
    (s.placesIn p task.pmaRange.left (s.treeRange task).right).length = task.numberOfBlocks := by
  have hn := h.isNode task ht
  rw [h.numberOfBlocks_eq task ht, h.left_eq task ht, treeRange, treeNode,
    RebalancingManager.numberOfBlocks, h.levels.super_eq]
  split
  · -- the super root has the blocks of the root
    rename_i hlt
    have hl : task.rootNode.level = s.rebalancingManager.logCapacity + 1 := by
      have := hn.1
      omega
    have hi : task.rootNode.index = 0 := by
      have := hn.2
      rw [hl, Nat.sub_eq_zero_of_le (Nat.le_succ _)] at this
      simpa using this
    rw [if_pos hl, hl, hi, Nat.add_sub_cancel,
      h.counters _ (le_refl _) 0 (by rw [Nat.sub_self]; exact Nat.one_pos), trueBlocks,
      h.pointersInCapacity.blocksIn_eq, h.levels.rebalancingRange_eq (le_refl _)]
  · rename_i hle
    rw [if_neg (by omega), h.counters _ (by omega) _ hn.2, trueBlocks,
      h.pointersInCapacity.blocksIn_eq, h.levels.rebalancingRange_eq (by omega)]

/-- The places behind the used part of the array do not count. -/
lemma Ready.placesIn_used (h : s.Ready p) {task : RebalancingTask}
    (ht : task ∈ s.rebalancingTasks) :
    s.placesIn p task.pmaRange.left (min task.pmaRange.right (max 1 s.size)) =
      s.placesIn p task.pmaRange.left (s.treeRange task).right := by
  have hu := h.used_le task ht
  have htree := h.tree_le task ht
  rcases le_or_gt task.pmaRange.right (max 1 s.size) with hle | hgt
  · congr 1
    omega
  · have hl := h.left_lt task ht
    rw [min_eq_right hgt.le] at hu ⊢
    rw [placesIn_append hl.le hu, placesIn_behind h.behind (le_refl _), List.append_nil]

lemma Ready.length_sourcePlaces (h : s.Ready p) : (s.sourcePlaces p).length = s.totalBlocks := by
  rw [sourcePlaces, length_flatMap_eq_offset, totalBlocks, firstBlock]
  exact offset_congr _ (fun task ht => h.length_placesIn ht) _

omit [DecidableEq K] in
lemma length_swapPlaces (s : BatchedSparseArray K α) : s.swapPlaces.length = s.totalBlocks := by
  rw [swapPlaces, length_flatMap_eq_offset, totalBlocks, firstBlock]
  exact offset_congr _ (fun task _ => by rw [List.length_map, List.length_range]) _

omit [DecidableEq K] in
/-- Where the blocks of a task go in the swap array. -/
lemma swapTarget_eq {i k : ℕ} (hi : i < s.rebalancingTasks.length)
    (hk : k < (s.rebalancingTask i).numberOfBlocks) :
    s.swapTarget (s.firstBlock i + k) = .swap ((s.rebalancingTask i).pmaRange.left + k) := by
  have hget := getElem?_flatMap (f := fun task : RebalancingTask =>
    (List.range task.numberOfBlocks).map fun k => Place.swap (task.pmaRange.left + k))
    (rebalancingTask_getElem? hi) (j := k) (by simpa using hk)
  rw [offset_congr RebalancingTask.numberOfBlocks
    (fun task _ => by rw [List.length_map, List.length_range])] at hget
  rw [swapTarget, List.getD_eq_getElem?_getD, swapPlaces, firstBlock, hget, List.getElem?_map,
    List.getElem?_range hk]
  rfl

/-- The moves of one task. -/
lemma Ready.taskPlan (h : s.Ready p) {i : ℕ} (hi : i < s.rebalancingTasks.length) :
    TaskPlan p s (s.source p) s.swapTarget s.totalBlocks (s.rebalancingTask i).pmaRange.left
      (s.treeRange (s.rebalancingTask i)).right (s.firstBlock i) := by
  have hin := rebalancingTask_mem hi
  have hlen := h.length_placesIn hin
  refine ⟨fun j hj => ?_, fun j hj => ?_, ?_⟩
  · have hget := getElem?_flatMap (f := fun task : RebalancingTask =>
      s.placesIn p task.pmaRange.left (s.treeRange task).right) (rebalancingTask_getElem? hi) hj
    rw [offset_congr _ (fun task ht => h.length_placesIn ht)] at hget
    rw [source, List.getD_eq_getElem?_getD, sourcePlaces, firstBlock, hget,
      List.getElem?_eq_getElem hj, Option.getD_some]
  · exact swapTarget_eq hi (by omega)
  · rw [hlen, ← firstBlock_succ hi]
    exact firstBlock_le_total hi

/-! ## The moves do not get in each other's way -/

lemma mem_cellPlaces {c : ℕ} {q : Place} : q ∈ s.cellPlaces p c ↔
    (q = .pma c ∧ s.empty p c = false) ∨ ∃ j, q = .buffer j ∧ (s.bufferPointers c).contains j := by
  rw [cellPlaces, List.mem_append, List.mem_map]
  refine or_congr ?_ (exists_congr fun j => ?_)
  · split <;> rename_i h <;> simp [h]
  · rw [List.mem_range'_1, Interval.contains, Interval.length]
    constructor
    · rintro ⟨⟨h1, h2⟩, rfl⟩
      exact ⟨rfl, h1, by omega⟩
    · rintro ⟨rfl, h1, h2⟩
      exact ⟨⟨h1, by omega⟩, rfl⟩

lemma mem_placesIn {a b : ℕ} {q : Place} : q ∈ s.placesIn p a b ↔
    ∃ c, a ≤ c ∧ c < b ∧ q ∈ s.cellPlaces p c := by
  rw [placesIn, Ranges.itemsIn, List.mem_flatMap]
  refine exists_congr fun c => ?_
  rw [List.mem_range'_1]
  constructor
  · rintro ⟨⟨h1, h2⟩, hq⟩
    exact ⟨h1, by omega, hq⟩
  · rintro ⟨h1, h2, hq⟩
    exact ⟨⟨h1, by omega⟩, hq⟩

/-- A block belongs to one cell only. -/
lemma Ready.cell_unique (h : s.Ready p) {c c' : ℕ} {q : Place} (hc : q ∈ s.cellPlaces p c)
    (hc' : q ∈ s.cellPlaces p c') : c = c' := by
  rcases mem_cellPlaces.mp hc with ⟨rfl, -⟩ | ⟨j, rfl, hj⟩ <;>
    rcases mem_cellPlaces.mp hc' with ⟨heq, -⟩ | ⟨j', heq, hj'⟩
  · exact Place.pma.inj heq
  · exact absurd heq (by simp)
  · exact absurd heq (by simp)
  · obtain rfl := Place.buffer.inj heq
    exact h.buffers_disjoint c c' j hj hj'

lemma nodup_cellPlaces (c : ℕ) : (s.cellPlaces p c).Nodup := by
  rw [cellPlaces, List.nodup_append]
  refine ⟨?_, (List.nodup_range' 1).map fun a b hab => Place.buffer.inj hab, ?_⟩
  · split
    · exact List.nodup_nil
    · exact List.nodup_singleton _
  · intro a ha b hb heq
    obtain ⟨j, -, rfl⟩ := List.mem_map.mp hb
    split at ha
    · exact absurd ha List.not_mem_nil
    · rw [List.mem_singleton.mp ha] at heq
      exact absurd heq (by simp)

lemma Ready.nodup_placesIn (h : s.Ready p) (a b : ℕ) : (s.placesIn p a b).Nodup := by
  rw [placesIn, Ranges.itemsIn, List.nodup_flatMap]
  refine ⟨fun c _ => nodup_cellPlaces c, ?_⟩
  refine (List.nodup_range' (s := a) (n := b - a) 1).imp ?_
  intro c c' hne q hq hq'
  exact hne (h.cell_unique hq hq')

lemma Ready.nodup_sourcePlaces (h : s.Ready p) : (s.sourcePlaces p).Nodup := by
  rw [sourcePlaces, List.nodup_flatMap]
  refine ⟨fun task _ => h.nodup_placesIn _ _, h.disjoint.imp_of_mem ?_⟩
  intro t t' ht ht' hdis q hq hq'
  obtain ⟨c, h1, h2, hc⟩ := mem_placesIn.mp hq
  obtain ⟨c', h1', h2', hc'⟩ := mem_placesIn.mp hq'
  obtain rfl := h.cell_unique hc hc'
  exact hdis c ⟨h1, lt_of_lt_of_le h2 (h.tree_le t ht)⟩ ⟨h1', lt_of_lt_of_le h2' (h.tree_le t' ht')⟩

omit [DecidableEq K] in
/-- Blocks that lie dense in the ranges of disjoint tasks have different cells in the swap array. -/
lemma nodup_swapPlaces_of_fits
    (hfits : ∀ task ∈ s.rebalancingTasks, task.numberOfBlocks ≤ task.pmaRange.length)
    (hdis : s.rebalancingTasks.Pairwise fun a b =>
      ∀ c, a.pmaRange.contains c → ¬ b.pmaRange.contains c) : s.swapPlaces.Nodup := by
  rw [swapPlaces, List.nodup_flatMap]
  refine ⟨fun task _ => List.nodup_range.map fun a b hab => ?_, hdis.imp_of_mem ?_⟩
  · have := Place.swap.inj hab
    omega
  · intro t t' ht ht' hdis q hq hq'
    obtain ⟨k, hk, rfl⟩ := List.mem_map.mp hq
    obtain ⟨k', hk', heq⟩ := List.mem_map.mp hq'
    have heq' := Place.swap.inj heq
    have hf := hfits t ht
    have hf' := hfits t' ht'
    rw [List.mem_range] at hk hk'
    simp only [Interval.length] at hf hf'
    exact hdis (t.pmaRange.left + k) ⟨by omega, by omega⟩ ⟨by omega, by omega⟩

lemma Ready.nodup_swapPlaces (h : s.Ready p) : s.swapPlaces.Nodup :=
  nodup_swapPlaces_of_fits h.fits h.disjoint

lemma Ready.source_mem (h : s.Ready p) {g : ℕ} (hg : g < s.totalBlocks) :
    s.source p g ∈ s.sourcePlaces p := by
  rw [← h.length_sourcePlaces] at hg
  rw [source, List.getD_eq_getElem?_getD, List.getElem?_eq_getElem hg, Option.getD_some]
  exact List.getElem_mem hg

omit [DecidableEq K] in
lemma swapTarget_mem {g : ℕ} (hg : g < s.totalBlocks) : s.swapTarget g ∈ s.swapPlaces := by
  rw [← length_swapPlaces] at hg
  rw [swapTarget, List.getD_eq_getElem?_getD, List.getElem?_eq_getElem hg, Option.getD_some]
  exact List.getElem_mem hg

/-- Every block that is moved is a block of a cell of a task. -/
lemma Ready.exists_cell (h : s.Ready p) {g : ℕ} (hg : g < s.totalBlocks) :
    ∃ task ∈ s.rebalancingTasks, ∃ c, task.pmaRange.left ≤ c ∧ c < (s.treeRange task).right ∧
      s.source p g ∈ s.cellPlaces p c := by
  obtain ⟨task, ht, hin⟩ := List.mem_flatMap.mp (h.source_mem hg)
  obtain ⟨c, h1, h2, hc⟩ := mem_placesIn.mp hin
  exact ⟨task, ht, c, h1, h2, hc⟩

omit [DecidableEq K] in
lemma exists_swapTarget {g : ℕ} (hg : g < s.totalBlocks) :
    ∃ task ∈ s.rebalancingTasks, ∃ k < task.numberOfBlocks,
      s.swapTarget g = .swap (task.pmaRange.left + k) := by
  obtain ⟨task, ht, hin⟩ := List.mem_flatMap.mp (swapTarget_mem hg)
  obtain ⟨k, hk, heq⟩ := List.mem_map.mp hin
  exact ⟨task, ht, k, List.mem_range.mp hk, heq.symm⟩

lemma getD_inj {β : Type*} {l : List β} (h : l.Nodup) {d : β} {i j : ℕ} (hi : i < l.length)
    (hj : j < l.length) (heq : l.getD i d = l.getD j d) : i = j := by
  rw [List.getD_eq_getElem?_getD, List.getD_eq_getElem?_getD, List.getElem?_eq_getElem hi,
    List.getElem?_eq_getElem hj] at heq
  exact (List.Nodup.getElem_inj_iff h).mp heq

/-- **The moves of step B-5.** -/
lemma Ready.swapPlan (h : s.Ready p) :
    SwapPlan p s (s.source p) s.swapTarget s.totalBlocks := by
  have hsrc : ∀ g < s.totalBlocks, ∀ i, s.source p g ≠ .swap i := by
    intro g hg i heq
    obtain ⟨-, -, c, -, -, hc⟩ := h.exists_cell hg
    rw [heq] at hc
    rcases mem_cellPlaces.mp hc with ⟨hc, -⟩ | ⟨j, hc, -⟩ <;> exact absurd hc (by simp)
  have hdst : ∀ g < s.totalBlocks, ∃ i, s.swapTarget g = .swap i := by
    intro g hg
    obtain ⟨task, -, k, -, heq⟩ := exists_swapTarget hg
    exact ⟨_, heq⟩
  refine ⟨⟨fun i j hi hj heq => ?_, fun i j hi hj heq => ?_, fun i j hi hj heq => ?_⟩, ?_, ?_,
    hsrc, hdst⟩
  · rw [← h.length_sourcePlaces] at hi hj
    exact getD_inj h.nodup_sourcePlaces hi hj heq
  · rw [← length_swapPlaces] at hi hj
    exact getD_inj h.nodup_swapPlaces hi hj heq
  · obtain ⟨w, hw⟩ := hdst j hj
    exact hsrc i hi w (heq.trans hw)
  · intro g hg c heq
    obtain ⟨-, -, c', -, -, hc⟩ := h.exists_cell hg
    rw [heq] at hc
    rcases mem_cellPlaces.mp hc with ⟨hc, he⟩ | ⟨j, hc, -⟩
    · rw [Place.pma.inj hc]
      exact he
    · exact absurd hc (by simp)
  · intro g hg j heq
    obtain ⟨-, -, c', -, -, hc⟩ := h.exists_cell hg
    rw [heq] at hc
    rcases mem_cellPlaces.mp hc with ⟨hc, -⟩ | ⟨j', hc, hj⟩
    · exact absurd hc (by simp)
    · rw [Place.buffer.inj hc]
      exact h.buffers_full c' j' hj

end BatchedSparseArray

end BatchPMA
