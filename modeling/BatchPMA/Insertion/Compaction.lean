import BatchPMA.Insertion.Shares
import BatchPMA.Insertion.InsertTask

/-!
# Merge groups

The working tasks of a merge group write their blocks to ranges of their own, in any order.
`compactifyBufferBlocks` moves the blocks of the later tasks to the front.  No task fills its
range, so a block never moves to the cell it comes from.
-/

namespace BatchPMA

open KeyedUnion Ranges

variable {K α : Type} [LinearOrder K]

namespace BatchedSparseArray

variable {p : BatchedParams K α} {s r r' : BatchedSparseArray K α} {batch : List α} {a e k : ℕ}

/-! ## The tasks of a group -/

/-- The thread of the `k`-th working task. -/
def shareThread (p : BatchedParams K α) (s : BatchedSparseArray K α) (batch : List α)
    (a e k : ℕ) : ℕ := e - s.workers p batch a e + k

/-- The tasks of a group in front of step A-6. -/
structure GroupTasks (p : BatchedParams K α) (s : BatchedSparseArray K α) (batch : List α)
    (a e : ℕ) (f : ℕ → TaskInfo) : Prop where
  type : ∀ k < s.workers p batch a e, (f (s.shareThread p batch a e k)).type = .inverseMerge
  block : ∀ k < s.workers p batch a e,
    (f (s.shareThread p batch a e k)).blockForBatchSplitter = s.splitterBlock p batch a
  first : ∀ k ≤ s.workers p batch a e,
    (f (s.shareThread p batch a e k)).firstBatchElement = s.shareStart p batch a e k
  merged : ∀ k < s.workers p batch a e,
    (f (s.shareThread p batch a e k)).mergedTasks = s.workers p batch a e
  index : ∀ k < s.workers p batch a e, (f (s.shareThread p batch a e k)).mergedTaskIndex = k
  start : ∀ k < s.workers p batch a e, (f (s.shareThread p batch a e (k + 1))).startIndex =
    (f (s.shareThread p batch a e k)).startIndex + getRequiredWidth
      (s.shareStart p batch a e (k + 1) - s.shareStart p batch a e k)
  last_type : (f e).type = .insertion
  last_block : (f e).blockForBatchSplitter ≠ s.splitterBlock p batch a

/-- The tasks differ in the number of blocks written only. -/
def SameTasks (f f' : ℕ → TaskInfo) : Prop :=
  ∀ t, f' t = { f t with numberOfBlocksWritten := (f' t).numberOfBlocksWritten }

lemma GroupTasks.congr {f f' : ℕ → TaskInfo} (h : GroupTasks p s batch a e f)
    (hf : SameTasks f f') : GroupTasks p s batch a e f' where
  type k hk := by rw [hf]; exact h.type k hk
  block k hk := by rw [hf]; exact h.block k hk
  first k hk := by rw [hf]; exact h.first k hk
  merged k hk := by rw [hf]; exact h.merged k hk
  index k hk := by rw [hf]; exact h.index k hk
  start k hk := by rw [hf, hf (s.shareThread p batch a e k)]; exact h.start k hk
  last_type := by rw [hf]; exact h.last_type
  last_block := by rw [hf]; exact h.last_block

/-- Where the `k`-th working task writes. -/
def shareIndex (p : BatchedParams K α) (s : BatchedSparseArray K α) (batch : List α)
    (a e : ℕ) (f : ℕ → TaskInfo) (k : ℕ) : ℕ := (f (s.shareThread p batch a e k)).startIndex

lemma shareIndex_congr {f f' : ℕ → TaskInfo} (hf : SameTasks f f') (k : ℕ) :
    s.shareIndex p batch a e f' k = s.shareIndex p batch a e f k := by
  rw [shareIndex, shareIndex, hf]

/-- A task does not fill its range. -/
lemma GroupTasks.index_lt {f : ℕ → TaskInfo} (ht : GroupTasks p s batch a e f)
    (h : s.GroupInput p batch a e) (hk : k < s.workers p batch a e) :
    s.shareIndex p batch a e f k + (s.shareBlocks p batch a e k).length <
      s.shareIndex p batch a e f (k + 1) := by
  have h1 := ht.start k hk
  have h2 := h.length_shareBlocks_lt hk
  rw [shareIndex, shareIndex, h1]
  omega

lemma GroupTasks.index_mono {f : ℕ → TaskInfo} (ht : GroupTasks p s batch a e f) {j : ℕ}
    (hjk : j ≤ k) (hk : k ≤ s.workers p batch a e) :
    s.shareIndex p batch a e f j ≤ s.shareIndex p batch a e f k := by
  induction k, hjk using Nat.le_induction with
  | base => exact le_refl _
  | succ n _ ih =>
      have h1 := ht.start n hk
      have h2 := ih (by omega)
      rw [shareIndex] at h2 ⊢
      rw [shareIndex, h1]
      rw [shareIndex] at h2
      omega

/-! ## Running the working tasks -/

omit [LinearOrder K] in
lemma getElem?_denseWrites {outputStart origin i : ℕ} {blocks : List (PmaEntry K α)}
    {w : BufferWrite K α} (h : (denseWrites outputStart 0 origin blocks)[i]? = some w) :
    w.writeIndex = outputStart + i ∧ blocks[i]? = some w.block := by
  rw [denseWrites, List.getElem?_mapIdx, Option.map_eq_some_iff] at h
  obtain ⟨b, hb, rfl⟩ := h
  refine ⟨?_, hb⟩
  simp [getDenseWriteIndex]

/-- What a working task does to a state in which its group has not been touched by others. -/
structure ShareDone (p : BatchedParams K α) (s : BatchedSparseArray K α) (batch : List α)
    (a e k : ℕ) (r r' : BatchedSparseArray K α) : Prop where
  pma : r'.pma = r.pma
  tasks : r'.tasks = Function.update r.tasks (s.shareThread p batch a e k)
    { r.tasks (s.shareThread p batch a e k) with
      numberOfBlocksWritten := (s.shareBlocks p batch a e k).length }
  cells : ∀ i x, (s.shareBlocks p batch a e k)[i]? = some x →
    r'.bufferArray (s.shareIndex p batch a e r.tasks k + i) = x
  outside : ∀ j, j < s.shareIndex p batch a e r.tasks k ∨
    s.shareIndex p batch a e r.tasks k + (s.shareBlocks p batch a e k).length ≤ j →
      r'.bufferArray j = r.bufferArray j

lemma GroupTasks.share_done (h : s.GroupInput p batch a e) (ht : GroupTasks p s batch a e r.tasks)
    (hpma : r.pma = s.pma) (hk : k < s.workers p batch a e) :
    ShareDone p s batch a e k r
      (r.startInsertionTask p batch (s.shareThread p batch a e k)) := by
  have hlarge := h.share_large hk
  have hfour := h.four_le
  have hmin : p.minBlockSize = p.blockSize / 2 := rfl
  have hnext : s.shareThread p batch a e k + 1 = s.shareThread p batch a e (k + 1) := rfl
  have htask : r.insertionTask p batch (s.shareThread p batch a e k) =
      (r, denseWrites (s.shareIndex p batch a e r.tasks k) 0 (s.splitterBlock p batch a)
        (s.shareBlocks p batch a e k)) := by
    simp only [insertionTask, ht.type k hk, hnext, ht.first k hk.le, ht.first (k + 1) hk,
      ht.block k hk]
    rw [if_neg (by simp only [Interval.length]; omega),
      h.getMergeRange_eq hk (ht.index k hk) (ht.merged k hk) hpma, hpma]
    rfl
  have hdense := @afterWrites_dense _ _ _ (s.shareIndex p batch a e r.tasks k) r
    fun i w hw => (@getElem?_denseWrites _ _ _ (s.splitterBlock p batch a) _
      (s.shareBlocks p batch a e k) _ hw).1
  have hframe := afterWrites_frame (denseWrites (s.shareIndex p batch a e r.tasks k) 0
    (s.splitterBlock p batch a) (s.shareBlocks p batch a e k)) r
  have hlen : (denseWrites (s.shareIndex p batch a e r.tasks k) 0 (s.splitterBlock p batch a)
      (s.shareBlocks p batch a e k)).length = (s.shareBlocks p batch a e k).length := by
    rw [denseWrites, List.length_mapIdx]
  rw [startInsertionTask, htask]
  simp only
  change ShareDone p s batch a e k r ((afterWrites (r, denseWrites
    (s.shareIndex p batch a e r.tasks k) 0 (s.splitterBlock p batch a)
      (s.shareBlocks p batch a e k))).setTask _ _)
  refine ⟨?_, ?_, fun i x hx => ?_, fun j hj => ?_⟩
  · change (afterWrites _).pma = _
    rw [hframe]
  · rw [setTask, hlen]
    simp only
    rw [hframe]
  · obtain ⟨w, hw⟩ : ∃ w, (denseWrites (s.shareIndex p batch a e r.tasks k) 0
        (s.splitterBlock p batch a) (s.shareBlocks p batch a e k))[i]? = some w := by
      rw [denseWrites, List.getElem?_mapIdx, hx]
      exact ⟨_, rfl⟩
    have hval := hdense.1 i w hw
    obtain ⟨-, hb⟩ := getElem?_denseWrites hw
    rw [hx] at hb
    rw [Option.some.inj hb]
    exact hval
  · exact hdense.2 j (by rw [hlen]; exact hj)

/-- The state when the working tasks `l` have run. -/
structure SharesDone (p : BatchedParams K α) (s : BatchedSparseArray K α) (batch : List α)
    (a e : ℕ) (l : List ℕ) (r r' : BatchedSparseArray K α) : Prop where
  pma : r'.pma = r.pma
  tasks : SameTasks r.tasks r'.tasks
  written : ∀ k ∈ l, (r'.tasks (s.shareThread p batch a e k)).numberOfBlocksWritten =
    (s.shareBlocks p batch a e k).length
  cells : ∀ k ∈ l, ∀ i x, (s.shareBlocks p batch a e k)[i]? = some x →
    r'.bufferArray (s.shareIndex p batch a e r.tasks k + i) = x
  outside : ∀ j, (∀ k ∈ l, j < s.shareIndex p batch a e r.tasks k ∨
    s.shareIndex p batch a e r.tasks k + (s.shareBlocks p batch a e k).length ≤ j) →
      r'.bufferArray j = r.bufferArray j
  others : ∀ t, (∀ k ∈ l, t ≠ s.shareThread p batch a e k) → r'.tasks t = r.tasks t

/-- Two tasks write to different cells. -/
lemma GroupTasks.disjoint {f : ℕ → TaskInfo} (ht : GroupTasks p s batch a e f)
    (h : s.GroupInput p batch a e) {j : ℕ} (hj : j < s.workers p batch a e)
    (hk : k < s.workers p batch a e) (hne : j ≠ k) {i : ℕ}
    (hi : i < (s.shareBlocks p batch a e j).length) :
    s.shareIndex p batch a e f j + i < s.shareIndex p batch a e f k ∨
      s.shareIndex p batch a e f k + (s.shareBlocks p batch a e k).length ≤
        s.shareIndex p batch a e f j + i := by
  have h1 := ht.index_lt h hj
  have h2 := ht.index_lt h hk
  rcases Nat.lt_or_gt_of_ne hne with hlt | hgt
  · have h3 := ht.index_mono (show j + 1 ≤ k from hlt) hk.le
    omega
  · have h3 := ht.index_mono (show k + 1 ≤ j from hgt) hj.le
    omega

/-- The working tasks in any order. -/
lemma GroupTasks.shares_done (h : s.GroupInput p batch a e) : ∀ (l : List ℕ)
    (r : BatchedSparseArray K α), l.Nodup → (∀ k ∈ l, k < s.workers p batch a e) →
    r.pma = s.pma → GroupTasks p s batch a e r.tasks →
      SharesDone p s batch a e l r (l.foldl (fun r k =>
        r.startInsertionTask p batch (s.shareThread p batch a e k)) r)
  | [], r, _, _, _, _ => ⟨rfl, fun t => rfl, fun k hk => absurd hk List.not_mem_nil,
      fun k hk => absurd hk List.not_mem_nil, fun j _ => rfl, fun t _ => rfl⟩
  | k :: l, r, hl, hlt, hpma, ht => by
      obtain ⟨hnot, hl'⟩ := List.nodup_cons.mp hl
      have hk := hlt k List.mem_cons_self
      have hone := ht.share_done h hpma hk
      have hsame : SameTasks r.tasks
          (r.startInsertionTask p batch (s.shareThread p batch a e k)).tasks := by
        intro t
        rw [hone.tasks, Function.update_apply]
        split
        · rename_i heq
          rw [heq]
        · rfl
      have hrest := GroupTasks.shares_done h l _ hl'
        (fun j hj => hlt j (List.mem_cons_of_mem _ hj)) (hone.pma.trans hpma) (ht.congr hsame)
      have hidx : ∀ j, s.shareIndex p batch a e
          (r.startInsertionTask p batch (s.shareThread p batch a e k)).tasks j =
            s.shareIndex p batch a e r.tasks j := shareIndex_congr hsame
      have hne : ∀ j ∈ l, j ≠ k := fun j hj heq => hnot (heq ▸ hj)
      rw [List.foldl_cons]
      refine ⟨hrest.pma.trans hone.pma, fun t => ?_, fun j hj => ?_, fun j hj i x hx => ?_,
        fun j hj => ?_, fun t hto => ?_⟩
      · rw [hrest.tasks t, hsame t]
      · rcases List.mem_cons.mp hj with rfl | hj
        · rw [hrest.others _ fun i hi heq => hne i hi (by
            rw [shareThread, shareThread] at heq; omega), hone.tasks, Function.update_self]
        · exact hrest.written j hj
      · rcases List.mem_cons.mp hj with rfl | hj
        · have hi := (List.getElem?_eq_some_iff.mp hx).1
          rw [hrest.outside _ fun j' hj' => ?_]
          · exact hone.cells i x hx
          · rw [hidx]
            exact ht.disjoint h hk (hlt j' (List.mem_cons_of_mem _ hj')) (Ne.symm (hne j' hj')) hi
        · rw [← hidx]
          exact hrest.cells j hj i x hx
      · rw [hrest.outside j fun i hi => by
          rw [hidx]
          exact hj i (List.mem_cons_of_mem _ hi)]
        exact hone.outside j (hj k List.mem_cons_self)
      · rw [hrest.others t fun i hi => hto i (List.mem_cons_of_mem _ hi), hone.tasks,
          Function.update_of_ne (hto k List.mem_cons_self)]

/-! ## Moving blocks to the front -/

omit [LinearOrder K] in
/-- Blocks move to cells in front of theirs. -/
lemma compactBlocks_spec : ∀ (n source target : ℕ) (r : BatchedSparseArray K α), target < source →
    (compactBlocks p n source target r = { r with
      bufferArray := (compactBlocks p n source target r).bufferArray }) ∧
    (∀ i < n, (compactBlocks p n source target r).bufferArray (target + i) =
      r.bufferArray (source + i)) ∧
    (∀ j, j < target ∨ target + n ≤ j → j < source ∨ source + n ≤ j →
      (compactBlocks p n source target r).bufferArray j = r.bufferArray j) ∧
    ∀ j, target + n ≤ j → source ≤ j → j < source + n →
      (compactBlocks p n source target r).bufferArray j = PmaEntry.null p.toBlockParams
  | 0, source, target, r, _ => ⟨rfl, fun i hi => by omega, fun j _ _ => rfl, fun j _ _ _ => by
      omega⟩
  | n + 1, source, target, r, hlt => by
      obtain ⟨h1, h2, h3, h4⟩ := compactBlocks_spec n (source + 1) (target + 1)
        (r.moveWithinBuffer p source target) (by omega)
      have hsrc : (r.moveWithinBuffer p source target).bufferArray source =
          PmaEntry.null p.toBlockParams := Function.update_self ..
      have htgt : (r.moveWithinBuffer p source target).bufferArray target =
          r.bufferArray source := by
        rw [moveWithinBuffer]
        simp only
        rw [Function.update_of_ne (by omega), Function.update_self]
      have hother : ∀ j, j ≠ source → j ≠ target →
          (r.moveWithinBuffer p source target).bufferArray j = r.bufferArray j := by
        intro j hs ht
        rw [moveWithinBuffer]
        simp only
        rw [Function.update_of_ne hs, Function.update_of_ne ht]
      rw [compactBlocks]
      refine ⟨?_, fun i hi => ?_, fun j hj hj' => ?_, fun j hj hs hs' => ?_⟩
      · rw [h1]
        rfl
      · rcases Nat.eq_zero_or_pos i with rfl | hpos
        · simp only [Nat.add_zero]
          rw [h3 target (by omega) (by omega), htgt]
        · have := h2 (i - 1) (by omega)
          rw [show target + 1 + (i - 1) = target + i by omega,
            show source + 1 + (i - 1) = source + i by omega] at this
          rw [this, hother _ (by omega) (by omega)]
      · rw [h3 j (by omega) (by omega), hother j (by omega) (by omega)]
      · rcases Nat.eq_or_lt_of_le hs with rfl | hs
        · rw [h3 _ (by omega) (by omega), hsrc]
        · exact h4 j (by omega) (by omega) (by omega)

/-- The number of blocks of the first `k` working tasks. -/
def shareCount (p : BatchedParams K α) (s : BatchedSparseArray K α) (batch : List α)
    (a e k : ℕ) : ℕ := (itemsIn (s.shareBlocks p batch a e) 0 k).length

lemma shareCount_succ (k : ℕ) : s.shareCount p batch a e (k + 1) =
    s.shareCount p batch a e k + (s.shareBlocks p batch a e k).length := by
  rw [shareCount, itemsIn_append _ (Nat.zero_le k) (Nat.le_succ k), itemsIn_succ,
    List.length_append]
  rfl

/-- The buffer in front of the compaction of a group: the working tasks have run. -/
structure GroupWritten (p : BatchedParams K α) (s : BatchedSparseArray K α) (batch : List α)
    (a e : ℕ) (r : BatchedSparseArray K α) : Prop where
  tasks : GroupTasks p s batch a e r.tasks
  written : ∀ k < s.workers p batch a e,
    (r.tasks (s.shareThread p batch a e k)).numberOfBlocksWritten =
      (s.shareBlocks p batch a e k).length
  cells : ∀ k < s.workers p batch a e, ∀ i x, (s.shareBlocks p batch a e k)[i]? = some x →
    r.bufferArray (s.shareIndex p batch a e r.tasks k + i) = x

/-- The cells that the working tasks have left free are empty. -/
def GapsEmpty (p : BatchedParams K α) (s : BatchedSparseArray K α) (batch : List α)
    (a e : ℕ) (r : BatchedSparseArray K α) : Prop :=
  ∀ k < s.workers p batch a e, ∀ j,
    s.shareIndex p batch a e r.tasks k + (s.shareBlocks p batch a e k).length ≤ j →
    j < s.shareIndex p batch a e r.tasks (k + 1) → r.bufferArray j = PmaEntry.null p.toBlockParams

/-- The loop of `compactifyBufferBlocks` when it has passed `k` working tasks. -/
structure Compacting (p : BatchedParams K α) (s : BatchedSparseArray K α) (batch : List α)
    (a e : ℕ) (r : BatchedSparseArray K α) (k : ℕ)
    (acc : BatchedSparseArray K α × Option CompactGroup) : Prop where
  frame : acc.1 = { r with bufferArray := acc.1.bufferArray }
  group : acc.2 = some ⟨s.shareIndex p batch a e r.tasks 0 + s.shareCount p batch a e k,
    s.splitterBlock p batch a, s.shareIndex p batch a e r.tasks 0⟩
  room : s.shareIndex p batch a e r.tasks 0 + s.shareCount p batch a e k <
    s.shareIndex p batch a e r.tasks k
  cells : ∀ i x, (itemsIn (s.shareBlocks p batch a e) 0 k)[i]? = some x →
    acc.1.bufferArray (s.shareIndex p batch a e r.tasks 0 + i) = x
  outside : ∀ j, j < s.shareIndex p batch a e r.tasks 0 ∨
    s.shareIndex p batch a e r.tasks k ≤ j → acc.1.bufferArray j = r.bufferArray j
  gap : GapsEmpty p s batch a e r → ∀ j,
    s.shareIndex p batch a e r.tasks 0 + s.shareCount p batch a e k ≤ j →
    j < s.shareIndex p batch a e r.tasks k → acc.1.bufferArray j = PmaEntry.null p.toBlockParams

lemma GroupWritten.compact_first (h : s.GroupInput p batch a e)
    (hw : s.GroupWritten p batch a e r) :
    Compacting p s batch a e r 1 (compactTask p (r, none) (s.shareThread p batch a e 0)) := by
  have hpos := h.workers_pos
  have hlt := hw.tasks.index_lt h hpos
  have hcount : s.shareCount p batch a e 1 = (s.shareBlocks p batch a e 0).length := by
    rw [shareCount, itemsIn_succ]
  rw [compactTask]
  simp only
  rw [if_pos ⟨hw.tasks.type 0 hpos, by rw [hw.tasks.merged 0 hpos]; exact hpos⟩,
    hw.tasks.block 0 hpos, hw.written 0 hpos]
  refine ⟨rfl, by rw [hcount]; rfl, by rw [hcount]; exact hlt, fun i x hx => ?_, fun j _ => rfl,
    fun hgap j h1 h2 => ?_⟩
  · rw [itemsIn_succ] at hx
    exact hw.cells 0 hpos i x hx
  · rw [hcount] at h1
    exact hgap 0 hpos j h1 h2

lemma Compacting.step (h : s.GroupInput p batch a e) (hw : s.GroupWritten p batch a e r)
    {acc : BatchedSparseArray K α × Option CompactGroup} (hc : Compacting p s batch a e r k acc)
    (hk : k < s.workers p batch a e) :
    Compacting p s batch a e r (k + 1)
      (compactTask p acc (s.shareThread p batch a e k)) := by
  have hlt := hw.tasks.index_lt h hk
  have h0 := hw.tasks.index_mono (Nat.zero_le k) hk.le
  have hroom := hc.room
  have hcount := @shareCount_succ _ _ _ p s batch a e k
  have htask : acc.1.tasks = r.tasks := by rw [hc.frame]
  rw [compactTask]
  simp only
  rw [htask, if_pos ⟨hw.tasks.type k hk, by rw [hw.tasks.merged k hk]; exact h.workers_pos⟩,
    hc.group, hw.written k hk]
  simp only
  change Compacting p s batch a e r (k + 1) (compactBlocks p (s.shareBlocks p batch a e k).length
    (s.shareIndex p batch a e r.tasks k) (s.shareIndex p batch a e r.tasks 0 +
      s.shareCount p batch a e k) acc.1, _)
  obtain ⟨g1, g2, g3, g4⟩ := compactBlocks_spec (p := p) (s.shareBlocks p batch a e k).length
    (s.shareIndex p batch a e r.tasks k) (s.shareIndex p batch a e r.tasks 0 +
      s.shareCount p batch a e k) acc.1 hroom
  generalize compactBlocks p (s.shareBlocks p batch a e k).length
    (s.shareIndex p batch a e r.tasks k) (s.shareIndex p batch a e r.tasks 0 +
      s.shareCount p batch a e k) acc.1 = r' at *
  refine ⟨?_, ?_, by omega, fun i x hx => ?_, fun j hj => ?_, fun hgap j h1 h2 => ?_⟩
  · rw [g1, hc.frame]
  · simp only
    rw [hcount, Nat.add_assoc]
  · rw [itemsIn_append _ (Nat.zero_le k) (Nat.le_succ k), itemsIn_succ] at hx
    rcases Nat.lt_or_ge i (s.shareCount p batch a e k) with hi | hi
    · rw [List.getElem?_append_left hi] at hx
      rw [g3 _ (by omega) (by omega)]
      exact hc.cells i x hx
    · rw [List.getElem?_append_right hi] at hx
      have hi' := (List.getElem?_eq_some_iff.mp hx).1
      have hval := g2 _ hi'
      rw [show s.shareIndex p batch a e r.tasks 0 + s.shareCount p batch a e k +
        (i - (itemsIn (s.shareBlocks p batch a e) 0 k).length) =
          s.shareIndex p batch a e r.tasks 0 + i by rw [shareCount] at hi ⊢; omega] at hval
      rw [hval, hc.outside _ (Or.inr (Nat.le_add_right _ _))]
      exact hw.cells k hk _ x hx
  · rw [g3 j (by omega) (by omega)]
    exact hc.outside j (by omega)
  · rw [hcount] at h1
    rcases Nat.lt_or_ge j (s.shareIndex p batch a e r.tasks k) with hj | hj
    · rw [g3 j (by omega) (by omega)]
      exact hc.gap hgap j (by omega) hj
    · rcases Nat.lt_or_ge j (s.shareIndex p batch a e r.tasks k +
        (s.shareBlocks p batch a e k).length) with hj' | hj'
      · exact g4 j (by omega) hj hj'
      · rw [g3 j (by omega) (by omega), hc.outside j (Or.inr hj)]
        exact hgap k hk j hj' h2

/-- The loop over all working tasks. -/
lemma GroupWritten.compact (h : s.GroupInput p batch a e) (hw : s.GroupWritten p batch a e r) :
    ∀ k, k < s.workers p batch a e → Compacting p s batch a e r (k + 1)
      ((List.range' (s.shareThread p batch a e 0) (k + 1)).foldl (compactTask p) (r, none))
  | 0, _ => hw.compact_first h
  | k + 1, hk => by
      rw [List.range'_concat, List.foldl_append, Nat.one_mul]
      exact (GroupWritten.compact h hw k (by omega)).step h hw hk

/-! ## The group as a whole -/

/-- The buffer when the loop of `compactifyBufferBlocks` has passed a group. -/
structure GroupCompacted (p : BatchedParams K α) (s : BatchedSparseArray K α) (batch : List α)
    (a e : ℕ) (r : BatchedSparseArray K α)
    (acc : BatchedSparseArray K α × Option CompactGroup) : Prop where
  closed : acc.2 = none
  /-- The blocks of the group are in the cells that the merge block points to. -/
  blocks : (List.range' (acc.1.bufferPointers (s.splitterBlock p batch a)).left
    (acc.1.bufferPointers (s.splitterBlock p batch a)).length).map acc.1.bufferArray =
      itemsIn (s.shareBlocks p batch a e) 0 (s.workers p batch a e)
  first : (acc.1.bufferPointers (s.splitterBlock p batch a)).left =
    s.shareIndex p batch a e r.tasks 0
  inside : (acc.1.bufferPointers (s.splitterBlock p batch a)).right ≤
    s.shareIndex p batch a e r.tasks (s.workers p batch a e)
  /-- The rest of the cells of the group is empty. -/
  gap : GapsEmpty p s batch a e r → ∀ j,
    (acc.1.bufferPointers (s.splitterBlock p batch a)).right ≤ j →
    j < s.shareIndex p batch a e r.tasks (s.workers p batch a e) →
      acc.1.bufferArray j = PmaEntry.null p.toBlockParams
  outside : ∀ j, j < s.shareIndex p batch a e r.tasks 0 ∨
    s.shareIndex p batch a e r.tasks (s.workers p batch a e) ≤ j →
      acc.1.bufferArray j = r.bufferArray j

lemma GroupInput.shareCount_pos (h : s.GroupInput p batch a e) :
    0 < s.shareCount p batch a e (s.workers p batch a e) := by
  have hunion := h.group_union fun _ => False
  have hlen : (batchPart batch ⟨s.splitterFirst p batch a, s.mergeEnd p batch a e⟩).length =
      s.mergeCount p batch a e := length_batchPart h.end_le
  have hinc : Increasing p.toBlockParams
      (batchPart batch ⟨s.splitterFirst p batch a, s.mergeEnd p batch a e⟩) :=
    (increasing_batchPart_iff h.end_le).mpr fun i j _ hij hj =>
      batchKey_lt h.increasing hij (by have := h.end_le; omega)
  have hle := hunion.union.length_new_le hinc
  have hcount := h.shares.2
  have hfour := h.four_le
  have hmin : p.minBlockSize = p.blockSize / 2 := rfl
  rw [shareCount]
  refine List.length_pos_iff.mpr fun hnil => ?_
  rw [hnil, elements_nil, List.length_nil] at hle
  omega

lemma workers_le (hae : a ≤ e) : s.workers p batch a e ≤ e :=
  le_trans (min_le_left _ _) (by omega)

/-- **Compaction of a group.** -/
lemma GroupWritten.compacted (h : s.GroupInput p batch a e) (hw : s.GroupWritten p batch a e r) :
    GroupCompacted p s batch a e r ((List.range' (s.shareThread p batch a e 0)
      (s.workers p batch a e + 1)).foldl (compactTask p) (r, none)) := by
  have hpos := h.workers_pos
  have hle := @workers_le _ _ _ p s batch a e h.shares.1.le
  obtain ⟨w, hwk⟩ : ∃ w, s.workers p batch a e = w + 1 := ⟨s.workers p batch a e - 1, by omega⟩
  have hc := hw.compact h w (by omega)
  rw [← hwk] at hc
  have hlast : s.shareThread p batch a e 0 + s.workers p batch a e = e := by
    rw [shareThread]
    omega
  rw [List.range'_concat, List.foldl_append, Nat.one_mul, hlast]
  generalize (List.range' (s.shareThread p batch a e 0) (s.workers p batch a e)).foldl
    (compactTask p) (r, none) = acc at *
  have htask : acc.1.tasks e = r.tasks e := by rw [hc.frame]
  have hcount := h.shareCount_pos
  have hlen : (⟨s.shareIndex p batch a e r.tasks 0, s.shareIndex p batch a e r.tasks 0 +
      s.shareCount p batch a e (s.workers p batch a e)⟩ : Interval).length =
        s.shareCount p batch a e (s.workers p batch a e) := Nat.add_sub_cancel_left _ _
  have hres : compactTask p acc e = ({ acc.1 with
      bufferPointers := Function.update acc.1.bufferPointers (s.splitterBlock p batch a)
        ⟨s.shareIndex p batch a e r.tasks 0, s.shareIndex p batch a e r.tasks 0 +
          s.shareCount p batch a e (s.workers p batch a e)⟩ }, none) := by
    rw [compactTask]
    simp only
    rw [htask, if_neg (by rw [hw.tasks.last_type]; simp), hc.group]
    simp only
    rw [if_neg hw.tasks.last_block]
    simp only
    rw [if_neg (by rw [hlen]; omega)]
  rw [List.foldl_cons, List.foldl_nil, hres]
  refine ⟨rfl, ?_, ?_, ?_, fun hgap j h1 h2 => ?_, hc.outside⟩
  · simp only [Function.update_self]
    rw [hlen]
    refine List.ext_getElem? fun i => ?_
    rw [List.getElem?_map]
    rcases Nat.lt_or_ge i (s.shareCount p batch a e (s.workers p batch a e)) with hi | hi
    · rw [List.getElem?_range' hi, Option.map_some, Nat.one_mul,
        List.getElem?_eq_getElem (show i < (itemsIn _ _ _).length from hi)]
      exact congrArg some (hc.cells i _ (List.getElem?_eq_getElem _))
    · rw [List.getElem?_eq_none (by simpa using hi),
        List.getElem?_eq_none (show (itemsIn _ _ _).length ≤ i from hi)]
      rfl
  · simp only [Function.update_self]
  · simp only [Function.update_self]
    exact hc.room.le
  · simp only [Function.update_self] at h1
    exact hc.gap hgap j h1 h2

/-! ## Groups of the insertion phase -/

section Phase

variable (heven : 2 ∣ p.blockSize) (hfour : 4 ≤ p.blockSize)
  (hzero : p.keyOf p.zero = p.nullKey)
  (hless : ∀ x y, p.operatorLess x y = decide (x < y)) (hins : s.Insertable p batch)
  (hbehind : ∀ c, s.size ≤ c → s.pma c = PmaEntry.null p.toBlockParams)
  (hnull : ∀ x ∈ batch, p.keyOf x ≠ p.nullKey)
  (hg : IsGroup (s.splitterBlock p batch) s.numberOfThreads a e)
  (hshares : s.HasShares p batch a e)

lemma splitterFirst_le (h : s.Insertable p batch) {t : ℕ} (ht : 0 < t) :
    s.splitterFirst p batch t ≤ batch.length := by
  have hd : 0 < batch.length / s.numberOfThreads := Nat.div_pos h.threads_le h.threads_pos
  rw [splitterFirst, if_neg (by omega)]
  split
  · rename_i hlt
    rw [findFirstBatchElement_eq h.increasing (Nat.mul_pos ht hd) (h.splitter_lt hlt)]
    exact le_trans (min_le_left _ _) (countBelow_le _)
  · exact le_refl _

include hins hbehind in
/-- The merge block is a block of the array, or the structure is empty. -/
lemma Insertable.isMergeBlock (ha : a < s.numberOfThreads) :
    (s.mergeEntry p batch a).IsMergeBlock p.toBlockParams := by
  rw [mergeEntry, splitterBlock_eq_home ha]
  by_cases hne : ∃ c, s.empty p c = false
  · exact Or.inl (hins.valid.entry _ (hins.isHome hne _).nonempty).filled
  · push Not at hne
    have hemp : ∀ c, s.empty p c = true := fun c => by simpa using hne c
    rw [home, hins.valid.findBlockIndex_of_empty hemp]
    exact Or.inr (hbehind _ (le_refl _))

include heven hfour hzero hless hins hbehind hnull hg hshares in
lemma groupInput_of_isGroup : s.GroupInput p batch a e := by
  have hcuts := groupCuts hins hless hg
  refine ⟨heven, hfour, hzero, hins.isMergeBlock hbehind (lt_of_le_of_lt hg.le hg.lt), hshares,
    hcuts, le_trans hcuts.mergeEnd_le (splitterFirst_le hins (Nat.succ_pos e)), hins.increasing,
    hnull⟩

include hins hg hshares in
/-- The tasks of a group when the insertion phase begins to insert. -/
lemma groupTasks_prepared :
    GroupTasks p s batch a e (s.prepareInsertion p batch).tasks := by
  have hsh := @sharing_distributed _ _ _ p _ batch hins.threads_pos
  have hl := (hsh.planned a e hg hg.lt).long hshares
  have hprep := @prepared_prepareInsertion _ _ _ _ p batch hins.threads_pos
  have hle := @workers_le _ _ _ p s batch a e hshares.1.le
  have hlt := hg.lt
  have htask : ∀ k ≤ s.workers p batch a e,
      (s.prepareInsertion p batch).tasks (s.shareThread p batch a e k) =
        (s.distributed p batch).startedTask (s.shareThread p batch a e k) := fun k hk =>
    hprep.tasks _ (by rw [shareThread]; omega)
  have hwork : ∀ k < s.workers p batch a e, _ := fun k hk =>
    hl.working k (s.shareThread p batch a e k) (by rw [shareThread]; omega)
      (by rw [shareThread]; omega)
  have hlast : s.shareThread p batch a e (s.workers p batch a e) = e := by
    rw [shareThread]
    omega
  have htaskE : (s.prepareInsertion p batch).tasks e = (s.distributed p batch).startedTask e :=
    hprep.tasks e hlt.le
  refine ⟨fun k hk => ?_, fun k hk => ?_, fun k hk => ?_, fun k hk => ?_, fun k hk => ?_,
    fun k hk => ?_, ?_, ?_⟩
  · rw [htask k hk.le]
    exact (hwork k hk).1
  · rw [htask k hk.le]
    exact (hwork k hk).2.1
  · rw [htask k hk]
    rcases Nat.eq_or_lt_of_le hk with rfl | hk
    · rw [hlast, shareStart_workers]
      exact hl.last_first
    · exact (hwork k hk).2.2.1
  · rw [htask k hk.le]
    exact (hwork k hk).2.2.2.1
  · rw [htask k hk.le]
    exact (hwork k hk).2.2.2.2.1
  · rw [htask k hk.le, htask (k + 1) hk]
    change (s.distributed p batch).startOf (s.shareThread p batch a e k + 1) = _
    rw [startOf_succ, (hwork k hk).2.2.2.2.2]
    rfl
  · rw [htaskE]
    exact hl.last_type
  · rw [htaskE]
    change ((s.distributed p batch).tasks e).blockForBatchSplitter ≠ _
    rw [hl.last_block, ← hg.same e hg.le (le_refl _)]
    exact (Nat.lt_of_succ_le ((s.view p).le_skipEmpty _ _)).ne'

end Phase

/-! ### The threads in front of a group -/

omit [LinearOrder K] in
lemma tasks_compactBlocks : ∀ (n source target : ℕ) (r : BatchedSparseArray K α),
    (compactBlocks p n source target r).tasks = r.tasks
  | 0, _, _, _ => rfl
  | n + 1, _, _, _ => (tasks_compactBlocks n _ _ _).trans rfl

omit [LinearOrder K] in
lemma tasks_compactLastBlocks : ∀ (n m source target : ℕ) (r : BatchedSparseArray K α),
    (compactLastBlocks p n m source target r).1.tasks = r.tasks
  | 0, _, _, _, _ => rfl
  | n + 1, m, source, target, r => by
      rw [compactLastBlocks]
      split
      · rfl
      · exact (tasks_compactLastBlocks n m _ _ _).trans rfl

omit [LinearOrder K] in
lemma tasks_compactTask (acc : BatchedSparseArray K α × Option CompactGroup) (t : ℕ) :
    (compactTask p acc t).1.tasks = acc.1.tasks := by
  rw [compactTask]
  simp only
  split
  · split
    · rfl
    · exact tasks_compactBlocks _ _ _ _
  · split
    · rfl
    · simp only
      split
      · exact tasks_compactLastBlocks _ _ _ _ _
      · rfl

omit [LinearOrder K] in
lemma tasks_foldl_compactTask : ∀ (l : List ℕ)
    (acc : BatchedSparseArray K α × Option CompactGroup),
    (l.foldl (compactTask p) acc).1.tasks = acc.1.tasks
  | [], _ => rfl
  | t :: l, acc => by
      rw [List.foldl_cons, tasks_foldl_compactTask l, tasks_compactTask]

omit [LinearOrder K] in
/-- A thread that has no part in an inverse merge closes the group. -/
lemma compactTask_closed {acc : BatchedSparseArray K α × Option CompactGroup} {t : ℕ}
    (h : (acc.1.tasks t).type ≠ .inverseMerge) : (compactTask p acc t).2 = none := by
  rw [compactTask]
  simp only
  rw [if_neg fun hc => h hc.1]
  split <;> rfl

/-- The thread in front of the working tasks of a group. -/
lemma type_before_group (hins : s.Insertable p batch)
    (hg : IsGroup (s.splitterBlock p batch) s.numberOfThreads a e)
    (hshares : s.HasShares p batch a e) {t : ℕ} (ht : t + 1 = s.shareThread p batch a e 0) :
    ((s.prepareInsertion p batch).tasks t).type ≠ .inverseMerge := by
  have hsh := @sharing_distributed _ _ _ p _ batch hins.threads_pos
  have hle := @workers_le _ _ _ p s batch a e hshares.1.le
  have hwa : s.workers p batch a e ≤ e - a := min_le_left _ _
  have hlt := hg.lt
  have hae := hg.le
  rw [shareThread] at ht
  have htask := (@prepared_prepareInsertion _ _ _ _ p batch hins.threads_pos).tasks t
    (by omega)
  rw [htask]
  change ((s.distributed p batch).tasks t).type ≠ _
  rcases Nat.lt_or_ge t a with hta | hta
  · -- the last thread of the previous group
    obtain ⟨a', e', hg', h1, h2⟩ := exists_group (s.splitterBlock p batch)
      (show t < s.numberOfThreads by omega)
    have he' : e' = t := by
      by_contra hne
      obtain ⟨rfl, -⟩ := hg.unique hg' (t := t + 1) (by omega) (by omega) (by omega) (by omega)
      omega
    subst he'
    by_cases hs : s.HasShares p batch a' e'
    · rw [((hsh.planned a' e' hg' hg'.lt).long hs).last_type]
      simp
    · rw [((hsh.planned a' e' hg' hg'.lt).short hs).last_type]
      simp
  · rw [(((hsh.planned a e hg hlt).long hshares).idle t hta (by omega)).1]
    simp

/-- Between the working tasks of a group and its compaction the other tasks run, and other groups
are dealt with.  They leave the cells of the group alone. -/
structure GroupKept (p : BatchedParams K α) (s : BatchedSparseArray K α) (batch : List α)
    (a e : ℕ) (r r' : BatchedSparseArray K α) : Prop where
  tasks : SameTasks r.tasks r'.tasks
  written : ∀ k < s.workers p batch a e,
    (r'.tasks (s.shareThread p batch a e k)).numberOfBlocksWritten =
      (r.tasks (s.shareThread p batch a e k)).numberOfBlocksWritten
  buffer : ∀ j, s.shareIndex p batch a e r.tasks 0 ≤ j →
    j < s.shareIndex p batch a e r.tasks (s.workers p batch a e) →
      r'.bufferArray j = r.bufferArray j

lemma SharesDone.groupWritten (h : s.GroupInput p batch a e) {l : List ℕ}
    (hl : ∀ k < s.workers p batch a e, k ∈ l) (ht : GroupTasks p s batch a e r.tasks)
    {r₁ r₂ : BatchedSparseArray K α} (hd : SharesDone p s batch a e l r r₁)
    (hk : GroupKept p s batch a e r₁ r₂) : s.GroupWritten p batch a e r₂ := by
  have hidx₁ := fun k => @shareIndex_congr _ _ _ p s batch a e _ _
    hd.tasks k
  have hidx₂ := fun k => @shareIndex_congr _ _ _ p s batch a e _ _
    hk.tasks k
  have ht₁ := ht.congr hd.tasks
  refine ⟨ht₁.congr hk.tasks, fun k hlt => ?_, fun k hlt i x hx => ?_⟩
  · rw [hk.written k hlt]
    exact hd.written k (hl k hlt)
  · have hi := (List.getElem?_eq_some_iff.mp hx).1
    have h1 := ht₁.index_mono (Nat.zero_le k) hlt.le
    have h2 := ht₁.index_mono (show k + 1 ≤ s.workers p batch a e from hlt) (le_refl _)
    have h3 := ht₁.index_lt h hlt
    rw [hidx₂, hk.buffer _ (by omega) (by omega), hidx₁]
    exact hd.cells k (hl k hlt) i x hx

end BatchedSparseArray

end BatchPMA
