import BatchPMA.Rebalance.Moving

/-!
# Step B-7: clearing the buffer pointers

The threads run over the same parts of the tasks again.  A cell that is shared by two threads is
cleared by the one that moved its last buffer block: the end of that thread lies behind the cell.
-/

namespace BatchPMA

open Segments

namespace BatchedSparseArray

variable {K α : Type} {p : BatchedParams K α} {s s₀ s₁ : BatchedSparseArray K α} {D : Set ℕ}

/-- The loop of `clearBufferBlockPointers`. -/
lemma clearLoop_spec (e : ExtendedPmaIndex) : ∀ (fuel : ℕ) (i : ExtendedPmaIndex)
    (s : BatchedSparseArray K α), e.pmaIndex ≤ i.pmaIndex + fuel →
      ∃ f, clearLoop e fuel i s = { s with bufferPointers := f } ∧
        (∀ c, f c = .zero ∨ f c = s.bufferPointers c) ∧
        ∀ c, i.pmaIndex ≤ c → c < e.pmaIndex → f c = .zero
  | 0, i, s, hfuel => ⟨s.bufferPointers, rfl, fun _ => Or.inr rfl, fun c h1 h2 => by omega⟩
  | fuel + 1, i, s, hfuel => by
      rw [clearLoop]
      split
      · obtain ⟨f, heq, hold, hzero⟩ := clearLoop_spec e fuel ⟨i.pmaIndex + 1, i.bufferIndex⟩
          { s with bufferPointers := Function.update s.bufferPointers i.pmaIndex .zero }
          (by simp only; omega)
        have hupd : ∀ c, f c = .zero ∨ f c = s.bufferPointers c := by
          intro c
          rcases hold c with h | h
          · exact Or.inl h
          · simp only [Function.update_apply] at h
            split at h
            · exact Or.inl h
            · exact Or.inr h
        refine ⟨f, heq, hupd, fun c h1 h2 => ?_⟩
        rcases Nat.eq_or_lt_of_le h1 with rfl | hlt
        · rcases hold i.pmaIndex with h | h
          · exact h
          · exact h.trans (Function.update_self _ _ _)
        · exact hzero c hlt h2
      · rename_i hless
        refine ⟨s.bufferPointers, rfl, fun _ => Or.inr rfl, fun c h1 h2 => absurd ?_ hless⟩
        exact decide_eq_true (Or.inl (by omega))

lemma clearBufferBlockPointers_spec (s : BatchedSparseArray K α) (b e : ExtendedPmaIndex) :
    ∃ f, s.clearBufferBlockPointers b e = { s with bufferPointers := f } ∧
      (∀ c, f c = .zero ∨ f c = s.bufferPointers c) ∧
      ∀ c, b.pmaIndex ≤ c → c < e.pmaIndex → f c = .zero :=
  clearLoop_spec e _ b s (by omega)

variable [DecidableEq K]

/-- The number of the last block of a cell of task `i`. -/
def lastBlockOfCell (p : BatchedParams K α) (s : BatchedSparseArray K α) (i c : ℕ) : ℕ :=
  s.firstBlock i + s.rank p (s.rebalancingTask i).pmaRange.left ⟨c + 1, none⟩ - 1

/-- The state of step B-7: the cells whose last block has a number in `D` are cleared. -/
structure Clearing (p : BatchedParams K α) (s₀ s₁ : BatchedSparseArray K α) (D : Set ℕ)
    (s : BatchedSparseArray K α) : Prop where
  frame : s = { s₁ with bufferPointers := s.bufferPointers }
  pointer : ∀ c, s.bufferPointers c = .zero ∨ s.bufferPointers c = s₁.bufferPointers c
  cleared : ∀ i < s₀.rebalancingTasks.length, ∀ c, (s₀.rebalancingTask i).pmaRange.left ≤ c →
    c < (s₀.treeRange (s₀.rebalancingTask i)).right → 0 < (s₀.bufferPointers c).length →
    s₀.lastBlockOfCell p i c ∈ D → s.bufferPointers c = .zero

lemma Clearing.refl (p : BatchedParams K α) (s₀ s₁ : BatchedSparseArray K α) :
    Clearing p s₀ s₁ ∅ s₁ :=
  ⟨rfl, fun _ => Or.inr rfl, fun _ _ _ _ _ _ h => absurd h (Set.notMem_empty _)⟩

/-- A cell whose last block comes before an end index lies in front of it. -/
lemma lt_of_rank_lt {a b c : ℕ} {e : ExtendedPmaIndex} (he : s.EndIn a b e) (hac : a ≤ c)
    (hpos : 0 < (s.bufferPointers c).length)
    (hlt : s.rank p a ⟨c + 1, none⟩ ≤ s.rank p a e) : c < e.pmaIndex := by
  by_contra hge
  have hcell : 0 < (s.cellPlaces p c).length := by
    rw [length_cellPlaces]
    omega
  have hsucc := rank_succ (p := p) (s := s) hac
  rcases Nat.eq_or_lt_of_le (not_lt.mp hge) with heq | hlt'
  · -- the end is a block of the cell, or the beginning of the cell
    have hoff : s.cellOffset p e < (s.cellPlaces p c).length := by
      rcases e with ⟨ec, eb⟩
      simp only at heq
      subst heq
      cases eb with
      | none => exact hcell
      | some y =>
          have := he.inCell y rfl
          rw [length_cellPlaces]
          simp only [cellOffset] at *
          omega
    have hrank : s.rank p a e = s.rank p a ⟨c, none⟩ + s.cellOffset p e := by
      rw [rank_none, rank, heq]
    omega
  · have hbefore := rank_le_succ (p := p) he.le he.inCell
    have hmono : s.rank p a ⟨e.pmaIndex + 1, none⟩ ≤ s.rank p a ⟨c, none⟩ := by
      rw [rank_none, rank_none]
      exact length_placesIn_mono (by have := he.le; omega) hlt'
    omega

lemma le_of_rank_le {a c : ℕ} {b : ExtendedPmaIndex} (hac : a ≤ c)
    (hlt : s.rank p a b < s.rank p a ⟨c + 1, none⟩) : b.pmaIndex ≤ c := by
  by_contra hgt
  have : s.rank p a ⟨c + 1, none⟩ ≤ s.rank p a b := by
    rw [rank_none, rank]
    exact le_trans (length_placesIn_mono (by omega) (by omega)) (Nat.le_add_right _ _)
  omega

/-- Clearing between two indices of a task. -/
lemma Clearing.clearBufferBlockPointers (h : Clearing p s₀ s₁ D s) {i : ℕ}
    (hr : s₀.Ready p) (hi : i < s₀.rebalancingTasks.length) {b e : ExtendedPmaIndex}
    (he : s₀.EndIn (s₀.rebalancingTask i).pmaRange.left
      (s₀.treeRange (s₀.rebalancingTask i)).right e) {x : ℕ}
    (hx : s₀.rank p (s₀.rebalancingTask i).pmaRange.left b = x) :
    Clearing p s₀ s₁ (D ∪ Set.Ico (s₀.firstBlock i + x)
      (s₀.firstBlock i + s₀.rank p (s₀.rebalancingTask i).pmaRange.left e))
      (s.clearBufferBlockPointers b e) := by
  obtain ⟨f, heq, hold, hzero⟩ := clearBufferBlockPointers_spec s b e
  have hle := he.rank_le (p := p)
  rw [hr.length_placesIn (rebalancingTask_mem hi)] at hle
  rw [heq]
  refine ⟨by rw [h.frame], fun c => ?_, fun k hk c h1 h2 hpos hin => ?_⟩
  · rcases hold c with hc | hc
    · exact Or.inl hc
    · exact (h.pointer c).imp hc.trans hc.trans
  · have hcell : 0 < s₀.rank p (s₀.rebalancingTask k).pmaRange.left ⟨c + 1, none⟩ := by
      rw [rank_succ h1, length_cellPlaces]
      omega
    have hlast : s₀.rank p (s₀.rebalancingTask k).pmaRange.left ⟨c + 1, none⟩ ≤
        (s₀.rebalancingTask k).numberOfBlocks := by
      rw [← hr.length_placesIn (rebalancingTask_mem hk)]
      exact length_placesIn_mono (Nat.le_succ_of_le h1) h2
    rcases hin with hin | hin
    · have hc := h.cleared k hk c h1 h2 hpos hin
      rcases hold c with hc' | hc'
      · exact hc'
      · exact hc'.trans hc
    · -- the last block of the cell is one of this part, so the cell is in this task
      rw [lastBlockOfCell] at hin
      have hki : k = i := by
        refine firstBlock_unique (s := s₀) (g := s₀.lastBlockOfCell p k c) ?_ ?_ ?_ ?_
        · rw [lastBlockOfCell]
          omega
        · rw [lastBlockOfCell, firstBlock_succ hk]
          omega
        · have := hin.1
          rw [lastBlockOfCell]
          omega
        · have := hin.2
          rw [lastBlockOfCell, firstBlock_succ hi]
          omega
      subst hki
      have h3 := hin.1
      have h4 := hin.2
      exact hzero c (le_of_rank_le (p := p) (s := s₀) h1 (by omega))
        (lt_of_rank_lt (p := p) he h1 hpos (by omega))

/-- A part of a task. -/
lemma Clearing.startPartial (hr : s₀.Ready p) (hs : s₀.PrefixSummed) (h : Clearing p s₀ s₁ D s)
    {i : ℕ} (hi : i < s₀.rebalancingTasks.length) (range : Interval) :
    Clearing p s₀ s₁ (D ∪ Set.Ico (max (s₀.firstBlock i) range.left)
      (min (s₀.firstBlock (i + 1)) range.right))
      (s.startPartialClearTask (s₀.getPartialRebalancingRange p i range)) := by
  rcases Nat.lt_or_ge (max (s₀.firstBlock i) range.left)
    (min (s₀.firstBlock (i + 1)) range.right) with hlt | hge
  · obtain ⟨-, h2, h3, h4, h5⟩ := hr.getPartialRebalancingRange_spec hs hi hlt
    rw [← h4, ← h5]
    exact h.clearBufferBlockPointers hr hi h2 h3
  · rw [getPartialRebalancingRange_of_le hs hi hge, Set.Ico_eq_empty (not_lt.mpr hge),
      Set.union_empty]
    exact h

/-- A whole task. -/
lemma Clearing.startFull (hr : s₀.Ready p) (hsize : s₁.size = s₀.size)
    (htasks : s₁.rebalancingTasks = s₀.rebalancingTasks) (h : Clearing p s₀ s₁ D s) {i : ℕ}
    (hi : i < s₀.rebalancingTasks.length) :
    Clearing p s₀ s₁ (D ∪ Set.Ico (s₀.firstBlock i) (s₀.firstBlock (i + 1)))
      (s.startFullClearTask i) := by
  have hin := rebalancingTask_mem hi
  have hl := hr.left_lt _ hin
  have hlr := hr.left_lt_tree hin
  have htree := hr.tree_le _ hin
  have hu := hr.used_le _ hin
  have heff : s.effectiveRange (s.rebalancingTask i).pmaRange =
      ⟨(s₀.rebalancingTask i).pmaRange.left,
        min (s₀.rebalancingTask i).pmaRange.right (max 1 s₀.size)⟩ := by
    rw [h.frame, effectiveRange, rebalancingTask, rebalancingTask]
    simp only [hsize, htasks]
  rw [startFullClearTask]
  simp only [heff]
  rw [if_neg (by simp only [Interval.length]; omega)]
  have hend : s₀.EndIn (s₀.rebalancingTask i).pmaRange.left
      (s₀.treeRange (s₀.rebalancingTask i)).right
      ⟨min (s₀.rebalancingTask i).pmaRange.right (max 1 s₀.size), none⟩ :=
    ⟨fun y hy => by simp at hy, by simp only; omega, hu, fun hy => absurd rfl hy⟩
  have hrank : s₀.rank p (s₀.rebalancingTask i).pmaRange.left
      ⟨min (s₀.rebalancingTask i).pmaRange.right (max 1 s₀.size), none⟩ =
        (s₀.rebalancingTask i).numberOfBlocks := by
    rw [rank_none, hr.placesIn_used hin, hr.length_placesIn hin]
  have hclear := h.clearBufferBlockPointers hr hi
    (b := ⟨(s₀.rebalancingTask i).pmaRange.left, none⟩) (x := 0) hend
    (by rw [rank_none, placesIn_self]; rfl)
  rw [hrank, Nat.add_zero, ← firstBlock_succ hi] at hclear
  exact hclear

/-- What one thread does in step B-7. -/
lemma Clearing.executeClearing (hr : s₀.Ready p) (ha : s₀.Assigned p) (hsize : s₁.size = s₀.size)
    (htasks : s₁.rebalancingTasks = s₀.rebalancingTasks) (hinfo : s₁.tasks = s₀.tasks) {t : ℕ}
    (ht : t < s₀.numberOfThreads) (h : Clearing p s₀ s₁ D s)
    (hD : ∀ g ∈ share s₀.totalBlocks s₀.numberOfThreads t, g ∉ D) :
    Clearing p s₀ s₁ (D ∪ share s₀.totalBlocks s₀.numberOfThreads t) (s.executeClearing t) := by
  have hinfo' : s.tasks = s₀.tasks := by rw [h.frame]; exact hinfo
  rw [BatchedSparseArray.executeClearing, hinfo']
  exact ha.run_thread ht (fun s _ task => s.startPartialClearTask task)
    (fun s i => s.startFullClearTask i)
    (fun i hi range D' s' h' _ => h'.startPartial hr ha.prefixSummed hi range)
    (fun i hi D' s' h' _ => h'.startFull hr hsize htasks hi) h hD

/-- **Step B-7.**  The cells of all tasks are without buffer blocks afterwards, whatever the order
of the threads. -/
theorem Ready.executeClearing_all (hr : s₀.Ready p) (s₁ : BatchedSparseArray K α)
    (ha : s₀.Assigned p)
    (hsize : s₁.size = s₀.size) (htasks : s₁.rebalancingTasks = s₀.rebalancingTasks)
    (hinfo : s₁.tasks = s₀.tasks) (hptr : s₁.bufferPointers = s₀.bufferPointers)
    (hpos : 0 < s₀.numberOfThreads) {order : List ℕ}
    (hperm : order.Perm (List.range s₀.numberOfThreads)) :
    ∃ f, order.foldl (fun s' t => s'.executeClearing t) s₁ = { s₁ with bufferPointers := f } ∧
      (∀ c, f c = .zero ∨ f c = s₀.bufferPointers c) ∧
      ∀ task ∈ s₀.rebalancingTasks, ∀ c, task.pmaRange.left ≤ c → c < (s₀.treeRange task).right →
        (f c).length = 0 := by
  have hall := run_shares (fun s' t => s'.executeClearing t) hpos
    (fun _ ht _ _ h hD => h.executeClearing hr ha hsize htasks hinfo ht hD) hperm
    (Clearing.refl p s₀ s₁)
  refine ⟨_, hall.frame, fun c => by rw [← hptr]; exact hall.pointer c, fun task ht c h1 h2 => ?_⟩
  obtain ⟨i, hi, rfl⟩ := List.mem_iff_getElem.mp ht
  rw [getElem_rebalancingTasks hi] at h1 h2
  rcases Nat.eq_zero_or_pos (s₀.bufferPointers c).length with hzero | hposc
  · rcases hall.pointer c with hc | hc
    · rw [hc]
      rfl
    · rw [hc, hptr, hzero]
  · have hlast : s₀.lastBlockOfCell p i c < s₀.totalBlocks := by
      have hle : s₀.rank p (s₀.rebalancingTask i).pmaRange.left ⟨c + 1, none⟩ ≤
          (s₀.rebalancingTask i).numberOfBlocks := by
        rw [← hr.length_placesIn (rebalancingTask_mem hi)]
        exact length_placesIn_mono (Nat.le_succ_of_le h1) h2
      have hgt : 0 < s₀.rank p (s₀.rebalancingTask i).pmaRange.left ⟨c + 1, none⟩ := by
        rw [rank_succ h1, length_cellPlaces]
        omega
      have hsucc := firstBlock_succ hi
      have htotal : s₀.firstBlock (i + 1) ≤ s₀.totalBlocks := firstBlock_le_total hi
      rw [lastBlockOfCell]
      omega
    rw [hall.cleared i hi c h1 h2 hposc hlast]
    rfl

end BatchedSparseArray

end BatchPMA
