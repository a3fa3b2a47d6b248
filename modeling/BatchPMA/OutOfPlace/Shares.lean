import BatchPMA.OutOfPlace.Start
import BatchPMA.OutOfPlace.Range
import BatchPMA.OutOfPlace.Blocks
import BatchPMA.Insertion.Shares

/-!
# The shares of a merge group

The working tasks of a group cut the batch elements of the merge block into shares of one size; the
last shares may be empty.  The merge block is cut where the shares begin, and an empty share gets
nothing of it.
-/

namespace BatchPMA

open KeyedUnion Ranges

variable {K α : Type} [LinearOrder K]

/-! ## Cutting a block -/

namespace PmaEntry

variable {p : BlockParams K α} {b : PmaEntry K α} {k : K}

/-- A larger key is found behind the last element. -/
lemma IsMergeBlock.findIndex_eq_size (h : b.IsMergeBlock p) (hlt : ∀ x ∈ b.live, p.keyOf x < k) :
    b.findIndex p k = b.size := by
  refine le_antisymm (findIndex_le b k) ?_
  by_contra hno
  have hlen := h.length_live
  have hi : b.findIndex p k < b.live.length := by omega
  have hmem : b.live[b.findIndex p k] ∈ b.live.drop (b.findIndex p k) := by
    rw [List.drop_eq_getElem_cons hi]
    exact List.mem_cons_self
  exact absurd (hlt _ (List.getElem_mem hi)) (not_lt.mpr ((h.findIndex_spec k).2 _ hmem))

lemma IsMergeBlock.findIndex_of_empty (hsize : b.size = 0) (k : K) : b.findIndex p k = 0 := by
  have := findIndex_le (p := p) b k
  omega

end PmaEntry

/-- Blocks that are full but for the last one. -/
lemma WritesFull.length_le {p : BlockParams K α} {old new : List α} {blocks : List (PmaEntry K α)}
    (h : WritesFull p old new blocks) (htwo : 2 ≤ p.blockSize) :
    blocks.length ≤ (old.length + new.length) / p.minBlockSize + 1 := by
  have hmin : 0 < p.minBlockSize := Nat.div_pos htwo (by omega)
  have hle : p.minBlockSize ≤ p.blockSize := Nat.div_le_self _ _
  have hcount := List.card_nsmul_le_sum (blocks.dropLast.map fun b => b.live.length)
    p.minBlockSize fun x hx => by
      obtain ⟨b, hb, rfl⟩ := List.mem_map.mp hx
      rw [(h.valid b (List.mem_of_mem_dropLast hb)).length_live, h.full b hb]
      exact hle
  rw [← List.length_flatMap, List.length_map, smul_eq_mul, List.length_dropLast] at hcount
  have hsub : (elements blocks.dropLast).length ≤ (elements blocks).length :=
    (List.Sublist.flatMap (List.dropLast_sublist blocks) _).length_le
  have htotal := le_trans hcount (le_trans hsub h.union.length_le)
  have := (Nat.le_div_iff_mul_le hmin).mpr htotal
  omega

namespace OverallocatedBatchedSparseArray

variable {p : OverallocatedParams K α} {s : OverallocatedBatchedSparseArray K α}
  {batch : List α} {n a e k : ℕ} {g : ℕ → TaskInfo}

/-- Where the `k`-th working task begins to read the merge block. -/
def mergeCut (p : OverallocatedParams K α) (s : OverallocatedBatchedSparseArray K α)
    (batch : List α) (n a e k : ℕ) : ℕ :=
  if k = 0 then 0
  else if s.shareFirst p batch n a e k < s.mergeEnd p batch n a e then
    (s.pma (s.splitterBlock p batch n a)).findIndex p.toBlockParams
      (batchKey p.toBlockParams batch (s.shareFirst p batch n a e k))
  else (s.pma (s.splitterBlock p batch n a)).size

/-- The blocks of the `k`-th working task. -/
def workerBlocks (p : OverallocatedParams K α) (s : OverallocatedBatchedSparseArray K α)
    (batch : List α) (n a e k : ℕ) : List (PmaEntry K α) :=
  if s.shareFirst p batch n a e (k + 1) - s.shareFirst p batch n a e k = 0 then []
  else mergedBlocks p.toBlockParams
    (batchPart batch ⟨s.shareFirst p batch n a e k, s.shareFirst p batch n a e (k + 1)⟩)
    (batchPart (s.pma (s.splitterBlock p batch n a)).cells
      ⟨s.mergeCut p batch n a e k, s.mergeCut p batch n a e (k + 1)⟩)

/-- The merge block of a group and the batch elements for it. -/
structure MergeInput (p : OverallocatedParams K α) (s : OverallocatedBatchedSparseArray K α)
    (batch : List α) (n a e : ℕ) : Prop where
  two_le : 2 ≤ p.blockSize
  zero_null : p.keyOf p.zero = p.nullKey
  lt : a < e
  block : (s.pma (s.splitterBlock p batch n a)).IsMergeBlock p.toBlockParams
  first_lt : s.splitterFirst p batch n a < s.mergeEnd p batch n a e
  end_le : s.mergeEnd p batch n a e ≤ batch.length
  behind : s.mergeEnd p batch n a e < batch.length →
    ∀ x ∈ (s.pma (s.splitterBlock p batch n a)).live,
      p.keyOf x < batchKey p.toBlockParams batch (s.mergeEnd p batch n a e)
  increasing : Increasing p.toBlockParams batch
  key_ne_null : ∀ x ∈ batch, p.keyOf x ≠ p.nullKey

lemma shareFirst_le (k : ℕ) : s.shareFirst p batch n a e k ≤ s.mergeEnd p batch n a e :=
  min_le_right _ _

lemma shareFirst_mono {j : ℕ} (h : j ≤ k) :
    s.shareFirst p batch n a e j ≤ s.shareFirst p batch n a e k :=
  min_le_min_right _ (Nat.add_le_add_left (Nat.mul_le_mul_right _ h) _)

/-- A share is not longer than its size. -/
lemma shareFirst_succ_le (k : ℕ) : s.shareFirst p batch n a e (k + 1) ≤
    s.shareFirst p batch n a e k + s.shareSize p batch n a e := by
  rw [shareFirst, shareFirst, Nat.add_mul, Nat.one_mul, ← Nat.add_assoc]
  omega

lemma mergeCut_zero : s.mergeCut p batch n a e 0 = 0 := if_pos rfl

lemma mergeCut_le (k : ℕ) :
    s.mergeCut p batch n a e k ≤ (s.pma (s.splitterBlock p batch n a)).size := by
  rw [mergeCut]
  split
  · exact Nat.zero_le _
  · split
    · exact PmaEntry.findIndex_le _ _
    · exact le_refl _

section

variable (h : s.MergeInput p batch n a e)
include h

lemma MergeInput.shareFirst_zero :
    s.shareFirst p batch n a e 0 = s.splitterFirst p batch n a := by
  rw [shareFirst, Nat.zero_mul, Nat.add_zero]
  exact min_eq_left h.first_lt.le

lemma MergeInput.shareFirst_one : s.shareFirst p batch n a e 0 < s.shareFirst p batch n a e 1 := by
  rw [h.shareFirst_zero, shareFirst, Nat.one_mul]
  exact lt_min (Nat.lt_add_of_pos_right (Nat.succ_pos _)) h.first_lt

/-- The last share ends with the elements for the merge block. -/
lemma MergeInput.shareFirst_last :
    s.shareFirst p batch n a e (e - a) = s.mergeEnd p batch n a e := by
  rw [shareFirst]
  refine min_eq_right ?_
  have hlt := h.lt
  have hdiv := Nat.lt_div_mul_add (a := s.mergeEnd p batch n a e - s.splitterFirst p batch n a)
    (show 0 < e - a by omega)
  have hmul : (e - a) * s.shareSize p batch n a e =
      (s.mergeEnd p batch n a e - s.splitterFirst p batch n a) / (e - a) * (e - a) + (e - a) := by
    rw [shareSize, Nat.mul_add, Nat.mul_one, Nat.mul_comm]
  omega

lemma MergeInput.mergeCut_last :
    s.mergeCut p batch n a e (e - a) = (s.pma (s.splitterBlock p batch n a)).size := by
  have hlt := h.lt
  rw [mergeCut, if_neg (by omega), h.shareFirst_last, if_neg (lt_irrefl _)]

lemma MergeInput.mergeCut_mono (k : ℕ) :
    s.mergeCut p batch n a e k ≤ s.mergeCut p batch n a e (k + 1) := by
  rcases Nat.eq_zero_or_pos k with rfl | hpos
  · rw [mergeCut_zero]
    exact Nat.zero_le _
  · rcases Nat.lt_or_ge (s.shareFirst p batch n a e (k + 1)) (s.mergeEnd p batch n a e) with
      hlt | hge
    · have hmono := @shareFirst_mono _ _ _ p s batch n a e (k + 1) k (Nat.le_succ k)
      rw [mergeCut, if_neg (by omega), if_pos (by omega), mergeCut, if_neg (by omega), if_pos hlt]
      exact h.block.findIndex_mono
        (batchKey_le h.increasing hmono (lt_of_lt_of_le hlt h.end_le))
    · rw [mergeCut.eq_def p s batch n a e (k + 1), if_neg (by omega), if_neg (by omega)]
      exact mergeCut_le k

/-- The part of the merge block is the one that the task computes. -/
lemma MergeInput.getMergeRange_eq {task : TaskInfo}
    (hne : s.shareFirst p batch n a e k < s.shareFirst p batch n a e (k + 1))
    (hindex : task.mergedTaskIndex = k) (hmerged : task.mergedTasks = e - a)
    {r : OverallocatedBatchedSparseArray K α}
    (hpma : r.pma (s.splitterBlock p batch n a) = s.pma (s.splitterBlock p batch n a)) :
    r.getMergeRange p task batch
        ⟨s.shareFirst p batch n a e k, s.shareFirst p batch n a e (k + 1)⟩
        (s.splitterBlock p batch n a) =
      ⟨s.mergeCut p batch n a e k, s.mergeCut p batch n a e (k + 1)⟩ := by
  have hlt : s.shareFirst p batch n a e k < s.mergeEnd p batch n a e :=
    lt_of_lt_of_le hne (shareFirst_le (k + 1))
  rw [getMergeRange, hindex, hmerged, hpma]
  simp only
  congr 1
  · rw [mergeCut, if_pos hlt]
    by_cases h0 : k = 0
    · rw [if_neg (fun hc => hc.2 h0), if_pos h0]
    · rw [if_neg h0]
      by_cases hs : (s.pma (s.splitterBlock p batch n a)).size = 0
      · rw [if_neg (fun hc => hc.1 hs), PmaEntry.IsMergeBlock.findIndex_of_empty hs]
      · rw [if_pos ⟨hs, h0⟩]
  · rw [mergeCut, if_neg (Nat.succ_ne_zero k)]
    rcases Nat.lt_or_ge (s.shareFirst p batch n a e (k + 1)) (s.mergeEnd p batch n a e) with
      hlt' | hge
    · rw [if_pos hlt']
      have hinner : k + 1 ≠ e - a := by
        intro heq
        rw [heq, h.shareFirst_last] at hlt'
        exact absurd hlt' (lt_irrefl _)
      by_cases hs : (s.pma (s.splitterBlock p batch n a)).size = 0
      · rw [if_neg (fun hc => hc.1 hs), hs, PmaEntry.IsMergeBlock.findIndex_of_empty hs]
      · rw [if_pos ⟨hs, hinner, (lt_of_lt_of_le hlt' h.end_le).ne⟩]
    · -- the elements behind the group lie above the merge block
      have heq : s.shareFirst p batch n a e (k + 1) = s.mergeEnd p batch n a e :=
        le_antisymm (shareFirst_le (k + 1)) hge
      rw [if_neg (not_lt.mpr hge), heq]
      split
      · rename_i hc
        exact h.block.findIndex_eq_size (h.behind (lt_of_le_of_ne h.end_le hc.2.2))
      · rfl

/-! ## The union -/

lemma MergeInput.increasing_live {c d : ℕ} (hd : d ≤ (s.pma (s.splitterBlock p batch n a)).size) :
    Increasing p.toBlockParams (batchPart (s.pma (s.splitterBlock p batch n a)).live ⟨c, d⟩) := by
  have hlen := h.block.length_live
  refine (increasing_batchPart_iff (by omega)).mpr fun i j _ hij hj => ?_
  exact batchKey_lt h.block.increasing hij (by omega)

/-- **One working task.** -/
lemma MergeInput.worker_writes (k : ℕ) : WritesFull p.toBlockParams
    (batchPart (s.pma (s.splitterBlock p batch n a)).live
      ⟨s.mergeCut p batch n a e k, s.mergeCut p batch n a e (k + 1)⟩)
    (batchPart batch ⟨s.shareFirst p batch n a e k, s.shareFirst p batch n a e (k + 1)⟩)
    (s.workerBlocks p batch n a e k) := by
  have hlen : s.shareFirst p batch n a e (k + 1) ≤ batch.length :=
    le_trans (shareFirst_le (k + 1)) h.end_le
  have hmono := @shareFirst_mono _ _ _ p s batch n a e (k + 1) k (Nat.le_succ k)
  rw [workerBlocks]
  split
  · -- an empty share gets nothing of the merge block
    rename_i hnil
    have hpos : 0 < k := by
      rcases Nat.eq_zero_or_pos k with rfl | hpos
      · have hone := h.shareFirst_one
        rw [Nat.zero_add] at hnil
        omega
      · exact hpos
    have hend : ¬ s.shareFirst p batch n a e k < s.mergeEnd p batch n a e := by
      intro hlt
      have hpos' : 0 < s.shareSize p batch n a e := Nat.succ_pos _
      have heq : s.shareFirst p batch n a e (k + 1) = s.shareFirst p batch n a e k := by omega
      rw [shareFirst, shareFirst, Nat.add_mul, Nat.one_mul] at heq
      rw [shareFirst] at hlt
      omega
    have heq : s.shareFirst p batch n a e (k + 1) = s.shareFirst p batch n a e k := by omega
    have hcut : s.mergeCut p batch n a e (k + 1) = s.mergeCut p batch n a e k := by
      rw [mergeCut, mergeCut, heq, if_neg (Nat.succ_ne_zero k), if_neg hend, if_neg hpos.ne']
    rw [heq, hcut, batchPart_self, batchPart_self]
    exact ⟨fun b hb => absurd hb List.not_mem_nil, IsUnion.nil_new List.Pairwise.nil,
      fun b hb => absurd hb List.not_mem_nil, fun b hb => absurd hb List.not_mem_nil⟩
  · rw [PmaEntry.batchPart_cells (mergeCut_le (k + 1))]
    refine mergedBlocks_spec (by have := h.two_le; omega) h.zero_null ?_
      (h.increasing_live (mergeCut_le _)) fun x hx => ?_
    · exact (increasing_batchPart_iff hlen).mpr fun i j _ hij hj =>
        batchKey_lt h.increasing hij (by omega)
    · rcases List.mem_append.mp hx with hx | hx
      · exact h.key_ne_null x (List.mem_of_mem_drop (List.mem_of_mem_take hx))
      · exact h.block.key_ne_null x (List.mem_of_mem_drop (List.mem_of_mem_take hx))

/-- No more blocks than the share has room for. -/
lemma MergeInput.length_workerBlocks_le (k : ℕ) : (s.workerBlocks p batch n a e k).length ≤
    maxRedistributionWidth p (s.blockSize (s.splitterBlock p batch n a))
      (s.shareSize p batch n a e) := by
  have hlen : s.shareFirst p batch n a e (k + 1) ≤ batch.length :=
    le_trans (shareFirst_le (k + 1)) h.end_le
  have hmin : 0 < p.minBlockSize := Nat.div_pos h.two_le (by omega)
  have hlive := h.block.length_live
  have hpos : 0 < s.shareSize p batch n a e := Nat.succ_pos _
  have hshare := @shareFirst_succ_le _ _ _ p s batch n a e k
  have hcut : s.mergeCut p batch n a e (k + 1) ≤ _ := mergeCut_le (k + 1)
  have hle := (h.worker_writes k).length_le h.two_le
  rw [length_batchPart (by omega), length_batchPart hlen] at hle
  rw [maxRedistributionWidth, blockSize, if_neg (by omega)]
  refine le_trans hle (Nat.succ_le_succ (Nat.div_le_div_right ?_))
  omega

/-- The elements in front of a cut lie below those behind it. -/
lemma MergeInput.cut_lt (k : ℕ) :
    ∀ x ∈ batchPart (s.pma (s.splitterBlock p batch n a)).live ⟨0, s.mergeCut p batch n a e k⟩ ++
        batchPart batch ⟨s.splitterFirst p batch n a, s.shareFirst p batch n a e k⟩,
      ∀ y ∈ batchPart (s.pma (s.splitterBlock p batch n a)).live
          ⟨s.mergeCut p batch n a e k, s.mergeCut p batch n a e (k + 1)⟩ ++
        batchPart batch ⟨s.shareFirst p batch n a e k, s.shareFirst p batch n a e (k + 1)⟩,
      p.keyOf x < p.keyOf y := by
  intro x hx y hy
  rcases Nat.eq_zero_or_pos k with rfl | hpos
  · rw [mergeCut_zero, h.shareFirst_zero, batchPart_self, batchPart_self] at hx
    exact absurd hx List.not_mem_nil
  · rcases Nat.lt_or_ge (s.shareFirst p batch n a e k) (s.mergeEnd p batch n a e) with hlt | hge
    · have hcut : s.mergeCut p batch n a e k =
          (s.pma (s.splitterBlock p batch n a)).findIndex p.toBlockParams
            (batchKey p.toBlockParams batch (s.shareFirst p batch n a e k)) := by
        rw [mergeCut, if_neg (by omega), if_pos hlt]
      obtain ⟨hbelow, habove⟩ := h.block.findIndex_spec
        (batchKey p.toBlockParams batch (s.shareFirst p batch n a e k))
      rw [← hcut] at hbelow habove
      have hstart : s.shareFirst p batch n a e k < batch.length := lt_of_lt_of_le hlt h.end_le
      have hend : s.shareFirst p batch n a e (k + 1) ≤ batch.length :=
        le_trans (shareFirst_le (k + 1)) h.end_le
      have h1 : p.keyOf x < batchKey p.toBlockParams batch (s.shareFirst p batch n a e k) := by
        rcases List.mem_append.mp hx with hx | hx
        · exact hbelow x (by simpa [batchPart, Interval.length] using hx)
        · obtain ⟨i, -, g2, g3⟩ := mem_batchPart.mp hx
          rw [← batchKey_of_getElem? g3]
          exact batchKey_lt h.increasing g2 hstart
      have h2 : batchKey p.toBlockParams batch (s.shareFirst p batch n a e k) ≤ p.keyOf y := by
        rcases List.mem_append.mp hy with hy | hy
        · exact habove y (List.mem_of_mem_take hy)
        · obtain ⟨i, g1, g2, g3⟩ := mem_batchPart.mp hy
          rw [← batchKey_of_getElem? g3]
          exact batchKey_le h.increasing g1 (by omega)
      exact lt_of_lt_of_le h1 h2
    · -- nothing is left
      have hge' : s.mergeEnd p batch n a e ≤ s.shareFirst p batch n a e (k + 1) :=
        le_trans hge (shareFirst_mono (Nat.le_succ k))
      have h1 : s.shareFirst p batch n a e (k + 1) = s.shareFirst p batch n a e k :=
        le_antisymm (le_trans (shareFirst_le _) hge) (shareFirst_mono (Nat.le_succ k))
      have h2 : s.mergeCut p batch n a e (k + 1) = s.mergeCut p batch n a e k := by
        rw [mergeCut, mergeCut, h1, if_neg (Nat.succ_ne_zero k), if_neg (not_lt.mpr hge),
          if_neg hpos.ne']
      rw [h1, h2, batchPart_self, batchPart_self] at hy
      exact absurd hy List.not_mem_nil

/-- The row of a working task. -/
lemma MergeInput.worker_row (k : ℕ) : Row p s batch
    (batchPart (s.pma (s.splitterBlock p batch n a)).live
      ⟨s.mergeCut p batch n a e k, s.mergeCut p batch n a e (k + 1)⟩)
    (batchPart batch ⟨s.shareFirst p batch n a e k, s.shareFirst p batch n a e (k + 1)⟩)
    (s.workerBlocks p batch n a e k) where
  valid := (h.worker_writes k).valid
  union := (h.worker_writes k).union
  holds := by
    intro P hzero hold hbatch b hb
    rw [workerBlocks] at hb
    split at hb
    · exact absurd hb List.not_mem_nil
    · exact holds_mergedBlocks hzero
        (fun x hx => hbatch x (List.mem_of_mem_drop (List.mem_of_mem_take hx)))
        (fun x hx => hold _ x (List.mem_of_mem_drop (List.mem_of_mem_take hx))) b hb

end

end OverallocatedBatchedSparseArray

end BatchPMA
