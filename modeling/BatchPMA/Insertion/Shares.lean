import BatchPMA.Insertion.Widths
import BatchPMA.Insertion.InverseMerge
import BatchPMA.Insertion.InsertRange

/-!
# The shares of a merge group

The working tasks of a merge group cut the merge block where their parts of the batch begin.  The
blocks that they write, one task after the other, hold the union of the merge block and the batch
range of the group.
-/

namespace BatchPMA

open KeyedUnion Ranges

variable {K α : Type} [LinearOrder K]

/-! ## Cutting a block -/

namespace PmaEntry

variable {p : BlockParams K α} {b : PmaEntry K α} {k k' : K}

/-- A block, maybe without elements, or none. -/
def IsMergeBlock (p : BlockParams K α) (b : PmaEntry K α) : Prop := b.Filled p ∨ b = null p

lemma IsMergeBlock.length_live (h : b.IsMergeBlock p) : b.live.length = b.size := by
  rcases h with h | rfl
  · exact h.length_live
  · rfl

lemma IsMergeBlock.size_le (h : b.IsMergeBlock p) : b.size ≤ p.blockSize := by
  rcases h with h | rfl
  · exact h.size_le
  · exact Nat.zero_le _

lemma IsMergeBlock.increasing (h : b.IsMergeBlock p) : Increasing p b.live := by
  rcases h with h | rfl
  · exact h.increasing
  · exact List.Pairwise.nil

lemma IsMergeBlock.key_ne_null (h : b.IsMergeBlock p) : ∀ x ∈ b.live, p.keyOf x ≠ p.nullKey := by
  rcases h with h | rfl
  · exact h.key_ne_null
  · exact fun x hx => absurd hx List.not_mem_nil

/-- `findIndex` separates the smaller keys from the others. -/
lemma IsMergeBlock.findIndex_spec (h : b.IsMergeBlock p) (k : K) :
    (∀ x ∈ b.live.take (b.findIndex p k), p.keyOf x < k) ∧
      ∀ x ∈ b.live.drop (b.findIndex p k), k ≤ p.keyOf x := by
  rcases h with h | rfl
  · exact h.linearSearch_spec (Nat.zero_le _) fun i hi => absurd hi (Nat.not_lt_zero _)
  · simp

lemma IsMergeBlock.findIndex_mono (h : b.IsMergeBlock p) (hk : k ≤ k') :
    b.findIndex p k ≤ b.findIndex p k' := by
  by_contra hlt
  have hle := findIndex_le (p := p) b k
  have hlen := h.length_live
  have hi : b.findIndex p k' < b.live.length := by omega
  have h1 := (h.findIndex_spec k).1 b.live[b.findIndex p k'] (List.mem_iff_getElem.mpr
    ⟨b.findIndex p k', by rw [List.length_take]; omega, List.getElem_take⟩)
  have h2 := (h.findIndex_spec k').2 b.live[b.findIndex p k'] (List.mem_iff_getElem.mpr
    ⟨0, by rw [List.length_drop]; omega, by simp⟩)
  exact absurd (lt_of_lt_of_le h1 (le_trans hk h2)) (lt_irrefl _)

omit [LinearOrder K] in
/-- Live cells of a block. -/
lemma batchPart_cells {c d : ℕ} (h : d ≤ b.size) :
    batchPart b.cells ⟨c, d⟩ = batchPart b.live ⟨c, d⟩ := by
  simp only [batchPart, Interval.length, live]
  rw [List.drop_take, List.take_take, min_eq_left (by omega)]

end PmaEntry

/-- One sequence of blocks after another. -/
lemma WritesUnion.append {p : BlockParams K α} {above : K → Prop} {old old' new new' : List α}
    {bs bs' : List (PmaEntry K α)} (h : WritesUnion p above old new bs)
    (h' : WritesUnion p above old' new' bs')
    (hlt : ∀ x ∈ old ++ new, ∀ y ∈ old' ++ new', p.keyOf x < p.keyOf y) :
    WritesUnion p above (old ++ old') (new ++ new') (bs ++ bs') := by
  refine ⟨fun b hb => ?_, fun b hb => ?_, ?_, ?_⟩
  · exact (List.mem_append.mp hb).elim (h.valid b) (h'.valid b)
  · exact (List.mem_append.mp hb).elim (h.large b) (h'.large b)
  · rw [elements_append]
    exact h.union.append h'.union hlt
  · rw [deadOk_append]
    exact ⟨h.dead.mono fun k hk => Or.inl hk, h'.dead⟩

namespace BatchedSparseArray

variable {p : BatchedParams K α} {s : BatchedSparseArray K α} {batch : List α} {a e k : ℕ}

/-! ## The parts of the merge block -/

/-- The merge block of the group that begins with thread `a`. -/
def mergeEntry (p : BatchedParams K α) (s : BatchedSparseArray K α) (batch : List α) (a : ℕ) :
    PmaEntry K α := s.pma (s.splitterBlock p batch a)

/-- Where the `k`-th working task begins to read the merge block. -/
def shareCut (p : BatchedParams K α) (s : BatchedSparseArray K α) (batch : List α)
    (a e k : ℕ) : ℕ :=
  if k = 0 then 0
  else if k < s.workers p batch a e then (s.mergeEntry p batch a).findIndex p.toBlockParams
    (batchKey p.toBlockParams batch (s.shareStart p batch a e k))
  else (s.mergeEntry p batch a).size

lemma shareCut_le (k : ℕ) : s.shareCut p batch a e k ≤ (s.mergeEntry p batch a).size := by
  rw [shareCut]
  split
  · exact Nat.zero_le _
  · split
    · exact PmaEntry.findIndex_le _ _
    · exact le_refl _

lemma mergePart_eq (k : ℕ) : batchPart (s.mergeEntry p batch a).cells
    ⟨s.shareCut p batch a e k, s.shareCut p batch a e (k + 1)⟩ =
      batchPart (s.mergeEntry p batch a).live
        ⟨s.shareCut p batch a e k, s.shareCut p batch a e (k + 1)⟩ :=
  PmaEntry.batchPart_cells (shareCut_le (k + 1))

/-- The blocks that the `k`-th working task writes. -/
def shareBlocks (p : BatchedParams K α) (s : BatchedSparseArray K α) (batch : List α)
    (a e k : ℕ) : List (PmaEntry K α) :=
  inverseMergeBlocks p.toBlockParams
    (batchPart batch ⟨s.shareStart p batch a e k, s.shareStart p batch a e (k + 1)⟩)
    (batchPart (s.mergeEntry p batch a).cells
      ⟨s.shareCut p batch a e k, s.shareCut p batch a e (k + 1)⟩)

/-- What the working tasks of a group are given. -/
structure GroupInput (p : BatchedParams K α) (s : BatchedSparseArray K α) (batch : List α)
    (a e : ℕ) : Prop where
  even : 2 ∣ p.blockSize
  four_le : 4 ≤ p.blockSize
  zero_null : p.keyOf p.zero = p.nullKey
  block : (s.mergeEntry p batch a).IsMergeBlock p.toBlockParams
  shares : s.HasShares p batch a e
  cuts : GroupCuts p s batch a e
  end_le : s.mergeEnd p batch a e ≤ batch.length
  increasing : Increasing p.toBlockParams batch
  key_ne_null : ∀ x ∈ batch, p.keyOf x ≠ p.nullKey

section Shares

variable (h : s.GroupInput p batch a e)
include h

lemma GroupInput.workers_pos : 0 < s.workers p batch a e := by
  refine h.shares.workers_pos ?_
  have := h.four_le
  change 0 < p.blockSize / 2
  omega

/-- Every share has at least `MinBlockSize` elements. -/
lemma GroupInput.share_large (hk : k < s.workers p batch a e) :
    s.shareStart p batch a e k + p.minBlockSize ≤ s.shareStart p batch a e (k + 1) := by
  have hw := h.workers_pos
  have hle := h.cuts.le_mergeEnd
  have hcount : s.workers p batch a e * p.minBlockSize ≤ s.mergeCount p batch a e :=
    le_trans (Nat.mul_le_mul_right _ (min_le_right _ _)) (Nat.div_mul_le_self _ _)
  have hmin : p.minBlockSize ≤ s.mergeCount p batch a e / s.workers p batch a e :=
    (Nat.le_div_iff_mul_le hw).mpr (by rw [Nat.mul_comm]; exact hcount)
  rw [shareStart, if_pos hk, shareStart]
  split
  · rw [Nat.add_mul, Nat.one_mul]
    omega
  · have hlast : (k + 1) * (s.mergeCount p batch a e / s.workers p batch a e) ≤
        s.mergeCount p batch a e :=
      le_trans (Nat.mul_le_mul_right _ hk) (Nat.mul_div_le _ _)
    rw [Nat.add_mul, Nat.one_mul] at hlast
    rw [mergeCount] at *
    omega

lemma GroupInput.start_le_length (k : ℕ) : s.shareStart p batch a e k ≤ batch.length := by
  have h1 := shareStart_le h.cuts k
  have h2 := h.end_le
  omega

lemma GroupInput.start_mono {j : ℕ} (hjk : j ≤ k) :
    s.shareStart p batch a e j ≤ s.shareStart p batch a e k := by
  induction k, hjk using Nat.le_induction with
  | base => exact le_refl _
  | succ n _ ih => exact le_trans ih (shareStart_le h.cuts n).2.1

lemma GroupInput.start_lt_length (hk : k < s.workers p batch a e) :
    s.shareStart p batch a e k < batch.length := by
  have h1 := h.share_large hk
  have h2 := h.start_le_length (k + 1)
  have h3 := h.four_le
  have h4 : p.minBlockSize = p.blockSize / 2 := rfl
  omega

lemma GroupInput.cut_workers :
    s.shareCut p batch a e (s.workers p batch a e) = (s.mergeEntry p batch a).size := by
  have := h.workers_pos
  rw [shareCut, if_neg (by omega), if_neg (lt_irrefl _)]

lemma GroupInput.cut_mono (k : ℕ) :
    s.shareCut p batch a e k ≤ s.shareCut p batch a e (k + 1) := by
  rcases Nat.eq_zero_or_pos k with rfl | hpos
  · rw [shareCut, if_pos rfl]
    exact Nat.zero_le _
  · rcases Nat.lt_or_ge (k + 1) (s.workers p batch a e) with hlt | hge
    · rw [shareCut, if_neg (by omega), if_pos (by omega), shareCut, if_neg (by omega), if_pos hlt]
      exact h.block.findIndex_mono
        (batchKey_le h.increasing (h.start_mono (Nat.le_succ k)) (h.start_lt_length hlt))
    · rw [shareCut.eq_def p s batch a e (k + 1), if_neg (by omega), if_neg (by omega)]
      exact shareCut_le k

/-- The parts of the merge block are those that `startInsertionTask` computes. -/
lemma GroupInput.getMergeRange_eq (hk : k < s.workers p batch a e) {task : TaskInfo}
    (hindex : task.mergedTaskIndex = k) (hmerged : task.mergedTasks = s.workers p batch a e)
    {r : BatchedSparseArray K α} (hpma : r.pma = s.pma) :
    r.getMergeRange p task batch ⟨s.shareStart p batch a e k, s.shareStart p batch a e (k + 1)⟩
        (s.splitterBlock p batch a) =
      ⟨s.shareCut p batch a e k, s.shareCut p batch a e (k + 1)⟩ := by
  have hzero : ∀ key, (s.mergeEntry p batch a).size = 0 →
      (s.mergeEntry p batch a).findIndex p.toBlockParams key = 0 := fun key h0 => by
    have := PmaEntry.findIndex_le (p := p.toBlockParams) (s.mergeEntry p batch a) key
    omega
  have hentry : r.pma (s.splitterBlock p batch a) = s.mergeEntry p batch a := by
    rw [hpma]
    rfl
  rw [getMergeRange, hindex, hmerged, hentry]
  simp only
  congr 1
  · rw [shareCut]
    by_cases h0 : k = 0
    · rw [if_neg (fun hc => hc.2 h0), if_pos h0]
    · rw [if_neg h0, if_pos hk]
      by_cases hs : (s.mergeEntry p batch a).size = 0
      · rw [if_neg (fun hc => hc.1 hs), hzero _ hs]
      · rw [if_pos ⟨hs, h0⟩]
  · rw [shareCut, if_neg (Nat.succ_ne_zero k)]
    by_cases hlast : k + 1 = s.workers p batch a e
    · rw [if_neg (fun hc => hc.2.1 hlast), if_neg (by omega)]
    · have hlt : k + 1 < s.workers p batch a e := by omega
      rw [if_pos hlt]
      by_cases hs : (s.mergeEntry p batch a).size = 0
      · rw [if_neg (fun hc => hc.1 hs), hs, hzero _ hs]
      · rw [if_pos ⟨hs, hlast, (h.start_lt_length hlt).ne⟩]

/-! ## The union -/

lemma GroupInput.increasing_live {c d : ℕ} (hd : d ≤ (s.mergeEntry p batch a).size) :
    Increasing p.toBlockParams (batchPart (s.mergeEntry p batch a).live ⟨c, d⟩) := by
  have hlen := h.block.length_live
  refine (increasing_batchPart_iff (by omega)).mpr fun i j _ hij hj => ?_
  exact batchKey_lt h.block.increasing hij (by omega)

/-- **One working task.** -/
lemma GroupInput.share_union (above : K → Prop) (hk : k < s.workers p batch a e) :
    WritesUnion p.toBlockParams above
      (batchPart (s.mergeEntry p batch a).live
        ⟨s.shareCut p batch a e k, s.shareCut p batch a e (k + 1)⟩)
      (batchPart batch ⟨s.shareStart p batch a e k, s.shareStart p batch a e (k + 1)⟩)
      (s.shareBlocks p batch a e k) := by
  have hlarge := h.share_large hk
  have hlen := h.start_le_length (k + 1)
  rw [shareBlocks, mergePart_eq]
  refine inverseMergeBlocks_spec above h.even h.four_le h.zero_null ?_
    (h.increasing_live (shareCut_le _)) (fun x hx => ?_) ?_
  · exact (increasing_batchPart_iff hlen).mpr fun i j _ hij hj =>
      batchKey_lt h.increasing hij (by omega)
  · rcases List.mem_append.mp hx with hx | hx
    · obtain ⟨i, -, -, hi⟩ := mem_batchPart.mp hx
      exact h.key_ne_null x (List.mem_of_getElem? hi)
    · obtain ⟨i, -, -, hi⟩ := mem_batchPart.mp hx
      exact h.block.key_ne_null x (List.mem_of_getElem? hi)
  · rw [length_batchPart hlen]
    omega

/-- Fewer blocks than the share has room for. -/
lemma GroupInput.length_shareBlocks_lt (hk : k < s.workers p batch a e) :
    (s.shareBlocks p batch a e k).length < getRequiredWidth
      (s.shareStart p batch a e (k + 1) - s.shareStart p batch a e k) := by
  have hlarge := h.share_large hk
  have hlen := h.start_le_length (k + 1)
  have hfour := h.four_le
  have hmin : p.toBlockParams.minBlockSize = p.blockSize / 2 := rfl
  have hbatch : (batchPart batch ⟨s.shareStart p batch a e k,
      s.shareStart p batch a e (k + 1)⟩).length =
        s.shareStart p batch a e (k + 1) - s.shareStart p batch a e k := length_batchPart hlen
  have hlive := h.block.length_live
  have hcut : s.shareCut p batch a e (k + 1) ≤ _ := shareCut_le (k + 1)
  have hsize := h.block.size_le
  have hle := @length_inverseMergeBlocks_le _ _ _ _ h.even (by omega)
    (batchPart batch ⟨s.shareStart p batch a e k, s.shareStart p batch a e (k + 1)⟩)
    (batchPart (s.mergeEntry p batch a).cells
      ⟨s.shareCut p batch a e k, s.shareCut p batch a e (k + 1)⟩) (by omega) (by
      rw [mergePart_eq, length_batchPart (by omega)]
      omega)
  have hdiv : ((batchPart batch ⟨s.shareStart p batch a e k,
      s.shareStart p batch a e (k + 1)⟩).length - 1) / p.toBlockParams.minBlockSize ≤
      ((batchPart batch ⟨s.shareStart p batch a e k,
      s.shareStart p batch a e (k + 1)⟩).length - 1) / 2 := Nat.div_le_div_left (by omega) (by omega)
  rw [shareBlocks, getRequiredWidth]
  omega

/-- The elements in front of a cut lie below those behind it. -/
lemma GroupInput.cut_lt (hk : k < s.workers p batch a e) :
    ∀ x ∈ batchPart (s.mergeEntry p batch a).live ⟨0, s.shareCut p batch a e k⟩ ++
        batchPart batch ⟨s.shareStart p batch a e 0, s.shareStart p batch a e k⟩,
      ∀ y ∈ batchPart (s.mergeEntry p batch a).live
          ⟨s.shareCut p batch a e k, s.shareCut p batch a e (k + 1)⟩ ++
        batchPart batch ⟨s.shareStart p batch a e k, s.shareStart p batch a e (k + 1)⟩,
      p.keyOf x < p.keyOf y := by
  rcases Nat.eq_zero_or_pos k with rfl | hpos
  · intro x hx
    rw [show s.shareCut p batch a e 0 = 0 from if_pos rfl, batchPart_self, batchPart_self] at hx
    exact absurd hx List.not_mem_nil
  · have hcut : s.shareCut p batch a e k = (s.mergeEntry p batch a).findIndex p.toBlockParams
        (batchKey p.toBlockParams batch (s.shareStart p batch a e k)) := by
      rw [shareCut, if_neg (by omega), if_pos hk]
    obtain ⟨hbelow, habove⟩ := h.block.findIndex_spec
      (batchKey p.toBlockParams batch (s.shareStart p batch a e k))
    rw [← hcut] at hbelow habove
    have hstart := h.start_lt_length hk
    have hend := h.start_le_length (k + 1)
    intro x hx y hy
    have h1 : p.keyOf x < batchKey p.toBlockParams batch (s.shareStart p batch a e k) := by
      rcases List.mem_append.mp hx with hx | hx
      · exact hbelow x (by simpa [batchPart, Interval.length] using hx)
      · obtain ⟨i, -, g2, g3⟩ := mem_batchPart.mp hx
        rw [← batchKey_of_getElem? g3]
        exact batchKey_lt h.increasing g2 hstart
    have h2 : batchKey p.toBlockParams batch (s.shareStart p batch a e k) ≤ p.keyOf y := by
      rcases List.mem_append.mp hy with hy | hy
      · exact habove y (List.mem_of_mem_take hy)
      · obtain ⟨i, g1, g2, g3⟩ := mem_batchPart.mp hy
        rw [← batchKey_of_getElem? g3]
        exact batchKey_le h.increasing g1 (by omega)
    exact lt_of_lt_of_le h1 h2

/-- The working tasks up to the `k`-th. -/
lemma GroupInput.shares_union (above : K → Prop) : ∀ k ≤ s.workers p batch a e,
    WritesUnion p.toBlockParams above
      (batchPart (s.mergeEntry p batch a).live ⟨0, s.shareCut p batch a e k⟩)
      (batchPart batch ⟨s.shareStart p batch a e 0, s.shareStart p batch a e k⟩)
      (itemsIn (s.shareBlocks p batch a e) 0 k)
  | 0, _ => by
      rw [show s.shareCut p batch a e 0 = 0 from if_pos rfl, batchPart_self, batchPart_self]
      exact ⟨fun b hb => absurd hb List.not_mem_nil, fun b hb => absurd hb List.not_mem_nil,
        IsUnion.nil_new List.Pairwise.nil, trivial⟩
  | k + 1, hk => by
      have ih := GroupInput.shares_union above k (by omega)
      rw [itemsIn_append _ (Nat.zero_le k) (Nat.le_succ k), itemsIn_succ,
        ← batchPart_append (Nat.zero_le _) (h.cut_mono k),
        ← batchPart_append (h.start_mono (Nat.zero_le k)) (h.start_mono (Nat.le_succ k))]
      exact ih.append (h.share_union above hk) (h.cut_lt hk)

/-- **The whole group.** -/
lemma GroupInput.group_union (above : K → Prop) :
    WritesUnion p.toBlockParams above (s.mergeEntry p batch a).live
      (batchPart batch ⟨s.splitterFirst p batch a, s.mergeEnd p batch a e⟩)
      (itemsIn (s.shareBlocks p batch a e) 0 (s.workers p batch a e)) := by
  have hall := h.shares_union above _ (le_refl _)
  have hwhole : batchPart (s.mergeEntry p batch a).live ⟨0, (s.mergeEntry p batch a).size⟩ =
      (s.mergeEntry p batch a).live := by
    simp only [batchPart, Interval.length, List.drop_zero, Nat.sub_zero]
    rw [← h.block.length_live, List.take_length]
  rw [h.cut_workers, hwhole, shareStart_zero h.workers_pos, shareStart_workers] at hall
  exact hall

end Shares

end BatchedSparseArray

end BatchPMA
