import BatchPMA.OutOfPlace.Plan
import BatchPMA.OutOfPlace.Layout
import BatchPMA.Rebalance.Sizing

/-!
# The ranges of the tasks

Steps B-1 and B-2 of the overallocated array: every task gets a range of the swap array, behind the
blocks that are not touched and wide enough for what it may write.  The width that step 1 has asked
for is a bound for the number of blocks, all of which are at least half full.
-/

namespace BatchPMA

open KeyedUnion Ranges

variable {K α : Type} [LinearOrder K]

namespace OverallocatedBatchedSparseArray

variable {p : OverallocatedParams K α} {s : OverallocatedBatchedSparseArray K α} {batch : List α}
  {n a e : ℕ} {f g : ℕ → TaskInfo}

/-! ## Steps B-1 and B-2 -/

/-- The state in front of the first parallel region of path B. -/
def outOfPlaceStart (p : OverallocatedParams K α) (s : OverallocatedBatchedSparseArray K α)
    (batch : List α) (numberOfThreads : ℕ) : OverallocatedBatchedSparseArray K α :=
  let s₁ := (s.prepareInsertion p batch numberOfThreads).setTask numberOfThreads fun task =>
    { task with requiredWidth := 0 }
  let (s₂, newSize) := s₁.computeStartIndices p numberOfThreads
  s₂.increaseSize p newSize

section

omit [LinearOrder K]

/-- The cells that the tasks in front of a thread ask for. -/
def widthBefore (p : OverallocatedParams K α) (s : OverallocatedBatchedSparseArray K α)
    (f : ℕ → TaskInfo) (thread : ℕ) : ℕ :=
  ((List.range thread).map fun t => s.overallocatedWidth p (f t).requiredWidth).sum

lemma widthBefore_zero : s.widthBefore p f 0 = 0 := rfl

lemma widthBefore_succ (t : ℕ) : s.widthBefore p f (t + 1) =
    s.widthBefore p f t + s.overallocatedWidth p (f t).requiredWidth := by
  simp [widthBefore, List.range_succ]

/-- The loop of step B-1 up to a thread. -/
lemma foldl_startTask (f : ℕ → TaskInfo) (start : ℕ) : ∀ m : ℕ,
    ∃ g : ℕ → TaskInfo, (List.range m).foldl (startTask p) ({ s with tasks := f }, start) =
        ({ s with tasks := g }, start + s.widthBefore p f m) ∧
      (∀ t < m, g t = { f t with startIndex := start + s.widthBefore p f t }) ∧
      ∀ t, m ≤ t → g t = f t := by
  intro m
  induction m with
  | zero => exact ⟨f, rfl, fun t ht => absurd ht (Nat.not_lt_zero t), fun _ _ => rfl⟩
  | succ m ih =>
      obtain ⟨g, heq, hset, hother⟩ := ih
      refine ⟨Function.update g m { g m with startIndex := start + s.widthBefore p f m },
        ?_, fun t ht => ?_, fun t ht => ?_⟩
      · rw [List.range_succ, List.foldl_append, heq, List.foldl_cons, List.foldl_nil, startTask,
          widthBefore_succ, ← Nat.add_assoc]
        simp only [setTask, Function.update_self, hother m (le_refl m)]
        rfl
      · rcases Nat.lt_succ_iff_lt_or_eq.mp ht with hlt | rfl
        · rw [Function.update_of_ne (by omega), hset t hlt]
        · rw [Function.update_self, hother t (le_refl t)]
      · rw [Function.update_of_ne (by omega), hother t (by omega)]

/-- The new size is what the ranges add up to, and the swap array stays empty. -/
lemma increaseSize_spec (hnull : ∀ c, s.swapPma c = PmaEntry.null p.toBlockParams) (newSize : ℕ) :
    ∃ swapCapacity, s.increaseSize p newSize = { s with
        size := newSize
        swapCapacity := swapCapacity
        swapPma := fun _ => PmaEntry.null p.toBlockParams } ∧
      (0 < s.swapCapacity → newSize < swapCapacity) := by
  rw [increaseSize]
  split
  · exact ⟨_, rfl, fun hpos => lt_doubleUntil hpos (by omega)⟩
  · rename_i hroom
    refine ⟨s.swapCapacity, ?_, fun _ => Nat.lt_of_not_le hroom⟩
    have hswap : s.swapPma = fun _ => PmaEntry.null p.toBlockParams := funext hnull
    rw [← hswap]

/-- A factor that does not make a width smaller, whatever the rounding of the product does. -/
def Overallocates (factor : ℚ) : Prop := ∀ w : ℕ, w ≤ ⌊double (factor * double w)⌋₊

/-- Two roundings take away less than a tenth. -/
lemma overallocates_of_le {factor : ℚ} (h : 11 / 10 ≤ factor) : Overallocates factor := by
  intro w
  have hw : (0 : ℚ) ≤ w := Nat.cast_nonneg w
  have hdouble : (w : ℚ) * (1 - 1 / 2 ^ 53) ≤ double w := Rounding.mul_le_nearest 53 hw
  have hproduct : 11 / 10 * ((w : ℚ) * (1 - 1 / 2 ^ 53)) ≤ factor * double w := by
    gcongr
  have hnonneg : 0 ≤ factor * double w :=
    le_trans (mul_nonneg (by norm_num) (mul_nonneg hw (by norm_num))) hproduct
  refine Nat.le_floor ?_
  calc (w : ℚ) ≤ 11 / 10 * (w * (1 - 1 / 2 ^ 53)) * (1 - 1 / 2 ^ 53) := by linarith
    _ ≤ factor * double w * (1 - 1 / 2 ^ 53) :=
      mul_le_mul_of_nonneg_right hproduct (by norm_num)
    _ ≤ double (factor * double w) := Rounding.mul_le_nearest 53 hnonneg

lemma overallocates_initial : Overallocates initialOverallocationFactor := by
  refine overallocates_of_le ?_
  have h : (1.8 : ℚ) * (1 - 1 / 2 ^ 53) ≤ initialOverallocationFactor :=
    Rounding.mul_le_nearest 53 (by norm_num)
  exact le_trans (by norm_num) h

/-- A task's range is at least as wide as step 1 has asked for. -/
lemma le_overallocatedWidth (hfactor : Overallocates s.overallocationFactor) (w : ℕ) :
    w ≤ s.overallocatedWidth p w := by
  rw [overallocatedWidth]
  split
  · exact hfactor w
  · exact le_refl w

end

/-- The plan says nothing about start indices. -/
lemma Planned.congr (h : Planned p s batch n f)
    (hg : ∀ t < n, g t = { f t with startIndex := (g t).startIndex })
    (hblock : (g n).blockForBatchSplitter = (f n).blockForBatchSplitter)
    (hfirst : (g n).firstBatchElement = (f n).firstBatchElement) : Planned p s batch n g := by
  refine ⟨fun a e hgr => ?_, hblock.trans h.last_block, hfirst.trans h.last_first⟩
  have hplan := h.group a e hgr
  have he := hg e hgr.lt
  constructor
  · rw [he]
    exact hplan.last_type
  · rw [he]
    exact hplan.last_block
  · rw [he]
    exact hplan.last_first
  · rw [he]
    exact hplan.last_width
  · intro k hk
    have hw := hplan.worker k hk
    have ht := hg (a + k) (hk.trans hgr.lt)
    constructor
    · rw [ht]
      exact hw.type_eq
    · rw [ht]
      exact hw.block_eq
    · rw [ht]
      exact hw.first_eq
    · rw [ht]
      exact hw.merged_eq
    · rw [ht]
      exact hw.index_eq
    · rw [ht]
      exact hw.width_eq

/-- The tasks in front of the first parallel region. -/
structure Started (p : OverallocatedParams K α) (s : OverallocatedBatchedSparseArray K α)
    (batch : List α) (n : ℕ) (g : ℕ → TaskInfo) : Prop where
  planned : Planned p s batch n g
  consecutive : Consecutive g n
  start_zero : (g 0).startIndex = (g 0).blockForBatchSplitter

/-- **Steps B-1 and B-2.** -/
theorem Insertable.started (h : s.Insertable p batch n)
    (hless : ∀ x y, p.operatorLess x y = decide (x < y))
    (hfactor : Overallocates s.overallocationFactor)
    (hnull : ∀ c, s.swapPma c = PmaEntry.null p.toBlockParams) :
    ∃ g swapCapacity, s.outOfPlaceStart p batch n = { s with
        tasks := g
        size := (g n).startIndex
        swapCapacity := swapCapacity
        swapPma := fun _ => PmaEntry.null p.toBlockParams } ∧ Started p s batch n g ∧
      (0 < s.swapCapacity → (g n).startIndex < swapCapacity) := by
  obtain ⟨f, heq, hplan⟩ := h.planned hless
  have hT := h.threads_pos
  obtain ⟨f', hf'⟩ : ∃ f', f' = Function.update f n { f n with requiredWidth := 0 } := ⟨_, rfl⟩
  have hold : ∀ t < n, f' t = f t := fun t ht => by rw [hf', Function.update_of_ne ht.ne]
  have hnew : f' n = { f n with requiredWidth := 0 } := by rw [hf', Function.update_self]
  obtain ⟨g, hg, hset, -⟩ := @foldl_startTask K α p s f' (f' 0).blockForBatchSplitter (n + 1)
  obtain ⟨swapCapacity, hsize, hcapacity⟩ := @increaseSize_spec K α p { s with tasks := g } hnull
    ((f' 0).blockForBatchSplitter + s.widthBefore p f' (n + 1))
  have hzero : s.overallocatedWidth p 0 = 0 := by
    rw [overallocatedWidth]
    split
    · simp [double]
    · rfl
  have hlast : (f' 0).blockForBatchSplitter + s.widthBefore p f' (n + 1) = (g n).startIndex := by
    rw [hset n (Nat.lt_succ_self n), widthBefore_succ, hnew]
    change _ + (_ + s.overallocatedWidth p 0) = _
    rw [hzero]
    rfl
  rw [hlast] at hsize hcapacity
  refine ⟨g, swapCapacity, ?_, ⟨?_, ?_, ?_⟩, hcapacity⟩
  · have hset' : (s.prepareInsertion p batch n).setTask n (fun task =>
        { task with requiredWidth := 0 }) = { s with tasks := f' } := by
      rw [heq, hf']
      rfl
    rw [outOfPlaceStart, hset', computeStartIndices]
    simp only
    rw [hg]
    simp only
    rw [hlast, hsize]
  · refine hplan.congr (fun t ht => ?_) ?_ ?_
    · rw [hset t (by omega), hold t ht]
    · rw [hset n (Nat.lt_succ_self n), hnew]
    · rw [hset n (Nat.lt_succ_self n), hnew]
  · intro t ht
    rw [hset t (by omega), hset (t + 1) (by omega), widthBefore_succ]
    have := le_overallocatedWidth (p := p) hfactor (f' t).requiredWidth
    simp only
    omega
  · rw [hset 0 (by omega), widthBefore_zero]
    rfl

/-! ## Where the ranges of the tasks begin -/

lemma shareFirst_zero (h : s.Insertable p batch n)
    (hless : ∀ x y, p.operatorLess x y = decide (x < y))
    (hg : IsGroup (s.splitterBlock p batch n) n a e) :
    s.shareFirst p batch n a e 0 = s.splitterFirst p batch n a := by
  rw [shareFirst, Nat.zero_mul, Nat.add_zero]
  exact min_eq_left (h.mergeEnd_lt hless hg).le

lemma Planned.first (hp : Planned p s batch n g) (h : s.Insertable p batch n)
    (hless : ∀ x y, p.operatorLess x y = decide (x < y))
    (hg : IsGroup (s.splitterBlock p batch n) n a e) :
    (g a).blockForBatchSplitter = s.splitterBlock p batch n a ∧
      (g a).firstBatchElement = s.splitterFirst p batch n a := by
  have hplan := hp.group a e hg
  rcases Nat.eq_or_lt_of_le hg.le with rfl | hlt
  · have h1 := hplan.last_block
    have h2 := hplan.last_first
    rw [if_neg (lt_irrefl _)] at h1 h2
    exact ⟨h1, h2⟩
  · have hw := hplan.worker 0 hlt
    exact ⟨hw.block_eq, hw.first_eq.trans (shareFirst_zero h hless hg)⟩

/-- Behind a group the next one begins, or the sentinel stands. -/
lemma Planned.next (hp : Planned p s batch n g) (h : s.Insertable p batch n)
    (hless : ∀ x y, p.operatorLess x y = decide (x < y))
    (hg : IsGroup (s.splitterBlock p batch n) n a e) :
    (g (e + 1)).blockForBatchSplitter = s.splitterBlock p batch n (e + 1) ∧
      (g (e + 1)).firstBatchElement = s.splitterFirst p batch n (e + 1) := by
  rcases Nat.lt_or_ge (e + 1) n with hlt | hge
  · obtain ⟨a', e', hg', h1, h2⟩ := exists_group (s.splitterBlock p batch n) hlt
    have ha' : a' = e + 1 := (hg'.groupStart_eq h1 h2).symm.trans (hg.groupStart_succ hlt)
    subst ha'
    exact hp.first h hless hg'
  · obtain hn : e + 1 = n := by
      have := hg.lt
      omega
    rw [hn, splitterBlock_last, h.splitterFirst_last]
    exact ⟨hp.last_block, hp.last_first⟩

/-! ## Without blocks -/

/-- Without blocks all threads have the same splitter block. -/
lemma Insertable.of_empty (h : s.Insertable p batch n) (hemp : ∀ c, s.empty p c = true) :
    (∀ t, s.splitterBlock p batch n t = s.size) ∧
      ∀ {a e}, IsGroup (s.splitterBlock p batch n) n a e → a = 0 ∧ e + 1 = n ∧
        s.mergeEnd p batch n a e = batch.length := by
  have hview := @Valid.view_asBatched _ _ _ _ _ n h.valid
  have hemp' : ∀ c, (s.asBatched p n).empty (batchedParams p) c = true := by
    intro c
    change ((s.asBatched p n).view (batchedParams p)).empty c = true
    rw [hview]
    exact hemp c
  have hsame : ∀ t, s.splitterBlock p batch n t = s.size := by
    intro t
    rw [splitterBlock, BatchedSparseArray.splitterBlock]
    split
    · exact h.asBatched.valid.findBlockIndex_of_empty hemp' _
    · rfl
  refine ⟨hsame, fun {a e} hg => ?_⟩
  have ha : a = 0 := hg.first.resolve_right fun hne' => hne' (by rw [hsame, hsame])
  have he : e + 1 = n := hg.last.resolve_right fun hne' => hne' (by rw [hsame, hsame])
  refine ⟨ha, he, ?_⟩
  have hend : s.mergeEnd p batch n a e = s.splitterFirst p batch n (e + 1) := by
    rw [mergeEnd, BatchedSparseArray.mergeEnd, BatchedSparseArray.lastTaskBatchStart,
      if_pos (hemp' _)]
    rfl
  rw [hend, he, h.splitterFirst_last]

/-! ## The ranges of insertion tasks -/

/-- The batch element `i` belongs to block `home`. -/
def home (p : OverallocatedParams K α) (s : OverallocatedBatchedSparseArray K α) (batch : List α)
    (i : ℕ) : ℕ := (s.view p).findBlockIndex (batchKey p.toBlockParams batch i)

/-- The batch is cut where the array is. -/
structure CutsAt (p : OverallocatedParams K α) (s : OverallocatedBatchedSparseArray K α)
    (batch : List α) (m c : ℕ) : Prop where
  le : m ≤ batch.length
  lt : ∀ i < m, s.home p batch i < c
  ge : ∀ i, m ≤ i → i < batch.length → c ≤ s.home p batch i

lemma CutsAt.of_asBatched (h : s.Valid p) {m c : ℕ}
    (hcut : BatchedSparseArray.CutsAt (batchedParams p) (s.asBatched p n) batch m c) :
    CutsAt p s batch m c := by
  have hhome : ∀ i, (s.asBatched p n).home (batchedParams p) batch i = s.home p batch i := by
    intro i
    rw [BatchedSparseArray.home, h.view_asBatched]
    rfl
  refine ⟨hcut.le, fun i hi => ?_, fun i h1 h2 => ?_⟩
  · rw [← hhome]
    exact hcut.lt i hi
  · rw [← hhome]
    exact hcut.ge i h1 h2

lemma CutsAt.mono {m c m' c' : ℕ} (h : CutsAt p s batch m c) (h' : CutsAt p s batch m' c')
    (hcc : c ≤ c') : m ≤ m' := by
  by_contra hlt
  have h1 := h.lt m' (by omega)
  have h2 := h'.ge m' (le_refl _) (lt_of_lt_of_le (not_le.mp hlt) h.le)
  omega

section

variable (h : s.Insertable p batch n) (hless : ∀ x y, p.operatorLess x y = decide (x < y))
  (hne : ∃ c, s.empty p c = false)
include h hne

lemma Insertable.nonempty_asBatched :
    ∃ c, (s.asBatched p n).empty (batchedParams p) c = false := by
  have hview := @Valid.view_asBatched _ _ _ _ _ n h.valid
  obtain ⟨c, hc⟩ := hne
  refine ⟨c, ?_⟩
  change ((s.asBatched p n).view (batchedParams p)).empty c = false
  rw [hview]
  exact hc

/-- Elements in front of a cut lie below the blocks behind it. -/
lemma Insertable.below_of_cut {m c i : ℕ} (hcut : CutsAt p s batch m c) (hi : i < m) {k : K}
    (hk : ∃ b ∈ rangeBlocks s.pma c s.size, b.head ≤ k) : batchKey p.toBlockParams batch i < k := by
  obtain ⟨b, hb, hk⟩ := hk
  obtain ⟨j, h1, h2, h3, rfl⟩ := mem_rangeBlocks.mp hb
  have hlt := hcut.lt i hi
  have hhome := h.valid.view.isHome_findBlockIndex hne (batchKey p.toBlockParams batch i)
  refine lt_of_lt_of_le (hhome.lt_head j (lt_of_lt_of_le hlt h1) ?_) hk
  change s.empty p j = false
  rw [h.valid.empty_eq]
  exact h3

/-- Elements behind a cut lie above the blocks in front of it. -/
lemma Insertable.above_of_cut {m c i : ℕ} (hcut : CutsAt p s batch m c) (h1 : m ≤ i)
    (h2 : i < batch.length) :
    ∀ x ∈ elements (rangeBlocks s.pma 0 c), p.keyOf x < batchKey p.toBlockParams batch i := by
  intro x hx
  obtain ⟨b, hb, hx⟩ := mem_elements.mp hx
  obtain ⟨j, -, hj, hnej, rfl⟩ := mem_rangeBlocks.mp hb
  have hge := hcut.ge i h1 h2
  have hhome := h.valid.view.isHome_findBlockIndex hne (batchKey p.toBlockParams batch i)
  rw [home] at hge
  generalize (s.view p).findBlockIndex (batchKey p.toBlockParams batch i) = home at *
  have hempty : ∀ c, (s.view p).empty c = (s.pma c).isEmpty := h.valid.empty_eq
  have hhne : (s.pma home).isEmpty = false := by
    rw [← hempty]
    exact hhome.nonempty
  rcases hhome.head_le with hle | hfirst
  · exact lt_of_lt_of_le (h.valid.cells.lt_head h.valid.ordered (Nat.zero_le j)
      (lt_of_lt_of_le hj hge) (h.valid.lt_size hhne) hnej hhne x hx) hle
  · have := hfirst j (lt_of_lt_of_le hj hge)
    rw [hempty, hnej] at this
    exact absurd this (by simp)

lemma Insertable.splitterBlock_nonempty {t : ℕ} (ht : t < n) :
    (s.pma (s.splitterBlock p batch n t)).isEmpty = false := by
  have hhome := h.valid.view.isHome_findBlockIndex hne
    (batchKey p.toBlockParams batch (t * (batch.length / n)))
  rw [splitterBlock, BatchedSparseArray.splitterBlock, h.valid.view_asBatched,
    if_pos (show t < (s.asBatched p n).numberOfThreads from ht), ← h.valid.empty_eq]
  exact hhome.nonempty

lemma Insertable.splitterBlock_le_size {t : ℕ} (ht : t ≤ n) :
    s.splitterBlock p batch n t ≤ s.size := by
  rcases Nat.eq_or_lt_of_le ht with rfl | hlt
  · rw [splitterBlock_last]
  · exact (h.valid.lt_size (h.splitterBlock_nonempty hne hlt)).le

/-- What lies behind a merge block. -/
lemma Insertable.normalBlock_spec (hg : IsGroup (s.splitterBlock p batch n) n a e) :
    s.splitterBlock p batch n a < s.normalBlock p batch n e ∧
      s.normalBlock p batch n e ≤ s.splitterBlock p batch n (e + 1) ∧
      (∀ c, s.splitterBlock p batch n a < c → c < s.normalBlock p batch n e →
        (s.pma c).isEmpty = true) ∧
      (s.normalBlock p batch n e < s.splitterBlock p batch n (e + 1) →
        (s.pma (s.normalBlock p batch n e)).isEmpty = false) := by
  have hview := @Valid.view_asBatched _ _ _ _ _ n h.valid
  have hempty : ∀ c, (s.asBatched p n).empty (batchedParams p) c = (s.pma c).isEmpty := by
    intro c
    change ((s.asBatched p n).view (batchedParams p)).empty c = _
    rw [hview]
    exact h.valid.empty_eq c
  obtain ⟨h1, h2, h3, h4⟩ := BatchedSparseArray.normalBlock_spec h.asBatched
    (h.nonempty_asBatched hne) hg
  have hsame : s.splitterBlock p batch n e = s.splitterBlock p batch n a :=
    hg.same e hg.le (le_refl _)
  rw [← hsame]
  refine ⟨h1, h2, fun c g1 g2 => ?_, fun hlt => ?_⟩
  · rw [← hempty]
    exact h3 c g1 g2
  · rw [← hempty]
    exact h4 hlt

lemma Insertable.splitterBlock_lt (hg : IsGroup (s.splitterBlock p batch n) n a e) :
    s.splitterBlock p batch n a < s.splitterBlock p batch n (e + 1) := by
  have hlt := BatchedSparseArray.splitterBlock_lt h.asBatched (h.nonempty_asBatched hne) hg
  have hsame : s.splitterBlock p batch n e = s.splitterBlock p batch n a :=
    hg.same e hg.le (le_refl _)
  rw [← hsame]
  exact hlt

lemma Insertable.cutsAt_first (hg : IsGroup (s.splitterBlock p batch n) n a e) :
    CutsAt p s batch (s.splitterFirst p batch n a) (s.splitterBlock p batch n a) := by
  have hlt := lt_of_le_of_lt hg.le hg.lt
  refine CutsAt.of_asBatched h.valid (BatchedSparseArray.cutsAt_splitterFirst h.asBatched
    (h.nonempty_asBatched hne) hlt.le ?_)
  rcases hg.first with h0 | hne'
  · exact Or.inl h0
  · exact Or.inr (lt_of_le_of_ne
      (BatchedSparseArray.splitterBlock_mono h.asBatched (Nat.sub_le a 1) hlt.le) hne')

lemma Insertable.cutsAt_next (hg : IsGroup (s.splitterBlock p batch n) n a e) :
    CutsAt p s batch (s.splitterFirst p batch n (e + 1)) (s.splitterBlock p batch n (e + 1)) :=
  CutsAt.of_asBatched h.valid (BatchedSparseArray.cutsAt_splitterFirst h.asBatched
    (h.nonempty_asBatched hne) hg.lt (Or.inr (BatchedSparseArray.splitterBlock_lt h.asBatched
      (h.nonempty_asBatched hne) hg)))

include hless in
lemma Insertable.cutsAt_mergeEnd (hg : IsGroup (s.splitterBlock p batch n) n a e) :
    CutsAt p s batch (s.mergeEnd p batch n a e) (s.normalBlock p batch n e) :=
  CutsAt.of_asBatched h.valid (BatchedSparseArray.cutsAt_mergeEnd h.asBatched
    (h.nonempty_asBatched hne) hless hg)

/-- The range and the batch elements of the last task of a group. -/
structure LastRange (p : OverallocatedParams K α) (s : OverallocatedBatchedSparseArray K α)
    (batch : List α) (left right first last : ℕ) : Prop where
  cut_left : CutsAt p s batch first left
  cut_right : CutsAt p s batch last right
  le : left ≤ right
  le_size : right ≤ s.size
  nonempty : left < right → (s.pma left).isEmpty = false

include hless in
lemma Planned.lastRange (hp : Planned p s batch n g)
    (hg : IsGroup (s.splitterBlock p batch n) n a e) :
    LastRange p s batch (g e).blockForBatchSplitter (g (e + 1)).blockForBatchSplitter
      (g e).firstBatchElement (g (e + 1)).firstBatchElement := by
  obtain ⟨hblock, hfirst⟩ := hp.next h hless hg
  have hplan := hp.group a e hg
  have hsize := h.splitterBlock_le_size hne (Nat.succ_le_of_lt hg.lt)
  rw [hblock, hfirst, hplan.last_block, hplan.last_first]
  by_cases hae : a < e
  · obtain ⟨-, h2, -, h4⟩ := h.normalBlock_spec hne hg
    rw [if_pos hae, if_pos hae]
    exact ⟨h.cutsAt_mergeEnd hless hne hg, h.cutsAt_next hne hg, h2, hsize, h4⟩
  · rw [if_neg hae, if_neg hae]
    exact ⟨h.cutsAt_first hne hg, h.cutsAt_next hne hg, (h.splitterBlock_lt hne hg).le, hsize,
      fun _ => h.splitterBlock_nonempty hne (lt_of_le_of_lt hg.le hg.lt)⟩

include hless in
/-- The ranges of the tasks begin one behind the other. -/
lemma Planned.block_le (hp : Planned p s batch n g) {t : ℕ} (ht : t < n) :
    (g t).blockForBatchSplitter ≤ (g (t + 1)).blockForBatchSplitter := by
  obtain ⟨a, e, hg, h1, h2⟩ := exists_group (s.splitterBlock p batch n) ht
  have hplan := hp.group a e hg
  rcases Nat.eq_or_lt_of_le h2 with rfl | hlt
  · exact (hp.lastRange h hless hne hg).le
  · obtain ⟨k, rfl⟩ := Nat.exists_eq_add_of_le h1
    rw [(hplan.worker k hlt).block_eq]
    rcases Nat.eq_or_lt_of_le (Nat.succ_le_of_lt hlt) with heq | hlt'
    · rw [show a + k + 1 = e from heq, hplan.last_block, if_pos (by omega)]
      exact (h.normalBlock_spec hne hg).1.le
    · rw [Nat.add_assoc, (hplan.worker (k + 1) hlt').block_eq]

include hless in
lemma Planned.block_mono (hp : Planned p s batch n g) {t u : ℕ} (htu : t ≤ u) (hu : u ≤ n) :
    (g t).blockForBatchSplitter ≤ (g u).blockForBatchSplitter := by
  induction u, htu using Nat.le_induction with
  | base => exact le_refl _
  | succ u _ ih => exact le_trans (ih (by omega)) (hp.block_le h hless hne (by omega))

end

/-! ## Widths -/

omit [LinearOrder K] in
lemma maxRedistributionWidth_pos {m k : ℕ} (h : 0 < m + k) : 0 < maxRedistributionWidth p m k := by
  rw [maxRedistributionWidth, if_neg (by omega)]
  exact Nat.succ_pos _

/-- The number of elements that step 1 counts for a thread. -/
lemma Insertable.splitterWidth_eq (h : s.Insertable p batch n) (hexact : s.AggregatesExact) {t : ℕ}
    (ht : t < n) : s.splitterWidth p batch n t = maxRedistributionWidth p
      (elements (rangeBlocks s.pma (s.splitterBlock p batch n t)
        (s.splitterBlock p batch n (t + 1)))).length
      (s.splitterFirst p batch n (t + 1) - if t = 0 then findFirstBatchElement p batch 0
        (s.head (s.splitterBlock p batch n 0)) else s.splitterFirst p batch n t) := by
  have hle : s.splitterBlock p batch n t ≤ s.splitterBlock p batch n (t + 1) :=
    BatchedSparseArray.splitterBlock_mono h.asBatched (Nat.le_succ t) ht
  have hsize : s.splitterBlock p batch n (t + 1) ≤ s.size := by
    have hmono : s.splitterBlock p batch n (t + 1) ≤ s.splitterBlock p batch n n :=
      BatchedSparseArray.splitterBlock_mono h.asBatched ht (le_refl n)
    rw [splitterBlock_last] at hmono
    exact hmono
  rw [splitterWidth, hexact.exact.getNumberOfElements_eq, linearNumberOfElements_eq hle
    (h.valid.cellsIn _ _), Int.toNat_natCast]
  rw [hexact.size]
  exact Nat.le_succ_of_le (Nat.div_le_div_right hsize)

/-- In a group of several threads the first element that the last thread counts lies in the
group. -/
lemma Insertable.splitterFirst_le_mergeEnd (h : s.Insertable p batch n)
    (hless : ∀ x y, p.operatorLess x y = decide (x < y))
    (hg : IsGroup (s.splitterBlock p batch n) n a e) (hpos : 0 < e) :
    s.splitterFirst p batch n e ≤ s.mergeEnd p batch n a e := by
  have hd : 0 < batch.length / n := Nat.div_pos h.threads_le h.threads_pos
  have hidx := h.splitter_lt hg.lt
  have hle : s.splitterFirst p batch n e ≤ e * (batch.length / n) + 1 := by
    rw [splitterFirst, BatchedSparseArray.splitterFirst, if_neg (by omega),
      if_pos (show e < (s.asBatched p n).numberOfThreads from hg.lt)]
    change BatchPMA.findFirstBatchElement p.toBlockParams batch (e * (batch.length / n)) _ ≤ _
    rw [BatchPMA.findFirstBatchElement_eq h.increasing (Nat.mul_pos hpos hd) hidx]
    exact min_le_right _ _
  refine le_trans hle (Nat.succ_le_of_lt ?_)
  by_cases hne : ∃ c, s.empty p c = false
  · -- the element of the splitter goes into the merge block
    by_contra hge
    have hge' := (h.cutsAt_mergeEnd hless hne hg).ge _ (not_lt.mp hge) hidx
    have hhome : s.home p batch (e * (batch.length / n)) = s.splitterBlock p batch n e := by
      rw [splitterBlock, BatchedSparseArray.splitterBlock,
        if_pos (show e < (s.asBatched p n).numberOfThreads from hg.lt), h.valid.view_asBatched]
      rfl
    have hsame : s.splitterBlock p batch n e = s.splitterBlock p batch n a :=
      hg.same e hg.le (le_refl _)
    rw [hhome, hsame] at hge'
    exact absurd (h.normalBlock_spec hne hg).1 (not_lt.mpr hge')
  · push Not at hne
    rw [((h.of_empty fun c => Bool.eq_true_of_not_eq_false (hne c)).2 hg).2.2]
    exact hidx

end OverallocatedBatchedSparseArray

end BatchPMA
