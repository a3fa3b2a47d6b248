import BatchPMA.Insertion.Sharing
import BatchPMA.Queries.Refinement

/-!
# The partition of the work

After step A-3 the batch is cut into consecutive ranges, one for each task, and every element lies
in the range of a task that works on the block the element belongs to.  The home of an element is
the block that `findBlockIndex` returns for it; homes increase with the elements, and every cut is
the number of elements whose homes lie in front of a block.
-/

namespace BatchPMA

variable {K α : Type} [LinearOrder K]

namespace BatchedSparseArray

variable {p : BatchedParams K α} {s : BatchedSparseArray K α} {batch : List α} {a e : ℕ}

/-! ## Homes -/

/-- The block that an element of the batch belongs to. -/
def home (p : BatchedParams K α) (s : BatchedSparseArray K α) (batch : List α) (i : ℕ) : ℕ :=
  (s.view p).findBlockIndex (batchKey p.toBlockParams batch i)

/-- What the insertion phase may assume: a valid state and a sorted batch that has an element for
every thread. -/
structure Insertable (p : BatchedParams K α) (s : BatchedSparseArray K α) (batch : List α) :
    Prop where
  valid : (s.view p).Valid p.toBlockParams
  increasing : Increasing p.toBlockParams batch
  threads_pos : 0 < s.numberOfThreads
  threads_le : s.numberOfThreads ≤ batch.length

lemma Insertable.splitter_lt (h : s.Insertable p batch) {t : ℕ} (ht : t < s.numberOfThreads) :
    t * (batch.length / s.numberOfThreads) < batch.length := by
  have hd : 0 < batch.length / s.numberOfThreads := Nat.div_pos h.threads_le h.threads_pos
  calc t * (batch.length / s.numberOfThreads)
      < s.numberOfThreads * (batch.length / s.numberOfThreads) := Nat.mul_lt_mul_of_pos_right ht hd
    _ ≤ batch.length := Nat.mul_div_le _ _

lemma home_mono (h : s.Insertable p batch) {i j : ℕ} (hij : i ≤ j) (hj : j < batch.length) :
    s.home p batch i ≤ s.home p batch j :=
  h.valid.findBlockIndex_mono (batchKey_le h.increasing hij hj)

lemma splitterBlock_eq_home {t : ℕ} (ht : t < s.numberOfThreads) :
    s.splitterBlock p batch t = s.home p batch (t * (batch.length / s.numberOfThreads)) := by
  rw [splitterBlock, if_pos ht, home]

lemma splitterBlock_last : s.splitterBlock p batch s.numberOfThreads = s.size := by
  rw [splitterBlock, if_neg (lt_irrefl _)]

lemma splitterFirst_last (h : s.Insertable p batch) :
    s.splitterFirst p batch s.numberOfThreads = batch.length := by
  have := h.threads_pos
  rw [splitterFirst, if_neg (by omega), if_neg (lt_irrefl _)]

lemma splitterBlock_mono (h : s.Insertable p batch) {t t' : ℕ} (htt : t ≤ t')
    (ht' : t' ≤ s.numberOfThreads) : s.splitterBlock p batch t ≤ s.splitterBlock p batch t' := by
  rcases Nat.eq_or_lt_of_le ht' with rfl | hlt
  · rw [splitterBlock_last, splitterBlock]
    split
    · exact h.valid.findBlockIndex_le _
    · exact le_refl _
  · rw [splitterBlock_eq_home hlt, splitterBlock_eq_home (by omega)]
    exact home_mono h (Nat.mul_le_mul_right _ htt) (h.splitter_lt hlt)

/-! ## The structure has blocks -/

section NonEmpty

lemma Insertable.isHome (h : s.Insertable p batch) (hne : ∃ c, s.empty p c = false) (i : ℕ) :
    (s.view p).IsHome (batchKey p.toBlockParams batch i) (s.home p batch i) :=
  h.valid.isHome_findBlockIndex hne _

lemma Insertable.home_lt_size (h : s.Insertable p batch) (hne : ∃ c, s.empty p c = false) (i : ℕ) :
    s.home p batch i < s.size :=
  h.valid.lt_size (h.isHome hne i).nonempty

/-- The elements in front of a block that is not the first one are those with smaller keys. -/
lemma Insertable.home_lt_iff (h : s.Insertable p batch) (hne : ∃ c, s.empty p c = false)
    {b c : ℕ} (hb : s.empty p b = false) (hc : s.empty p c = false) (hbc : b < c) (i : ℕ) :
    s.home p batch i < c ↔ batchKey p.toBlockParams batch i < (s.view p).head c := by
  have hi := h.isHome hne i
  constructor
  · intro hlt
    exact hi.lt_head c hlt hc
  · intro hlt
    by_contra hge
    rcases hi.head_le with hle | hfirst
    · rcases Nat.eq_or_lt_of_le (not_lt.mp hge) with heq | hgt
      · rw [heq] at hlt
        exact absurd hlt (not_lt.mpr hle)
      · have := h.valid.headsIncreasing c _ hgt hc hi.nonempty
        exact absurd (lt_trans hlt this) (not_lt.mpr hle)
    · have := hfirst b (by omega)
      have hb' : (s.view p).empty b = false := hb
      rw [hb'] at this
      exact absurd this (by simp)

/-- The first element of a group: the homes in front of it are smaller, the other ones are not. -/
structure CutsAt (p : BatchedParams K α) (s : BatchedSparseArray K α) (batch : List α)
    (n c : ℕ) : Prop where
  le : n ≤ batch.length
  lt : ∀ i < n, s.home p batch i < c
  ge : ∀ i, n ≤ i → i < batch.length → c ≤ s.home p batch i

lemma CutsAt.mono {n c n' c' : ℕ} (h : CutsAt p s batch n c) (h' : CutsAt p s batch n' c')
    (hcc : c ≤ c') : n ≤ n' := by
  by_contra hlt
  have h1 := h.lt n' (by omega)
  have hle := h.le
  have h2 := h'.ge n' (le_refl _) (by omega)
  omega

/-- Counting the elements below the head of a block that is not the first one. -/
lemma Insertable.cutsAt_countBelow (h : s.Insertable p batch) (hne : ∃ c, s.empty p c = false)
    {b c : ℕ} (hb : s.empty p b = false) (hc : s.empty p c = false) (hbc : b < c) :
    CutsAt p s batch (countBelow p.toBlockParams batch ((s.view p).head c)) c := by
  have hle := @countBelow_le _ _ _ p.toBlockParams batch ((s.view p).head c)
  refine ⟨hle, fun i hi => ?_, fun i hi hlen => ?_⟩
  · rw [h.home_lt_iff hne hb hc hbc]
    exact (lt_countBelow_iff h.increasing (by omega)).mp hi
  · refine not_lt.mp fun hlt => ?_
    rw [h.home_lt_iff hne hb hc hbc] at hlt
    have := (lt_countBelow_iff h.increasing hlen).mpr hlt
    omega

/-- The blocks of two neighbouring groups. -/
lemma splitterBlock_lt (h : s.Insertable p batch) (hne : ∃ c, s.empty p c = false)
    (hg : IsGroup (s.splitterBlock p batch) s.numberOfThreads a e) :
    s.splitterBlock p batch e < s.splitterBlock p batch (e + 1) := by
  have hle := splitterBlock_mono h (Nat.le_succ e) hg.lt
  rcases hg.last with hT | hne'
  · rw [hT, splitterBlock_last, splitterBlock_eq_home hg.lt]
    exact h.home_lt_size hne _
  · exact lt_of_le_of_ne hle fun heq => hne' heq.symm

/-- The first element of the group that begins with thread `a`. -/
lemma cutsAt_splitterFirst (h : s.Insertable p batch) (hne : ∃ c, s.empty p c = false)
    (ha : a ≤ s.numberOfThreads)
    (hfirst : a = 0 ∨ s.splitterBlock p batch (a - 1) < s.splitterBlock p batch a) :
    CutsAt p s batch (s.splitterFirst p batch a) (s.splitterBlock p batch a) := by
  have hT := h.threads_pos
  rcases Nat.eq_zero_or_pos a with rfl | hpos
  · rw [splitterFirst, if_pos rfl, splitterBlock_eq_home hT, Nat.zero_mul]
    exact ⟨Nat.zero_le _, fun i hi => absurd hi (Nat.not_lt_zero _),
      fun i _ hi => home_mono h (Nat.zero_le _) hi⟩
  · have hlt := hfirst.resolve_left (by omega)
    rcases Nat.eq_or_lt_of_le ha with rfl | haT
    · rw [splitterFirst_last h, splitterBlock_last]
      exact ⟨le_refl _, fun i _ => h.home_lt_size hne i, fun i h1 h2 => by omega⟩
    · have hb : s.empty p (s.splitterBlock p batch (a - 1)) = false := by
        rw [splitterBlock_eq_home (by omega)]
        exact (h.isHome hne _).nonempty
      have hc : s.empty p (s.splitterBlock p batch a) = false := by
        rw [splitterBlock_eq_home haT]
        exact (h.isHome hne _).nonempty
      have hcut := h.cutsAt_countBelow hne hb hc hlt
      have hd : 0 < batch.length / s.numberOfThreads := Nat.div_pos h.threads_le hT
      have hstart := h.splitter_lt haT
      have hcount : countBelow p.toBlockParams batch ((s.view p).head (s.splitterBlock p batch a)) ≤
          a * (batch.length / s.numberOfThreads) := by
        by_contra hgt
        have := hcut.lt (a * (batch.length / s.numberOfThreads)) (by omega)
        rw [splitterBlock_eq_home haT] at this
        exact absurd this (lt_irrefl _)
      rw [splitterFirst, if_neg (by omega), if_pos haT,
        findFirstBatchElement_eq h.increasing (Nat.mul_pos hpos hd) hstart,
        min_eq_left (by omega)]
      exact hcut

/-- The block behind the merge block: the next one, or the block of the next group. -/
lemma normalBlock_spec (h : s.Insertable p batch) (hne : ∃ c, s.empty p c = false)
    (hg : IsGroup (s.splitterBlock p batch) s.numberOfThreads a e) :
    s.splitterBlock p batch e < s.normalBlock p batch e ∧
      s.normalBlock p batch e ≤ s.splitterBlock p batch (e + 1) ∧
      (∀ c, s.splitterBlock p batch e < c → c < s.normalBlock p batch e → s.empty p c = true) ∧
      (s.normalBlock p batch e < s.splitterBlock p batch (e + 1) →
        s.empty p (s.normalBlock p batch e) = false) := by
  have hlt := splitterBlock_lt h hne hg
  exact ⟨(s.view p).le_skipEmpty _ _, (s.view p).skipEmpty_le hlt,
    fun c h1 h2 => ArrayView.skipEmpty_skipped (v := s.view p) _ h1 h2,
    fun h1 => ArrayView.skipEmpty_stop (v := s.view p) h1⟩

/-- The elements of the merge block end in front of the next block. -/
lemma cutsAt_mergeEnd (h : s.Insertable p batch) (hne : ∃ c, s.empty p c = false)
    (hless : ∀ x y, p.operatorLess x y = decide (x < y))
    (hg : IsGroup (s.splitterBlock p batch) s.numberOfThreads a e) :
    CutsAt p s batch (s.mergeEnd p batch a e) (s.normalBlock p batch e) := by
  have hblock := splitterBlock_lt h hne hg
  obtain ⟨h1, h2, -, h4⟩ := normalBlock_spec h hne hg
  have hnext := cutsAt_splitterFirst h hne (a := e + 1) hg.lt (Or.inr hblock)
  have hb : s.empty p (s.splitterBlock p batch e) = false := by
    rw [splitterBlock_eq_home hg.lt]
    exact (h.isHome hne _).nonempty
  rw [mergeEnd, lastTaskBatchStart]
  split
  · -- behind the last block
    rename_i hemp
    have heq : s.normalBlock p batch e = s.splitterBlock p batch (e + 1) := by
      by_contra hne'
      rw [h4 (by omega)] at hemp
      exact absurd hemp (by simp)
    rw [heq]
    exact hnext
  · rename_i hemp
    have hc : s.empty p (s.normalBlock p batch e) = false := by simpa using hemp
    have hcount : Scan.scanUp (fun i => p.operatorLess (batchKey p.toBlockParams batch i)
        ((s.view p).head (s.normalBlock p batch e))) batch.length 0 =
          countBelow p.toBlockParams batch ((s.view p).head (s.normalBlock p batch e)) :=
      Scan.scanUp_congr fun i _ _ => hless _ _
    have hcut := h.cutsAt_countBelow hne hb hc h1
    rw [hcount, min_eq_left (hcut.mono hnext h2)]
    exact hcut

/-- The elements of a merge block have it as their home. -/
lemma home_eq_of_lt_normalBlock (h : s.Insertable p batch) (hne : ∃ c, s.empty p c = false)
    (hg : IsGroup (s.splitterBlock p batch) s.numberOfThreads a e) {i : ℕ}
    (h1 : s.splitterBlock p batch e ≤ s.home p batch i)
    (h2 : s.home p batch i < s.normalBlock p batch e) :
    s.home p batch i = s.splitterBlock p batch e := by
  obtain ⟨-, -, h3, -⟩ := normalBlock_spec h hne hg
  by_contra hne'
  have hemp := h3 _ (lt_of_le_of_ne h1 (Ne.symm hne')) h2
  have hfull : s.empty p (s.home p batch i) = false := (h.isHome hne i).nonempty
  rw [hfull] at hemp
  exact absurd hemp (by simp)

end NonEmpty

/-! ## The cuts of a group -/

/-- Where the elements of a group go. -/
structure GroupCuts (p : BatchedParams K α) (s : BatchedSparseArray K α) (batch : List α)
    (a e : ℕ) : Prop where
  le_mergeEnd : s.splitterFirst p batch a ≤ s.mergeEnd p batch a e
  mergeEnd_le : s.mergeEnd p batch a e ≤ s.splitterFirst p batch (e + 1)
  merged : ∀ i, s.splitterFirst p batch a ≤ i → i < s.mergeEnd p batch a e →
    s.home p batch i = s.splitterBlock p batch a
  all : ∀ i, s.splitterFirst p batch a ≤ i → i < s.splitterFirst p batch (e + 1) →
    (∀ c, s.empty p c = true) ∨ s.empty p (s.splitterBlock p batch a) = false ∧
      s.splitterBlock p batch a ≤ s.home p batch i ∧
      s.home p batch i < s.splitterBlock p batch (e + 1)
  behind : ∀ i, s.mergeEnd p batch a e ≤ i → i < s.splitterFirst p batch (e + 1) →
    (∀ c, s.empty p c = true) ∨ s.empty p (s.normalBlock p batch e) = false ∧
      s.normalBlock p batch e ≤ s.home p batch i ∧
      s.home p batch i < s.splitterBlock p batch (e + 1)

/-- Without blocks all threads form one group, and all elements go to its merge block. -/
lemma groupCuts_of_empty (h : s.Insertable p batch) (hemp : ∀ c, s.empty p c = true)
    (hg : IsGroup (s.splitterBlock p batch) s.numberOfThreads a e) : GroupCuts p s batch a e := by
  have hblock : ∀ i, s.home p batch i = s.size := fun i => h.valid.findBlockIndex_of_empty hemp _
  have hsame : ∀ t, s.splitterBlock p batch t = s.size := by
    intro t
    rw [splitterBlock]
    split
    · exact hblock _
    · rfl
  have ha : a = 0 := hg.first.resolve_right fun hne => hne (by rw [hsame, hsame])
  have he : e + 1 = s.numberOfThreads := hg.last.resolve_right fun hne => hne (by rw [hsame, hsame])
  have hfirst : s.splitterFirst p batch a = 0 := by rw [ha, splitterFirst, if_pos rfl]
  have hend : s.mergeEnd p batch a e = s.splitterFirst p batch (e + 1) := by
    rw [mergeEnd, lastTaskBatchStart, if_pos (hemp _)]
  exact ⟨by rw [hfirst]; exact Nat.zero_le _, hend.le, fun i _ _ => by rw [hblock, hsame],
    fun _ _ _ => Or.inl hemp, fun _ _ _ => Or.inl hemp⟩

lemma groupCuts (h : s.Insertable p batch) (hless : ∀ x y, p.operatorLess x y = decide (x < y))
    (hg : IsGroup (s.splitterBlock p batch) s.numberOfThreads a e) : GroupCuts p s batch a e := by
  by_cases hne : ∃ c, s.empty p c = false
  · have hsame := hg.same e hg.le (le_refl _)
    have hblock := splitterBlock_lt h hne hg
    obtain ⟨h1, h2, -, h4⟩ := normalBlock_spec h hne hg
    have hfirst := cutsAt_splitterFirst h hne (a := a) (le_of_lt (lt_of_le_of_lt hg.le hg.lt)) (by
      rcases hg.first with h0 | hne'
      · exact Or.inl h0
      · refine Or.inr (lt_of_le_of_ne (splitterBlock_mono h (Nat.sub_le _ _) ?_) hne')
        exact le_of_lt (lt_of_le_of_lt hg.le hg.lt))
    have hmid := cutsAt_mergeEnd h hne hless hg
    have hlast := cutsAt_splitterFirst h hne (a := e + 1) hg.lt (Or.inr hblock)
    have hle1 : s.splitterFirst p batch a ≤ s.mergeEnd p batch a e := hfirst.mono hmid (by omega)
    have hle2 : s.mergeEnd p batch a e ≤ s.splitterFirst p batch (e + 1) := hmid.mono hlast h2
    have hlen := hlast.le
    have hfull : s.empty p (s.splitterBlock p batch a) = false := by
      rw [← hsame, splitterBlock_eq_home hg.lt]
      exact (h.isHome hne _).nonempty
    refine ⟨hle1, hle2, fun i g1 g2 => ?_, fun i g1 g2 => Or.inr ⟨hfull,
      hfirst.ge i g1 (by omega), hlast.lt i g2⟩, fun i g1 g2 => ?_⟩
    · rw [← hsame]
      exact home_eq_of_lt_normalBlock h hne hg (by rw [hsame]; exact hfirst.ge i g1 (by omega))
        (hmid.lt i g2)
    · have g3 := hmid.ge i g1 (by omega)
      have g4 := hlast.lt i g2
      exact Or.inr ⟨h4 (by omega), g3, g4⟩
  · push Not at hne
    exact groupCuts_of_empty h (fun c => by simpa using hne c) hg

/-! ## The ranges of the tasks -/

section Ranges

variable {f : ℕ → TaskInfo}

lemma HasShares.workers_pos (h : s.HasShares p batch a e) (hmin : 0 < p.minBlockSize) :
    0 < s.workers p batch a e :=
  lt_min (by have := h.1; omega) (Nat.div_pos h.2 hmin)

lemma shareStart_zero (hw : 0 < s.workers p batch a e) :
    s.shareStart p batch a e 0 = s.splitterFirst p batch a := by
  rw [shareStart, if_pos hw, Nat.zero_mul, Nat.add_zero]

lemma shareStart_workers :
    s.shareStart p batch a e (s.workers p batch a e) = s.mergeEnd p batch a e := by
  rw [shareStart, if_neg (lt_irrefl _)]

lemma shareStart_le (h : GroupCuts p s batch a e) (k : ℕ) :
    s.splitterFirst p batch a ≤ s.shareStart p batch a e k ∧
      s.shareStart p batch a e k ≤ s.shareStart p batch a e (k + 1) ∧
      s.shareStart p batch a e (k + 1) ≤ s.mergeEnd p batch a e := by
  have hle := h.le_mergeEnd
  have hin : ∀ j, j < s.workers p batch a e →
      j * (s.mergeCount p batch a e / s.workers p batch a e) ≤ s.mergeCount p batch a e := by
    intro j hj
    exact le_trans (Nat.mul_le_mul_right _ hj.le) (Nat.mul_div_le _ _)
  rw [shareStart, shareStart]
  split
  · rename_i hk
    have h1 := hin k hk
    rw [mergeCount] at h1 ⊢
    split
    · rename_i hk'
      have h2 := hin (k + 1) hk'
      rw [mergeCount] at h2
      refine ⟨Nat.le_add_right _ _, ?_, by omega⟩
      rw [Nat.add_mul]
      omega
    · exact ⟨Nat.le_add_right _ _, by omega, le_refl _⟩
  · rw [if_neg (by omega)]
    exact ⟨hle, le_refl _, le_refl _⟩

/-- The first task of a group. -/
lemma GroupPlan.first (h : GroupPlan p s batch a e f) (hae : a ≤ e) (hmin : 0 < p.minBlockSize) :
    (f a).firstBatchElement = s.splitterFirst p batch a ∧
      (f a).blockForBatchSplitter = s.splitterBlock p batch a := by
  by_cases hs : s.HasShares p batch a e
  · have hl := h.long hs
    have hpos := hs.workers_pos hmin
    have hle : s.workers p batch a e ≤ e - a := min_le_left _ _
    rcases Nat.lt_or_ge (a + s.workers p batch a e) e with hlt | hge
    · obtain ⟨-, h1, h2, -⟩ := hl.idle a (le_refl _) hlt
      exact ⟨h2, h1⟩
    · obtain ⟨-, h1, h2, -⟩ := hl.working 0 a (by omega) hs.1
      exact ⟨h2.trans (shareStart_zero hpos), h1⟩
  · have hl := h.short hs
    rcases Nat.eq_or_lt_of_le hae with rfl | hlt
    · exact ⟨hl.last_first, hl.last_block⟩
    · obtain ⟨-, h1, h2, -⟩ := hl.idle a (le_refl _) hlt
      exact ⟨h2, h1⟩

/-- The task behind a group. -/
lemma Sharing.next {r : BatchedSparseArray K α} (h : Sharing p s batch s.numberOfThreads r)
    (hins : s.Insertable p batch) (hmin : 0 < p.minBlockSize)
    (hg : IsGroup (s.splitterBlock p batch) s.numberOfThreads a e) :
    (r.tasks (e + 1)).firstBatchElement = s.splitterFirst p batch (e + 1) ∧
      (r.tasks (e + 1)).blockForBatchSplitter = s.splitterBlock p batch (e + 1) := by
  rcases Nat.lt_or_ge (e + 1) s.numberOfThreads with hlt | hge
  · obtain ⟨a', e', hg', h1, h2⟩ := exists_group (s.splitterBlock p batch) hlt
    have ha' : a' = e + 1 := (hg'.groupStart_eq h1 h2).symm.trans (hg.groupStart_succ hlt)
    subst ha'
    exact (h.planned _ e' hg' hg'.lt).first hg'.le hmin
  · have hT : e + 1 = s.numberOfThreads := by
      have := hg.lt
      omega
    rw [hT, splitterFirst_last hins, splitterBlock_last]
    exact ⟨h.sentinel_first, h.sentinel_block⟩

/-- The range of the batch and of the pma that a task of a group works on. -/
inductive TaskRange (p : BatchedParams K α) (s : BatchedSparseArray K α) (batch : List α)
    (a e t : ℕ) (f : ℕ → TaskInfo) : Prop where
  | idle (type : (f t).type = .doNothing)
      (first : (f t).firstBatchElement = (f (t + 1)).firstBatchElement)
  | share (k : ℕ) (type : (f t).type = .inverseMerge)
      (block : (f t).blockForBatchSplitter = s.splitterBlock p batch a)
      (first : (f t).firstBatchElement = s.shareStart p batch a e k)
      (next : (f (t + 1)).firstBatchElement = s.shareStart p batch a e (k + 1))
      (long : s.HasShares p batch a e)
  | whole (type : (f t).type = .insertion) (last : t = e)
      (block : (f t).blockForBatchSplitter = s.splitterBlock p batch a)
      (first : (f t).firstBatchElement = s.splitterFirst p batch a)
      (short : ¬ s.HasShares p batch a e)
  | rest (type : (f t).type = .insertion) (last : t = e)
      (block : (f t).blockForBatchSplitter = s.normalBlock p batch e)
      (first : (f t).firstBatchElement = s.mergeEnd p batch a e)

lemma GroupPlan.taskRange (h : GroupPlan p s batch a e f) (hmin : 0 < p.minBlockSize) {t : ℕ}
    (h1 : a ≤ t) (h2 : t ≤ e) : TaskRange p s batch a e t f := by
  by_cases hs : s.HasShares p batch a e
  · have hl := h.long hs
    have hpos := hs.workers_pos hmin
    have hle : s.workers p batch a e ≤ e - a := min_le_left _ _
    rcases Nat.eq_or_lt_of_le h2 with rfl | hlt
    · exact .rest hl.last_type rfl hl.last_block hl.last_first
    · rcases Nat.lt_or_ge (t + s.workers p batch a e) e with hidle | hwork
      · obtain ⟨g1, -, g3, -⟩ := hl.idle t h1 hidle
        refine .idle g1 ?_
        rcases Nat.lt_or_ge (t + 1 + s.workers p batch a e) e with hidle' | hwork'
        · rw [g3, (hl.idle (t + 1) (by omega) hidle').2.2.1]
        · rw [g3, (hl.working 0 (t + 1) (by omega) (by omega)).2.2.1, shareStart_zero hpos]
      · obtain ⟨k, hk⟩ := Nat.exists_eq_add_of_le hwork
        obtain ⟨g1, g2, g3, -⟩ := hl.working k t hk hlt
        refine .share k g1 g2 g3 ?_ hs
        rcases Nat.eq_or_lt_of_le (Nat.succ_le_of_lt hlt) with heq | hlt'
        · have hk' : k + 1 = s.workers p batch a e := by omega
          rw [hk', shareStart_workers, ← hl.last_first]
          exact congrArg (fun x => (f x).firstBatchElement) heq
        · exact (hl.working (k + 1) (t + 1) (by omega) hlt').2.2.1
  · have hl := h.short hs
    rcases Nat.eq_or_lt_of_le h2 with rfl | hlt
    · exact .whole hl.last_type rfl hl.last_block hl.last_first hs
    · obtain ⟨g1, -, g3, -⟩ := hl.idle t h1 hlt
      refine .idle g1 ?_
      rcases Nat.eq_or_lt_of_le (Nat.succ_le_of_lt hlt) with heq | hlt'
      · rw [g3, ← hl.last_first]
        exact congrArg (fun x => (f x).firstBatchElement) heq.symm
      · rw [g3, (hl.idle (t + 1) (by omega) hlt').2.2.1]

end Ranges

/-! ## The partition -/

/-- What the tasks of a parallel insertion have to satisfy: their batch ranges partition the
batch, every element lies in the range of a task that works on its home, and no two tasks work on
the same part of the pma. -/
structure Partitioned (p : BatchedParams K α) (s : BatchedSparseArray K α) (batch : List α)
    (f : ℕ → TaskInfo) : Prop where
  first : (f 0).firstBatchElement = 0
  mono : ∀ t < s.numberOfThreads, (f t).firstBatchElement ≤ (f (t + 1)).firstBatchElement
  last : (f s.numberOfThreads).firstBatchElement = batch.length
  idle : ∀ t < s.numberOfThreads, (f t).type = .doNothing →
    (f t).firstBatchElement = (f (t + 1)).firstBatchElement
  insertion : ∀ t < s.numberOfThreads, (f t).type = .insertion → ∀ i,
    (f t).firstBatchElement ≤ i → i < (f (t + 1)).firstBatchElement →
    (∀ c, s.empty p c = true) ∨ s.empty p (f t).blockForBatchSplitter = false ∧
      (f t).blockForBatchSplitter ≤ s.home p batch i ∧
      s.home p batch i < (f (t + 1)).blockForBatchSplitter
  inverseMerge : ∀ t < s.numberOfThreads, (f t).type = .inverseMerge → ∀ i,
    (f t).firstBatchElement ≤ i → i < (f (t + 1)).firstBatchElement →
    s.home p batch i = (f t).blockForBatchSplitter
  disjoint : ∀ t < s.numberOfThreads, ∀ t' < s.numberOfThreads, t ≠ t' →
    (f t).type = .insertion → (f t').type = .insertion → ∀ c,
      (f t).blockForBatchSplitter ≤ c → c < (f (t + 1)).blockForBatchSplitter →
      ¬ ((f t').blockForBatchSplitter ≤ c ∧ c < (f (t' + 1)).blockForBatchSplitter)
  mergeBlock : ∀ t < s.numberOfThreads, ∀ t' < s.numberOfThreads, (f t).type = .insertion →
    (f t').type = .inverseMerge →
      ¬ ((f t).blockForBatchSplitter ≤ (f t').blockForBatchSplitter ∧
        (f t').blockForBatchSplitter < (f (t + 1)).blockForBatchSplitter)

/-- The pma range of an insertion task lies between the block of its group and that of the next
one. -/
lemma Sharing.insertion_range {r : BatchedSparseArray K α}
    (h : Sharing p s batch s.numberOfThreads r) (hins : s.Insertable p batch)
    (hmin : 0 < p.minBlockSize) {t : ℕ} (ht : t < s.numberOfThreads)
    (htype : (r.tasks t).type = .insertion) :
    ∃ a, IsGroup (s.splitterBlock p batch) s.numberOfThreads a t ∧
      s.splitterBlock p batch a ≤ (r.tasks t).blockForBatchSplitter ∧
      (r.tasks (t + 1)).blockForBatchSplitter = s.splitterBlock p batch (t + 1) ∧
      (s.HasShares p batch a t →
        s.splitterBlock p batch a < (r.tasks t).blockForBatchSplitter) := by
  obtain ⟨a, e, hg, h1, h2⟩ := exists_group (s.splitterBlock p batch) ht
  have hnext := h.next hins hmin hg
  rcases (h.planned a e hg hg.lt).taskRange hmin h1 h2 with
    ⟨type, -⟩ | ⟨k, type, -, -, -, -⟩ | ⟨-, rfl, block, -, short⟩ | ⟨-, rfl, block, -⟩
  · rw [htype] at type
    exact absurd type (by simp)
  · rw [htype] at type
    exact absurd type (by simp)
  · exact ⟨a, hg, block.ge, hnext.2, fun hs => absurd hs short⟩
  · have hlt : s.splitterBlock p batch a < s.normalBlock p batch t := by
      rw [← hg.same t hg.le (le_refl _)]
      exact (s.view p).le_skipEmpty _ _
    rw [block]
    exact ⟨a, hg, hlt.le, hnext.2, fun _ => hlt⟩

/-- **Steps A-1 to A-3.**  For every valid state, every number of threads and every sorted batch
with at least that many elements, the tasks partition the work. -/
theorem distributeWorkInMergedTasks_partitions (p : BatchedParams K α)
    (s : BatchedSparseArray K α) (batch : List α) (hblock : 2 ≤ p.blockSize)
    (hless : ∀ x y, p.operatorLess x y = decide (x < y))
    (hvalid : (s.view p).Valid p.toBlockParams) (hinc : Increasing p.toBlockParams batch)
    (hpos : 0 < s.numberOfThreads) (hlen : s.numberOfThreads ≤ batch.length) :
    Partitioned p s batch
      (((s.findSplitters p batch).mergeTasks).distributeWorkInMergedTasks p batch).tasks := by
  have hmin : 0 < p.minBlockSize := Nat.div_pos hblock (by omega)
  have hins : s.Insertable p batch := ⟨hvalid, hinc, hpos, hlen⟩
  have hsh : Sharing p s batch s.numberOfThreads (s.distributed p batch) := sharing_distributed hpos
  rw [show ((s.findSplitters p batch).mergeTasks).distributeWorkInMergedTasks p batch =
    s.distributed p batch from rfl]
  generalize s.distributed p batch = r at hsh
  -- a task with its group
  have hrange : ∀ t < s.numberOfThreads, ∃ a e, GroupCuts p s batch a e ∧
      TaskRange p s batch a e t r.tasks ∧
      (r.tasks (e + 1)).firstBatchElement = s.splitterFirst p batch (e + 1) ∧
      (r.tasks (e + 1)).blockForBatchSplitter = s.splitterBlock p batch (e + 1) := by
    intro t ht
    obtain ⟨a, e, hg, h1, h2⟩ := exists_group (s.splitterBlock p batch) ht
    exact ⟨a, e, groupCuts hins hless hg, (hsh.planned a e hg hg.lt).taskRange hmin h1 h2,
      hsh.next hins hmin hg⟩
  refine ⟨?_, fun t ht => ?_, hsh.sentinel_first, fun t ht htype => ?_, fun t ht htype i h1 h2 => ?_,
    fun t ht htype i h1 h2 => ?_, fun t ht t' ht' hne htype htype' c h1 h2 h3 => ?_,
    fun t ht t' ht' htype htype' h3 => ?_⟩
  · obtain ⟨a, e, hg, h1, -⟩ := exists_group (s.splitterBlock p batch) hpos
    obtain rfl : a = 0 := by omega
    rw [((hsh.planned 0 e hg hg.lt).first hg.le hmin).1, splitterFirst, if_pos rfl]
  · obtain ⟨a, e, hcuts, hcase, hfirst, -⟩ := hrange t ht
    have hle1 := hcuts.le_mergeEnd
    have hle2 := hcuts.mergeEnd_le
    rcases hcase with ⟨-, first⟩ | ⟨k, -, -, first, next, -⟩ | ⟨-, rfl, -, first, -⟩ |
      ⟨-, rfl, -, first⟩
    · exact first.le
    · rw [first, next]
      exact (shareStart_le hcuts k).2.1
    · rw [first, hfirst]
      omega
    · rw [first, hfirst]
      exact hle2
  · obtain ⟨a, e, -, hcase, -, -⟩ := hrange t ht
    rcases hcase with ⟨-, first⟩ | ⟨k, type, -⟩ | ⟨type, -⟩ | ⟨type, -⟩
    · exact first
    all_goals
      rw [htype] at type
      exact absurd type (by simp)
  · obtain ⟨a, e, hcuts, hcase, hfirst, hnext⟩ := hrange t ht
    rcases hcase with ⟨type, -⟩ | ⟨k, type, -⟩ | ⟨-, rfl, block, first, -⟩ |
      ⟨-, rfl, block, first⟩
    · rw [htype] at type
      exact absurd type (by simp)
    · rw [htype] at type
      exact absurd type (by simp)
    · rw [block, hnext]
      exact hcuts.all i (by omega) (by omega)
    · rw [block, hnext]
      exact hcuts.behind i (by omega) (by omega)
  · obtain ⟨a, e, hcuts, hcase, -, -⟩ := hrange t ht
    rcases hcase with ⟨type, -⟩ | ⟨k, -, block, first, next, -⟩ | ⟨type, -⟩ | ⟨type, -⟩
    · rw [htype] at type
      exact absurd type (by simp)
    · have hle := shareStart_le hcuts k
      rw [block]
      exact hcuts.merged i (by omega) (by omega)
    all_goals
      rw [htype] at type
      exact absurd type (by simp)
  · obtain ⟨a, hg, hle, hnext, -⟩ := hsh.insertion_range hins hmin ht htype
    obtain ⟨a', hg', hle', hnext', -⟩ := hsh.insertion_range hins hmin ht' htype'
    rcases Nat.lt_or_gt_of_ne hne with hlt | hgt
    · have hafter := hg.lt_of_lt hg' hlt
      have := splitterBlock_mono hins hafter (by have := hg'.le; omega)
      omega
    · have hafter := hg'.lt_of_lt hg hgt
      have := splitterBlock_mono hins hafter (by have := hg.le; omega)
      omega
  · obtain ⟨a, hg, hle, hnext, hshares⟩ := hsh.insertion_range hins hmin ht htype
    obtain ⟨a', e', hg', g1, g2⟩ := exists_group (s.splitterBlock p batch) ht'
    rcases (hsh.planned a' e' hg' hg'.lt).taskRange hmin g1 g2 with
      ⟨type, -⟩ | ⟨k, -, block, -, -, long⟩ | ⟨type, -⟩ | ⟨type, -⟩
    · rw [htype'] at type
      exact absurd type (by simp)
    · rw [block, hnext] at h3
      rcases Nat.lt_trichotomy t e' with hlt | rfl | hgt
      · have := splitterBlock_mono hins (hg.lt_of_lt hg' hlt) (by have := hg'.le; have := hg'.lt; omega)
        omega
      · obtain ⟨rfl, -⟩ := hg.unique hg' hg.le (le_refl _) hg'.le (le_refl _)
        have := hshares long
        omega
      · -- the block of an earlier group lies in front
        have hafter := hg'.lt_of_lt hg hgt
        have h4 := splitterBlock_mono hins hafter (by have := hg.le; omega)
        have h5 : s.splitterBlock p batch (e' + 1) ≠ s.splitterBlock p batch e' :=
          hg'.last.resolve_left (by omega)
        have h6 := splitterBlock_mono hins (Nat.le_succ e') (by have := hg'.lt; omega)
        have h7 := hg'.same e' hg'.le (le_refl _)
        rw [Nat.succ_eq_add_one] at h6
        omega
    all_goals
      rw [htype'] at type
      exact absurd type (by simp)

/-- Three threads that meet at the only block: the first two share the batch. -/
theorem distributeWorkInMergedTasks_partitions_threeCells :
    let p := keyOnlyBatched 4 4
    let s : BatchedSparseArray ℕ ℕ := { create p 3 with size := 3, pma := threeCells }
    let tasks := (((s.findSplitters p [1, 2, 4, 6, 7, 8]).mergeTasks).distributeWorkInMergedTasks p
      [1, 2, 4, 6, 7, 8]).tasks
    Partitioned p s [1, 2, 4, 6, 7, 8] tasks ∧
      (List.range 3).map (fun t => ((tasks t).type, (tasks t).firstBatchElement)) =
        [(.inverseMerge, 0), (.inverseMerge, 3), (.insertion, 6)] :=
  ⟨distributeWorkInMergedTasks_partitions (keyOnlyBatched 4 4)
    { create (keyOnlyBatched 4 4) 3 with size := 3, pma := threeCells } [1, 2, 4, 6, 7, 8]
    (by decide) (fun _ _ => rfl) (view_valid threeCells_valid)
    (by simp [Increasing, keyOnlyBatched, keyOnlyBlocks]) (by decide) (by decide), by decide⟩

end BatchedSparseArray

end BatchPMA
