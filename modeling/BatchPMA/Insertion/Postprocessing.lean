import BatchPMA.Insertion.Region

/-!
# Step A-7

When all tasks have run, the merge blocks whose elements are in the buffer are removed, and the
blocks of every merge group are moved together.  The loops pass the groups from left to right, and
a group only concerns its merge block and the buffer ranges of its own tasks.
-/

namespace BatchPMA

open KeyedUnion Ranges Patches

variable {K α : Type} [LinearOrder K]

/-- From one group to the next one. -/
lemma IsGroup.induction {block : ℕ → ℕ} {n : ℕ} {P : ℕ → Prop} (h0 : P 0)
    (hstep : ∀ a e, IsGroup block n a e → P a → P (e + 1)) : ∀ e a, IsGroup block n a e → P (e + 1)
  | e, a, hg => by
      refine hstep a e hg ?_
      rcases Nat.eq_zero_or_pos a with rfl | hpos
      · exact h0
      · have hle := hg.le
        have hlt := hg.lt
        obtain ⟨a', e', hg', h1, h2⟩ := exists_group block (show a - 1 < n by omega)
        have he' : e' + 1 = a := by
          by_contra hne
          have h3 := hg'.same (a - 1) h1 h2
          have h4 := hg'.same a (by omega) (by omega)
          exact hg.first.resolve_left (by omega) (h3.trans h4.symm)
        have hrec := IsGroup.induction h0 hstep e' a' hg'
        rwa [he'] at hrec
termination_by e => e
decreasing_by omega

/-- A group that does not end behind the end of another one. -/
lemma IsGroup.lt_or_eq {block : ℕ → ℕ} {n a e a' e' : ℕ} (h : IsGroup block n a e)
    (h' : IsGroup block n a' e') (hle : e' < e + 1) : e' < a ∨ a' = a ∧ e' = e := by
  rcases Nat.lt_or_ge e' a with hlt | hge
  · exact Or.inl hlt
  · exact Or.inr (h'.unique h h'.le (le_refl _) hge (by omega))

namespace BatchedSparseArray

variable {p : BatchedParams K α} {s r r' : BatchedSparseArray K α} {batch : List α} {a e k t : ℕ}

/-- A group whose merge block is shared. -/
structure IsMerge (p : BatchedParams K α) (s : BatchedSparseArray K α) (batch : List α)
    (a e : ℕ) : Prop where
  group : IsGroup (s.splitterBlock p batch) s.numberOfThreads a e
  shares : s.HasShares p batch a e

/-- Where the blocks of a merge group are in the end. -/
structure GroupSettled (p : BatchedParams K α) (s : BatchedSparseArray K α) (batch : List α)
    (a e : ℕ) (r : BatchedSparseArray K α) : Prop where
  pointers : r.bufferPointers (s.splitterBlock p batch a) = ⟨s.bufferOf p batch a,
    s.bufferOf p batch a + s.shareCount p batch a e (s.workers p batch a e)⟩
  cells : ∀ i x, (itemsIn (s.shareBlocks p batch a e) 0 (s.workers p batch a e))[i]? = some x →
    r.bufferArray (s.bufferOf p batch a + i) = x
  room : s.bufferOf p batch a + s.shareCount p batch a e (s.workers p batch a e) ≤
    s.bufferOf p batch e
  gap : ∀ j, s.bufferOf p batch a + s.shareCount p batch a e (s.workers p batch a e) ≤ j →
    j < s.bufferOf p batch e → r.bufferArray j = PmaEntry.null p.toBlockParams

lemma GroupSettled.congr (h : GroupSettled p s batch a e r)
    (hptr : r'.bufferPointers (s.splitterBlock p batch a) =
      r.bufferPointers (s.splitterBlock p batch a))
    (hbuffer : ∀ j, s.bufferOf p batch a ≤ j → j < s.bufferOf p batch e →
      r'.bufferArray j = r.bufferArray j) : GroupSettled p s batch a e r' where
  pointers := hptr.trans h.pointers
  cells i x hx := by
    have hroom := h.room
    have hi : i < s.shareCount p batch a e (s.workers p batch a e) :=
      (List.getElem?_eq_some_iff.mp hx).1
    rw [hbuffer _ (by omega) (by omega)]
    exact h.cells i x hx
  room := h.room
  gap j h1 h2 := by
    rw [hbuffer j (by omega) h2]
    exact h.gap j h1 h2

/-- The working tasks of a group are those of its last threads. -/
lemma IsMerge.shareThread_lt (hm : IsMerge p s batch a e) (hk : k < s.workers p batch a e) :
    a ≤ s.shareThread p batch a e k ∧ s.shareThread p batch a e k < e := by
  have hle : s.workers p batch a e ≤ e - a := min_le_left _ _
  have hae := hm.shares.1
  rw [shareThread]
  omega

/-- The merge blocks of the groups that end in front of thread `n`. -/
def MergeCell (p : BatchedParams K α) (s : BatchedSparseArray K α) (batch : List α)
    (n c : ℕ) : Prop := ∃ a e, IsMerge p s batch a e ∧ e < n ∧ c = s.splitterBlock p batch a

lemma mergeCell_zero {c : ℕ} : ¬ s.MergeCell p batch 0 c :=
  fun ⟨_, _, _, he, _⟩ => absurd he (Nat.not_lt_zero _)

lemma IsMerge.mergeCell_succ (hm : IsMerge p s batch a e) (c : ℕ) :
    s.MergeCell p batch (e + 1) c ↔
      s.MergeCell p batch e c ∨ c = s.splitterBlock p batch a := by
  constructor
  · rintro ⟨a', e', hm', he', rfl⟩
    rcases Nat.lt_or_ge e' e with hlt | hge
    · exact Or.inl ⟨a', e', hm', hlt, rfl⟩
    · obtain rfl : e' = e := by omega
      rw [(hm'.group.unique hm.group hm'.group.le (le_refl _) hm.group.le (le_refl _)).1]
      exact Or.inr rfl
  · rintro (⟨a', e', hm', he', rfl⟩ | rfl)
    · exact ⟨a', e', hm', by omega, rfl⟩
    · exact ⟨a, e, hm, Nat.lt_succ_self e, rfl⟩

lemma mergeCell_succ_of_not {n : ℕ} (hno : ∀ a, ¬ IsMerge p s batch a n) (c : ℕ) :
    s.MergeCell p batch (n + 1) c ↔ s.MergeCell p batch n c := by
  constructor
  · rintro ⟨a', e', hm', he', rfl⟩
    rcases Nat.lt_or_ge e' n with hlt | hge
    · exact ⟨a', e', hm', hlt, rfl⟩
    · obtain rfl : e' = n := by omega
      exact absurd hm' (hno a')
  · rintro ⟨a', e', hm', he', rfl⟩
    exact ⟨a', e', hm', by omega, rfl⟩

/-! ## The state between the region and step A-7 -/

lemma Inserting.tasks_eq (hi : Inserting p s batch {t | t < s.numberOfThreads} r)
    (ht : t < s.numberOfThreads) : r.tasks t = s.writtenTask p batch t :=
  hi.tasks.inside t ht t rfl

namespace PhaseInput

variable (h : s.PhaseInput p batch)
include h

/-- The tasks in front of the last one of a short group, and of the working ones of a long group,
have no room in the buffer. -/
lemma bufferOf_idle {n : ℕ} (hg : IsGroup (s.splitterBlock p batch) s.numberOfThreads a e)
    (hn : n = if s.HasShares p batch a e then e - s.workers p batch a e else e) :
    ∀ t, a ≤ t → t ≤ n → s.bufferOf p batch t = s.bufferOf p batch a := by
  intro t h1 h2
  induction t, h1 using Nat.le_induction with
  | base => rfl
  | succ t h1 ih =>
      have hwidth : s.bufferOf p batch (t + 1) =
        s.bufferOf p batch t + (s.plannedTask p batch t).requiredWidth := start_succ t
      rw [hwidth, ih (by omega)]
      by_cases hs : s.HasShares p batch a e
      · rw [if_pos hs] at hn
        have hidle : (s.plannedTask p batch t).requiredWidth = 0 :=
          (((h.plan hg).long hs).idle t h1 (by omega)).2.2.2
        rw [hidle, Nat.add_zero]
      · rw [if_neg hs] at hn
        have hidle : (s.plannedTask p batch t).requiredWidth = 0 :=
          (((h.plan hg).short hs).idle t h1 (by omega)).2.2.2
        rw [hidle, Nat.add_zero]

/-- The blocks of a merge group begin where the first thread of the group begins. -/
lemma bufferOf_shareThread (hm : IsMerge p s batch a e) :
    s.bufferOf p batch (s.shareThread p batch a e 0) = s.bufferOf p batch a := by
  have hle : s.workers p batch a e ≤ e - a := min_le_left _ _
  have hae := hm.shares.1
  exact h.bufferOf_idle hm.group (if_pos hm.shares).symm _ (by rw [shareThread]; omega)
    (le_of_eq (Nat.add_zero _))

section Written

variable (hi : Inserting p s batch {t | t < s.numberOfThreads} r)
include hi

lemma sameTasks : SameTasks (s.prepareInsertion p batch).tasks r.tasks := by
  intro t
  by_cases ht : t < s.numberOfThreads
  · rw [hi.tasks_eq ht, h.prepared_tasks ht.le]
    rfl
  · rw [hi.tasks.outside t fun i hi' heq => ht (by
      rw [Set.mem_singleton_iff] at heq
      rwa [heq])]

/-- A cell of the buffer that no task has written to. -/
lemma buffer_null {j : ℕ} (hno : ∀ t < s.numberOfThreads, j ∉ s.taskBuffer p batch t) :
    r.bufferArray j = PmaEntry.null p.toBlockParams := by
  rw [hi.buffer.outside j hno]
  rcases h.prepared.buffer with heq | heq
  · rw [heq]
    exact h.quiet.buffer_null j
  · rw [heq]
    rfl

/-- What a task leaves free of its range. -/
lemma buffer_rest {j : ℕ}
    (h1 : s.bufferOf p batch t + (s.ownTask p batch t).2.length ≤ j)
    (h2 : j < s.bufferOf p batch (t + 1)) : r.bufferArray j = PmaEntry.null p.toBlockParams := by
  refine h.buffer_null hi fun t' ht' hj => ?_
  have h3 := (h.writes_spec ht').2
  obtain ⟨h4, h5⟩ := hj
  rcases Nat.lt_trichotomy t t' with hlt | rfl | hgt
  · have : s.bufferOf p batch (t + 1) ≤ s.bufferOf p batch t' := start_mono hlt
    omega
  · omega
  · have : s.bufferOf p batch (t' + 1) ≤ s.bufferOf p batch t := start_mono hgt
    omega

/-- What a task has written. -/
lemma buffer_written (ht : t < s.numberOfThreads) {i : ℕ} {w : BufferWrite K α}
    (hw : (s.ownTask p batch t).2[i]? = some w) :
    r.bufferArray (s.bufferOf p batch t + i) = w.block := by
  have hlt := (List.getElem?_eq_some_iff.mp hw).1
  rw [hi.buffer.inside t ht _ ⟨Nat.le_add_right _ _, by omega⟩]
  exact (afterWrites_dense (s.ownTask p batch t).1 (h.writes_spec ht).1).1 i w hw

/-- What the working tasks of a group have written. -/
lemma groupWritten (hm : IsMerge p s batch a e) (htasks : r'.tasks = r.tasks)
    (hbuffer : ∀ j, s.bufferOf p batch a ≤ j → j < s.bufferOf p batch e →
      r'.bufferArray j = r.bufferArray j) :
    s.GroupWritten p batch a e r' ∧ GapsEmpty p s batch a e r' ∧
      (s.shareIndex p batch a e r'.tasks 0 = s.bufferOf p batch a) ∧
      s.shareIndex p batch a e r'.tasks (s.workers p batch a e) = s.bufferOf p batch e := by
  have hle := @workers_le _ _ _ p s batch a e hm.shares.1.le
  have hgt := groupTasks_prepared h.toInsertable hm.group hm.shares
  have hlt := hm.group.lt
  have hzero := h.bufferOf_shareThread hm
  have hlast : s.shareThread p batch a e (s.workers p batch a e) = e := by
    rw [shareThread]
    omega
  have hindex : ∀ k ≤ s.workers p batch a e, s.shareIndex p batch a e r'.tasks k =
      s.bufferOf p batch (s.shareThread p batch a e k) := by
    intro k hk
    rw [htasks, shareIndex_congr (h.sameTasks hi), shareIndex,
      h.prepared_tasks (by rw [shareThread]; omega)]
    rfl
  have hmono : ∀ j k : ℕ, j ≤ k → s.bufferOf p batch (s.shareThread p batch a e j) ≤
      s.bufferOf p batch (s.shareThread p batch a e k) := fun j k hjk =>
    start_mono (Nat.add_le_add_left hjk _)
  have hlen : ∀ k < s.workers p batch a e,
      (s.ownTask p batch (s.shareThread p batch a e k)).2.length =
        (s.shareBlocks p batch a e k).length := fun k hk => by
    rw [h.ownTask_share hm.group hm.shares hk, denseWrites, List.length_mapIdx]
  refine ⟨⟨?_, fun k hk => ?_, fun k hk i x hx => ?_⟩, fun k hk j h1 h2 => ?_, ?_, ?_⟩
  · rw [htasks]
    exact hgt.congr (h.sameTasks hi)
  · have ht := hm.shareThread_lt hk
    rw [htasks, hi.tasks_eq (by omega), ← hlen k hk]
    rfl
  · have ht := hm.shareThread_lt hk
    have hspec := (h.writes_spec (show s.shareThread p batch a e k < s.numberOfThreads by omega)).2
    have hnext := hmono (k + 1) _ hk
    have hfirst := hmono 0 k (Nat.zero_le k)
    have hik := (List.getElem?_eq_some_iff.mp hx).1
    rw [hlen k hk] at hspec
    rw [hlast] at hnext
    change s.bufferOf p batch (s.shareThread p batch a e k + 1) ≤ _ at hnext
    rw [hindex k hk.le, hbuffer _ (by omega) (by omega)]
    obtain ⟨w, hw⟩ : ∃ w, (denseWrites (s.bufferOf p batch (s.shareThread p batch a e k)) 0
        (s.splitterBlock p batch a) (s.shareBlocks p batch a e k))[i]? = some w := by
      rw [denseWrites, List.getElem?_mapIdx, hx]
      exact ⟨_, rfl⟩
    have hblock := (getElem?_denseWrites hw).2
    rw [hx] at hblock
    rw [Option.some.inj hblock]
    exact h.buffer_written hi (by omega) (by rw [h.ownTask_share hm.group hm.shares hk]; exact hw)
  · have ht := hm.shareThread_lt hk
    have hnext := hmono (k + 1) _ hk
    have hfirst := hmono 0 k (Nat.zero_le k)
    rw [hlast] at hnext
    rw [hindex k hk.le] at h1
    rw [hindex (k + 1) hk] at h2
    rw [hbuffer j (by omega) (by omega)]
    exact h.buffer_rest hi (t := s.shareThread p batch a e k)
      (by rw [hlen k hk]; exact h1) h2
  · rw [hindex 0 (Nat.zero_le _), hzero]
  · rw [hindex _ (le_refl _), hlast]

end Written

end PhaseInput

/-! ## Removing the merge blocks -/

/-- One iteration of the loop of `postprocessInverseMergeTasks`. -/
def removeMergeBlock (p : BatchedParams K α) (r : BatchedSparseArray K α) (thread : ℕ) :
    BatchedSparseArray K α :=
  if 0 < thread ∧ (r.tasks thread).type = .insertion ∧ 0 < (r.tasks thread).mergedTasks ∧
      (r.tasks (thread - 1)).type = .inverseMerge then
    let mergeBlock := (r.tasks (thread - 1)).blockForBatchSplitter
    if r.empty p mergeBlock then r
    else { r with pma := Function.update r.pma mergeBlock (PmaEntry.null p.toBlockParams) }
  else r

namespace PhaseInput

variable (h : s.PhaseInput p batch)
include h

section Postprocess

variable (hi : Inserting p s batch {t | t < s.numberOfThreads} r)
include hi

/-- The threads for which `postprocessInverseMergeTasks` does something. -/
lemma postprocessed_iff (htasks : r'.tasks = r.tasks) (ht : t < s.numberOfThreads) :
    (0 < t ∧ (r'.tasks t).type = .insertion ∧ 0 < (r'.tasks t).mergedTasks ∧
        (r'.tasks (t - 1)).type = .inverseMerge) ↔ ∃ a, IsMerge p s batch a t := by
  rw [htasks, hi.tasks_eq ht, hi.tasks_eq (show t - 1 < s.numberOfThreads by omega)]
  change (0 < t ∧ (s.plannedTask p batch t).type = .insertion ∧
    0 < (s.plannedTask p batch t).mergedTasks ∧
      (s.plannedTask p batch (t - 1)).type = .inverseMerge) ↔ _
  constructor
  · rintro ⟨hpos, htype, hmerged, -⟩
    rcases h.kind ht with ⟨hidle, -⟩ | ⟨a, e, k, -, -, -, -, hshare⟩ | ⟨a, hg, -⟩
    · rw [htype] at hidle
      exact absurd hidle (by simp)
    · rw [htype] at hshare
      exact absurd hshare (by simp)
    · refine ⟨a, hg, ?_⟩
      by_contra hs
      have hzero : (s.plannedTask p batch t).mergedTasks = 0 := ((h.plan hg).short hs).last_merged
      omega
  · rintro ⟨a, hm⟩
    have hae := hm.shares.1
    have hle : s.workers p batch a t ≤ t - a := min_le_left _ _
    have hpos := hm.shares.workers_pos h.min_pos
    have hl := (h.plan hm.group).long hm.shares
    have hcount : (s.plannedTask p batch t).mergedTasks = t - a := hl.last_merged
    exact ⟨by omega, hl.last_type, by omega,
      (hl.working (s.workers p batch a t - 1) (t - 1) (by omega) (by omega)).1⟩

omit hi in
lemma blockOf_merge (hm : IsMerge p s batch a e) (h1 : a ≤ t) (h2 : t < e) :
    s.blockOf p batch t = s.splitterBlock p batch a := by
  have hl := (h.plan hm.group).long hm.shares
  rcases Nat.lt_or_ge (t + s.workers p batch a e) e with hidle | hwork
  · exact (hl.idle t h1 hidle).2.1
  · obtain ⟨k, hk⟩ := Nat.exists_eq_add_of_le hwork
    exact (hl.working k t hk h2).2.1

/-- No task of the region has changed a merge block. -/
lemma merge_untouched (hm : IsMerge p s batch a e) :
    r.pma (s.splitterBlock p batch a) = s.pma (s.splitterBlock p batch a) := by
  have hpos := hm.shares.workers_pos h.min_pos
  obtain ⟨h1, h2⟩ := hm.shareThread_lt hpos
  have hlt := hm.group.lt
  have htype := (groupTasks_prepared h.toInsertable hm.group hm.shares).type 0 hpos
  rw [h.prepared_tasks (by omega)] at htype
  rw [← h.blockOf_merge hm h1 h2]
  exact congrArg Prod.fst (hi.cells.outside _ fun t ht =>
    h.mergeBlock_notMem ht (by omega) htype)

/-- The loop of `postprocessInverseMergeTasks`. -/
lemma postprocess_loop : ∀ n ≤ s.numberOfThreads,
    ∃ pma, (List.range n).foldl (removeMergeBlock p) r = { r with pma := pma } ∧
      (∀ c, s.MergeCell p batch n c → pma c = PmaEntry.null p.toBlockParams) ∧
      ∀ c, ¬ s.MergeCell p batch n c → pma c = r.pma c
  | 0, _ => ⟨r.pma, rfl, fun c hc => absurd hc mergeCell_zero, fun _ _ => rfl⟩
  | n + 1, hn => by
      obtain ⟨pma, hloop, hnull, hsame⟩ := postprocess_loop n (by omega)
      rw [List.range_succ, List.foldl_append, hloop]
      simp only [List.foldl_cons, List.foldl_nil, removeMergeBlock]
      have htasks : ({ r with pma := pma } : BatchedSparseArray K α).tasks = r.tasks := rfl
      have hcond := h.postprocessed_iff hi htasks (show n < s.numberOfThreads by omega)
      split
      · rename_i hyes
        obtain ⟨a, hm⟩ := hcond.mp hyes
        have hae := hm.shares.1
        have hblock : (r.tasks (n - 1)).blockForBatchSplitter = s.splitterBlock p batch a := by
          rw [hi.tasks_eq (by omega)]
          exact h.blockOf_merge hm (by omega) (by omega)
        have hcell := hm.mergeCell_succ
        simp only [hblock]
        split
        · -- an empty merge block has been null before
          rename_i hempty
          refine ⟨pma, rfl, fun c hc => ?_, fun c hc => hsame c fun hc' =>
            hc ((hcell c).mpr (Or.inl hc'))⟩
          by_cases hbefore : s.MergeCell p batch n c
          · exact hnull c hbefore
          · obtain rfl := ((hcell c).mp hc).resolve_left hbefore
            rw [hsame _ hbefore, h.merge_untouched hi hm]
            refine h.quiet.cell_null _ ?_
            rw [← hempty]
            refine empty_congr ?_ ?_
            · change s.size = r.size
              rw [hi.frame]
              exact h.prepared_size.symm
            · change s.pma _ = pma _
              rw [hsame _ hbefore, h.merge_untouched hi hm]
        · refine ⟨_, rfl, fun c hc => ?_, fun c hc => ?_⟩
          · rcases eq_or_ne c (s.splitterBlock p batch a) with rfl | hne
            · exact Function.update_self ..
            · rw [Function.update_of_ne hne]
              exact hnull c (((hcell c).mp hc).resolve_right hne)
          · have hnot := mt (hcell c).mpr hc
            push Not at hnot
            rw [Function.update_of_ne hnot.2]
            exact hsame c hnot.1
      · rename_i hno
        have hcell : ∀ c, s.MergeCell p batch (n + 1) c ↔ s.MergeCell p batch n c :=
          mergeCell_succ_of_not fun a hm => hno (hcond.mpr ⟨a, hm⟩)
        exact ⟨pma, rfl, fun c hc => hnull c ((hcell c).mp hc), fun c hc =>
          hsame c (mt (hcell c).mpr hc)⟩

/-- **`postprocessInverseMergeTasks`** removes the merge blocks. -/
lemma postprocessed : ∃ pma, r.postprocessInverseMergeTasks p = { r with pma := pma } ∧
    (∀ c, s.MergeCell p batch s.numberOfThreads c → pma c = PmaEntry.null p.toBlockParams) ∧
    ∀ c, ¬ s.MergeCell p batch s.numberOfThreads c → pma c = r.pma c := by
  have hthreads : r.numberOfThreads = s.numberOfThreads := by
    rw [hi.frame]
    change (s.prepareInsertion p batch).numberOfThreads = _
    rw [h.prepared.frame]
  obtain ⟨pma, hloop, hnull, hsame⟩ := h.postprocess_loop hi _ (le_refl _)
  refine ⟨pma, ?_, hnull, hsame⟩
  rw [← hloop, ← hthreads]
  rfl

end Postprocess

end PhaseInput

/-! ## Moving the blocks together -/

omit [LinearOrder K] in
/-- Outside of a group nothing happens. -/
lemma foldl_compactTask_none : ∀ l : List ℕ, (∀ t ∈ l, (r.tasks t).type ≠ .inverseMerge) →
    l.foldl (compactTask p) (r, none) = (r, none)
  | [], _ => rfl
  | t :: l, hl => by
      have hno := hl t List.mem_cons_self
      have hone : compactTask p (r, none) t = (r, none) := by
        rw [compactTask]
        simp only
        rw [if_neg fun hc => hno hc.1]
      rw [List.foldl_cons, hone]
      exact foldl_compactTask_none l fun t ht => hl t (List.mem_cons_of_mem _ ht)

/-- The compaction of a group changes the buffer and the pointers of the merge block only. -/
lemma GroupWritten.compacted_frame (h : s.GroupInput p batch a e)
    (hw : s.GroupWritten p batch a e r) :
    ((List.range' (s.shareThread p batch a e 0) (s.workers p batch a e + 1)).foldl
      (compactTask p) (r, none)).1 = { r with
        bufferArray := ((List.range' (s.shareThread p batch a e 0)
          (s.workers p batch a e + 1)).foldl (compactTask p) (r, none)).1.bufferArray
        bufferPointers := Function.update r.bufferPointers (s.splitterBlock p batch a)
          ⟨s.shareIndex p batch a e r.tasks 0, s.shareIndex p batch a e r.tasks 0 +
            s.shareCount p batch a e (s.workers p batch a e)⟩ } := by
  have hpos := h.workers_pos
  have hle := @workers_le _ _ _ p s batch a e h.shares.1.le
  obtain ⟨w, hwk⟩ : ∃ w, s.workers p batch a e = w + 1 := ⟨s.workers p batch a e - 1, by omega⟩
  have hc := hw.compact h w (by omega)
  rw [← hwk] at hc
  have hlast : s.shareThread p batch a e 0 + s.workers p batch a e = e := by
    rw [shareThread]
    omega
  have hcount := h.shareCount_pos
  rw [List.range'_concat, List.foldl_append, Nat.one_mul, hlast]
  generalize (List.range' (s.shareThread p batch a e 0) (s.workers p batch a e)).foldl
    (compactTask p) (r, none) = acc at *
  have htask : acc.1.tasks e = r.tasks e := by rw [hc.frame]
  have hptr : acc.1.bufferPointers = r.bufferPointers := by rw [hc.frame]
  have hlen : (⟨s.shareIndex p batch a e r.tasks 0, s.shareIndex p batch a e r.tasks 0 +
      s.shareCount p batch a e (s.workers p batch a e)⟩ : Interval).length =
        s.shareCount p batch a e (s.workers p batch a e) := Nat.add_sub_cancel_left _ _
  rw [List.foldl_cons, List.foldl_nil, compactTask]
  simp only
  rw [htask, if_neg (by rw [hw.tasks.last_type]; simp), hc.group]
  simp only
  rw [if_neg hw.tasks.last_block]
  simp only
  rw [if_neg (by rw [hlen]; omega), hptr, hc.frame]

/-- The state when `compactifyBufferBlocks` has passed the threads in front of `n`. -/
structure Compacted (p : BatchedParams K α) (s : BatchedSparseArray K α) (batch : List α)
    (n : ℕ) (r r' : BatchedSparseArray K α) : Prop where
  frame : r' = { r with
    bufferArray := r'.bufferArray
    bufferPointers := r'.bufferPointers }
  pointers : ∀ c, ¬ s.MergeCell p batch n c → r'.bufferPointers c = r.bufferPointers c
  buffer : ∀ j, (∀ a e, IsMerge p s batch a e → e < n →
    ¬ (s.bufferOf p batch a ≤ j ∧ j < s.bufferOf p batch e)) → r'.bufferArray j = r.bufferArray j
  groups : ∀ a e, IsMerge p s batch a e → e < n → GroupSettled p s batch a e r'

lemma Compacted.refl : Compacted p s batch 0 r r :=
  ⟨rfl, fun _ _ => rfl, fun _ _ => rfl, fun _ _ _ he => absurd he (Nat.not_lt_zero _)⟩

/-- A group without shares. -/
lemma Compacted.skip (hc : Compacted p s batch a r r')
    (hg : IsGroup (s.splitterBlock p batch) s.numberOfThreads a e)
    (hs : ¬ s.HasShares p batch a e) : Compacted p s batch (e + 1) r r' := by
  have hno : ∀ a' e', IsMerge p s batch a' e' → e' < e + 1 → e' < a := by
    intro a' e' hm' he'
    refine (hg.lt_or_eq hm'.group he').resolve_right ?_
    rintro ⟨rfl, rfl⟩
    exact hs hm'.shares
  have hae := hg.le
  exact ⟨hc.frame, fun c hcell => hc.pointers c fun ⟨a', e', hm', he', heq⟩ =>
      hcell ⟨a', e', hm', by omega, heq⟩,
    fun j hj => hc.buffer j fun a' e' hm' he' => hj a' e' hm' (by omega),
    fun a' e' hm' he' => hc.groups a' e' hm' (hno a' e' hm' he')⟩

namespace PhaseInput

variable (h : s.PhaseInput p batch)
include h

/-- A later group belongs to a later block. -/
lemma splitterBlock_lt_of_group {a' e' : ℕ}
    (hg : IsGroup (s.splitterBlock p batch) s.numberOfThreads a e)
    (hg' : IsGroup (s.splitterBlock p batch) s.numberOfThreads a' e') (hlt : e' < a) :
    s.splitterBlock p batch a' < s.splitterBlock p batch a := by
  have hle := hg'.le
  have hae := hg.le
  have heT := hg.lt
  have h1 := splitterBlock_mono h.toInsertable (show a' ≤ a - 1 by omega)
    (show a - 1 ≤ s.numberOfThreads by omega)
  have h2 := splitterBlock_mono h.toInsertable (show a - 1 ≤ a by omega)
    (show a ≤ s.numberOfThreads by omega)
  have h3 := hg.first.resolve_left (by omega)
  omega

variable {r₀ : BatchedSparseArray K α}
  (hi : Inserting p s batch {t | t < s.numberOfThreads} r₀)
  (htasks : r.tasks = r₀.tasks) (hbuffer : r.bufferArray = r₀.bufferArray)
include hi htasks

/-- The threads of a group whose tasks are not working tasks. -/
lemma type_ne_inverseMerge {n : ℕ} (hg : IsGroup (s.splitterBlock p batch) s.numberOfThreads a e)
    (hn : n = if s.HasShares p batch a e then e - s.workers p batch a e else e)
    (h1 : a ≤ t) (h2 : t < n ∨ t = e) : (r.tasks t).type ≠ .inverseMerge := by
  have hlt := hg.lt
  have hle : s.workers p batch a e ≤ e - a := min_le_left _ _
  have ht : t ≤ e := by
    rcases h2 with h2 | rfl
    · split at hn <;> omega
    · exact le_refl _
  rw [htasks, hi.tasks_eq (by omega)]
  change (s.plannedTask p batch t).type ≠ _
  by_cases hs : s.HasShares p batch a e
  · have hae := hs.1
    rw [if_pos hs] at hn
    rcases h2 with h2 | rfl
    · have hidle : (s.plannedTask p batch t).type = .doNothing :=
        (((h.plan hg).long hs).idle t h1 (by omega)).1
      rw [hidle]
      simp
    · have hlast : (s.plannedTask p batch t).type = .insertion :=
        ((h.plan hg).long hs).last_type
      rw [hlast]
      simp
  · rw [if_neg hs] at hn
    rcases Nat.eq_or_lt_of_le ht with rfl | hlt
    · have hlast : (s.plannedTask p batch t).type = .insertion :=
        ((h.plan hg).short hs).last_type
      rw [hlast]
      simp
    · have hidle : (s.plannedTask p batch t).type = .doNothing :=
        (((h.plan hg).short hs).idle t h1 hlt).1
      rw [hidle]
      simp

include hbuffer

/-- A merge group. -/
lemma compacted_merge (hm : IsMerge p s batch a e) (hc : Compacted p s batch a r r') :
    ∃ r'', (List.range' (s.shareThread p batch a e 0) (s.workers p batch a e + 1)).foldl
      (compactTask p) (r', none) = (r'', none) ∧ Compacted p s batch (e + 1) r r'' := by
  have hae := hm.shares.1
  have htasks' : r'.tasks = r₀.tasks := by rw [hc.frame]; exact htasks
  have hbuffer' : ∀ j, s.bufferOf p batch a ≤ j → r'.bufferArray j = r₀.bufferArray j := by
    intro j hj
    rw [← hbuffer]
    refine hc.buffer j fun a' e' _ he' hin => ?_
    have : s.bufferOf p batch e' ≤ s.bufferOf p batch a := start_mono he'.le
    omega
  obtain ⟨hw, hgaps, hfirst, hlast⟩ := h.groupWritten hi hm htasks' fun j hj _ => hbuffer' j hj
  have hin := h.groupInput hm.group hm.shares
  have hdone := hw.compacted hin
  have hframe := hw.compacted_frame hin
  have hcount := hin.shareCount_pos
  rw [hfirst] at hframe
  generalize (List.range' (s.shareThread p batch a e 0) (s.workers p batch a e + 1)).foldl
    (compactTask p) (r', none) = acc at *
  have hptr : acc.1.bufferPointers (s.splitterBlock p batch a) = ⟨s.bufferOf p batch a,
      s.bufferOf p batch a + s.shareCount p batch a e (s.workers p batch a e)⟩ := by
    rw [hframe]
    exact Function.update_self ..
  have hne : ∀ c, c ≠ s.splitterBlock p batch a →
      acc.1.bufferPointers c = r'.bufferPointers c := by
    intro c hc'
    rw [hframe]
    exact Function.update_of_ne hc' _ _
  have hout : ∀ j, ¬ (s.bufferOf p batch a ≤ j ∧ j < s.bufferOf p batch e) →
      acc.1.bufferArray j = r'.bufferArray j := by
    intro j hj
    refine hdone.outside j ?_
    rw [hfirst, hlast]
    omega
  refine ⟨acc.1, Prod.ext rfl hdone.closed, ?_, fun c hcell => ?_, fun j hj => ?_,
    fun a' e' hm' he' => ?_⟩
  · rw [hframe, hc.frame]
  · rw [hne c fun heq => hcell ⟨a, e, hm, Nat.lt_succ_self e, heq⟩]
    exact hc.pointers c fun ⟨a', e', hm', he', heq⟩ => hcell ⟨a', e', hm', by omega, heq⟩
  · rw [hout j (hj a e hm (Nat.lt_succ_self e))]
    exact hc.buffer j fun a' e' hm' he' => hj a' e' hm' (by omega)
  · rcases hm.group.lt_or_eq hm'.group he' with hlt | ⟨rfl, rfl⟩
    · refine (hc.groups a' e' hm' hlt).congr (hne _ ?_) fun j _ hj => hout j fun hin' => ?_
      · exact (h.splitterBlock_lt_of_group hm.group hm'.group hlt).ne
      · have : s.bufferOf p batch e' ≤ s.bufferOf p batch a := start_mono hlt.le
        omega
    · have hblocks := hdone.blocks
      have hinside := hdone.inside
      have hgap := hdone.gap hgaps
      rw [hptr] at hblocks hinside hgap
      rw [hlast] at hinside hgap
      refine ⟨hptr, fun i x hx => ?_, hinside, hgap⟩
      have hi' : i < s.shareCount p batch a' e' (s.workers p batch a' e') :=
        (List.getElem?_eq_some_iff.mp hx).1
      rw [← hblocks, List.getElem?_map, List.getElem?_range' (by
        simp only [Interval.length]; omega), Option.map_some, Nat.one_mul] at hx
      exact Option.some.inj hx

/-- From one group to the next one. -/
lemma compacted_group (hg : IsGroup (s.splitterBlock p batch) s.numberOfThreads a e)
    (hc : ∃ r', (List.range a).foldl (compactTask p) (r, none) = (r', none) ∧
      Compacted p s batch a r r') :
    ∃ r', (List.range (e + 1)).foldl (compactTask p) (r, none) = (r', none) ∧
      Compacted p s batch (e + 1) r r' := by
  obtain ⟨r', hloop, hc⟩ := hc
  have hae := hg.le
  have htasks' : r'.tasks = r₀.tasks := by rw [hc.frame]; exact htasks
  have hsplit : List.range (e + 1) = List.range a ++ List.range' a (e + 1 - a) := by
    rw [List.range_eq_range', List.range_eq_range']
    have := @List.range'_append_1 0 a (e + 1 - a)
    rw [Nat.zero_add, Nat.add_sub_cancel' (by omega)] at this
    exact this.symm
  rw [hsplit, List.foldl_append, hloop]
  by_cases hs : s.HasShares p batch a e
  · have hle : s.workers p batch a e ≤ e - a := min_le_left _ _
    have hthread : s.shareThread p batch a e 0 = e - s.workers p batch a e := rfl
    have hidle : List.range' a (e + 1 - a) = List.range' a (s.shareThread p batch a e 0 - a) ++
        List.range' (s.shareThread p batch a e 0) (s.workers p batch a e + 1) := by
      have := @List.range'_append_1 a (s.shareThread p batch a e 0 - a)
        (s.workers p batch a e + 1)
      rw [Nat.add_sub_cancel' (by omega)] at this
      rw [this]
      congr 1
      omega
    rw [hidle, List.foldl_append, foldl_compactTask_none]
    · exact h.compacted_merge hi htasks hbuffer ⟨hg, hs⟩ hc
    · intro t ht
      have := List.mem_range'_1.mp ht
      exact h.type_ne_inverseMerge hi htasks' hg (if_pos hs).symm this.1 (Or.inl (by omega))
  · refine ⟨r', foldl_compactTask_none _ fun t ht => ?_, hc.skip hg hs⟩
    have := List.mem_range'_1.mp ht
    exact h.type_ne_inverseMerge hi htasks' hg (if_neg hs).symm this.1 (by omega)

/-- **`compactifyBufferBlocks`** moves the blocks of every merge group together. -/
lemma compacted (hthreads : r.numberOfThreads = s.numberOfThreads) :
    Compacted p s batch s.numberOfThreads r (r.compactifyBufferBlocks p) := by
  have hT := h.threads_pos
  obtain ⟨a, e, hg, -, h2⟩ := exists_group (s.splitterBlock p batch)
    (show s.numberOfThreads - 1 < s.numberOfThreads by omega)
  have he : e + 1 = s.numberOfThreads := by
    have := hg.lt
    omega
  obtain ⟨r', hloop, hc⟩ := IsGroup.induction (P := fun n => ∃ r',
      (List.range n).foldl (compactTask p) (r, none) = (r', none) ∧ Compacted p s batch n r r')
    ⟨r, rfl, Compacted.refl⟩ (fun a e => h.compacted_group hi htasks hbuffer) e a hg
  rw [he] at hloop hc
  rw [compactifyBufferBlocks, hthreads, hloop]
  exact hc

end PhaseInput

/-! ## The phase -/

/-- What the insertion phase has done. -/
structure PhaseDone (p : BatchedParams K α) (s : BatchedSparseArray K α) (batch : List α)
    (r : BatchedSparseArray K α) : Prop where
  frame : r = { s.prepareInsertion p batch with
    pma := r.pma
    bufferPointers := r.bufferPointers
    bufferArray := r.bufferArray
    recountingNodesMap := r.recountingNodesMap
    tasks := r.tasks }
  cells : ∀ t < s.numberOfThreads, ∀ c ∈ s.taskCells p batch t,
    r.pma c = (s.ownState p batch t).pma c ∧
      r.bufferPointers c = (s.ownState p batch t).bufferPointers c
  kept : ∀ c, (∀ t < s.numberOfThreads, c ∉ s.taskCells p batch t) →
    ¬ s.MergeCell p batch s.numberOfThreads c → r.pma c = s.pma c ∧ r.bufferPointers c = .zero
  merged : ∀ a e, IsMerge p s batch a e →
    r.pma (s.splitterBlock p batch a) = PmaEntry.null p.toBlockParams ∧
      GroupSettled p s batch a e r
  written : ∀ t < s.numberOfThreads, (s.plannedTask p batch t).type ≠ .inverseMerge → ∀ i w,
    (s.ownTask p batch t).2[i]? = some w → r.bufferArray (s.bufferOf p batch t + i) = w.block
  rest : ∀ t < s.numberOfThreads, (s.plannedTask p batch t).type ≠ .inverseMerge → ∀ j,
    s.bufferOf p batch t + (s.ownTask p batch t).2.length ≤ j → j < s.bufferOf p batch (t + 1) →
      r.bufferArray j = PmaEntry.null p.toBlockParams
  outside : ∀ j, j < s.bufferOf p batch 0 ∨ s.bufferOf p batch s.numberOfThreads ≤ j →
    r.bufferArray j = PmaEntry.null p.toBlockParams
  keys : ∀ i, i ∈ r.recountingNodesMap.keys ↔
    i ∈ s.recountingNodesMap.keys ∨ s.TaskMarks p batch {t | t < s.numberOfThreads} i
  flagged : ∀ i, i ∈ r.recountingNodesMap.flagged ↔
    i ∈ s.recountingNodesMap.flagged ∨ s.TaskMarks p batch {t | t < s.numberOfThreads} i

/-- If no two threads have met at a block, no group has more than one thread. -/
lemma not_isMerge_of_hasMergedTask (hno : (s.findSplitters p batch).hasMergedTask = false) :
    ¬ IsMerge p s batch a e := by
  intro hm
  have hae := hm.shares.1
  have hlt := hm.group.lt
  have hthreads : (s.findSplitters p batch).numberOfThreads = s.numberOfThreads := rfl
  rw [hasMergedTask, hthreads, List.any_eq_false] at hno
  have hone := hno e (List.mem_range'_1.mpr (by omega))
  rw [tasks_findSplitters hlt, tasks_findSplitters (by omega)] at hone
  refine hone (decide_eq_true ?_)
  change s.splitterBlock p batch e = s.splitterBlock p batch (e - 1)
  rw [hm.group.same e hae.le (le_refl _), hm.group.same (e - 1) (by omega) (by omega)]

namespace PhaseInput

variable (h : s.PhaseInput p batch)
include h

/-- The buffer range of a task that does not merge is apart from those of the merge groups. -/
lemma merge_range_disjoint (htype : (s.plannedTask p batch t).type ≠ .inverseMerge) {j : ℕ}
    (h1 : s.bufferOf p batch t ≤ j) (h2 : j < s.bufferOf p batch (t + 1))
    (hm : IsMerge p s batch a e) :
    ¬ (s.bufferOf p batch a ≤ j ∧ j < s.bufferOf p batch e) := by
  rintro ⟨h3, h4⟩
  rcases Nat.lt_or_ge t e with hlt | hge
  · rcases Nat.lt_or_ge t a with hta | hta
    · have : s.bufferOf p batch (t + 1) ≤ s.bufferOf p batch a := start_mono hta
      omega
    · have hl := (h.plan hm.group).long hm.shares
      rcases Nat.lt_or_ge (t + s.workers p batch a e) e with hidle | hwork
      · -- the range is empty
        have hsame := h.bufferOf_idle hm.group (if_pos hm.shares).symm
        rw [hsame t hta (by omega)] at h1
        rw [hsame (t + 1) (by omega) (by omega)] at h2
        omega
      · obtain ⟨k, hk⟩ := Nat.exists_eq_add_of_le hwork
        exact htype (hl.working k t hk hlt).1
  · have : s.bufferOf p batch e ≤ s.bufferOf p batch t := start_mono hge
    omega

/-- A merge block is not in the pma range of a task. -/
lemma not_mergeCell {c : ℕ} (ht : t < s.numberOfThreads) (hc : c ∈ s.taskCells p batch t) :
    ¬ s.MergeCell p batch s.numberOfThreads c := by
  rintro ⟨a, e, hm, -, rfl⟩
  have hpos := hm.shares.workers_pos h.min_pos
  obtain ⟨h1, h2⟩ := hm.shareThread_lt hpos
  have hlt := hm.group.lt
  have htype := (groupTasks_prepared h.toInsertable hm.group hm.shares).type 0 hpos
  rw [h.prepared_tasks (by omega)] at htype
  rw [← h.blockOf_merge hm h1 h2] at hc
  exact h.mergeBlock_notMem ht (by omega) htype hc

/-- The two parts of step A-7. -/
lemma postprocess_compacted (hi : Inserting p s batch {t | t < s.numberOfThreads} r) :
    ∃ pma, ((∀ c, s.MergeCell p batch s.numberOfThreads c →
        pma c = PmaEntry.null p.toBlockParams) ∧
      ∀ c, ¬ s.MergeCell p batch s.numberOfThreads c → pma c = r.pma c) ∧
      Compacted p s batch s.numberOfThreads { r with pma := pma }
        ((r.postprocessInverseMergeTasks p).compactifyBufferBlocks p) := by
  obtain ⟨pma, heq, hcells⟩ := h.postprocessed hi
  refine ⟨pma, hcells, ?_⟩
  rw [heq]
  refine h.compacted hi rfl rfl ?_
  change r.numberOfThreads = _
  rw [hi.frame]
  change (s.prepareInsertion p batch).numberOfThreads = _
  rw [h.prepared.frame]

/-- Step A-7, with or without merge groups. -/
lemma processed (hi : Inserting p s batch {t | t < s.numberOfThreads} r) :
    ∃ pma, ((∀ c, s.MergeCell p batch s.numberOfThreads c →
        pma c = PmaEntry.null p.toBlockParams) ∧
      ∀ c, ¬ s.MergeCell p batch s.numberOfThreads c → pma c = r.pma c) ∧
      Compacted p s batch s.numberOfThreads { r with pma := pma }
        (if (s.findSplitters p batch).hasMergedTask then
          (r.postprocessInverseMergeTasks p).compactifyBufferBlocks p else r) := by
  cases hmerged : (s.findSplitters p batch).hasMergedTask with
  | false =>
      have hno : ∀ a e, ¬ IsMerge p s batch a e := fun _ _ => not_isMerge_of_hasMergedTask hmerged
      refine ⟨r.pma, ⟨fun c ⟨a, e, hm, _⟩ => absurd hm (hno a e), fun _ _ => rfl⟩, ?_⟩
      exact ⟨rfl, fun _ _ => rfl, fun _ _ => rfl, fun a e hm => absurd hm (hno a e)⟩
  | true => exact h.postprocess_compacted hi

/-- **The insertion phase**, in any order of the threads. -/
theorem phaseDone (sched : Schedule) : s.PhaseDone p batch (s.insertionPhase p batch sched) := by
  have hi := h.inserting_parallel sched
  have hphase : s.insertionPhase p batch sched = if (s.findSplitters p batch).hasMergedTask then
      (((s.prepareInsertion p batch).parallel sched 0 fun s' thread =>
        s'.startInsertionTask p batch thread).postprocessInverseMergeTasks p).compactifyBufferBlocks p
      else (s.prepareInsertion p batch).parallel sched 0 fun s' thread =>
        s'.startInsertionTask p batch thread := rfl
  rw [hphase]
  generalize (s.prepareInsertion p batch).parallel sched 0 (fun s' thread =>
    s'.startInsertionTask p batch thread) = r at *
  obtain ⟨pma, ⟨hnull, hsame⟩, hc⟩ := h.processed hi
  generalize (if (s.findSplitters p batch).hasMergedTask then
    (r.postprocessInverseMergeTasks p).compactifyBufferBlocks p else r) = r' at *
  have hpma : r'.pma = pma := by rw [hc.frame]
  have hmap : r'.recountingNodesMap = r.recountingNodesMap := by rw [hc.frame]
  have hapart : ∀ t < s.numberOfThreads, (s.plannedTask p batch t).type ≠ .inverseMerge → ∀ j,
      s.bufferOf p batch t ≤ j → j < s.bufferOf p batch (t + 1) →
        r'.bufferArray j = r.bufferArray j := fun t _ htype j h1 h2 =>
    hc.buffer j fun a e hm _ => h.merge_range_disjoint htype h1 h2 hm
  refine ⟨?_, fun t ht c hcell => ?_, fun c hno hmerge => ?_, fun a e hm => ?_,
    fun t ht htype i w hw => ?_, fun t ht htype j h1 h2 => ?_, fun j hj => ?_, fun i => ?_,
    fun i => ?_⟩
  · rw [hc.frame, hi.frame]
  · have hno := h.not_mergeCell ht hcell
    have hin := hi.cells.inside t ht c hcell
    rw [hpma, hsame c hno, hc.pointers c hno]
    exact ⟨congrArg Prod.fst hin, congrArg Prod.snd hin⟩
  · have hout := hi.cells.outside c hno
    rw [hpma, hsame c hmerge, hc.pointers c hmerge]
    refine ⟨congrArg Prod.fst hout, (congrArg Prod.snd hout).trans ?_⟩
    exact h.bufferPointers_prepared fun a e hg hs heq => hmerge ⟨a, e, ⟨hg, hs⟩, hg.lt, heq.symm⟩
  · rw [hpma]
    exact ⟨hnull _ ⟨a, e, hm, hm.group.lt, rfl⟩, hc.groups a e hm hm.group.lt⟩
  · have hlt := (List.getElem?_eq_some_iff.mp hw).1
    have hspec := (h.writes_spec ht).2
    rw [hapart t ht htype _ (Nat.le_add_right _ _) (by omega)]
    exact h.buffer_written hi ht hw
  · rw [hapart t ht htype j (by omega) h2]
    exact h.buffer_rest hi h1 h2
  · rw [hc.buffer j fun a e hm he hin => by
      have h1 : s.bufferOf p batch 0 ≤ s.bufferOf p batch a := start_mono (Nat.zero_le a)
      have h2 : s.bufferOf p batch e ≤ s.bufferOf p batch s.numberOfThreads := start_mono he.le
      omega]
    refine h.buffer_null hi fun t ht hin => ?_
    have hspec := (h.writes_spec ht).2
    have h1 : s.bufferOf p batch 0 ≤ s.bufferOf p batch t := start_mono (Nat.zero_le t)
    have h2 : s.bufferOf p batch (t + 1) ≤ s.bufferOf p batch s.numberOfThreads := start_mono ht
    obtain ⟨h3, h4⟩ := hin
    omega
  · rw [hmap]
    exact hi.keys i
  · rw [hmap]
    exact hi.flagged i

end PhaseInput

/-! ## A group -/

/-- **Merge groups.**  The working tasks of a group cut the merge block into consecutive parts.
When they have run, in any order, and the group has been compacted, the cells that the merge block
points to hold their blocks, task by task; the blocks are at least half full and hold the union of
the merge block and the batch range of the group.  In a call of `insertBatch` the tasks of all
groups run, in any order, and `compactifyBufferBlocks` leaves every group in this way. -/
theorem inverseMerge_group (p : BatchedParams K α) (s : BatchedSparseArray K α) (batch : List α)
    (heven : 2 ∣ p.blockSize) (hfour : 4 ≤ p.blockSize) (hzero : p.keyOf p.zero = p.nullKey)
    (hless : ∀ x y, p.operatorLess x y = decide (x < y))
    (hvalid : (s.view p).Valid p.toBlockParams)
    (hbehind : ∀ c, s.size ≤ c → s.pma c = PmaEntry.null p.toBlockParams)
    (hinc : Increasing p.toBlockParams batch) (hnull : ∀ x ∈ batch, p.keyOf x ≠ p.nullKey)
    (hpos : 0 < s.numberOfThreads) (hlen : s.numberOfThreads ≤ batch.length) (a e : ℕ)
    (hg : IsGroup (s.splitterBlock p batch) s.numberOfThreads a e)
    (hshares : s.HasShares p batch a e) (l : List ℕ)
    (hl : l.Perm (List.range (s.workers p batch a e))) :
    let r := s.prepareInsertion p batch
    let r₁ := l.foldl (fun r k => r.startInsertionTask p batch (s.shareThread p batch a e k)) r
    (s.shareCut p batch a e 0 = 0 ∧
      s.shareCut p batch a e (s.workers p batch a e) = (s.mergeEntry p batch a).size ∧
      ∀ k < s.workers p batch a e,
        s.shareCut p batch a e k ≤ s.shareCut p batch a e (k + 1) ∧
        r.getMergeRange p (r.tasks (s.shareThread p batch a e k)) batch
          ⟨(r.tasks (s.shareThread p batch a e k)).firstBatchElement,
            (r.tasks (s.shareThread p batch a e k + 1)).firstBatchElement⟩
          (r.tasks (s.shareThread p batch a e k)).blockForBatchSplitter =
            ⟨s.shareCut p batch a e k, s.shareCut p batch a e (k + 1)⟩) ∧
    (∀ r₂, SameTasks r₁.tasks r₂.tasks →
      ((List.range (s.shareThread p batch a e 0)).foldl (compactTask p) (r₂, none)).2 = none) ∧
    (∀ r₂, GroupKept p s batch a e r₁ r₂ → GroupCompacted p s batch a e r₂
      ((List.range' (s.shareThread p batch a e 0) (s.workers p batch a e + 1)).foldl
        (compactTask p) (r₂, none))) ∧
    WritesUnion p.toBlockParams (fun _ => False) (s.mergeEntry p batch a).live
      (batchPart batch ⟨s.splitterFirst p batch a, s.mergeEnd p batch a e⟩)
      (itemsIn (s.shareBlocks p batch a e) 0 (s.workers p batch a e)) ∧
    (s.PhaseInput p batch → ∀ sched : Schedule, GroupSettled p s batch a e
      (((r.parallel sched 0 fun r t => r.startInsertionTask p batch t).postprocessInverseMergeTasks
        p).compactifyBufferBlocks p)) := by
  have hins : s.Insertable p batch := ⟨hvalid, hinc, hpos, hlen⟩
  have h := groupInput_of_isGroup heven hfour hzero hless hins hbehind hnull hg hshares
  have ht := groupTasks_prepared hins hg hshares
  have hpma : (s.prepareInsertion p batch).pma = s.pma := by
    rw [(@prepared_prepareInsertion _ _ _ _ p batch hpos).frame]
  have hd := GroupTasks.shares_done h l (s.prepareInsertion p batch)
    (hl.nodup_iff.mpr List.nodup_range) (fun k hk => List.mem_range.mp (hl.subset hk)) hpma ht
  refine ⟨⟨if_pos rfl, h.cut_workers, fun k hk => ⟨h.cut_mono k, ?_⟩⟩, fun r₂ hr => ?_,
    fun r₂ hr => ?_, h.group_union _, fun hphase sched => ?_⟩
  · have hnext : s.shareThread p batch a e k + 1 = s.shareThread p batch a e (k + 1) := rfl
    rw [hnext, ht.first k hk.le, ht.first (k + 1) hk, ht.block k hk]
    exact h.getMergeRange_eq hk (ht.index k hk) (ht.merged k hk) hpma
  · rcases Nat.eq_zero_or_pos (s.shareThread p batch a e 0) with h0 | hpos'
    · rw [h0]
      rfl
    · obtain ⟨t, htt⟩ : ∃ t, s.shareThread p batch a e 0 = t + 1 :=
        ⟨s.shareThread p batch a e 0 - 1, by omega⟩
      rw [htt, List.range_succ, List.foldl_append]
      refine compactTask_closed ?_
      rw [tasks_foldl_compactTask, hr t, hd.tasks t]
      exact type_before_group hins hg hshares htt.symm
  · exact (hd.groupWritten h (fun k hk => hl.mem_iff.mpr (List.mem_range.mpr hk)) ht hr).compacted h
  · have hi := hphase.inserting_parallel sched
    obtain ⟨pma, -, hc⟩ := hphase.postprocess_compacted hi
    exact hc.groups a e ⟨hg, hshares⟩ hg.lt

/-- Two of three threads share the only block, the second one first: the block with the keys `3`
and `5` is cut in front of the `5`. -/
theorem inverseMerge_group_threeCells :
    let p := keyOnlyBatched 4 4
    let s : BatchedSparseArray ℕ ℕ := { create p 3 with size := 3, pma := threeCells }
    let batch := [1, 2, 3, 5, 7, 8]
    let r₁ := [1, 0].foldl (fun r k => r.startInsertionTask p batch (s.shareThread p batch 0 2 k))
      (s.prepareInsertion p batch)
    let acc := (List.range' 0 3).foldl (compactTask p) (r₁, none)
    GroupCompacted p s batch 0 2 r₁ acc ∧ s.workers p batch 0 2 = 2 ∧
      s.shareCut p batch 0 2 1 = 1 ∧ acc.1.bufferPointers 1 = ⟨1, 3⟩ ∧
      (acc.1.bufferArray 1).live = [1, 2, 3] ∧ (acc.1.bufferArray 2).live = [5, 7, 8] := by
  refine ⟨?_, by decide, by decide, by decide, by decide, by decide⟩
  have hgroup := inverseMerge_group (keyOnlyBatched 4 4)
    { create (keyOnlyBatched 4 4) 3 with size := 3, pma := threeCells } [1, 2, 3, 5, 7, 8]
    (by decide) (by decide) rfl (fun _ _ => rfl) (view_valid threeCells_valid)
    (fun c hc => by
      have h1 : c ≠ 1 := by change 3 ≤ c at hc; omega
      simp [threeCells, h1, PmaEntry.null, keyOnlyBatched, keyOnlyBlocks])
    (by simp [Increasing, keyOnlyBatched, keyOnlyBlocks])
    (by simp [keyOnlyBatched, keyOnlyBlocks]) (by decide) (by decide) 0 2
    ⟨by decide, by decide, fun t _ ht => by interval_cases t <;> decide, Or.inl rfl, Or.inl rfl⟩
    ⟨by decide, by decide⟩ [1, 0] (by decide)
  exact hgroup.2.2.1 _ ⟨fun t => rfl, fun k _ => rfl, fun j _ _ => rfl⟩

end BatchedSparseArray

end BatchPMA
