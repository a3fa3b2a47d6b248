import BatchPMA.Insertion.Compaction
import BatchPMA.Insertion.EmptyRange
import BatchPMA.Rebalance.Whole

/-!
# In front of the tasks of the insertion phase

Between two batches all blocks are in the pma, and their sequence is sound.  From this and a sorted
batch follows what every task is given after step A-5, and that the buffer ranges are wide enough.
-/

namespace BatchPMA

open KeyedUnion Ranges

variable {K α : Type} [LinearOrder K]

/-- Parameters for which a default value has the null key and `operator<` is the comparison. -/
structure BatchedParams.Usable (p : BatchedParams K α) : Prop extends p.Valid where
  zero_null : p.keyOf p.zero = p.nullKey
  less : ∀ x y, p.operatorLess x y = decide (x < y)

namespace BatchedSparseArray

variable {p : BatchedParams K α} {s : BatchedSparseArray K α} {batch : List α} {a e k t : ℕ}

/-! ## Between two batches -/

namespace Quiescent

variable (h : s.Quiescent p)
include h

lemma cellBlocks_eq (c : ℕ) : s.cellBlocks p c = s.ownBlock p c :=
  cellBlocks_of_pointers (by rw [h.pointers c]; rfl)

/-- The blocks in front of a cell, its own block, and those behind it. -/
lemma blocks_split {c : ℕ} (hc : s.empty p c = false) : s.blocks p =
    itemsIn (s.ownBlock p) 0 c ++ s.pma c :: itemsIn (s.ownBlock p) (c + 1) (max 1 s.size) := by
  have hlt : c < s.size := by
    by_contra hge
    rw [empty, if_pos (not_lt.mp hge)] at hc
    exact absurd hc (by simp)
  have hcell : itemsIn (s.ownBlock p) c (c + 1) = [s.pma c] := by
    rw [itemsIn_succ, ownBlock, hc]
    rfl
  rw [blocks, itemsIn_congr fun c _ _ => h.cellBlocks_eq c,
    itemsIn_append _ (Nat.zero_le c) (show c ≤ max 1 s.size by omega),
    itemsIn_append _ (Nat.le_succ c) (show c + 1 ≤ max 1 s.size by omega), hcell]
  rfl

lemma mem_blocks {c : ℕ} (hc : s.empty p c = false) : s.pma c ∈ s.blocks p := by
  rw [h.blocks_split hc]
  exact List.mem_append_right _ List.mem_cons_self

omit h in
lemma mem_behind {c c' : ℕ} (hlt : c < c') (hc' : s.empty p c' = false) :
    s.pma c' ∈ itemsIn (s.ownBlock p) (c + 1) (max 1 s.size) := by
  have hsize : c' < s.size := by
    by_contra hge
    rw [empty, if_pos (not_lt.mp hge)] at hc'
    exact absurd hc' (by simp)
  refine List.mem_flatMap.mpr ⟨c', List.mem_range'_1.mpr ⟨hlt, by omega⟩, ?_⟩
  rw [ownBlock, hc']
  exact List.mem_singleton_self _

variable (hb : BlocksSound p.toBlockParams (s.blocks p))
include hb

/-- Searches and queries can be used. -/
lemma valid_view : (s.view p).Valid p.toBlockParams where
  empty_iff c := by
    change s.empty p c = true ↔ s.size ≤ c ∨ s.pma c = PmaEntry.null p.toBlockParams
    constructor
    · exact fun he => Or.inr (h.cell_null c he)
    · rintro (hle | hnull)
      · rw [empty, if_pos hle]
      · rw [empty, hnull]
        simp [PmaEntry.null]
  entry c hc := hb.valid _ (h.mem_blocks hc)
  ordered c c' hlt hc hc' x hx y hy := by
    have hinc := hb.increasing
    rw [h.blocks_split hc, elements_append, elements_cons] at hinc
    have hright := @Ordered.right _ _ _ p.keyOf _ _ hinc
    refine Ordered.lt hright x hx y ?_
    exact mem_elements.mpr ⟨_, mem_behind hlt hc', hy⟩

lemma dead_above {c : ℕ} (hc : s.empty p c = false) : ∀ x ∈ (s.pma c).dead,
    p.keyOf x = p.nullKey ∨ s.AboveCell p (c + 1) (p.keyOf x) := by
  intro x hx
  have hdead := hb.dead
  rw [h.blocks_split hc, deadOk_append] at hdead
  rcases hdead.2.1 x hx with hnull | hfalse | ⟨b, hin, hle⟩
  · exact Or.inl hnull
  · exact hfalse.elim
  · obtain ⟨c', hr, hown⟩ := List.mem_flatMap.mp hin
    obtain ⟨he, rfl⟩ := mem_ownBlock.mp hown
    exact Or.inr ⟨c', (List.mem_range'_1.mp hr).1, he, hle⟩

end Quiescent

/-- The splitter of the last thread of a group goes to the merge block. -/
lemma Insertable.splitter_lt_mergeEnd (h : s.Insertable p batch)
    (hless : ∀ x y, p.operatorLess x y = decide (x < y))
    (hg : IsGroup (s.splitterBlock p batch) s.numberOfThreads a e) :
    e * (batch.length / s.numberOfThreads) < s.mergeEnd p batch a e := by
  have hsplit := h.splitter_lt hg.lt
  by_cases hne : ∃ c, s.empty p c = false
  · by_contra hge
    have hcut := cutsAt_mergeEnd h hne hless hg
    have hhome := hcut.ge _ (not_lt.mp hge) hsplit
    rw [← splitterBlock_eq_home hg.lt] at hhome
    have := (normalBlock_spec h hne hg).1
    omega
  · push Not at hne
    have hemp : ∀ c, s.empty p c = true := fun c => by simpa using hne c
    have hend : s.mergeEnd p batch a e = s.splitterFirst p batch (e + 1) := by
      rw [mergeEnd, lastTaskBatchStart, if_pos (hemp _)]
    have hblock : ∀ i, s.splitterBlock p batch i = s.size := by
      intro i
      rw [splitterBlock]
      split
      · exact h.valid.findBlockIndex_of_empty hemp _
      · rfl
    have hlast : e + 1 = s.numberOfThreads :=
      hg.last.resolve_right fun hne' => hne' (by rw [hblock, hblock])
    rw [hend, hlast, splitterFirst_last h]
    exact hsplit

/-- The first group does not give its work to a thread that has counted a part of it only: the
elements below the first head are counted from the splitter of that thread on. -/
def WidthsSuffice (p : BatchedParams K α) (s : BatchedSparseArray K α) (batch : List α) : Prop :=
  ∀ e, IsGroup (s.splitterBlock p batch) s.numberOfThreads 0 e → ¬ s.HasShares p batch 0 e →
    s.splitterFirst p batch e = 0

/-- It is enough that the splitters are as far apart as a block is large at least. -/
lemma Insertable.widthsSuffice (h : s.Insertable p batch)
    (hless : ∀ x y, p.operatorLess x y = decide (x < y))
    (hmany : s.numberOfThreads = 1 ∨ s.numberOfThreads * p.minBlockSize ≤ batch.length) :
    s.WidthsSuffice p batch := by
  intro e hg hno
  rcases Nat.eq_zero_or_pos e with rfl | hpos
  · rw [splitterFirst, if_pos rfl]
  · have hlt := hg.lt
    have hmany := hmany.resolve_left (by omega)
    rw [Nat.mul_comm] at hmany
    have hdist := (Nat.le_div_iff_mul_le h.threads_pos).mpr hmany
    have hsplit := h.splitter_lt_mergeEnd hless hg
    have hzero : s.splitterFirst p batch 0 = 0 := by rw [splitterFirst, if_pos rfl]
    refine absurd ⟨hpos, ?_⟩ hno
    rw [mergeCount, hzero, Nat.sub_zero]
    calc p.minBlockSize ≤ batch.length / s.numberOfThreads := hdist
      _ ≤ e * (batch.length / s.numberOfThreads) := Nat.le_mul_of_pos_left _ hpos
      _ ≤ s.mergeEnd p batch 0 e := hsplit.le

/-- What the insertion phase starts from. -/
structure PhaseInput (p : BatchedParams K α) (s : BatchedSparseArray K α) (batch : List α) :
    Prop where
  usable : p.Usable
  quiet : s.Quiescent p
  sound : BlocksSound p.toBlockParams (s.blocks p)
  increasing : Increasing p.toBlockParams batch
  null_lt : ∀ x ∈ batch, p.nullKey < p.keyOf x
  threads_le : s.numberOfThreads ≤ batch.length
  widths : s.WidthsSuffice p batch

instance : Decidable (s.HasShares p batch a e) := inferInstanceAs (Decidable (_ ∧ _))

/-- The task of a thread after step A-4. -/
def plannedTask (p : BatchedParams K α) (s : BatchedSparseArray K α) (batch : List α) (t : ℕ) :
    TaskInfo := (s.distributed p batch).startedTask t

/-! ## The kinds of tasks -/

/-- A task does nothing, or it is a working task of a group, or the last task of one. -/
inductive TaskKind (p : BatchedParams K α) (s : BatchedSparseArray K α) (batch : List α) (t : ℕ) :
    Prop
  | idle (type : (s.plannedTask p batch t).type = .doNothing)
      (width : (s.plannedTask p batch t).requiredWidth = 0)
  | share (a e k : ℕ) (group : IsGroup (s.splitterBlock p batch) s.numberOfThreads a e)
      (shares : s.HasShares p batch a e) (worker : k < s.workers p batch a e)
      (thread : t = s.shareThread p batch a e k)
      (type : (s.plannedTask p batch t).type = .inverseMerge)
  | last (a : ℕ) (group : IsGroup (s.splitterBlock p batch) s.numberOfThreads a t)
      (type : (s.plannedTask p batch t).type = .insertion)

namespace PhaseInput

variable (h : s.PhaseInput p batch)
include h

lemma toInsertable : s.Insertable p batch :=
  ⟨h.quiet.valid_view h.sound, h.increasing, h.quiet.threads_pos, h.threads_le⟩

lemma threads_pos : 0 < s.numberOfThreads := h.quiet.threads_pos

lemma valid : (s.view p).Valid p.toBlockParams := h.quiet.valid_view h.sound

lemma min_pos : 0 < p.minBlockSize := by
  have := h.usable.blockSize_ge
  change 0 < p.blockSize / 2
  omega

lemma key_ne_null : ∀ x ∈ batch, p.keyOf x ≠ p.nullKey := fun x hx => (h.null_lt x hx).ne'

lemma sharing : Sharing p s batch s.numberOfThreads (s.distributed p batch) :=
  sharing_distributed h.threads_pos

lemma prepared : s.Prepared p batch (s.prepareInsertion p batch) :=
  prepared_prepareInsertion h.threads_pos

lemma partitioned : Partitioned p s batch (s.distributed p batch).tasks :=
  distributeWorkInMergedTasks_partitions p s batch (by have := h.usable.blockSize_ge; omega)
    h.usable.less h.valid h.increasing h.threads_pos h.threads_le

lemma plan (hg : IsGroup (s.splitterBlock p batch) s.numberOfThreads a e) :
    GroupPlan p s batch a e (s.distributed p batch).tasks := h.sharing.planned a e hg hg.lt

lemma kind (ht : t < s.numberOfThreads) : TaskKind p s batch t := by
  obtain ⟨a, e, hg, h1, h2⟩ := exists_group (s.splitterBlock p batch) ht
  by_cases hs : s.HasShares p batch a e
  · have hl := (h.plan hg).long hs
    have hle : s.workers p batch a e ≤ e - a := min_le_left _ _
    rcases Nat.eq_or_lt_of_le h2 with rfl | hlt
    · exact .last a hg hl.last_type
    · rcases Nat.lt_or_ge (t + s.workers p batch a e) e with hidle | hwork
      · obtain ⟨g1, -, -, g4⟩ := hl.idle t h1 hidle
        exact .idle g1 g4
      · obtain ⟨k, hk⟩ := Nat.exists_eq_add_of_le hwork
        exact .share a e k hg hs (by omega) (by rw [shareThread]; omega)
          (hl.working k t hk hlt).1
  · have hl := (h.plan hg).short hs
    rcases Nat.eq_or_lt_of_le h2 with rfl | hlt
    · exact .last a hg hl.last_type
    · obtain ⟨g1, -, -, g4⟩ := hl.idle t h1 hlt
      exact .idle g1 g4

lemma groupInput (hg : IsGroup (s.splitterBlock p batch) s.numberOfThreads a e)
    (hs : s.HasShares p batch a e) : s.GroupInput p batch a e :=
  groupInput_of_isGroup h.usable.even h.usable.blockSize_ge h.usable.zero_null h.usable.less
    h.toInsertable (fun c hc => h.quiet.cell_null c (by rw [empty, if_pos hc])) h.key_ne_null hg hs

lemma cuts (hg : IsGroup (s.splitterBlock p batch) s.numberOfThreads a e) :
    GroupCuts p s batch a e := groupCuts h.toInsertable h.usable.less hg

/-- What the last task of a group is given. -/
lemma last_spec (hg : IsGroup (s.splitterBlock p batch) s.numberOfThreads a t) :
    (s.plannedTask p batch t).type = .insertion ∧
      (s.plannedTask p batch t).blockForBatchSplitter =
        (if s.HasShares p batch a t then s.normalBlock p batch t else s.splitterBlock p batch a) ∧
      (s.plannedTask p batch t).firstBatchElement =
        (if s.HasShares p batch a t then s.mergeEnd p batch a t else s.splitterFirst p batch a) ∧
      (s.plannedTask p batch t).requiredWidth = getRequiredWidth
        (s.splitterFirst p batch (t + 1) - s.splitterFirst p batch t) ∧
      (s.plannedTask p batch (t + 1)).blockForBatchSplitter = s.splitterBlock p batch (t + 1) ∧
      (s.plannedTask p batch (t + 1)).firstBatchElement = s.splitterFirst p batch (t + 1) := by
  obtain ⟨hfirst, hblock⟩ := h.sharing.next h.toInsertable h.min_pos hg
  by_cases hs : s.HasShares p batch a t
  · have hl := (h.plan hg).long hs
    rw [if_pos hs, if_pos hs]
    exact ⟨hl.last_type, hl.last_block, hl.last_first, hl.last_width, hblock, hfirst⟩
  · have hl := (h.plan hg).short hs
    rw [if_neg hs, if_neg hs]
    exact ⟨hl.last_type, hl.last_block, hl.last_first, hl.last_width, hblock, hfirst⟩

/-! ## The widths -/

omit h in
/-- The buffer ranges follow each other. -/
lemma start_succ (t : ℕ) : (s.plannedTask p batch (t + 1)).startIndex =
    (s.plannedTask p batch t).startIndex + (s.plannedTask p batch t).requiredWidth :=
  startOf_succ (s.distributed p batch) t

omit h in
lemma start_mono {t t' : ℕ} (htt : t ≤ t') :
    (s.plannedTask p batch t).startIndex ≤ (s.plannedTask p batch t').startIndex :=
  startOf_mono (s.distributed p batch) htt

/-- The splitter of the last thread of a group has been counted. -/
lemma splitterFirst_le_first (hg : IsGroup (s.splitterBlock p batch) s.numberOfThreads a t) :
    s.splitterFirst p batch t ≤ (s.plannedTask p batch t).firstBatchElement := by
  obtain ⟨-, -, hfirst, -⟩ := h.last_spec hg
  have hd : 0 < batch.length / s.numberOfThreads := Nat.div_pos h.threads_le h.threads_pos
  have hlt := hg.lt
  rw [hfirst]
  split
  · -- the element of the splitter goes to the merge block
    rename_i hs
    have hpos : 0 < t := lt_of_le_of_lt (Nat.zero_le a) hs.1
    have hsplit := h.toInsertable.splitter_lt hlt
    rw [splitterFirst, if_neg (by omega), if_pos hlt,
      findFirstBatchElement_eq h.increasing (Nat.mul_pos hpos hd) hsplit]
    exact le_trans (min_le_right _ _)
      (Nat.succ_le_of_lt (h.toInsertable.splitter_lt_mergeEnd h.usable.less hg))
  · rename_i hs
    rcases Nat.eq_or_lt_of_le hg.le with rfl | hat
    · exact le_refl _
    · rcases Nat.eq_zero_or_pos a with rfl | hpos
      · rw [h.widths t hg hs]
        exact Nat.zero_le _
      · -- both splitters belong to a block that is not the first one
        have hsame := hg.same t hg.le (le_refl _)
        have hne : ∃ c, s.empty p c = false := by
          by_contra hno
          push Not at hno
          have hemp : ∀ c, s.empty p c = true := fun c => by simpa using hno c
          have hblock : ∀ i, i < s.numberOfThreads → s.splitterBlock p batch i = s.size := by
            intro i hi
            rw [splitterBlock, if_pos hi]
            exact h.valid.findBlockIndex_of_empty hemp _
          exact (hg.first.resolve_left (by omega)) (by
            rw [hblock _ (by omega), hblock _ (by omega)])
        have hcut := cutsAt_splitterFirst h.toInsertable hne (a := a) (by omega) (Or.inr
          (lt_of_le_of_ne (splitterBlock_mono h.toInsertable (Nat.sub_le _ _) (by omega))
            (hg.first.resolve_left (by omega))))
        have hsplit := h.toInsertable.splitter_lt (show a < s.numberOfThreads by omega)
        rw [splitterFirst, if_neg (by omega), if_pos hlt,
          findFirstBatchElement_eq h.increasing (Nat.mul_pos (by omega) hd)
            (h.toInsertable.splitter_lt hlt), hsame]
        rw [splitterFirst, if_neg (by omega), if_pos (by omega),
          findFirstBatchElement_eq h.increasing (Nat.mul_pos hpos hd) hsplit] at hcut ⊢
        refine le_trans (min_le_left _ _) (le_of_eq (min_eq_left ?_).symm)
        by_contra hgt
        rw [min_eq_right (by omega)] at hcut
        have := hcut.lt (a * (batch.length / s.numberOfThreads)) (Nat.lt_succ_self _)
        rw [← splitterBlock_eq_home (show a < s.numberOfThreads by omega)] at this
        exact absurd this (lt_irrefl _)

/-- The width of the last task of a group is that of its work. -/
lemma work_le_width (hg : IsGroup (s.splitterBlock p batch) s.numberOfThreads a t) :
    2 * ((s.plannedTask p batch (t + 1)).firstBatchElement -
      (s.plannedTask p batch t).firstBatchElement) ≤ (s.plannedTask p batch t).requiredWidth := by
  have hle := h.splitterFirst_le_first hg
  obtain ⟨-, -, -, hwidth, -, hnext⟩ := h.last_spec hg
  rw [hwidth, hnext, getRequiredWidth]
  omega

/-! ## The state in front of step A-6 -/

omit [LinearOrder K] h in
/-- Step A-4 sets the buffer pointers of merge blocks only. -/
lemma bufferPointers_startTask (r : BatchedSparseArray K α) {c : ℕ} : ∀ n,
    (∀ t < n, t < r.numberOfThreads → (r.tasks t).type = .insertion → 0 < (r.tasks t).mergedTasks →
      (r.tasks (t - 1)).blockForBatchSplitter ≠ c) →
    ((List.range n).foldl startTask (r, (r.tasks 0).blockForBatchSplitter)).1.bufferPointers c =
      r.bufferPointers c
  | 0, _ => rfl
  | n + 1, hno => by
      have ih := bufferPointers_startTask r n fun t ht => hno t (by omega)
      have hframe := (started_foldl r n).frame
      rw [List.range_succ, List.foldl_append, List.foldl_cons, List.foldl_nil]
      generalize (List.range n).foldl startTask (r, (r.tasks 0).blockForBatchSplitter) = acc at *
      have hthreads : acc.1.numberOfThreads = r.numberOfThreads := by rw [hframe]
      -- only start indices have changed
      have htask : ∀ j, ∃ i, (acc.1.setTask n fun task => { task with startIndex := acc.2 }).tasks j =
          { r.tasks j with startIndex := i } := by
        intro j
        have hj : ∃ i, acc.1.tasks j = { r.tasks j with startIndex := i } := by
          rw [hframe]
          simp only
          split
          · exact ⟨_, rfl⟩
          · exact ⟨_, rfl⟩
        obtain ⟨i, hi⟩ := hj
        rw [tasks_setTask, Function.update_apply]
        split
        · rename_i heq
          subst heq
          exact ⟨acc.2, by rw [hi]⟩
        · exact ⟨i, hi⟩
      obtain ⟨i, hi⟩ := htask n
      obtain ⟨i', hi'⟩ := htask (n - 1)
      rw [startTask]
      simp only [hi, hi']
      split
      · rename_i hcond
        rw [← ih]
        refine Function.update_of_ne (Ne.symm (hno n (Nat.lt_succ_self n) ?_ hcond.2.1 hcond.2.2)) _ _
        rw [← hthreads]
        exact hcond.1
      · exact ih

lemma bufferPointers_prepared {c : ℕ} (hno : ∀ a e, IsGroup (s.splitterBlock p batch)
    s.numberOfThreads a e → s.HasShares p batch a e → s.splitterBlock p batch a ≠ c) :
    (s.prepareInsertion p batch).bufferPointers c = .zero := by
  obtain ⟨f, hf⟩ := h.sharing.frame
  have hthreads : (s.distributed p batch).numberOfThreads = s.numberOfThreads := by rw [hf]
  have hptr : (s.distributed p batch).bufferPointers = s.bufferPointers := by rw [hf]
  have hprep : (s.prepareInsertion p batch).bufferPointers =
      (s.distributed p batch).computeStartIndices.1.bufferPointers := by
    change (increaseBufferArraySize p (s.distributed p batch).computeStartIndices.1 _).bufferPointers = _
    rw [increaseBufferArraySize]
    split <;> rfl
  rw [hprep, computeStartIndices]
  rw [bufferPointers_startTask, hptr, h.quiet.pointers]
  intro t _ ht htype hmerged
  rw [hthreads] at ht
  obtain ⟨a, e, hg, h1, h2⟩ := exists_group (s.splitterBlock p batch) ht
  by_cases hs : s.HasShares p batch a e
  · have hl := (h.plan hg).long hs
    rcases Nat.eq_or_lt_of_le h2 with rfl | hlt
    · have hae := hs.1
      have hblock : ((s.distributed p batch).tasks (t - 1)).blockForBatchSplitter =
          s.splitterBlock p batch a := by
        rcases Nat.lt_or_ge (t - 1 + s.workers p batch a t) t with hidle | hwork
        · exact (hl.idle (t - 1) (by omega) hidle).2.1
        · obtain ⟨k, hk⟩ := Nat.exists_eq_add_of_le hwork
          exact (hl.working k (t - 1) hk (by omega)).2.1
      rw [hblock]
      exact hno a t hg hs
    · rcases Nat.lt_or_ge (t + s.workers p batch a e) e with hidle | hwork
      · rw [(hl.idle t h1 hidle).1] at htype
        exact absurd htype (by simp)
      · obtain ⟨k, hk⟩ := Nat.exists_eq_add_of_le hwork
        rw [(hl.working k t hk hlt).1] at htype
        exact absurd htype (by simp)
  · have hl := (h.plan hg).short hs
    rcases Nat.eq_or_lt_of_le h2 with rfl | hlt
    · rw [hl.last_merged] at hmerged
      exact absurd hmerged (lt_irrefl 0)
    · rw [(hl.idle t h1 hlt).1] at htype
      exact absurd htype (by simp)

end PhaseInput

section Prepared

/-- The batch range of a task begins here. -/
def firstOf (p : BatchedParams K α) (s : BatchedSparseArray K α) (batch : List α) (t : ℕ) : ℕ :=
  (s.plannedTask p batch t).firstBatchElement

/-- The pma range of a task begins here. -/
def blockOf (p : BatchedParams K α) (s : BatchedSparseArray K α) (batch : List α) (t : ℕ) : ℕ :=
  (s.plannedTask p batch t).blockForBatchSplitter

/-- The buffer range of a task begins here. -/
def bufferOf (p : BatchedParams K α) (s : BatchedSparseArray K α) (batch : List α) (t : ℕ) : ℕ :=
  (s.plannedTask p batch t).startIndex

end Prepared

namespace PhaseInput

variable (h : s.PhaseInput p batch)
include h

lemma prepared_tasks (ht : t ≤ s.numberOfThreads) :
    (s.prepareInsertion p batch).tasks t = s.plannedTask p batch t := h.prepared.tasks t ht

lemma prepared_pma : (s.prepareInsertion p batch).pma = s.pma := by rw [h.prepared.frame]

lemma prepared_size : (s.prepareInsertion p batch).size = s.size := by rw [h.prepared.frame]

lemma prepared_empty (c : ℕ) : (s.prepareInsertion p batch).empty p c = s.empty p c :=
  empty_congr h.prepared_size (congrFun h.prepared_pma c)

lemma firstOf_mono (ht : t < s.numberOfThreads) :
    s.firstOf p batch t ≤ s.firstOf p batch (t + 1) := h.partitioned.mono t ht

lemma firstOf_le (ht : t ≤ s.numberOfThreads) : s.firstOf p batch t ≤ batch.length := by
  induction ht using Nat.decreasingInduction with
  | self => exact h.partitioned.last.le
  | of_succ k hk ih => exact le_trans (h.firstOf_mono hk) ih

/-- An insertion task with work, in a structure with blocks. -/
lemma rangeInput (hne : ∃ c, s.empty p c = false) (ht : t < s.numberOfThreads)
    (htype : (s.plannedTask p batch t).type = .insertion)
    (hwork : s.firstOf p batch t < s.firstOf p batch (t + 1)) :
    (s.prepareInsertion p batch).RangeInput p batch
      ⟨s.firstOf p batch t, s.firstOf p batch (t + 1)⟩
      ⟨s.blockOf p batch t, s.blockOf p batch (t + 1)⟩ := by
  have hins := h.toInsertable
  have hpart := h.partitioned
  have hsome : ¬ ∀ c, s.empty p c = true := by
    obtain ⟨c, hc⟩ := hne
    intro hall
    rw [hall c] at hc
    exact absurd hc (by simp)
  have hhome : ∀ i, s.firstOf p batch t ≤ i → i < s.firstOf p batch (t + 1) →
      s.empty p (s.blockOf p batch t) = false ∧ s.blockOf p batch t ≤ s.home p batch i ∧
        s.home p batch i < s.blockOf p batch (t + 1) := fun i h1 h2 =>
    (hpart.insertion t ht htype i h1 h2).resolve_left hsome
  obtain ⟨hfirst, hlow, hhigh⟩ := hhome _ (le_refl _) hwork
  obtain ⟨a, hg, -, hnext, -⟩ := h.sharing.insertion_range hins h.min_pos ht htype
  have hright : s.blockOf p batch (t + 1) ≤ s.size := by
    have hle := splitterBlock_mono hins (show t + 1 ≤ s.numberOfThreads from ht) (le_refl _)
    rw [splitterBlock_last] at hle
    exact le_trans (le_of_eq hnext) hle
  have hlen := h.firstOf_le (show t + 1 ≤ s.numberOfThreads from ht)
  have hmem : ∀ x ∈ batchPart batch ⟨s.firstOf p batch t, s.firstOf p batch (t + 1)⟩,
      x ∈ batch := fun x hx => List.mem_of_mem_drop (List.mem_of_mem_take hx)
  refine
    { even := h.usable.even
      four_le := h.usable.blockSize_ge
      zero_null := h.usable.zero_null
      right_le := by rw [h.prepared_size]; exact hright
      left_lt := lt_of_le_of_lt hlow hhigh
      first := by rw [h.prepared_empty]; exact hfirst
      valid := fun c _ _ hc => ?_
      ordered := fun c c' _ hlt _ hc hc' => ?_
      dead := fun c _ _ hc => ?_
      batch_lt := hwork
      batch_le := hlen
      increasing := ?_
      key_ne_null := fun x hx => h.key_ne_null x (hmem x hx)
      below := fun x hx j hj hc => ?_
      pointers := fun c h1 h2 => h.bufferPointers_prepared fun a' e' hg' hs' heq => ?_ }
  · rw [h.prepared_empty] at hc
    rw [h.prepared_pma]
    exact h.valid.entry c hc
  · rw [h.prepared_empty] at hc hc'
    rw [h.prepared_pma]
    exact h.valid.ordered c c' hlt hc hc'
  · rw [h.prepared_empty] at hc
    rw [h.prepared_pma]
    intro x hx
    rcases h.quiet.dead_above h.sound hc x hx with hnull | ⟨j, hj, he, hle⟩
    · exact Or.inl hnull
    · exact Or.inr ⟨j, hj, (h.prepared_empty j).trans he, by rw [h.prepared_pma]; exact hle⟩
  · exact (increasing_batchPart_iff hlen).mpr fun i j _ hij hj =>
      batchKey_lt h.increasing hij (by omega)
  · rw [h.prepared_empty] at hc
    rw [h.prepared_pma]
    obtain ⟨i, h1, h2, hi⟩ := mem_batchPart.mp hx
    have hlt := (hhome i h1 h2).2.2
    rw [← batchKey_of_getElem? hi]
    exact (hins.isHome hne i).lt_head j (lt_of_lt_of_le hlt hj) hc
  · -- the working tasks of a group know its merge block
    have hl := (h.plan hg').long hs'
    have hw := hs'.workers_pos h.min_pos
    have hle : s.workers p batch a' e' ≤ e' - a' := min_le_left _ _
    have hlt := hg'.lt
    have hae := hs'.1
    obtain ⟨g1, g2, -⟩ := hl.working 0 (e' - s.workers p batch a' e') (by omega) (by omega)
    refine hpart.mergeBlock t ht (e' - s.workers p batch a' e') (by omega) htype g1 ?_
    rw [g2, heq]
    exact ⟨h1, h2⟩

end PhaseInput

end BatchedSparseArray

end BatchPMA
