import BatchPMA.OutOfPlace.Tasks
import BatchPMA.OutOfPlace.Carry

/-!
# The tasks of path B, in any order

Every task clears the cells it owns and fills its own range of the swap array; what it reads of
other cells is the same before and after the tasks that own them.  So after any number of tasks, in
any order, the swap array holds the rows of those tasks, and in the end it is as
`postprocessInverseMergeTasks` needs it.
-/

namespace BatchPMA

open KeyedUnion Ranges

variable {K α : Type} [LinearOrder K]

namespace OverallocatedBatchedSparseArray

variable {p : OverallocatedParams K α} {base r s₀ : OverallocatedBatchedSparseArray K α}
  {batch : List α} {n a e k t : ℕ} {g : ℕ → TaskInfo} {rows : ℕ → List (PmaEntry K α)}
  {done : List ℕ}

/-! ## One task -/

/-- The cells that the task of a thread empties. -/
def Owns (g : ℕ → TaskInfo) (t c : ℕ) : Prop :=
  t = 0 ∧ c < (g 0).blockForBatchSplitter ∨
    (g t).type = .insertion ∧ (g t).blockForBatchSplitter ≤ c ∧
      c < (g (t + 1)).blockForBatchSplitter

/-- The blocks that the task of a thread writes. -/
structure TaskRow (p : OverallocatedParams K α) (s : OverallocatedBatchedSparseArray K α)
    (batch : List α) (n : ℕ) (g : ℕ → TaskInfo) (t : ℕ) (blocks : List (PmaEntry K α)) : Prop where
  length_le : blocks.length ≤ (g t).requiredWidth
  insertion : (g t).type = .insertion → InsertionRow p s batch n
    (elements (rangeBlocks s.pma (g t).blockForBatchSplitter (g (t + 1)).blockForBatchSplitter))
    (batchPart batch ⟨(g t).firstBatchElement, (g (t + 1)).firstBatchElement⟩) blocks
  worker : ∀ a e k, IsGroup (s.splitterBlock p batch n) n a e → a + k = t → t < e →
    blocks = s.workerBlocks p batch n a e k

/-- The first thread also takes the blocks in front of the first task. -/
def fronted (p : OverallocatedParams K α) (s₀ s : OverallocatedBatchedSparseArray K α)
    (t stop : ℕ) : OverallocatedBatchedSparseArray K α :=
  if t = 0 then
    { s with
      pma := cleared p.toBlockParams s.pma 0 stop
      swapPma := fun c => if c < stop then s₀.pma c else s.swapPma c }
  else s

/-- The state when the tasks in `done` have run. -/
structure Processed (p : OverallocatedParams K α) (s₀ base : OverallocatedBatchedSparseArray K α)
    (batch : List α) (n : ℕ) (g : ℕ → TaskInfo) (done : List ℕ) (rows : ℕ → List (PmaEntry K α))
    (r : OverallocatedBatchedSparseArray K α) : Prop where
  frame : ∃ sizeManager, r = { base with
    pma := r.pma
    swapPma := r.swapPma
    tasks := r.tasks
    sizeManager := sizeManager }
  tasks_done : ∀ t ∈ done, r.tasks t = { g t with numberOfBlocksWritten := (rows t).length }
  tasks_open : ∀ t, t ∉ done → r.tasks t = g t
  pma_owned : ∀ t ∈ done, ∀ c, Owns g t c → r.pma c = PmaEntry.null p.toBlockParams
  pma_other : ∀ c, (∀ t ∈ done, ¬ Owns g t c) → r.pma c = s₀.pma c
  swap_row : ∀ t < n, ∀ j, (g t).startIndex + j < (g (t + 1)).startIndex →
    r.swapPma ((g t).startIndex + j) = (rows t).getD j (PmaEntry.null p.toBlockParams)
  swap_front : ∀ c < (g 0).startIndex, r.swapPma c =
    if 0 ∈ done then s₀.pma c else PmaEntry.null p.toBlockParams
  swap_behind : ∀ c, (g n).startIndex ≤ c → r.swapPma c = PmaEntry.null p.toBlockParams
  rows_done : ∀ t ∈ done, TaskRow p s₀ batch n g t (rows t)
  rows_open : ∀ t, t ∉ done → rows t = []

lemma Processed.field_eq (h : Processed p s₀ base batch n g done rows r) (t : ℕ) :
    (r.tasks t).blockForBatchSplitter = (g t).blockForBatchSplitter ∧
      (r.tasks t).firstBatchElement = (g t).firstBatchElement ∧
      (r.tasks t).startIndex = (g t).startIndex := by
  by_cases ht : t ∈ done
  · rw [h.tasks_done t ht]
    exact ⟨rfl, rfl, rfl⟩
  · rw [h.tasks_open t ht]
    exact ⟨rfl, rfl, rfl⟩

lemma Processed.cell (h : Processed p s₀ base batch n g done rows r) (c : ℕ) :
    r.pma c = PmaEntry.null p.toBlockParams ∨ r.pma c = s₀.pma c := by
  by_cases hc : ∃ t ∈ done, Owns g t c
  · obtain ⟨t, ht, hc⟩ := hc
    exact Or.inl (h.pma_owned t ht c hc)
  · push Not at hc
    exact Or.inr (h.pma_other c hc)

/-- Without blocks all cells stay what they are. -/
lemma Processed.cell_of_empty (h : Processed p s₀ base batch n g done rows r)
    (hvalid : s₀.Valid p) {c : ℕ} (hc : (s₀.pma c).isEmpty = true) : r.pma c = s₀.pma c := by
  rcases h.cell c with hnull | heq
  · rw [hnull, hvalid.eq_null hc]
  · exact heq

/-- What an inverse merge task does to the pma output range. -/
def inverseMergePart (p : OverallocatedParams K α) (s : OverallocatedBatchedSparseArray K α)
    (batch : List α) (task : TaskInfo) (batchRange : Interval) (mergeBlock writeStart : ℕ) :
    OverallocatedBatchedSparseArray K α × ℕ :=
  if batchRange.length = 0 then (s, 0)
  else writeBlocks writeStart (s, 0) (mergedBlocks p.toBlockParams (batchPart batch batchRange)
    (batchPart (s.pma mergeBlock).cells (s.getMergeRange p task batch batchRange mergeBlock)))

section

variable (hins : s₀.Insertable p batch n) (hp : Usable p) (hst : Started p s₀ batch n g)
include hins hp hst

/-- Two tasks do not own the same cell. -/
lemma Started.owns_unique (hne : ∃ c, s₀.empty p c = false) {t u c : ℕ} (ht : t < n) (hu : u < n)
    (h1 : Owns g t c) (h2 : Owns g u c) : t = u := by
  have hmono := fun {t u : ℕ} (h : t ≤ u) (hu : u ≤ n) =>
    hst.planned.block_mono hins hp.less hne h hu
  rcases lt_trichotomy t u with hlt | heq | hlt
  · exfalso
    rcases h2 with hfront | ⟨-, hle, -⟩
    · omega
    · rcases h1 with ⟨rfl, hc⟩ | ⟨-, -, hc⟩
      · have := hmono (Nat.zero_le u) hu.le
        omega
      · have := hmono (show t + 1 ≤ u from hlt) hu.le
        omega
  · exact heq
  · exfalso
    rcases h1 with hfront | ⟨-, hle, -⟩
    · omega
    · rcases h2 with ⟨rfl, hc⟩ | ⟨-, -, hc⟩
      · have := hmono (Nat.zero_le t) ht.le
        omega
      · have := hmono (show u + 1 ≤ t from hlt) ht.le
        omega

/-- The cells of a task are still what they were. -/
lemma Processed.own_cell (h : Processed p s₀ base batch n g done rows r)
    (hdone : ∀ u ∈ done, u < n) (ht : t < n) (hopen : t ∉ done) {c : ℕ} (hc : Owns g t c) :
    r.pma c = s₀.pma c := by
  by_cases hne : ∃ c, s₀.empty p c = false
  · refine h.pma_other c fun u hu hown => ?_
    rw [hst.owns_unique hins hp hne ht (hdone u hu) hc hown] at hopen
    exact hopen hu
  · push Not at hne
    refine h.cell_of_empty hins.valid ?_
    rw [← hins.valid.empty_eq]
    exact Bool.eq_true_of_not_eq_false (hne c)

/-- No task empties a merge block. -/
lemma Processed.merge_cell (h : Processed p s₀ base batch n g done rows r)
    (hdone : ∀ u ∈ done, u < n) (hg : IsGroup (s₀.splitterBlock p batch n) n a e) (hae : a < e) :
    r.pma (s₀.splitterBlock p batch n a) = s₀.pma (s₀.splitterBlock p batch n a) := by
  by_cases hne : ∃ c, s₀.empty p c = false
  · have hmono := fun {t u : ℕ} (h : t ≤ u) (hu : u ≤ n) =>
      hst.planned.block_mono hins hp.less hne h hu
    have hplan := hst.planned.group a e hg
    have halt := hg.lt
    have hblock : ∀ u, a ≤ u → u < e →
        (g u).blockForBatchSplitter = s₀.splitterBlock p batch n a := by
      intro u h1 h2
      obtain ⟨k, rfl⟩ := Nat.exists_eq_add_of_le h1
      exact (hplan.worker k h2).block_eq
    have hlast := hplan.last_block
    rw [if_pos hae] at hlast
    have hnormal := (hins.normalBlock_spec hne hg).1
    refine h.pma_other _ fun u hu hown => ?_
    have hun := hdone u hu
    rcases hown with ⟨-, hlt⟩ | ⟨htype, h1, h2⟩
    · have := hmono (Nat.zero_le a) (by omega)
      rw [hblock a (le_refl a) hae] at this
      omega
    · rcases Nat.lt_or_ge u a with hlt | hge
      · have := hmono (show u + 1 ≤ a from hlt) (by omega)
        rw [hblock a (le_refl a) hae] at this
        omega
      · rcases Nat.lt_or_ge u e with hlt | hge'
        · obtain ⟨k, rfl⟩ := Nat.exists_eq_add_of_le hge
          rw [(hplan.worker k hlt).type_eq] at htype
          exact absurd htype (by simp)
        · have := hmono hge' hun.le
          omega
  · push Not at hne
    refine h.cell_of_empty hins.valid ?_
    rw [← hins.valid.empty_eq]
    exact Bool.eq_true_of_not_eq_false (hne _)

omit [LinearOrder K] hins hp hst in
lemma fronted_swapPma {stop c : ℕ} (hc : stop ≤ c) : (fronted p s₀ r t stop).swapPma c =
    r.swapPma c := by
  rw [fronted]
  split
  · exact if_neg (not_lt.mpr hc)
  · rfl

omit [LinearOrder K] hins hp hst in
lemma fronted_pma {stop c : ℕ} (hc : stop ≤ c ∨ t ≠ 0) : (fronted p s₀ r t stop).pma c =
    r.pma c := by
  rw [fronted]
  split
  · exact cleared_of_not_mem (Or.inr (hc.resolve_right fun hne => hne ‹_›))
  · rfl

section Task

variable (h : Processed p s₀ base batch n g done rows r) (hdone : ∀ u ∈ done, u < n) (ht : t < n)
  (hopen : t ∉ done)
include h hdone ht hopen

/-- The state in which a task does its work. -/
lemma Processed.fronted_eq :
    (if t = 0 then r.copyFrontBlocks p (g t).blockForBatchSplitter else r) =
      fronted p s₀ r t (g 0).blockForBatchSplitter := by
  rw [fronted]
  split
  · rename_i h0
    subst h0
    refine copyFrontBlocks_eq hins.valid (fun c hc => ?_) fun c hc => ?_
    · exact h.own_cell hins hp hst hdone ht hopen (Or.inl ⟨rfl, hc⟩)
    · rw [h.swap_front c (by rw [hst.start_zero]; exact hc), if_neg hopen]
  · rfl

/-- An insertion task finds its range as it was. -/
lemma Processed.agrees (htype : (g t).type = .insertion) :
    Agrees p s₀ (fronted p s₀ r t (g 0).blockForBatchSplitter)
      ⟨(g t).blockForBatchSplitter, (g (t + 1)).blockForBatchSplitter⟩ := by
  refine ⟨fun c (g1 : (g t).blockForBatchSplitter ≤ c) g2 => ?_, ?_⟩
  · rw [fronted_pma ?_]
    · exact h.own_cell hins hp hst hdone ht hopen (Or.inr ⟨htype, g1, g2⟩)
    · by_cases h0 : t = 0
      · subst h0
        exact Or.inl g1
      · exact Or.inr h0
  · simp only
    rw [fronted]
    split
    · simp only [cleared]
      split
      · exact Or.inl rfl
      · exact h.cell _
    · exact h.cell _

/-- The last task of a group. -/
lemma Processed.lastTask_eq (hg : IsGroup (s₀.splitterBlock p batch n) n a t) :
    ∃ blocks sizeManager, (fronted p s₀ r t (g 0).blockForBatchSplitter).insertionPart p
        batch ⟨(g t).firstBatchElement, (g (t + 1)).firstBatchElement⟩
          ⟨(g t).blockForBatchSplitter, (g (t + 1)).blockForBatchSplitter⟩
          ⟨(g t).startIndex, (g (t + 1)).startIndex⟩ =
        (rewritten p (fronted p s₀ r t (g 0).blockForBatchSplitter) (g t).blockForBatchSplitter
          (g (t + 1)).blockForBatchSplitter (g t).startIndex blocks sizeManager, blocks.length) ∧
      InsertionRow p s₀ batch n (elements (rangeBlocks s₀.pma (g t).blockForBatchSplitter
        (g (t + 1)).blockForBatchSplitter))
        (batchPart batch ⟨(g t).firstBatchElement, (g (t + 1)).firstBatchElement⟩) blocks := by
  have hplan := hst.planned.group a t hg
  have hag := h.agrees hins hp hst hdone ht hopen hplan.last_type
  by_cases hne : ∃ c, s₀.empty p c = false
  · exact insertionPart_of_nonempty hins hp hne hg
      (hst.planned.lastRange hins hp.less hne hg) hplan.last_block hag _
  · push Not at hne
    obtain ⟨hblock, hfirst⟩ := hst.planned.next hins hp.less hg
    exact insertionPart_of_empty hins hp (fun c => Bool.eq_true_of_not_eq_false (hne c)) hg
      hplan.last_block hblock hplan.last_first hfirst hag _

end Task

/-- A working task of a group writes its share of the merge block. -/
lemma Processed.workerTask_eq (h : Processed p s₀ base batch n g done rows r)
    (hdone : ∀ u ∈ done, u < n) (hg : IsGroup (s₀.splitterBlock p batch n) n a e)
    (hk : a + k < e) :
    (fronted p s₀ r (a + k) (g 0).blockForBatchSplitter).inverseMergePart p batch (g (a + k))
        ⟨(g (a + k)).firstBatchElement, (g (a + k + 1)).firstBatchElement⟩
        (g (a + k)).blockForBatchSplitter (g (a + k)).startIndex =
      (rewritten p (fronted p s₀ r (a + k) (g 0).blockForBatchSplitter) 0 0 (g (a + k)).startIndex
        (s₀.workerBlocks p batch n a e k)
        (fronted p s₀ r (a + k) (g 0).blockForBatchSplitter).sizeManager,
        (s₀.workerBlocks p batch n a e k).length) := by
  have hplan := hst.planned.group a e hg
  have hae : a < e := by omega
  have hw := hplan.worker k hk
  have hm := hins.mergeInput hp hg hae
  have hnext : (g (a + k + 1)).firstBatchElement = s₀.shareFirst p batch n a e (k + 1) := by
    rcases Nat.eq_or_lt_of_le (Nat.succ_le_of_lt hk) with heq | hlt'
    · have heq' : a + k + 1 = e := heq
      have hk : k + 1 = e - a := by omega
      rw [heq', hplan.last_first, if_pos hae, hk, hm.shareFirst_last]
    · exact (hplan.worker (k + 1) hlt').first_eq
  rw [inverseMergePart, hw.first_eq, hnext, hw.block_eq, workerBlocks, rewritten,
    cleared_self _ _ (le_refl 0)]
  by_cases hnil : s₀.shareFirst p batch n a e (k + 1) - s₀.shareFirst p batch n a e k = 0
  · have hzero : Interval.length ⟨s₀.shareFirst p batch n a e k,
        s₀.shareFirst p batch n a e (k + 1)⟩ = 0 := hnil
    rw [if_pos hzero, if_pos hnil, placed_nil]
    rfl
  · have hsome : ¬ Interval.length ⟨s₀.shareFirst p batch n a e k,
        s₀.shareFirst p batch n a e (k + 1)⟩ = 0 := hnil
    have hcell : (fronted p s₀ r (a + k) (g 0).blockForBatchSplitter).pma
        (s₀.splitterBlock p batch n a) = s₀.pma (s₀.splitterBlock p batch n a) := by
      rw [fronted_pma ?_]
      · exact h.merge_cell hins hp hst hdone hg hae
      · by_cases h0 : a + k = 0
        · left
          rw [← hw.block_eq, h0]
        · exact Or.inr h0
    rw [if_neg hsome, if_neg hnil, hm.getMergeRange_eq (by omega) hw.index_eq hw.merged_eq hcell,
      hcell]
    have hwrite := writeBlocks_eq (s := fronted p s₀ r (a + k) (g 0).blockForBatchSplitter)
      (g (a + k)).startIndex (mergedBlocks p.toBlockParams (batchPart batch
        ⟨s₀.shareFirst p batch n a e k, s₀.shareFirst p batch n a e (k + 1)⟩)
        (batchPart (s₀.pma (s₀.splitterBlock p batch n a)).cells
          ⟨s₀.mergeCut p batch n a e k, s₀.mergeCut p batch n a e (k + 1)⟩)) []
    rw [List.nil_append, placed_nil] at hwrite
    exact hwrite

/-- **One task** clears what it owns and writes its row. -/
lemma Processed.outOfPlaceTask_eq (h : Processed p s₀ base batch n g done rows r)
    (hexact : s₀.AggregatesExact) (hdone : ∀ u ∈ done, u < n) (ht : t < n) (hopen : t ∉ done) :
    ∃ blocks sizeManager left right, r.outOfPlaceTask p batch t =
        (rewritten p (fronted p s₀ r t (g 0).blockForBatchSplitter) left right (g t).startIndex blocks
          sizeManager, blocks.length) ∧
      TaskRow p s₀ batch n g t blocks ∧
      ∀ c, left ≤ c ∧ c < right ↔ (g t).type = .insertion ∧ (g t).blockForBatchSplitter ≤ c ∧
        c < (g (t + 1)).blockForBatchSplitter := by
  obtain ⟨a, e, hg, h1, h2⟩ := exists_group (s₀.splitterBlock p batch n) ht
  have hplan := hst.planned.group a e hg
  obtain ⟨hnextBlock, hnextFirst, hnextStart⟩ := h.field_eq (t + 1)
  rw [outOfPlaceTask]
  simp only
  rw [h.tasks_open t hopen, hnextBlock, hnextFirst, hnextStart,
    h.fronted_eq hins hp hst hdone ht hopen]
  rcases Nat.eq_or_lt_of_le h2 with rfl | hlt
  · -- the last task of a group
    obtain ⟨blocks, sizeManager, heq, hrow⟩ := h.lastTask_eq hins hp hst hdone ht hopen hg
    obtain ⟨hblock, hfirst⟩ := hst.planned.next hins hp.less hg
    refine ⟨blocks, sizeManager, _, _, ?_, ⟨?_, fun _ => hrow, fun a' e' k hg' hk hlt => ?_⟩,
      fun c => ⟨fun hc => ⟨hplan.last_type, hc⟩, And.right⟩⟩
    · rw [if_pos hplan.last_type]
      exact heq
    · rw [hblock, hfirst] at hrow
      rw [hplan.last_width]
      exact hins.insertionRow_length_le hp hexact hg hplan.last_block hplan.last_first
        hrow
    · have := (hg.unique hg' h1 (le_refl t) (by omega) hlt.le).2
      omega
  · -- a working task
    obtain ⟨k, rfl⟩ := Nat.exists_eq_add_of_le h1
    have hw := hplan.worker k hlt
    have hm := hins.mergeInput hp hg (by omega)
    refine ⟨s₀.workerBlocks p batch n a e k,
      (fronted p s₀ r (a + k) (g 0).blockForBatchSplitter).sizeManager, 0, 0, ?_,
      ⟨?_, fun htype => ?_, fun a' e' k' hg' hk hlt' => ?_⟩, fun c => ?_⟩
    · rw [if_neg (by rw [hw.type_eq]; simp)]
      exact h.workerTask_eq hins hp hst hdone hg hlt
    · rw [hw.width_eq]
      exact hm.length_workerBlocks_le k
    · rw [hw.type_eq] at htype
      exact absurd htype (by simp)
    · obtain ⟨ha, he⟩ := hg.unique hg' h1 h2 (by omega) hlt'.le
      subst ha he
      rw [show k' = k by omega]
    · rw [hw.type_eq]
      simp

/-- **Any task** can be the next one. -/
lemma Processed.step (h : Processed p s₀ base batch n g done rows r) (hexact : s₀.AggregatesExact)
    (hdone : ∀ u ∈ done, u < n) (ht : t < n) (hopen : t ∉ done) :
    ∃ blocks, Processed p s₀ base batch n g (t :: done) (Function.update rows t blocks)
      (r.startTaskOutOfPlace p batch t) := by
  obtain ⟨blocks, sizeManager, left, right, heq, hrow, hrange⟩ :=
    h.outOfPlaceTask_eq hins hp hst hexact hdone ht hopen
  obtain ⟨pma, hpma⟩ : ∃ pma, pma = (rewritten p (fronted p s₀ r t (g 0).blockForBatchSplitter) left
    right (g t).startIndex blocks sizeManager).pma := ⟨_, rfl⟩
  obtain ⟨swapPma, hswap⟩ : ∃ swapPma, swapPma = (rewritten p (fronted p s₀ r t
    (g 0).blockForBatchSplitter) left right (g t).startIndex blocks sizeManager).swapPma :=
      ⟨_, rfl⟩
  obtain ⟨tasks, htasks⟩ : ∃ tasks, tasks =
    Function.update r.tasks t { g t with numberOfBlocksWritten := blocks.length } := ⟨_, rfl⟩
  have hresult : r.startTaskOutOfPlace p batch t = { r with
      pma := pma
      swapPma := swapPma
      tasks := tasks
      sizeManager := sizeManager } := by
    rw [startTaskOutOfPlace, heq, hpma, hswap, htasks, ← h.tasks_open t hopen, fronted]
    split <;> rfl
  have hpmaEq : ∀ c, pma c = cleared p.toBlockParams
      (fronted p s₀ r t (g 0).blockForBatchSplitter).pma left right c := fun c => by
    rw [hpma]
    rfl
  have hcell : ∀ c, Owns g t c → pma c = PmaEntry.null p.toBlockParams := by
    intro c hc
    rw [hpmaEq, cleared]
    split
    · rfl
    · rename_i hno
      rcases hc with ⟨h0, hc⟩ | hc
      · rw [fronted, if_pos h0]
        exact if_pos ⟨Nat.zero_le c, hc⟩
      · exact absurd ((hrange c).mpr hc) hno
  have hcell' : ∀ c, ¬ Owns g t c → pma c = r.pma c := by
    intro c hc
    rw [hpmaEq, cleared, if_neg fun hin => hc (Or.inr ((hrange c).mp hin)), fronted]
    split
    · rename_i h0
      exact if_neg fun hin => hc (Or.inl ⟨h0, hin.2⟩)
    · rfl
  have hfits : (g t).startIndex + blocks.length ≤ (g (t + 1)).startIndex := by
    have h1 := hrow.length_le
    have h2 := hst.consecutive t ht
    omega
  have hfrontLe := hst.consecutive.start_le (Nat.zero_le t) ht.le
  have hbehindLe := hst.consecutive.start_le (show t + 1 ≤ n from ht) (le_refl n)
  have hstart := hst.start_zero
  have hplaced : ∀ c, swapPma c = placed (fronted p s₀ r t (g 0).blockForBatchSplitter).swapPma
      (g t).startIndex blocks c := fun c => by rw [hswap, rewritten]
  rw [hresult]
  refine ⟨blocks, ?_, ?_, ?_, ?_, ?_, ?_, ?_, ?_, ?_, ?_⟩
  · obtain ⟨m, hm⟩ := h.frame
    refine ⟨sizeManager, ?_⟩
    rw [hm]
  · intro u hu
    simp only
    rcases eq_or_ne u t with rfl | hne
    · rw [htasks, Function.update_self, Function.update_self]
    · rw [htasks, Function.update_of_ne hne, Function.update_of_ne hne]
      exact h.tasks_done u ((List.mem_cons.mp hu).resolve_left hne)
  · intro u hu
    rw [List.mem_cons, not_or] at hu
    simp only
    rw [htasks, Function.update_of_ne hu.1]
    exact h.tasks_open u hu.2
  · intro u hu c hc
    simp only
    by_cases hown : Owns g t c
    · exact hcell c hown
    · rw [hcell' c hown]
      rcases List.mem_cons.mp hu with rfl | hu
      · exact absurd hc hown
      · exact h.pma_owned u hu c hc
  · intro c hc
    simp only
    rw [hcell' c (hc t List.mem_cons_self)]
    exact h.pma_other c fun u hu => hc u (List.mem_cons_of_mem _ hu)
  · intro u hu j hj
    simp only
    rw [hplaced]
    rcases eq_or_ne u t with rfl | hne
    · rw [Function.update_self, placed, if_pos (Nat.le_add_right _ j), Nat.add_sub_cancel_left,
        List.getD_eq_getElem?_getD, fronted_swapPma (by omega), h.swap_row u hu j hj,
        h.rows_open u hopen]
      rfl
    · have hfront := hst.consecutive.start_le (Nat.zero_le u) hu.le
      rw [Function.update_of_ne hne, placed_of_not_mem ?_, fronted_swapPma (by omega),
        h.swap_row u hu j hj]
      rcases Nat.lt_or_gt_of_ne hne with hlt | hgt
      · have := hst.consecutive.start_le (show u + 1 ≤ t from hlt) ht.le
        exact Or.inl (by omega)
      · have := hst.consecutive.start_le (show t + 1 ≤ u from hgt) hu.le
        exact Or.inr (by omega)
  · intro c hc
    simp only
    rw [hplaced, placed_of_not_mem (Or.inl (by omega)), fronted]
    by_cases h0 : t = 0
    · rw [if_pos h0, if_pos (by rw [h0]; exact List.mem_cons_self)]
      exact if_pos (by omega)
    · rw [if_neg h0, h.swap_front c hc]
      refine if_congr ?_ rfl rfl
      rw [List.mem_cons]
      exact ⟨Or.inr, fun hin => hin.resolve_left fun heq' => h0 heq'.symm⟩
  · intro c hc
    simp only
    rw [hplaced, placed_of_not_mem (Or.inr (by omega)), fronted_swapPma (by omega)]
    exact h.swap_behind c hc
  · intro u hu
    rcases eq_or_ne u t with rfl | hne
    · rw [Function.update_self]
      exact hrow
    · rw [Function.update_of_ne hne]
      exact h.rows_done u ((List.mem_cons.mp hu).resolve_left hne)
  · intro u hu
    rw [List.mem_cons, not_or] at hu
    rw [Function.update_of_ne hu.1]
    exact h.rows_open u hu.2

/-- **All tasks**, in any order. -/
lemma Processed.run (hexact : s₀.AggregatesExact) : ∀ (threads : List ℕ) {done : List ℕ}
    {rows : ℕ → List (PmaEntry K α)} {r : OverallocatedBatchedSparseArray K α},
    Processed p s₀ base batch n g done rows r → (∀ u ∈ done, u < n) → (∀ u ∈ threads, u < n) →
    threads.Nodup → (∀ u ∈ threads, u ∉ done) →
    ∃ rows', Processed p s₀ base batch n g (threads.reverse ++ done) rows'
      (threads.foldl (fun s' thread => s'.startTaskOutOfPlace p batch thread) r) := by
  intro threads
  induction threads with
  | nil => exact fun h _ _ _ _ => ⟨_, h⟩
  | cons t threads ih =>
      intro done rows r h hdone hlt hnodup hopen
      rw [List.nodup_cons] at hnodup
      obtain ⟨blocks, hstep⟩ := h.step hins hp hst hexact hdone (hlt t List.mem_cons_self)
        (hopen t List.mem_cons_self)
      obtain ⟨rows', hrun⟩ := ih hstep (fun u hu => (List.mem_cons.mp hu).elim
        (fun heq => heq ▸ hlt t List.mem_cons_self) (hdone u))
        (fun u hu => hlt u (List.mem_cons_of_mem _ hu)) hnodup.2 fun u hu hin =>
          (List.mem_cons.mp hin).elim (fun heq => hnodup.1 (heq ▸ hu))
            (hopen u (List.mem_cons_of_mem _ hu))
      refine ⟨rows', ?_⟩
      rw [List.reverse_cons, List.append_assoc, List.foldl_cons]
      exact hrun

end

end OverallocatedBatchedSparseArray

end BatchPMA
