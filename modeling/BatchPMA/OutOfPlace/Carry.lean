import BatchPMA.OutOfPlace.Layout
import BatchPMA.Block.Neighbours

/-!
# Evening out the blocks of inverse merges

`postprocessInverseMergeTasks` walks over the tasks with a carry block: the last block of a task,
when it is too small, is carried to the next task that has blocks, merged into its first block or
filled up from it, and otherwise folded back to the left at the end.  The run invariant `Carrying`
says what a prefix of the tasks and the carry block hold together.
-/

namespace BatchPMA

open KeyedUnion

namespace OverallocatedBatchedSparseArray

variable {K α : Type} [LinearOrder K] {p : OverallocatedParams K α}
  {s s' : OverallocatedBatchedSparseArray K α} {W : ℕ → PmaEntry K α} {base : ℕ → TaskInfo}
  {n k : ℕ} {rows rows' : ℕ → List (PmaEntry K α)} {row : List (PmaEntry K α)}
  {b carry : PmaEntry K α}
  {acc : OverallocatedBatchedSparseArray K α × PmaEntry K α}

/-! ## The cells that the carry block is moved to -/

section

variable (p) (s)

omit [LinearOrder K]

/-- What `mergeCarry` overwrites with the carry block. -/
def replacedByCarry (carryBlock : PmaEntry K α) (thread : ℕ) : List (PmaEntry K α) :=
  let start := (s.tasks thread).startIndex
  if (s.swapPma start).size + carryBlock.size < p.blockSize then []
  else
    let rest := (carryBlock.steal p.toBlockParams (s.swapPma start)).2
    [(s.setSwap start rest).swapPma ((s.tasks (thread - 1)).startIndex +
      (s.tasks (thread - 1)).numberOfBlocksWritten)]

/-- What one iteration of the first loop overwrites with the carry block. -/
def replacedByTask (acc : OverallocatedBatchedSparseArray K α × PmaEntry K α) (thread : ℕ) :
    List (PmaEntry K α) :=
  if acc.2.isEmpty = false ∧ 0 < (acc.1.tasks thread).numberOfBlocksWritten then
    acc.1.replacedByCarry p acc.2 thread
  else []

/-- What `mergeLastCarry` overwrites with the carry block. -/
def replacedByLastCarry (carryBlock : PmaEntry K α) (thread : ℕ) : List (PmaEntry K α) :=
  let task := s.tasks thread
  let lastWrittenBlock := task.startIndex + task.numberOfBlocksWritten - 1
  if (s.swapPma lastWrittenBlock).size + carryBlock.size < p.blockSize then []
  else
    let rest := (carryBlock.stealFromSmaller p.toBlockParams (s.swapPma lastWrittenBlock)).2
    let s' := s.setSwap lastWrittenBlock rest
    if task.numberOfBlocksWritten < task.requiredWidth then
      [s'.swapPma (task.startIndex + task.numberOfBlocksWritten)]
    else [s'.swapPma (s.tasks (thread + 1)).startIndex]

/-- What `placeCarry` overwrites with the carry block. -/
def replacedByPlacing (carryBlock : PmaEntry K α) : ℕ → List (PmaEntry K α)
  | 0 => []
  | thread + 1 =>
      if 0 < (s.tasks thread).numberOfBlocksWritten then s.replacedByLastCarry p carryBlock thread
      else replacedByPlacing carryBlock thread

/-- The carry block behind `placeCarry`. -/
def carryLeft (carryBlock : PmaEntry K α) : ℕ → PmaEntry K α
  | 0 => carryBlock
  | thread + 1 =>
      if 0 < (s.tasks thread).numberOfBlocksWritten then PmaEntry.null p.toBlockParams
      else carryLeft carryBlock thread

end

section

variable (p) (s)

omit [LinearOrder K]

variable [DecidableEq K]

/-- The state and the carry block in front of a task. -/
def carriedTo (thread : ℕ) : OverallocatedBatchedSparseArray K α × PmaEntry K α :=
  (List.range thread).foldl (postprocessTask p) (s, PmaEntry.null p.toBlockParams)

/-- The carry block at the end of `postprocessInverseMergeTasks`. -/
def finalCarry (numberOfThreads : ℕ) : PmaEntry K α :=
  let (s', carryBlock) := s.carriedTo p numberOfThreads
  if carryBlock.isEmpty then carryBlock else s'.carryLeft p carryBlock numberOfThreads

/-- What `postprocessInverseMergeTasks` overwrites with carry blocks. -/
def replacedByCarries (numberOfThreads : ℕ) : List (PmaEntry K α) :=
  let (s', carryBlock) := s.carriedTo p numberOfThreads
  (List.range numberOfThreads).flatMap (fun thread =>
    replacedByTask p (s.carriedTo p thread) thread) ++
    if carryBlock.isEmpty then [] else s'.replacedByPlacing p carryBlock numberOfThreads

end

/-! ## What the tasks leave -/

/-- All blocks but the last one of an inverse merge task are large enough. -/
def SizedRow (p : OverallocatedParams K α) (type : TaskType) (row : List (PmaEntry K α)) : Prop :=
  (∀ b ∈ row.dropLast, p.minBlockSize ≤ b.size) ∧
    (type ≠ .inverseMerge → ∀ b ∈ row, p.minBlockSize ≤ b.size)

/-- Ranges of positive width, each with valid blocks of increasing keys in its first cells. -/
structure LeftByTasks (p : OverallocatedParams K α) (s : OverallocatedBatchedSparseArray K α)
    (n : ℕ) : Prop where
  consecutive : Consecutive s.tasks n
  width_pos : ∀ t < n, 0 < (s.tasks t).requiredWidth
  written_le : ∀ t < n, (s.tasks t).numberOfBlocksWritten ≤ (s.tasks t).requiredWidth
  vacant : ∀ t < n, ∀ c, (s.tasks t).startIndex + (s.tasks t).numberOfBlocksWritten ≤ c →
    c < (s.tasks (t + 1)).startIndex → s.swapPma c = PmaEntry.null p.toBlockParams
  valid : ∀ t < n, ∀ b ∈ s.writtenBlocks t, b.Valid p.toBlockParams
  sized : ∀ t < n, SizedRow p (s.tasks t).type (s.writtenBlocks t)
  increasing : Increasing p.toBlockParams (elementsUpTo s.writtenBlocks n)

omit [LinearOrder K] in
lemma length_writtenBlocks (s : OverallocatedBatchedSparseArray K α) (t : ℕ) :
    (s.writtenBlocks t).length = (s.tasks t).numberOfBlocksWritten := by
  simp [writtenBlocks]

lemma LeftByTasks.laidOut (h : s.LeftByTasks p n) : LaidOut p s.swapPma s.tasks n s s.writtenBlocks where
  tasks_eq := fun _ => rfl
  written_eq := fun t _ => (s.length_writtenBlocks t).symm
  cell_eq := by
    intro t ht j hj
    rw [List.getD_eq_getElem?_getD]
    rcases Nat.lt_or_ge j (s.tasks t).numberOfBlocksWritten with hlt | hge
    · simp [writtenBlocks, hlt]
    · rw [List.getElem?_eq_none (by rw [length_writtenBlocks]; exact hge)]
      exact h.vacant t ht _ (by omega) hj
  outside_eq := fun _ _ => rfl

/-! ## One task -/

/-- The carry block and the tasks in front of task `k` hold what these tasks held before. -/
structure Carrying (p : OverallocatedParams K α) (W : ℕ → PmaEntry K α) (base : ℕ → TaskInfo) (n : ℕ)
    (rows : ℕ → List (PmaEntry K α)) (k : ℕ)
    (acc : OverallocatedBatchedSparseArray K α × PmaEntry K α)
    (rows' : ℕ → List (PmaEntry K α)) : Prop where
  laidOut : LaidOut p W base n acc.1 rows'
  untouched : ∀ t, k ≤ t → rows' t = rows t
  length_le : ∀ t < n, (rows' t).length ≤ (base t).requiredWidth
  good : ∀ t < k, ∀ b ∈ rows' t, b.Valid p.toBlockParams ∧ p.minBlockSize ≤ b.size
  elements_eq : elementsUpTo rows' k ++ acc.2.live = elementsUpTo rows k
  carry : acc.2 = PmaEntry.null p.toBlockParams ∨ ∃ j, k = j + 1 ∧ acc.2.Valid p.toBlockParams ∧
    acc.2.size < p.minBlockSize ∧ (rows' j).length < (base j).requiredWidth

/-- The carry block has been merged into task `k`. -/
structure Absorbed (p : OverallocatedParams K α) (W : ℕ → PmaEntry K α) (base : ℕ → TaskInfo) (n : ℕ)
    (rows : ℕ → List (PmaEntry K α)) (k : ℕ) (s : OverallocatedBatchedSparseArray K α)
    (rows' : ℕ → List (PmaEntry K α)) : Prop where
  laidOut : LaidOut p W base n s rows'
  untouched : ∀ t, k + 1 ≤ t → rows' t = rows t
  length_le : ∀ t < n, (rows' t).length ≤ (base t).requiredWidth
  good : ∀ t < k, ∀ b ∈ rows' t, b.Valid p.toBlockParams ∧ p.minBlockSize ≤ b.size
  valid : ∀ b ∈ rows' k, b.Valid p.toBlockParams
  sized : SizedRow p (base k).type (rows' k)
  elements_eq : elementsUpTo rows' (k + 1) = elementsUpTo rows (k + 1)

omit [LinearOrder K] in
lemma SizedRow.cons {type : TaskType} {b' : PmaEntry K α} (h : SizedRow p type (b :: row))
    (hb : p.minBlockSize ≤ b.size → p.minBlockSize ≤ b'.size) : SizedRow p type (b' :: row) := by
  constructor
  · cases row with
    | nil => simp
    | cons c cs =>
        intro d hd
        have hold := h.1
        simp only [List.dropLast_cons_cons, List.mem_cons, forall_eq_or_imp] at hd hold
        rcases hd with rfl | hd
        · exact hb hold.1
        · exact hold.2 d hd
  · intro htype d hd
    have hold := h.2 htype
    simp only [List.mem_cons, forall_eq_or_imp] at hd hold
    rcases hd with rfl | hd
    · exact hb hold.1
    · exact hold.2 d hd

lemma Carrying.fits (h : Carrying p W base n rows k acc rows') (hc : Consecutive base n) {t j : ℕ}
    (ht : t < n) (hj : j < (rows' t).length) :
    (base t).startIndex + j < (base (t + 1)).startIndex := by
  have h1 := h.length_le t ht
  have h2 := hc t ht
  omega

lemma Carrying.first_eq (h : Carrying p W base n rows k acc rows') (hc : Consecutive base n)
    (hk : k < n) (hrow : rows k = b :: row) :
    rows' k = b :: row ∧ (base k).startIndex + 0 < (base (k + 1)).startIndex ∧
      acc.1.swapPma (acc.1.tasks k).startIndex = b := by
  have heq : rows' k = b :: row := (h.untouched k (le_refl _)).trans hrow
  have hfits := h.fits hc hk (j := 0) (by simp [heq])
  refine ⟨heq, hfits, ?_⟩
  have hcell := h.laidOut.cell_eq k hk 0 hfits
  rw [h.laidOut.startIndex_eq, ← Nat.add_zero (base k).startIndex, hcell, heq]
  rfl

/-- The keys of the carry block lie below those of the next block. -/
lemma Carrying.below (h : Carrying p W base n rows k acc rows') (hk : k < n)
    (hinc : Increasing p.toBlockParams (elementsUpTo rows n)) (hrow : rows k = b :: row) :
    ∀ x ∈ acc.2.live, ∀ y ∈ b.live, p.keyOf x < p.keyOf y := by
  have hupto : Increasing p.toBlockParams (elementsUpTo rows (k + 1)) :=
    List.Pairwise.sublist (@elementsUpTo_initial K α rows (k + 1) n hk).sublist hinc
  rw [elementsUpTo_succ, ← h.elements_eq, hrow, elements_cons] at hupto
  intro x hx y hy
  exact Ordered.lt hupto x (List.mem_append_right _ hx) y (List.mem_append_left _ hy)

/-- The carry block fits into the first block of the task. -/
lemma Carrying.absorb_fits (h : Carrying p W base n rows k (s, carry) rows') (hc : Consecutive base n)
    (hk : k < n) (hinc : Increasing p.toBlockParams (elementsUpTo rows n))
    (hrow : rows k = b :: row) (hvalid : ∀ c ∈ rows k, c.Valid p.toBlockParams)
    (hsized : SizedRow p (base k).type (rows k)) (hcarry : carry.Valid p.toBlockParams)
    (hroom : b.size + carry.size < p.blockSize) :
    ∃ rows'', Absorbed p W base n rows k (s.mergeCarry p carry k) rows'' := by
  obtain ⟨heq, hfits, hfirst⟩ := h.first_eq hc hk hrow
  simp only at hfirst
  have hb : b.Valid p.toBlockParams := hvalid b (by rw [hrow]; exact List.mem_cons_self)
  obtain ⟨hfilled, hlive, -⟩ := hb.filled.mergeSmaller_spec hcarry.filled hroom.le
    (h.below hk hinc hrow)
  have hsize : (b.mergeSmaller p.toBlockParams carry).size = b.size + carry.size := rfl
  have hstep : s.mergeCarry p carry k =
      s.setSwap ((base k).startIndex + 0) (b.mergeSmaller p.toBlockParams carry) := by
    simp only [mergeCarry]
    rw [hfirst, if_pos hroom, h.laidOut.startIndex_eq, Nat.add_zero]
  have hset : (rows' k).set 0 (b.mergeSmaller p.toBlockParams carry) =
      b.mergeSmaller p.toBlockParams carry :: row := by
    rw [heq]
    rfl
  refine ⟨Function.update rows' k (b.mergeSmaller p.toBlockParams carry :: row), ?_⟩
  constructor
  · rw [hstep, ← hset]
    exact h.laidOut.replace hc hk (by simp [heq]) hfits
  · intro t ht
    rw [Function.update_of_ne (by omega)]
    exact h.untouched t (by omega)
  · have hlen := h.length_le k hk
    rw [heq] at hlen
    exact length_le_update h.length_le hlen
  · intro t ht
    rw [Function.update_of_ne (by omega)]
    exact h.good t ht
  · rw [Function.update_self]
    intro c hc'
    rcases List.mem_cons.mp hc' with rfl | hc'
    · exact hfilled.valid (by have := hb.size_pos; omega)
    · exact hvalid c (by rw [hrow]; exact List.mem_cons_of_mem _ hc')
  · rw [Function.update_self]
    rw [hrow] at hsized
    exact hsized.cons fun hle => by omega
  · rw [elementsUpTo_succ, elementsUpTo_succ, elementsUpTo_update (le_refl _),
      Function.update_self, hrow, elements_cons, elements_cons, hlive, ← h.elements_eq]
    simp only [List.append_assoc]

/-- The carry block is filled up from the first block of the task, and goes to the task before. -/
lemma Carrying.absorb_steals (h : Carrying p W base n rows k (s, carry) rows')
    (hc : Consecutive base n) (hk : k < n)
    (hinc : Increasing p.toBlockParams (elementsUpTo rows n))
    (hrow : rows k = b :: row) (hvalid : ∀ c ∈ rows k, c.Valid p.toBlockParams)
    (hsized : SizedRow p (base k).type (rows k)) (hcarry : carry.Valid p.toBlockParams)
    (hsmall : carry.size < p.minBlockSize) {j : ℕ} (hj : k = j + 1)
    (hspace : (rows' j).length < (base j).requiredWidth)
    (hroom : ¬ b.size + carry.size < p.blockSize) :
    (∃ rows'', Absorbed p W base n rows k (s.mergeCarry p carry k) rows'') ∧
      s.replacedByCarry p carry k = [PmaEntry.null p.toBlockParams] := by
  obtain ⟨heq, hfits, hfirst⟩ := h.first_eq hc hk hrow
  simp only at hfirst
  have hb : b.Valid p.toBlockParams := hvalid b (by rw [hrow]; exact List.mem_cons_self)
  have hmin : 2 * p.minBlockSize ≤ p.blockSize := by
    rw [BlockParams.minBlockSize]
    omega
  have hpos := hcarry.size_pos
  have hle := hb.size_le
  obtain ⟨⟨hfilled, hlive, -⟩, hrestFilled, hrestLive, -⟩ := hcarry.filled.steal_spec hb.filled hpos
    hsmall.le (by omega) (h.below hk hinc hrow)
  have hsize : (carry.steal p.toBlockParams b).1.size =
      carry.size + (p.minBlockSize - carry.size) := rfl
  have hrestSize : (carry.steal p.toBlockParams b).2.size =
      b.size - (p.minBlockSize - carry.size) := rfl
  have hprev : k - 1 = j := by omega
  have hjn : j < n := by omega
  have hjk : j ≠ k := by omega
  have hwritten : (s.tasks j).numberOfBlocksWritten = (rows' j).length :=
    h.laidOut.written_eq j hjn
  have hend : (base j).startIndex + (rows' j).length < (base (j + 1)).startIndex := by
    have := hc j hjn
    omega
  have hset : (rows' k).set 0 (carry.steal p.toBlockParams b).2 =
      (carry.steal p.toBlockParams b).2 :: row := by
    rw [heq]
    rfl
  -- first the rest is written, then the carry block
  have hshrunk := h.laidOut.replace (b := (carry.steal p.toBlockParams b).2) hc hk
    (by simp [heq]) hfits
  rw [hset] at hshrunk
  have hrowj : Function.update rows' k ((carry.steal p.toBlockParams b).2 :: row) j = rows' j :=
    Function.update_of_ne hjk _ _
  have hgrown := hshrunk.append (b := (carry.steal p.toBlockParams b).1) hc hjn
    (by rw [hrowj]; exact hend)
  rw [hrowj] at hgrown
  constructor
  · have hstep : s.mergeCarry p carry k = ((s.setSwap ((base k).startIndex + 0)
        (carry.steal p.toBlockParams b).2).setSwap ((base j).startIndex + (rows' j).length)
          (carry.steal p.toBlockParams b).1).addWrittenBlock j := by
      simp only [mergeCarry]
      rw [hfirst, if_neg hroom, h.laidOut.startIndex_eq, hprev, h.laidOut.startIndex_eq, hwritten,
        Nat.add_zero]
    refine ⟨Function.update (Function.update rows' k ((carry.steal p.toBlockParams b).2 :: row)) j
      (rows' j ++ [(carry.steal p.toBlockParams b).1]), ?_⟩
    constructor
    · rw [hstep]
      exact hgrown
    · intro t ht
      rw [Function.update_of_ne (by omega), Function.update_of_ne (by omega)]
      exact h.untouched t (by omega)
    · have hlen := h.length_le k hk
      rw [heq] at hlen
      refine length_le_update (length_le_update h.length_le hlen) ?_
      rw [List.length_append, List.length_singleton]
      exact hspace
    · intro t ht c hc'
      rcases eq_or_ne t j with rfl | hne
      · rw [Function.update_self, List.mem_append, List.mem_singleton] at hc'
        rcases hc' with hc' | rfl
        · exact h.good t ht c hc'
        · exact ⟨hfilled.valid (by omega), by omega⟩
      · rw [Function.update_of_ne hne, Function.update_of_ne (by omega)] at hc'
        exact h.good t ht c hc'
    · rw [Function.update_of_ne hjk.symm, Function.update_self]
      intro c hc'
      rcases List.mem_cons.mp hc' with rfl | hc'
      · exact hrestFilled.valid (by omega)
      · exact hvalid c (by rw [hrow]; exact List.mem_cons_of_mem _ hc')
    · rw [Function.update_of_ne hjk.symm, Function.update_self]
      rw [hrow] at hsized
      exact hsized.cons fun _ => by omega
    · have hold := h.elements_eq
      subst hj
      rw [elementsUpTo_succ, elementsUpTo_succ, elementsUpTo_update (le_refl _),
        elementsUpTo_update (by omega), Function.update_self, Function.update_of_ne hjk.symm,
        Function.update_self, elementsUpTo_succ rows, hrow, ← hold, elementsUpTo_succ rows',
        elements_append, elements_cons, elements_cons, elements_cons, elements_nil, hlive,
        hrestLive]
      conv_rhs => rw [← List.take_append_drop (p.minBlockSize - carry.size) b.live]
      simp only [List.append_assoc, List.nil_append]
  · have hvacant := hshrunk.vacant hjn (by rw [hrowj]; exact hend)
    rw [hrowj] at hvacant
    simp only [replacedByCarry]
    rw [hfirst, if_neg hroom, h.laidOut.startIndex_eq, hprev, h.laidOut.startIndex_eq, hwritten,
      ← Nat.add_zero (base k).startIndex, hvacant]

/-- The last block of the task becomes the carry block if it is too small. -/
lemma Absorbed.takeCarry (h : Absorbed p W base n rows k s rows') (hc : Consecutive base n)
    (hk : k < n) : ∃ rows'', Carrying p W base n rows (k + 1)
      (s.takeCarry p (PmaEntry.null p.toBlockParams) k) rows'' := by
  have hwritten := h.laidOut.written_eq k hk
  -- the task keeps its blocks
  have hkeep : (∀ c ∈ rows' k, p.minBlockSize ≤ c.size) →
      Carrying p W base n rows (k + 1) (s, PmaEntry.null p.toBlockParams) rows' := by
    intro hlarge
    refine ⟨h.laidOut, h.untouched, h.length_le, ?_, ?_, Or.inl rfl⟩
    · intro t ht c hc'
      rcases Nat.lt_succ_iff_lt_or_eq.mp ht with hlt | rfl
      · exact h.good t hlt c hc'
      · exact ⟨h.valid c hc', hlarge c hc'⟩
    · simpa using h.elements_eq
  simp only [OverallocatedBatchedSparseArray.takeCarry]
  rw [h.laidOut.type_eq, hwritten, h.laidOut.startIndex_eq]
  rcases List.eq_nil_or_concat (rows' k) with hnil | ⟨init, l, hrow⟩
  · rw [if_neg (by simp [hnil])]
    exact ⟨rows', hkeep (by simp [hnil])⟩
  · rw [List.concat_eq_append] at hrow
    have hlen : (rows' k).length = init.length + 1 := by simp [hrow]
    have hinit : ∀ c ∈ init, p.minBlockSize ≤ c.size := by
      have hold := h.sized.1
      rwa [hrow, List.dropLast_concat] at hold
    have hwidth := h.length_le k hk
    have hfits : (base k).startIndex + init.length < (base (k + 1)).startIndex := by
      have := hc k hk
      omega
    have hlast : s.swapPma ((base k).startIndex + init.length) = l := by
      rw [h.laidOut.cell_eq k hk _ hfits, hrow, List.getD_eq_getElem?_getD,
        List.getElem?_concat_length]
      rfl
    have hindex : (base k).startIndex + (rows' k).length - 1 =
        (base k).startIndex + init.length := by omega
    rw [hindex, hlast]
    by_cases htype : (base k).type = .inverseMerge
    · rw [if_pos ⟨htype, by omega⟩]
      by_cases hsmall : l.size < p.minBlockSize
      · rw [if_pos hsmall]
        refine ⟨Function.update rows' k init, ?_⟩
        constructor
        · exact h.laidOut.takeLast hc hk hrow hfits
        · intro t ht
          rw [Function.update_of_ne (by omega)]
          exact h.untouched t ht
        · exact length_le_update h.length_le (by omega)
        · intro t ht c hc'
          rcases Nat.lt_succ_iff_lt_or_eq.mp ht with hlt | rfl
          · rw [Function.update_of_ne (by omega)] at hc'
            exact h.good t hlt c hc'
          · rw [Function.update_self] at hc'
            exact ⟨h.valid c (by rw [hrow]; exact List.mem_append_left _ hc'), hinit c hc'⟩
        · have hold := h.elements_eq
          rw [elementsUpTo_succ, hrow, elements_append, elements_cons, elements_nil,
            List.append_nil] at hold
          rw [elementsUpTo_succ, elementsUpTo_update (le_refl _), Function.update_self,
            List.append_assoc]
          exact hold
        · refine Or.inr ⟨k, rfl, h.valid l (by simp [hrow]), hsmall, ?_⟩
          rw [Function.update_self]
          omega
      · rw [if_neg hsmall]
        refine ⟨rows', hkeep fun c hc' => ?_⟩
        rw [hrow, List.mem_append, List.mem_singleton] at hc'
        rcases hc' with hc' | rfl
        · exact hinit c hc'
        · exact Nat.le_of_not_lt hsmall
    · rw [if_neg fun hand => htype hand.1]
      exact ⟨rows', hkeep (h.sized.2 htype)⟩

omit [LinearOrder K] in
/-- A task without blocks keeps the carry block. -/
lemma takeCarry_of_nil (h : (s.tasks k).numberOfBlocksWritten = 0) (carry : PmaEntry K α) :
    s.takeCarry p carry k = (s, carry) := by
  simp [takeCarry, h]

omit [LinearOrder K] in
lemma deleteMergeBlock_swapPma [DecidableEq K] (s : OverallocatedBatchedSparseArray K α) (k : ℕ) :
    (s.deleteMergeBlock p k).swapPma = s.swapPma ∧ (s.deleteMergeBlock p k).tasks = s.tasks := by
  rw [deleteMergeBlock]
  split
  · simp only
    split
    · exact ⟨rfl, rfl⟩
    · exact ⟨rfl, rfl⟩
  · exact ⟨rfl, rfl⟩

lemma Carrying.congr (h : Carrying p W base n rows k acc rows')
    {s' : OverallocatedBatchedSparseArray K α} (hswap : s'.swapPma = acc.1.swapPma)
    (htasks : s'.tasks = acc.1.tasks) : Carrying p W base n rows k (s', acc.2) rows' where
  laidOut := h.laidOut.congr hswap htasks
  untouched := h.untouched
  length_le := h.length_le
  good := h.good
  elements_eq := h.elements_eq
  carry := h.carry

/-- **One iteration of the first loop.** -/
lemma Carrying.step (h : Carrying p W base n rows k acc rows') (hc : Consecutive base n) (hk : k < n)
    (hwidth : 0 < (base k).requiredWidth)
    (hinc : Increasing p.toBlockParams (elementsUpTo rows n))
    (hvalid : ∀ c ∈ rows k, c.Valid p.toBlockParams) (hsized : SizedRow p (base k).type (rows k)) :
    (∃ rows'', Carrying p W base n rows (k + 1) (postprocessTask p acc k) rows'') ∧
      ∀ c ∈ replacedByTask p acc k, c = PmaEntry.null p.toBlockParams := by
  have hwritten := h.laidOut.written_eq k hk
  have hrowk := h.untouched k (le_refl _)
  rw [hrowk] at hwritten
  have hfinish : ∀ {s₁ : OverallocatedBatchedSparseArray K α} {c₁ : PmaEntry K α},
      (∃ rows'', Carrying p W base n rows (k + 1) (s₁.takeCarry p c₁ k) rows'') →
      (if acc.2.isEmpty = false ∧ 0 < (acc.1.tasks k).numberOfBlocksWritten then
        (acc.1.mergeCarry p acc.2 k, PmaEntry.null p.toBlockParams) else acc) = (s₁, c₁) →
      ∃ rows'', Carrying p W base n rows (k + 1) (postprocessTask p acc k) rows'' := by
    rintro s₁ c₁ ⟨rows'', hcarrying⟩ heq
    refine ⟨rows'', ?_⟩
    simp only [postprocessTask]
    rw [heq]
    exact hcarrying.congr (deleteMergeBlock_swapPma _ k).1 (deleteMergeBlock_swapPma _ k).2
  obtain ⟨s₀, carry⟩ := acc
  simp only at hfinish hwritten
  cases hrow : rows k with
  | nil =>
      -- nothing happens, and the carry block is still there
      have hzero : (s₀.tasks k).numberOfBlocksWritten = 0 := by rw [hwritten, hrow]; rfl
      constructor
      · refine hfinish ⟨rows', ?_⟩ (if_neg (by simp [hzero]))
        rw [takeCarry_of_nil hzero]
        constructor
        · exact h.laidOut
        · exact fun t ht => h.untouched t (by omega)
        · exact h.length_le
        · intro t ht c hc'
          rcases Nat.lt_succ_iff_lt_or_eq.mp ht with hlt | rfl
          · exact h.good t hlt c hc'
          · rw [hrowk, hrow] at hc'
            exact absurd hc' List.not_mem_nil
        · rw [elementsUpTo_succ, elementsUpTo_succ, hrowk, hrow, elements_nil, List.append_nil,
            List.append_nil]
          exact h.elements_eq
        · rcases h.carry with hnull | ⟨j, -, hcarry, hsmall, -⟩
          · exact Or.inl hnull
          · refine Or.inr ⟨k, rfl, hcarry, hsmall, ?_⟩
            rw [hrowk, hrow]
            exact hwidth
      · simp [replacedByTask, hzero]
  | cons b row =>
      have hpos : 0 < (s₀.tasks k).numberOfBlocksWritten := by rw [hwritten, hrow]; simp
      rcases h.carry with hnull | ⟨j, hj, hcarry, hsmall, hspace⟩
      · simp only at hnull
        subst hnull
        constructor
        · have habsorbed : Absorbed p W base n rows k s₀ rows' :=
            { laidOut := h.laidOut
              untouched := fun t ht => h.untouched t (by omega)
              length_le := h.length_le
              good := h.good
              valid := by
                rw [hrowk]
                exact hvalid
              sized := by
                rw [hrowk]
                exact hsized
              elements_eq := by
                have hold := h.elements_eq
                rw [PmaEntry.live_null, List.append_nil] at hold
                rw [elementsUpTo_succ, elementsUpTo_succ, hold, hrowk] }
          exact hfinish (habsorbed.takeCarry hc hk) (if_neg (by simp))
        · simp [replacedByTask]
      · have hne : carry.isEmpty = false := hcarry.isEmpty_eq
        have hreplaced : replacedByTask p (s₀, carry) k = s₀.replacedByCarry p carry k :=
          if_pos ⟨hne, hpos⟩
        rw [hreplaced]
        by_cases hroom : b.size + carry.size < p.blockSize
        · constructor
          · obtain ⟨rows'', habsorbed⟩ :=
              h.absorb_fits hc hk hinc hrow hvalid hsized hcarry hroom
            exact hfinish (habsorbed.takeCarry hc hk) (if_pos ⟨hne, hpos⟩)
          · obtain ⟨-, -, hfirst⟩ := h.first_eq hc hk hrow
            simp only at hfirst
            simp only [replacedByCarry]
            rw [hfirst, if_pos hroom]
            simp
        · obtain ⟨⟨rows'', habsorbed⟩, hnulls⟩ :=
            h.absorb_steals hc hk hinc hrow hvalid hsized hcarry hsmall hj hspace hroom
          constructor
          · exact hfinish (habsorbed.takeCarry hc hk) (if_pos ⟨hne, hpos⟩)
          · rw [hnulls]
            simp

/-! ## All tasks -/

lemma carrying_start (h : s.LeftByTasks p n) :
    Carrying p s.swapPma s.tasks n s.writtenBlocks 0 (s, PmaEntry.null p.toBlockParams) s.writtenBlocks where
  laidOut := h.laidOut
  untouched := fun _ _ => rfl
  length_le := fun t ht => (s.length_writtenBlocks t).le.trans (h.written_le t ht)
  good := fun t ht => absurd ht (Nat.not_lt_zero t)
  elements_eq := rfl
  carry := Or.inl rfl

/-- **The first loop.** -/
lemma LeftByTasks.carrying (h : s.LeftByTasks p n) : ∀ {k : ℕ}, k ≤ n →
    (∃ rows', Carrying p s.swapPma s.tasks n s.writtenBlocks k (s.carriedTo p k) rows') ∧
      ∀ u < k, ∀ c ∈ replacedByTask p (s.carriedTo p u) u, c = PmaEntry.null p.toBlockParams := by
  intro k hk
  induction k with
  | zero => exact ⟨⟨_, carrying_start h⟩, fun u hu => absurd hu (Nat.not_lt_zero u)⟩
  | succ k ih =>
      obtain ⟨⟨rows', hcarrying⟩, hnulls⟩ := ih (by omega)
      obtain ⟨hnext, hnull⟩ := hcarrying.step h.consecutive hk (h.width_pos k hk) h.increasing
        (h.valid k hk) (h.sized k hk)
      have hsucc : s.carriedTo p (k + 1) = postprocessTask p (s.carriedTo p k) k := by
        rw [carriedTo, List.range_succ, List.foldl_append]
        rfl
      rw [hsucc]
      refine ⟨hnext, fun u hu => ?_⟩
      rcases Nat.lt_succ_iff_lt_or_eq.mp hu with hlt | rfl
      · exact hnulls u hlt
      · exact hnull

/-! ## The carry block that is left over -/

omit [LinearOrder K] in
/-- The second loop stops at the last task that has blocks. -/
lemma placeCarry_eq (carry : PmaEntry K α) : ∀ m : ℕ,
    (∃ t < m, 0 < (s.tasks t).numberOfBlocksWritten) →
    ∃ t < m, 0 < (s.tasks t).numberOfBlocksWritten ∧
      (∀ u, t < u → u < m → (s.tasks u).numberOfBlocksWritten = 0) ∧
      placeCarry p carry m s = s.mergeLastCarry p carry t ∧
      s.replacedByPlacing p carry m = s.replacedByLastCarry p carry t ∧
      s.carryLeft p carry m = PmaEntry.null p.toBlockParams := by
  intro m
  induction m with
  | zero =>
      rintro ⟨t, ht, -⟩
      exact absurd ht (Nat.not_lt_zero t)
  | succ m ih =>
      rintro ⟨t, ht, hpos⟩
      simp only [placeCarry, replacedByPlacing, carryLeft]
      by_cases hm : 0 < (s.tasks m).numberOfBlocksWritten
      · rw [if_pos hm, if_pos hm, if_pos hm]
        exact ⟨m, Nat.lt_succ_self m, hm, fun u h1 h2 => absurd h1 (by omega), rfl, rfl, rfl⟩
      · rw [if_neg hm, if_neg hm, if_neg hm]
        have htm : t < m := by
          rcases Nat.lt_succ_iff_lt_or_eq.mp ht with hlt | rfl
          · exact hlt
          · exact absurd hpos hm
        obtain ⟨v, hv, hvpos, hbehind, hrest⟩ := ih ⟨t, htm, hpos⟩
        refine ⟨v, by omega, hvpos, fun u h1 h2 => ?_, hrest⟩
        rcases Nat.lt_succ_iff_lt_or_eq.mp h2 with hlt | rfl
        · exact hbehind u h1 hlt
        · omega

/-- All blocks are large enough, and the elements are those of before. -/
structure Even (p : OverallocatedParams K α) (W : ℕ → PmaEntry K α) (base : ℕ → TaskInfo) (n : ℕ)
    (rows : ℕ → List (PmaEntry K α)) (s : OverallocatedBatchedSparseArray K α)
    (rows' : ℕ → List (PmaEntry K α)) : Prop where
  laidOut : LaidOut p W base n s rows'
  length_le : ∀ t < n, (rows' t).length ≤ (base t).requiredWidth
  good : ∀ t < n, ∀ b ∈ rows' t, b.Valid p.toBlockParams ∧ p.minBlockSize ≤ b.size
  elements_eq : elementsUpTo rows' n = elementsUpTo rows n

/-- What is known of the last task with blocks, `l` being the last one of them. -/
structure LastRow (rows' : ℕ → List (PmaEntry K α)) (n t : ℕ) (init : List (PmaEntry K α))
    (l : PmaEntry K α) : Prop where
  lt : t < n
  row_eq : rows' t = init ++ [l]
  behind : ∀ u, t < u → u < n → rows' u = []

section LastRow

variable {t : ℕ} {init : List (PmaEntry K α)} {l : PmaEntry K α}

omit [LinearOrder K] in
lemma LastRow.elements_eq (h : LastRow rows' n t init l) :
    elementsUpTo rows' n = elementsUpTo rows' t ++ elements init ++ l.live := by
  have hlt := h.lt
  rw [elementsUpTo_eq_of_nil (show t + 1 ≤ n from hlt) fun u h1 h2 => h.behind u h1 h2,
    elementsUpTo_succ, h.row_eq, elements_append, elements_cons, elements_nil, List.append_nil,
    List.append_assoc]

lemma LastRow.cell_eq (h : LastRow rows' n t init l) (hc : Consecutive base n)
    (hcarrying : Carrying p W base n rows k acc rows') :
    (base t).startIndex + init.length < (base (t + 1)).startIndex ∧
      (acc.1.tasks t).startIndex + (acc.1.tasks t).numberOfBlocksWritten - 1 =
        (base t).startIndex + init.length ∧
      acc.1.swapPma ((base t).startIndex + init.length) = l := by
  have hlen : (rows' t).length = init.length + 1 := by simp [h.row_eq]
  have hfits := hcarrying.fits hc h.lt (j := init.length) (by omega)
  have hwritten := hcarrying.laidOut.written_eq t h.lt
  refine ⟨hfits, ?_, ?_⟩
  · rw [hcarrying.laidOut.startIndex_eq, hwritten]
    omega
  · rw [hcarrying.laidOut.cell_eq t h.lt _ hfits, h.row_eq, List.getD_eq_getElem?_getD,
      List.getElem?_concat_length]
    rfl

/-- The keys of the carry block lie above those of the last block. -/
lemma LastRow.above (h : LastRow rows' n t init l)
    (hcarrying : Carrying p W base n rows n acc rows')
    (hinc : Increasing p.toBlockParams (elementsUpTo rows n)) :
    ∀ x ∈ l.live, ∀ y ∈ acc.2.live, p.keyOf x < p.keyOf y := by
  rw [← hcarrying.elements_eq, h.elements_eq] at hinc
  intro x hx y hy
  exact Ordered.lt hinc x (List.mem_append_right _ hx) y hy

omit [LinearOrder K] in
lemma LastRow.set_eq (h : LastRow rows' n t init l) (b : PmaEntry K α) :
    (rows' t).set init.length b = init ++ [b] := by
  rw [h.row_eq, List.set_append_right _ _ (le_refl _), Nat.sub_self]
  rfl

omit [LinearOrder K] in
/-- Another last block. -/
lemma LastRow.replace (h : LastRow rows' n t init l) (b : PmaEntry K α) :
    LastRow (Function.update rows' t (init ++ [b])) n t init b where
  lt := h.lt
  row_eq := Function.update_self _ _ _
  behind := fun u h1 h2 => by
    rw [Function.update_of_ne (by omega)]
    exact h.behind u h1 h2

omit [LinearOrder K] in
lemma LastRow.length_le_replace (h : LastRow rows' n t init l) (b : PmaEntry K α)
    (hle : ∀ u < n, (rows' u).length ≤ (base u).requiredWidth) :
    ∀ u < n, (Function.update rows' t (init ++ [b]) u).length ≤ (base u).requiredWidth := by
  refine length_le_update hle ?_
  have := hle t h.lt
  rw [h.row_eq, List.length_append, List.length_singleton] at this
  rw [List.length_append, List.length_singleton]
  exact this

omit [LinearOrder K] in
lemma LastRow.forall_mem_replace (h : LastRow rows' n t init l) {P : PmaEntry K α → Prop}
    (hP : ∀ u < n, ∀ c ∈ rows' u, P c) (hb : P b) :
    ∀ u < n, ∀ c ∈ Function.update rows' t (init ++ [b]) u, P c := by
  refine forall_rows_update (P := fun _ cs => ∀ c ∈ cs, P c) hP fun c hc => ?_
  rw [List.mem_append, List.mem_singleton] at hc
  rcases hc with hc | rfl
  · exact hP t h.lt c (by rw [h.row_eq]; exact List.mem_append_left _ hc)
  · exact hb

/-- The carry block fits into the last block. -/
lemma LastRow.place_fits (h : LastRow rows' n t init l) (hc : Consecutive base n)
    (hcarrying : Carrying p W base n rows n (s, carry) rows')
    (hinc : Increasing p.toBlockParams (elementsUpTo rows n))
    (hcarry : carry.Valid p.toBlockParams) (hroom : l.size + carry.size < p.blockSize) :
    ∃ rows'', Even p W base n rows (s.mergeLastCarry p carry t) rows'' := by
  obtain ⟨hfits, hindex, hcell⟩ := h.cell_eq hc hcarrying
  simp only at hindex hcell
  have hlen : (rows' t).length = init.length + 1 := by simp [h.row_eq]
  obtain ⟨hl, hlarge⟩ := hcarrying.good t h.lt l (by simp [h.row_eq])
  obtain ⟨hfilled, hlive, -⟩ := hcarry.filled.mergeSmaller_spec hl.filled (by omega)
    (h.above hcarrying hinc)
  have hsize : (carry.mergeSmaller p.toBlockParams l).size = carry.size + l.size := rfl
  have hstep : s.mergeLastCarry p carry t = s.setSwap ((base t).startIndex + init.length)
      (carry.mergeSmaller p.toBlockParams l) := by
    simp only [mergeLastCarry]
    rw [hindex, hcell, if_pos hroom]
  have hrow := h.set_eq (carry.mergeSmaller p.toBlockParams l)
  have hnew := h.replace (carry.mergeSmaller p.toBlockParams l)
  refine ⟨Function.update rows' t (init ++ [carry.mergeSmaller p.toBlockParams l]), ?_, ?_, ?_, ?_⟩
  · rw [hstep, ← hrow]
    exact hcarrying.laidOut.replace hc h.lt (by omega) hfits
  · exact h.length_le_replace _ hcarrying.length_le
  · exact h.forall_mem_replace hcarrying.good ⟨hfilled.valid (by have := hcarry.size_pos; omega),
      by omega⟩
  · have hold := hcarrying.elements_eq
    rw [h.elements_eq] at hold
    rw [hnew.elements_eq, elementsUpTo_update (le_refl _), hlive, ← hold]
    simp only [List.append_assoc]

/-- The task that a carry block goes to which does not fit into the last block. -/
structure CarryTarget (base : ℕ → TaskInfo) (rows' : ℕ → List (PmaEntry K α)) (n t v : ℕ) :
    Prop where
  lt : v < n
  space : (rows' v).length < (base v).requiredWidth
  eq : if (rows' t).length < (base t).requiredWidth then v = t else v = t + 1 ∧ rows' v = []

omit [LinearOrder K] in
/-- If the last task with blocks has no room, there is a task behind it. -/
lemma LastRow.carryTarget (h : LastRow rows' n t init l)
    (hwidth : ∀ u < n, 0 < (base u).requiredWidth)
    (hspace : ∃ j, n = j + 1 ∧ (rows' j).length < (base j).requiredWidth) :
    ∃ v, CarryTarget base rows' n t v := by
  by_cases hroom : (rows' t).length < (base t).requiredWidth
  · exact ⟨t, h.lt, hroom, by rw [if_pos hroom]⟩
  · obtain ⟨j, hj, hspacej⟩ := hspace
    have hlt := h.lt
    have htj : t + 1 < n := by
      rcases Nat.lt_or_ge (t + 1) n with hlt' | hge
      · exact hlt'
      · obtain rfl : t = j := by omega
        exact absurd hspacej hroom
    have hnil := h.behind (t + 1) (Nat.lt_succ_self t) htj
    refine ⟨t + 1, htj, ?_, ?_⟩
    · rw [hnil]
      exact hwidth (t + 1) htj
    · rw [if_neg hroom]
      exact ⟨rfl, hnil⟩

omit [LinearOrder K] in
lemma CarryTarget.le {v : ℕ} (hv : CarryTarget base rows' n t v) : t ≤ v := by
  have heq := hv.eq
  split at heq <;> omega

omit [LinearOrder K] in
/-- The change of the last block leaves the number of blocks of the target alone. -/
lemma CarryTarget.length_replace {v : ℕ} (hv : CarryTarget base rows' n t v)
    (h : LastRow rows' n t init l) (b : PmaEntry K α) :
    (Function.update rows' t (init ++ [b]) v).length = (rows' v).length := by
  rcases eq_or_ne v t with rfl | hne
  · rw [Function.update_self, h.row_eq, List.length_append, List.length_append,
      List.length_singleton, List.length_singleton]
  · rw [Function.update_of_ne hne]

section

variable {v : ℕ} (h : LastRow rows' n t init l) (hv : CarryTarget base rows' n t v)
  (hc : Consecutive base n) (hcarrying : Carrying p W base n rows n (s, carry) rows')
  (hroom : ¬ l.size + carry.size < p.blockSize)
include h hv hc hcarrying hroom

/-- What is written: the rest of the last block, then the carry block behind it. -/
lemma CarryTarget.mergeLastCarry_eq : s.mergeLastCarry p carry t =
    ((s.setSwap ((base t).startIndex + init.length)
      (carry.stealFromSmaller p.toBlockParams l).2).setSwap
        ((base v).startIndex + (rows' v).length)
          (carry.stealFromSmaller p.toBlockParams l).1).addWrittenBlock v := by
  obtain ⟨-, hindex, hcell⟩ := h.cell_eq hc hcarrying
  have hwritten : (s.tasks t).numberOfBlocksWritten = (rows' t).length :=
    hcarrying.laidOut.written_eq t h.lt
  have htarget := hv.eq
  simp only at hindex hcell
  simp only [mergeLastCarry]
  rw [hindex, hcell, if_neg hroom, hwritten, hcarrying.laidOut.requiredWidth_eq,
    hcarrying.laidOut.startIndex_eq, hcarrying.laidOut.startIndex_eq]
  by_cases hroomt : (rows' t).length < (base t).requiredWidth
  · rw [if_pos hroomt] at htarget ⊢
    rw [htarget]
  · rw [if_neg hroomt] at htarget ⊢
    rw [htarget.2, htarget.1]
    rfl

/-- The carry block is written to a cell that was empty. -/
lemma CarryTarget.replacedByLastCarry_eq :
    s.replacedByLastCarry p carry t = [PmaEntry.null p.toBlockParams] := by
  obtain ⟨hfits, hindex, hcell⟩ := h.cell_eq hc hcarrying
  have hwritten : (s.tasks t).numberOfBlocksWritten = (rows' t).length :=
    hcarrying.laidOut.written_eq t h.lt
  have htarget := hv.eq
  have hlaid : LaidOut p W base n s rows' := hcarrying.laidOut
  have hshrunk := hlaid.replace (b := (carry.stealFromSmaller p.toBlockParams l).2) hc h.lt
    (j := init.length) (by simp [h.row_eq]) hfits
  rw [h.set_eq] at hshrunk
  have hvacant := hshrunk.vacant hv.lt (by
    rw [hv.length_replace h]
    have := hc v hv.lt
    have := hv.space
    omega)
  rw [hv.length_replace h] at hvacant
  simp only at hindex hcell
  simp only [replacedByLastCarry]
  rw [hindex, hcell, if_neg hroom, hwritten, hcarrying.laidOut.requiredWidth_eq,
    hcarrying.laidOut.startIndex_eq, hcarrying.laidOut.startIndex_eq]
  by_cases hroomt : (rows' t).length < (base t).requiredWidth
  · rw [if_pos hroomt] at htarget ⊢
    rw [htarget] at hvacant
    rw [hvacant]
  · rw [if_neg hroomt] at htarget ⊢
    rw [htarget.2, List.length_nil, Nat.add_zero, htarget.1] at hvacant
    rw [hvacant]

end

/-- The carry block is filled up from the last block, and goes behind it or to the next task. -/
lemma LastRow.place_steals (h : LastRow rows' n t init l) (hc : Consecutive base n)
    (hwidth : ∀ u < n, 0 < (base u).requiredWidth)
    (hcarrying : Carrying p W base n rows n (s, carry) rows')
    (hinc : Increasing p.toBlockParams (elementsUpTo rows n))
    (hcarry : carry.Valid p.toBlockParams) (hsmall : carry.size < p.minBlockSize)
    (hspace : ∃ j, n = j + 1 ∧ (rows' j).length < (base j).requiredWidth)
    (hroom : ¬ l.size + carry.size < p.blockSize) :
    (∃ rows'', Even p W base n rows (s.mergeLastCarry p carry t) rows'') ∧
      s.replacedByLastCarry p carry t = [PmaEntry.null p.toBlockParams] := by
  obtain ⟨hfits, -, -⟩ := h.cell_eq hc hcarrying
  obtain ⟨v, hv⟩ := h.carryTarget hwidth hspace
  obtain ⟨hl, hlarge⟩ := hcarrying.good t h.lt l (by simp [h.row_eq])
  have hmin : 2 * p.minBlockSize ≤ p.blockSize := by
    rw [BlockParams.minBlockSize]
    omega
  have hle := hl.size_le
  obtain ⟨⟨hfilled, hlive, -⟩, hrestFilled, hrestLive, -⟩ :=
    hcarry.filled.stealFromSmaller_spec hl.filled hsmall.le (by omega) (h.above hcarrying hinc)
  have hsize : (carry.stealFromSmaller p.toBlockParams l).1.size =
      carry.size + (p.minBlockSize - carry.size) := rfl
  have hrestSize : (carry.stealFromSmaller p.toBlockParams l).2.size =
      l.size - (p.minBlockSize - carry.size) := rfl
  refine ⟨?_, hv.replacedByLastCarry_eq h hc hcarrying hroom⟩
  rw [hv.mergeLastCarry_eq h hc hcarrying hroom]
  generalize (carry.stealFromSmaller p.toBlockParams l).1 = grown at *
  generalize (carry.stealFromSmaller p.toBlockParams l).2 = rest at *
  -- first the rest is written, then the carry block
  have hlaid : LaidOut p W base n s rows' := hcarrying.laidOut
  have hshrunk := hlaid.replace (b := rest) hc h.lt (j := init.length) (by simp [h.row_eq]) hfits
  rw [h.set_eq] at hshrunk
  have hrest := h.replace rest
  have hwidths := h.length_le_replace rest hcarrying.length_le
  have hgood := h.forall_mem_replace hcarrying.good
    (show rest.Valid p.toBlockParams ∧ p.minBlockSize ≤ rest.size from
      ⟨hrestFilled.valid (by omega), by omega⟩)
  have hlen := hv.length_replace h rest
  have hnil : ∀ u, v < u → u < n → Function.update rows' t (init ++ [rest]) u = [] :=
    fun u h1 h2 => hrest.behind u (lt_of_le_of_lt hv.le h1) h2
  have hfront : elementsUpTo (Function.update rows' t (init ++ [rest])) t = elementsUpTo rows' t :=
    elementsUpTo_update (le_refl _)
  generalize Function.update rows' t (init ++ [rest]) = shrunk at *
  refine ⟨Function.update shrunk v (shrunk v ++ [grown]), ?_, ?_, ?_, ?_⟩
  · rw [← hlen]
    refine hshrunk.append hc hv.lt ?_
    have := hc v hv.lt
    have := hv.space
    omega
  · refine length_le_update hwidths ?_
    rw [List.length_append, List.length_singleton, hlen]
    exact hv.space
  · refine forall_rows_update (P := fun _ cs => ∀ c ∈ cs, c.Valid p.toBlockParams ∧
      p.minBlockSize ≤ c.size) hgood fun c hc' => ?_
    rw [List.mem_append, List.mem_singleton] at hc'
    rcases hc' with hc' | rfl
    · exact hgood v hv.lt c hc'
    · exact ⟨hfilled.valid (by omega), by omega⟩
  · have hold := hcarrying.elements_eq
    rw [h.elements_eq] at hold
    rw [elementsUpTo_append hv.lt hnil, hrest.elements_eq, hfront, hlive, hrestLive,
      ← hold]
    conv_rhs => rw [← List.take_append_drop (l.size + carry.size - p.minBlockSize) l.live]
    simp only [List.append_assoc]

end LastRow

/-- **The second loop.** -/
lemma Carrying.place (h : Carrying p W base n rows n (s, carry) rows') (hc : Consecutive base n)
    (hwidth : ∀ u < n, 0 < (base u).requiredWidth)
    (hinc : Increasing p.toBlockParams (elementsUpTo rows n))
    (henough : p.minBlockSize ≤ (elementsUpTo rows n).length)
    (hcarry : carry.isEmpty = false) :
    (∃ rows'', Even p W base n rows (placeCarry p carry n s) rows'') ∧
      (∀ c ∈ s.replacedByPlacing p carry n, c = PmaEntry.null p.toBlockParams) ∧
      s.carryLeft p carry n = PmaEntry.null p.toBlockParams := by
  rcases h.carry with hnull | ⟨j, hj, hvalid, hsmall, hspace⟩
  · simp only at hnull
    simp [hnull] at hcarry
  · simp only at hvalid hsmall
    -- the carry block does not hold all elements, so there is a block to its left
    obtain ⟨t, ht, hpos⟩ : ∃ t < n, 0 < (s.tasks t).numberOfBlocksWritten := by
      by_contra hnone
      push Not at hnone
      have hnil : ∀ t, 0 ≤ t → t < n → rows' t = [] := by
        intro t _ ht
        have hzero := hnone t ht
        have hwritten := h.laidOut.written_eq t ht
        simp only at hwritten
        exact List.eq_nil_of_length_eq_zero (by omega)
      have heq := h.elements_eq
      rw [elementsUpTo_eq_of_nil (Nat.zero_le n) hnil, elementsUpTo_zero, List.nil_append] at heq
      simp only at heq
      rw [← heq, hvalid.length_live] at henough
      omega
    obtain ⟨v, hv, hvpos, hbehind, hplace, hreplaced, hleft⟩ := placeCarry_eq carry n ⟨t, ht, hpos⟩
    have hwritten : (s.tasks v).numberOfBlocksWritten = (rows' v).length :=
      h.laidOut.written_eq v hv
    obtain ⟨init, l, hrow⟩ : ∃ init l, rows' v = init ++ [l] := by
      rcases List.eq_nil_or_concat (rows' v) with hnil | ⟨init, l, hrow⟩
      · rw [hnil, List.length_nil] at hwritten
        omega
      · exact ⟨init, l, hrow.trans List.concat_eq_append⟩
    have hlast : LastRow rows' n v init l :=
      { lt := hv
        row_eq := hrow
        behind := fun u h1 h2 => by
          have hzero := hbehind u h1 h2
          have hlen : (s.tasks u).numberOfBlocksWritten = (rows' u).length :=
            h.laidOut.written_eq u h2
          exact List.eq_nil_of_length_eq_zero (by omega) }
    rw [hplace, hreplaced]
    by_cases hroom : l.size + carry.size < p.blockSize
    · refine ⟨hlast.place_fits hc h hinc hvalid hroom, ?_, hleft⟩
      obtain ⟨-, hindex, hcell⟩ := hlast.cell_eq hc h
      simp only at hindex hcell
      simp only [replacedByLastCarry]
      rw [hindex, hcell, if_pos hroom]
      simp
    · obtain ⟨heven, hnulls⟩ :=
        hlast.place_steals hc hwidth h hinc hvalid hsmall ⟨j, hj, hspace⟩ hroom
      refine ⟨heven, ?_, hleft⟩
      rw [hnulls]
      simp

/-- What `postprocessInverseMergeTasks` makes of the tasks' blocks. -/
structure EvenedOut (p : OverallocatedParams K α) (n : ℕ)
    (s r : OverallocatedBatchedSparseArray K α) : Prop where
  tasks_eq : ∀ t, r.tasks t =
    { s.tasks t with numberOfBlocksWritten := (r.tasks t).numberOfBlocksWritten }
  elements_eq : elementsUpTo r.writtenBlocks n = elementsUpTo s.writtenBlocks n
  good : ∀ t < n, ∀ b ∈ r.writtenBlocks t, b.Valid p.toBlockParams ∧
    p.minBlockSize ≤ b.size ∧ b.size ≤ p.blockSize
  written_le : ∀ t < n, (r.tasks t).startIndex + (r.tasks t).numberOfBlocksWritten ≤
    (r.tasks (t + 1)).startIndex
  vacant : ∀ t < n, ∀ c, (r.tasks t).startIndex + (r.tasks t).numberOfBlocksWritten ≤ c →
    c < (r.tasks (t + 1)).startIndex → r.swapPma c = PmaEntry.null p.toBlockParams
  outside_eq : ∀ c, (c < (s.tasks 0).startIndex ∨ (s.tasks n).startIndex ≤ c) →
    r.swapPma c = s.swapPma c

lemma Even.evenedOut {r : OverallocatedBatchedSparseArray K α}
    (h : Even p s.swapPma s.tasks n s.writtenBlocks r rows') (hc : Consecutive s.tasks n) :
    EvenedOut p n s r := by
  have hfits : ∀ t < n, (s.tasks t).startIndex + (rows' t).length ≤
      (s.tasks (t + 1)).startIndex := by
    intro t ht
    have h1 := h.length_le t ht
    have h2 := hc t ht
    omega
  have hblocks : ∀ t < n, r.writtenBlocks t = rows' t := fun t ht =>
    h.laidOut.writtenBlocks_eq ht (hfits t ht)
  constructor
  · exact h.laidOut.tasks_eq
  · rw [elementsUpTo_congr hblocks]
    exact h.elements_eq
  · intro t ht b hb
    rw [hblocks t ht] at hb
    obtain ⟨hvalid, hlarge⟩ := h.good t ht b hb
    exact ⟨hvalid, hlarge, hvalid.size_le⟩
  · intro t ht
    rw [h.laidOut.startIndex_eq, h.laidOut.startIndex_eq, h.laidOut.written_eq t ht]
    exact hfits t ht
  · intro t ht c hle hlt
    rw [h.laidOut.startIndex_eq, h.laidOut.written_eq t ht] at hle
    rw [h.laidOut.startIndex_eq] at hlt
    obtain ⟨j, rfl⟩ := Nat.exists_eq_add_of_le (show (s.tasks t).startIndex ≤ c by omega)
    rw [h.laidOut.cell_eq t ht j hlt, List.getD_eq_getElem?_getD,
      List.getElem?_eq_none (by omega)]
    rfl
  · exact h.laidOut.outside_eq

lemma postprocessInverseMergeTasks_eq (s : OverallocatedBatchedSparseArray K α) (n : ℕ) :
    s.postprocessInverseMergeTasks p n =
      if (s.carriedTo p n).2.isEmpty then (s.carriedTo p n).1
      else placeCarry p (s.carriedTo p n).2 n (s.carriedTo p n).1 := rfl

lemma LeftByTasks.even (h : s.LeftByTasks p n)
    (henough : p.minBlockSize ≤ (elementsUpTo s.writtenBlocks n).length) :
    (∃ rows', Even p s.swapPma s.tasks n s.writtenBlocks (s.postprocessInverseMergeTasks p n)
        rows') ∧
      s.finalCarry p n = PmaEntry.null p.toBlockParams ∧
      ∀ c ∈ s.replacedByCarries p n, c = PmaEntry.null p.toBlockParams := by
  obtain ⟨⟨rows', hcarrying⟩, hnulls⟩ := h.carrying (le_refl n)
  have hfirst : ∀ c ∈ (List.range n).flatMap fun thread =>
      replacedByTask p (s.carriedTo p thread) thread, c = PmaEntry.null p.toBlockParams := by
    intro c hc
    obtain ⟨u, hu, hc⟩ := List.mem_flatMap.mp hc
    exact hnulls u (List.mem_range.mp hu) c hc
  rw [postprocessInverseMergeTasks_eq, finalCarry, replacedByCarries]
  generalize s.carriedTo p n = acc at hcarrying ⊢
  obtain ⟨r, carry⟩ := acc
  simp only
  cases hempty : carry.isEmpty with
  | true =>
      have hcarry : carry = PmaEntry.null p.toBlockParams := by
        rcases hcarrying.carry with hnull | ⟨j, -, hvalid, -⟩
        · exact hnull
        · have hne := hvalid.isEmpty_eq
          simp only at hne
          rw [hempty] at hne
          cases hne
      have heven : Even p s.swapPma s.tasks n s.writtenBlocks r rows' :=
        { laidOut := hcarrying.laidOut
          length_le := hcarrying.length_le
          good := hcarrying.good
          elements_eq := by
            have hold := hcarrying.elements_eq
            simpa [hcarry] using hold }
      refine ⟨⟨rows', heven⟩, hcarry, ?_⟩
      simpa using hfirst
  | false =>
      obtain ⟨heven, hplaced, hleft⟩ := hcarrying.place h.consecutive h.width_pos
        h.increasing henough hempty
      refine ⟨heven, hleft, ?_⟩
      intro c hc
      rcases List.mem_append.mp hc with hc | hc
      · exact hfirst c hc
      · exact hplaced c hc

/-- **Carry post-processing.** -/
lemma LeftByTasks.evenedOut (h : s.LeftByTasks p n)
    (henough : p.minBlockSize ≤ (elementsUpTo s.writtenBlocks n).length) :
    EvenedOut p n s (s.postprocessInverseMergeTasks p n) ∧
      s.finalCarry p n = PmaEntry.null p.toBlockParams ∧
      ∀ c ∈ s.replacedByCarries p n, c = PmaEntry.null p.toBlockParams := by
  obtain ⟨⟨rows', heven⟩, hrest⟩ := h.even henough
  exact ⟨heven.evenedOut h.consecutive, hrest⟩

omit [LinearOrder K] in
lemma placeCarry_of_none (carry : PmaEntry K α) : ∀ m : ℕ,
    (∀ t < m, (s.tasks t).numberOfBlocksWritten = 0) → placeCarry p carry m s = s := by
  intro m
  induction m with
  | zero => exact fun _ => rfl
  | succ m ih =>
      intro hnone
      rw [placeCarry, if_neg (by rw [hnone m (Nat.lt_succ_self m)]; exact lt_irrefl 0)]
      exact ih fun t ht => hnone t (Nat.lt_succ_of_lt ht)

/-- With fewer elements than a block has to have, no block is left, and nobody takes the carry
block. -/
lemma LeftByTasks.lost (h : s.LeftByTasks p n)
    (hfew : (elementsUpTo s.writtenBlocks n).length < p.minBlockSize) :
    ∃ rows', LaidOut p s.swapPma s.tasks n (s.postprocessInverseMergeTasks p n) rows' ∧
      ∀ t < n, rows' t = [] := by
  obtain ⟨⟨rows', hcarrying⟩, -⟩ := h.carrying (le_refl n)
  have hnil : ∀ t < n, rows' t = [] := by
    intro t ht
    rw [List.eq_nil_iff_forall_not_mem]
    intro b hb
    have hgood := hcarrying.good t ht b hb
    have hlen := congrArg List.length hcarrying.elements_eq
    have hsub : b.live.length ≤ (elementsUpTo rows' n).length := by
      have hmem : b ∈ (List.range n).flatMap rows' :=
        List.mem_flatMap.mpr ⟨t, List.mem_range.mpr ht, hb⟩
      obtain ⟨front, behind, heq⟩ := List.append_of_mem hmem
      rw [elementsUpTo, heq, elements_append, elements_cons]
      simp only [List.length_append]
      omega
    rw [List.length_append] at hlen
    rw [hgood.1.length_live] at hsub
    omega
  have hwritten : ∀ t < n, ((s.carriedTo p n).1.tasks t).numberOfBlocksWritten = 0 := fun t ht => by
    rw [hcarrying.laidOut.written_eq t ht, hnil t ht]
    rfl
  refine ⟨rows', ?_, hnil⟩
  rw [postprocessInverseMergeTasks_eq, placeCarry_of_none _ n hwritten, ite_self]
  exact hcarrying.laidOut

end OverallocatedBatchedSparseArray

end BatchPMA
