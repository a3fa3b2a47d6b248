import BatchPMA.Model.OutOfPlace
import BatchPMA.Insertion.Splitting

/-!
# The ranges of the tasks in the swap array

`LaidOut` describes the swap array while the tasks' blocks are moved about in it: task `t` has the
blocks `rows t`, one after the other from the start of its range, and the other cells of its range
are null.  One write changes one row, so what the code does to the array is read off the rows.
-/

namespace BatchPMA

namespace OverallocatedBatchedSparseArray

variable {K α : Type} {p : OverallocatedParams K α}
  {s s' : OverallocatedBatchedSparseArray K α} {base : ℕ → TaskInfo} {n : ℕ}
  {W : ℕ → PmaEntry K α} {rows : ℕ → List (PmaEntry K α)} {row init : List (PmaEntry K α)}
  {b b' : PmaEntry K α}

/-- The blocks of a task in the swap array. -/
def writtenBlocks (s : OverallocatedBatchedSparseArray K α) (t : ℕ) : List (PmaEntry K α) :=
  (List.range (s.tasks t).numberOfBlocksWritten).map fun j => s.swapPma ((s.tasks t).startIndex + j)

/-- The ranges of the tasks follow each other, each at least as long as the width asked for. -/
def Consecutive (base : ℕ → TaskInfo) (n : ℕ) : Prop :=
  ∀ t < n, (base t).startIndex + (base t).requiredWidth ≤ (base (t + 1)).startIndex

lemma Consecutive.start_le (h : Consecutive base n) {t : ℕ} : ∀ {u : ℕ}, t ≤ u → u ≤ n →
    (base t).startIndex ≤ (base u).startIndex := by
  intro u htu
  induction u, htu using Nat.le_induction with
  | base => exact fun _ => le_refl _
  | succ u _ ih =>
      intro hu
      have h1 := ih (by omega)
      have h2 := h u hu
      omega

/-- `W` is what lies outside of the ranges. -/
structure LaidOut (p : OverallocatedParams K α) (W : ℕ → PmaEntry K α) (base : ℕ → TaskInfo) (n : ℕ)
    (s : OverallocatedBatchedSparseArray K α) (rows : ℕ → List (PmaEntry K α)) : Prop where
  tasks_eq : ∀ t, s.tasks t =
    { base t with numberOfBlocksWritten := (s.tasks t).numberOfBlocksWritten }
  written_eq : ∀ t < n, (s.tasks t).numberOfBlocksWritten = (rows t).length
  cell_eq : ∀ t < n, ∀ j, (base t).startIndex + j < (base (t + 1)).startIndex →
    s.swapPma ((base t).startIndex + j) = (rows t).getD j (PmaEntry.null p.toBlockParams)
  outside_eq : ∀ c, (c < (base 0).startIndex ∨ (base n).startIndex ≤ c) → s.swapPma c = W c

lemma LaidOut.startIndex_eq (h : LaidOut p W base n s rows) (t : ℕ) :
    (s.tasks t).startIndex = (base t).startIndex := by
  rw [h.tasks_eq t]

lemma LaidOut.requiredWidth_eq (h : LaidOut p W base n s rows) (t : ℕ) :
    (s.tasks t).requiredWidth = (base t).requiredWidth := by
  rw [h.tasks_eq t]

lemma LaidOut.type_eq (h : LaidOut p W base n s rows) (t : ℕ) :
    (s.tasks t).type = (base t).type := by
  rw [h.tasks_eq t]

lemma LaidOut.writtenBlocks_eq (h : LaidOut p W base n s rows) {t : ℕ} (ht : t < n)
    (hfits : (base t).startIndex + (rows t).length ≤ (base (t + 1)).startIndex) :
    s.writtenBlocks t = rows t := by
  rw [writtenBlocks, h.written_eq t ht, h.startIndex_eq]
  refine List.ext_getElem (by simp) fun j hj hj' => ?_
  rw [List.getElem_map, List.getElem_range, h.cell_eq t ht j (by omega)]
  simp [List.getD_eq_getElem?_getD, List.getElem?_eq_getElem hj']

/-- The cell behind the blocks of a task. -/
lemma LaidOut.vacant (h : LaidOut p W base n s rows) {t : ℕ} (ht : t < n)
    (hend : (base t).startIndex + (rows t).length < (base (t + 1)).startIndex) :
    s.swapPma ((base t).startIndex + (rows t).length) = PmaEntry.null p.toBlockParams := by
  rw [h.cell_eq t ht _ hend, List.getD_eq_getElem?_getD, List.getElem?_eq_none (le_refl _)]
  rfl

/-- Changes that leave the swap array and the tasks alone. -/
lemma LaidOut.congr (h : LaidOut p W base n s rows) (hswap : s'.swapPma = s.swapPma)
    (htasks : s'.tasks = s.tasks) : LaidOut p W base n s' rows where
  tasks_eq := by
    rw [htasks]
    exact h.tasks_eq
  written_eq := by
    rw [htasks]
    exact h.written_eq
  cell_eq := by
    rw [hswap]
    exact h.cell_eq
  outside_eq := by
    rw [hswap]
    exact h.outside_eq

/-- One write into the range of a task. -/
lemma LaidOut.write (h : LaidOut p W base n s rows) (hc : Consecutive base n) {t j : ℕ} (ht : t < n)
    (hj : (base t).startIndex + j < (base (t + 1)).startIndex)
    (hswap : s'.swapPma = Function.update s.swapPma ((base t).startIndex + j) b)
    (htasks : s'.tasks = Function.update s.tasks t
      { s.tasks t with numberOfBlocksWritten := row.length })
    (hrow : ∀ i, row.getD i (PmaEntry.null p.toBlockParams) =
      if i = j then b else (rows t).getD i (PmaEntry.null p.toBlockParams)) :
    LaidOut p W base n s' (Function.update rows t row) where
  tasks_eq := by
    intro u
    rw [htasks]
    rcases eq_or_ne u t with rfl | hne
    · rw [Function.update_self, h.tasks_eq u]
    · rw [Function.update_of_ne hne, h.tasks_eq u]
  written_eq := by
    intro u hu
    rw [htasks]
    rcases eq_or_ne u t with rfl | hne
    · rw [Function.update_self, Function.update_self]
    · rw [Function.update_of_ne hne, Function.update_of_ne hne, h.written_eq u hu]
  cell_eq := by
    intro u hu i hi
    rw [hswap]
    rcases eq_or_ne u t with rfl | hne
    · rw [Function.update_self, hrow]
      rcases eq_or_ne i j with rfl | hij
      · rw [Function.update_self, if_pos rfl]
      · rw [Function.update_of_ne (by omega), if_neg hij, h.cell_eq u hu i hi]
    · rw [Function.update_of_ne hne, Function.update_of_ne _, h.cell_eq u hu i hi]
      rcases Nat.lt_or_gt_of_ne hne with hlt | hlt
      · have := hc.start_le (show u + 1 ≤ t from hlt) ht.le
        omega
      · have := hc.start_le (show t + 1 ≤ u from hlt) hu.le
        omega
  outside_eq := by
    intro c hout
    have h1 := hc.start_le (Nat.zero_le t) ht.le
    have h2 := hc.start_le (show t + 1 ≤ n from ht) (le_refl n)
    rw [hswap, Function.update_of_ne (by omega), h.outside_eq c hout]

/-- A block replaces another one. -/
lemma LaidOut.replace (h : LaidOut p W base n s rows) (hc : Consecutive base n) {t j : ℕ} (ht : t < n)
    (hj : j < (rows t).length)
    (hfits : (base t).startIndex + j < (base (t + 1)).startIndex) :
    LaidOut p W base n (s.setSwap ((base t).startIndex + j) b)
      (Function.update rows t ((rows t).set j b)) := by
  refine h.write hc ht hfits rfl ?_ fun i => ?_
  · rw [List.length_set, ← h.written_eq t ht]
    exact (Function.update_eq_self t s.tasks).symm
  · rw [List.getD_eq_getElem?_getD, List.getD_eq_getElem?_getD, List.getElem?_set]
    rcases eq_or_ne j i with rfl | hne
    · rw [if_pos rfl, if_pos rfl, if_pos hj]
      rfl
    · rw [if_neg hne, if_neg hne.symm]

/-- A block is appended. -/
lemma LaidOut.append (h : LaidOut p W base n s rows) (hc : Consecutive base n) {t : ℕ} (ht : t < n)
    (hfits : (base t).startIndex + (rows t).length < (base (t + 1)).startIndex) :
    LaidOut p W base n ((s.setSwap ((base t).startIndex + (rows t).length) b).addWrittenBlock t)
      (Function.update rows t (rows t ++ [b])) := by
  refine h.write hc ht hfits rfl ?_ fun i => ?_
  · rw [addWrittenBlock, List.length_append, List.length_singleton, ← h.written_eq t ht]
    rfl
  · rw [List.getD_eq_getElem?_getD, List.getD_eq_getElem?_getD]
    rcases lt_trichotomy i (rows t).length with hi | rfl | hi
    · rw [if_neg (by omega), List.getElem?_append_left hi]
    · rw [if_pos rfl, List.getElem?_concat_length]
      rfl
    · rw [if_neg (by omega), List.getElem?_eq_none (by simp; omega),
        List.getElem?_eq_none (by omega)]

/-- The last block is taken away. -/
lemma LaidOut.takeLast (h : LaidOut p W base n s rows) (hc : Consecutive base n) {t : ℕ} (ht : t < n)
    (hrow : rows t = init ++ [b])
    (hfits : (base t).startIndex + init.length < (base (t + 1)).startIndex) :
    LaidOut p W base n
      ((s.setSwap ((base t).startIndex + init.length) (PmaEntry.null p.toBlockParams)).setTask t
        fun task => { task with numberOfBlocksWritten := task.numberOfBlocksWritten - 1 })
      (Function.update rows t init) := by
  refine h.write hc ht hfits rfl ?_ fun i => ?_
  · have hlen := h.written_eq t ht
    rw [hrow, List.length_append, List.length_singleton] at hlen
    have hpred : (s.tasks t).numberOfBlocksWritten - 1 = init.length := by omega
    rw [← hpred]
    rfl
  · rw [hrow, List.getD_eq_getElem?_getD, List.getD_eq_getElem?_getD]
    rcases lt_trichotomy i init.length with hi | rfl | hi
    · rw [if_neg (by omega), List.getElem?_append_left hi]
    · rw [if_pos rfl, List.getElem?_eq_none (le_refl _)]
      rfl
    · rw [if_neg (by omega), List.getElem?_eq_none (by omega),
        List.getElem?_eq_none (by simp; omega)]

/-! ## The elements of the first rows -/

/-- The elements of the tasks in front of task `k`. -/
def elementsUpTo (rows : ℕ → List (PmaEntry K α)) (k : ℕ) : List α :=
  elements ((List.range k).flatMap rows)

@[simp] lemma elementsUpTo_zero (rows : ℕ → List (PmaEntry K α)) : elementsUpTo rows 0 = [] := rfl

lemma elementsUpTo_succ (rows : ℕ → List (PmaEntry K α)) (k : ℕ) :
    elementsUpTo rows (k + 1) = elementsUpTo rows k ++ elements (rows k) := by
  rw [elementsUpTo, List.range_succ, List.flatMap_append, elements_append]
  simp [elementsUpTo]

lemma elementsUpTo_congr {rows' : ℕ → List (PmaEntry K α)} {k : ℕ}
    (h : ∀ t < k, rows' t = rows t) : elementsUpTo rows' k = elementsUpTo rows k := by
  rw [elementsUpTo, elementsUpTo]
  congr 1
  exact List.flatMap_congr fun t ht => h t (List.mem_range.mp ht)

lemma elementsUpTo_update {t k : ℕ} (h : k ≤ t) :
    elementsUpTo (Function.update rows t row) k = elementsUpTo rows k :=
  elementsUpTo_congr fun u hu => Function.update_of_ne (by omega) _ _

/-- Rows without blocks add nothing. -/
lemma elementsUpTo_eq_of_nil {t k : ℕ} (htk : t ≤ k) (h : ∀ u, t ≤ u → u < k → rows u = []) :
    elementsUpTo rows k = elementsUpTo rows t := by
  induction k, htk using Nat.le_induction with
  | base => rfl
  | succ k hk ih =>
      rw [elementsUpTo_succ, h k hk (Nat.lt_succ_self k), elements_nil, List.append_nil]
      exact ih fun u h1 h2 => h u h1 (by omega)

/-- A block behind those of all tasks. -/
lemma elementsUpTo_append {t k : ℕ} (htk : t < k) (h : ∀ u, t < u → u < k → rows u = []) :
    elementsUpTo (Function.update rows t (rows t ++ [b])) k = elementsUpTo rows k ++ b.live := by
  have hnil : ∀ u, t + 1 ≤ u → u < k → Function.update rows t (rows t ++ [b]) u = [] := by
    intro u h1 h2
    rw [Function.update_of_ne (by omega)]
    exact h u h1 h2
  rw [elementsUpTo_eq_of_nil htk hnil, elementsUpTo_eq_of_nil htk h, elementsUpTo_succ,
    elementsUpTo_succ, elementsUpTo_update (le_refl _), Function.update_self, elements_append,
    elements_cons, elements_nil, List.append_nil, List.append_assoc]

/-- A property of all rows survives the change of one of them. -/
lemma forall_rows_update {P : ℕ → List (PmaEntry K α) → Prop} {t k : ℕ} (h : ∀ u < k, P u (rows u))
    (hrow : P t row) : ∀ u < k, P u (Function.update rows t row u) := by
  intro u hu
  rcases eq_or_ne u t with rfl | hne
  · rw [Function.update_self]
    exact hrow
  · rw [Function.update_of_ne hne]
    exact h u hu

lemma length_le_update {t k : ℕ} (h : ∀ u < k, (rows u).length ≤ (base u).requiredWidth)
    (hrow : row.length ≤ (base t).requiredWidth) :
    ∀ u < k, (Function.update rows t row u).length ≤ (base u).requiredWidth :=
  forall_rows_update (P := fun u cs => cs.length ≤ (base u).requiredWidth) h hrow

lemma elementsUpTo_initial {t k : ℕ} (h : t ≤ k) :
    elementsUpTo rows t <+: elementsUpTo rows k := by
  induction k, h using Nat.le_induction with
  | base => exact List.prefix_refl _
  | succ k _ ih =>
      rw [elementsUpTo_succ]
      exact ih.trans (List.prefix_append _ _)

end OverallocatedBatchedSparseArray

end BatchPMA
