import BatchPMA.Insertion.InsertTask

/-!
# An insertion task among other tasks

While a task inserts into its range of the pma, other tasks change the cells outside.  The task
does not notice: with other cells outside it makes the same calls and leaves the same blocks in its
own cells.  A cell of its range keeps its block, or the block takes elements and stays, or it goes
to the buffer.
-/

namespace BatchPMA

open KeyedUnion Ranges

variable {K α : Type} [LinearOrder K]

namespace BatchedSparseArray

variable {p : BatchedParams K α} {s r : BatchedSparseArray K α} {batch : List α}
  {batchRange pmaRange bufferRange : Interval} {pma : ℕ → PmaEntry K α}

/-! ## Other cells outside a range -/

/-- The same state with other cells outside a range of the pma. -/
def withOutside (pmaRange : Interval) (pma : ℕ → PmaEntry K α) (r : BatchedSparseArray K α) :
    BatchedSparseArray K α :=
  { r with pma := fun c => if pmaRange.left ≤ c ∧ c < pmaRange.right then r.pma c else pma c }

omit [LinearOrder K] in
lemma withOutside_pma {c : ℕ} (h1 : pmaRange.left ≤ c) (h2 : c < pmaRange.right) :
    (r.withOutside pmaRange pma).pma c = r.pma c := if_pos ⟨h1, h2⟩

lemma withOutside_empty {c : ℕ} (h1 : pmaRange.left ≤ c) (h2 : c < pmaRange.right) :
    (r.withOutside pmaRange pma).empty p c = r.empty p c :=
  empty_congr (show (r.withOutside pmaRange pma).size = r.size from rfl) (withOutside_pma h1 h2)

omit [LinearOrder K] in
/-- A cell of the range is written. -/
lemma withOutside_update {c : ℕ} (h1 : pmaRange.left ≤ c) (h2 : c < pmaRange.right)
    (b : PmaEntry K α) (pointers : ℕ → Interval) :
    ({ r.withOutside pmaRange pma with
      pma := Function.update (r.withOutside pmaRange pma).pma c b
      bufferPointers := pointers } : BatchedSparseArray K α) =
    withOutside pmaRange pma { r with
      pma := Function.update r.pma c b
      bufferPointers := pointers } := by
  have hfun : Function.update (r.withOutside pmaRange pma).pma c b = fun j =>
      if pmaRange.left ≤ j ∧ j < pmaRange.right then Function.update r.pma c b j else pma j := by
    funext j
    rw [Function.update_apply, Function.update_apply]
    rcases eq_or_ne j c with rfl | hj
    · rw [if_pos rfl, if_pos rfl, if_pos ⟨h1, h2⟩]
    · rw [if_neg hj, if_neg hj]
      rfl
  rw [hfun]
  rfl

/-- **`insertElementsIntoBlock`** on a block of the range. -/
lemma insertElementsIntoBlock_withOutside {c : ℕ} (h1 : pmaRange.left ≤ c)
    (h2 : c < pmaRange.right) (elements : List α) (k : ℕ) :
    (r.withOutside pmaRange pma).insertElementsIntoBlock p c elements bufferRange k =
      ((r.insertElementsIntoBlock p c elements bufferRange k).1.withOutside pmaRange pma,
        (r.insertElementsIntoBlock p c elements bufferRange k).2) := by
  have hpma := @withOutside_pma _ _ r pmaRange pma c h1 h2
  rw [insertElementsIntoBlock, insertElementsIntoBlock, hpma]
  split
  · rw [insertIntoBlockWithoutSplit, hpma]
    exact congrArg (·, []) (withOutside_update h1 h2 _ r.bufferPointers)
  · rw [insertIntoBlockWithSplit, hpma]
    exact congrArg (·, _) (withOutside_update h1 h2 _ _)

lemma findNext_withOutside {c : ℕ} (h1 : pmaRange.left ≤ c) :
    ((r.withOutside pmaRange pma).view p).findNext c pmaRange.right =
      (r.view p).findNext c pmaRange.right :=
  Scan.scanUp_congr fun i _ _ => withOutside_empty (by omega) (by omega)

lemma findLastBatchElementForBlock_withOutside {n next : ℕ} (h1 : pmaRange.left ≤ next)
    (h2 : next ≤ pmaRange.right) :
    (r.withOutside pmaRange pma).findLastBatchElementForBlock p batch n batchRange next pmaRange =
      r.findLastBatchElementForBlock p batch n batchRange next pmaRange := by
  rw [findLastBatchElementForBlock, findLastBatchElementForBlock]
  split
  · rfl
  · have hhead : ((r.withOutside pmaRange pma).view p).head next = (r.view p).head next :=
      congrArg PmaEntry.head (withOutside_pma h1 (by omega))
    rw [hhead]

/-! ## What becomes of a cell -/

/-- A cell is left alone, or its block takes elements and stays, or it moves to the buffer. -/
inductive CellFate (p : BatchedParams K α) (s r : BatchedSparseArray K α) (c : ℕ) : Prop
  | kept (pma : r.pma c = s.pma c) (pointers : r.bufferPointers c = s.bufferPointers c)
  | filled (before : s.empty p c = false) (now : r.empty p c = false)
      (size : (s.pma c).size ≤ (r.pma c).size)
      (pointers : r.bufferPointers c = s.bufferPointers c)
  | moved (before : s.empty p c = false) (now : r.pma c = PmaEntry.null p.toBlockParams)
      (pointers : 0 < (r.bufferPointers c).length)

lemma CellFate.congr {r' : BatchedSparseArray K α} {c : ℕ} (h : CellFate p s r c)
    (hsize : r'.size = r.size) (hpma : r'.pma c = r.pma c)
    (hptr : r'.bufferPointers c = r.bufferPointers c) : CellFate p s r' c := by
  rcases h with ⟨h1, h2⟩ | ⟨h1, h2, h3, h4⟩ | ⟨h1, h2, h3⟩
  · exact .kept (hpma.trans h1) (hptr.trans h2)
  · exact .filled h1 ((empty_congr hsize hpma).trans h2) (by rw [hpma]; exact h3) (hptr.trans h4)
  · exact .moved h1 (hpma.trans h2) (by rw [hptr]; exact h3)

section Run

variable {m n n' : ℕ} {out : ℕ → List (PmaEntry K α)}
  {acc : BatchedSparseArray K α × List (BufferWrite K α)}

/-- The cell that an iteration inserts into. -/
lemma RangeState.fate (h : s.RangeInput p batch batchRange pmaRange)
    (st : s.RangeState p batch batchRange pmaRange bufferRange m n out acc)
    (hm : m < pmaRange.right) (hc : s.empty p m = false) (hn : n < n') (hn' : n' ≤ batchRange.right)
    (hbelow : ∀ x ∈ batchPart batch ⟨n, n'⟩, ∀ j, m < j → s.empty p j = false →
      p.keyOf x < (s.pma j).head) :
    CellFate p s (acc.1.insertElementsIntoBlock p m (batchPart batch ⟨n, n'⟩) bufferRange
      acc.2.length).1 m := by
  have hf := st.first_le
  obtain ⟨hpma, hout⟩ := st.outside m (Or.inr (le_refl _))
  have hptr : acc.1.bufferPointers m = s.bufferPointers m := by
    rw [st.pointers m, hout]
    rfl
  have hne : batchPart batch ⟨n, n'⟩ ≠ [] := by
    intro hnil
    have := length_batchPart (a := n) (le_trans hn' h.batch_le)
    rw [hnil, List.length_nil] at this
    omega
  have hcell := @RangeInput.cell_filled _ _ _ _ _ _ _ _ bufferRange h _ _ st.left_le hm hc hne
    (h.increasing_part hf hn') (batchPart_subset hf hn') hbelow _ st.size_eq hpma acc.2.length
  have hv := h.valid m st.left_le hm hc
  obtain ⟨b, hb, -⟩ := hcell.head_le hc hv
  have hvalid := hcell.valid
  have hunion := hcell.union
  rw [cellOut] at hb hvalid hunion
  rw [insertElementsIntoBlock, hpma] at hb hvalid hunion ⊢
  split at hb
  · rename_i hfit
    rw [if_pos hfit] at hvalid hunion ⊢
    rw [if_pos hfit, List.append_nil] at hvalid hunion
    rw [List.append_nil] at hb
    obtain ⟨hnow, rfl⟩ := mem_ownBlock.mp hb
    refine .filled hc hnow ?_ hptr
    have hlen := hunion.length_old_le (by
      rw [ownBlock_of_false hc]
      simp only [elements_cons, elements_nil, List.append_nil]
      exact hv.increasing)
    rw [ownBlock_of_false hc, ownBlock_of_false hnow] at hlen
    simp only [elements_cons, elements_nil, List.append_nil] at hlen
    rwa [hv.length_live, (hvalid _ hb).length_live] at hlen
  · rename_i hfit
    rw [if_neg hfit]
    have hpos := List.length_pos_iff.mpr
      (@splitBlocks_ne_nil _ _ _ p.toBlockParams (s.pma m) (batchPart batch ⟨n, n'⟩))
    refine .moved hc (Function.update_self ..) ?_
    simp only [insertIntoBlockWithSplit, hpma, Function.update_self, Interval.length,
      getDenseWriteIndex]
    omega

/-- The search of an iteration looks at the range only. -/
lemma RangeState.search_withOutside (h : s.RangeInput p batch batchRange pmaRange)
    (st : s.RangeState p batch batchRange pmaRange bufferRange m n out acc) {block : ℕ}
    (hl : pmaRange.left ≤ block) (hb : block ≤ m)
    (hnext : RangeInput.Next p s batch pmaRange m n block) :
    ((acc.1.withOutside pmaRange pma).view p).exponentialSearch (batchKey p.toBlockParams batch n)
        block pmaRange.right =
      (acc.1.view p).exponentialSearch (batchKey p.toBlockParams batch n) block pmaRange.right := by
  have hempty : ∀ {j}, pmaRange.left ≤ j → j < pmaRange.right →
      ((acc.1.withOutside pmaRange pma).view p).empty j = (acc.1.view p).empty j :=
    fun h1 h2 => withOutside_empty h1 h2
  have hhead : ∀ {j}, pmaRange.left ≤ j → j < pmaRange.right →
      ((acc.1.withOutside pmaRange pma).view p).head j = (acc.1.view p).head j :=
    fun h1 h2 => congrArg PmaEntry.head (withOutside_pma h1 h2)
  rcases hnext with ⟨rfl, rfl, hlt⟩ | ⟨j, hj, hjr, hne, hle⟩
  · have hfirst : (acc.1.view p).empty pmaRange.left = false :=
      (st.empty_eq (le_refl _)).trans h.first
    have hkey : batchKey p.toBlockParams batch n < (acc.1.view p).head pmaRange.left := by
      change _ < (acc.1.pma _).head
      rw [(st.outside _ (Or.inr (le_refl _))).1]
      exact hlt
    rw [ArrayView.exponentialSearch_first h.left_lt hfirst hkey,
      ArrayView.exponentialSearch_first h.left_lt
        ((hempty (le_refl _) h.left_lt).trans hfirst)
        (lt_of_lt_of_eq hkey (hhead (le_refl _) h.left_lt).symm)]
  · have hview : (acc.1.view p).head j ≤ batchKey p.toBlockParams batch n := by
      change (acc.1.pma j).head ≤ _
      rw [(st.outside j (Or.inr hj)).1]
      exact hle
    obtain ⟨c, hjc, hc⟩ := ArrayView.exists_isLastIn hjr ((st.empty_eq hj).trans hne) hview
    have hinc := st.headsIncreasing h
    have hcl : pmaRange.left ≤ c := by have := st.left_le; omega
    rw [ArrayView.exponentialSearch_eq (hinc.mono hl (le_refl _)) hc (by omega)]
    refine @ArrayView.exponentialSearch_eq _ _ _ _ _ _ _ block ?_ ⟨hc.lt_upper, ?_, ?_, ?_⟩ (by omega)
    · intro i k h1 h2 h3 hi hk
      rw [hempty (by omega) (by omega)] at hi hk
      rw [hhead (by omega) (by omega), hhead (by omega) h3]
      exact hinc i k (by omega) h2 h3 hi hk
    · rw [hempty hcl hc.lt_upper]
      exact hc.nonempty
    · rw [hhead hcl hc.lt_upper]
      exact hc.head_le
    · intro i h1 h2 hi
      rw [hempty (by omega) h2] at hi
      rw [hhead (by omega) h2]
      exact hc.lt_head i h1 h2 hi

/-- **One round.**  The iteration inserts into the block that comes next, up to the batch element
that belongs behind it, and it does the same whatever the cells outside the range are. -/
lemma RangeState.round (h : s.RangeInput p batch batchRange pmaRange)
    (st : s.RangeState p batch batchRange pmaRange bufferRange m n out acc) {block : ℕ}
    (hn : n < batchRange.right) (hl : pmaRange.left ≤ block) (hb : block ≤ m)
    (hnext : RangeInput.Next p s batch pmaRange m n block)
    (hfate : ∀ c, CellFate p s acc.1 c) :
    ∃ c next n' out', ∃ acc' : BatchedSparseArray K α × List (BufferWrite K α),
      (∀ k, insertBatchLoop p batch batchRange pmaRange bufferRange (k + 1) n block acc =
        insertBatchLoop p batch batchRange pmaRange bufferRange k n' c acc') ∧
      (∀ k, insertBatchLoop p batch batchRange pmaRange bufferRange (k + 1) n block
          (acc.1.withOutside pmaRange pma, acc.2) =
        insertBatchLoop p batch batchRange pmaRange bufferRange k n' c
          (acc'.1.withOutside pmaRange pma, acc'.2)) ∧
      s.RangeState p batch batchRange pmaRange bufferRange next n' out' acc' ∧
      pmaRange.left ≤ c ∧ c ≤ next ∧ next ≤ pmaRange.right ∧ n < n' ∧ n' ≤ batchRange.right ∧
      (n' < batchRange.right → RangeInput.Next p s batch pmaRange next n' c) ∧
      ∀ c, CellFate p s acc'.1 c := by
  obtain ⟨c, hsearch, hmc, hcr, hc, hhead, hlast⟩ := st.search h hl hb hnext
  have hcl : pmaRange.left ≤ c := le_trans (le_trans hl hb) hmc
  -- the next block behind `c`
  have hge : c + 1 ≤ (acc.1.view p).findNext c pmaRange.right :=
    ArrayView.le_skipEmpty _ (c + 1) _
  have hle : (acc.1.view p).findNext c pmaRange.right ≤ pmaRange.right :=
    ArrayView.skipEmpty_le _ hcr
  have hskipped : ∀ i, c < i → i < (acc.1.view p).findNext c pmaRange.right →
      s.empty p i = true := fun i h1 h2 => by
    rw [← st.empty_eq (by omega)]
    exact ArrayView.skipEmpty_skipped _ h1 h2
  have hstop : (acc.1.view p).findNext c pmaRange.right < pmaRange.right →
      s.empty p ((acc.1.view p).findNext c pmaRange.right) = false := fun h1 => by
    rw [← st.empty_eq (by omega)]
    exact ArrayView.skipEmpty_stop h1
  have hnextOut := @findNext_withOutside _ _ _ p acc.1 pmaRange pma c hcl
  have hsearchOut := @RangeState.search_withOutside _ _ _ _ _ _ _ _ _ pma _ _ _ _ h st _ hl hb hnext
  have hlastOut := @findLastBatchElementForBlock_withOutside _ _ _ p acc.1 batch batchRange pmaRange
    pma n _ (le_trans hcl (Nat.le_of_succ_le hge)) hle
  have hst := st.skip h hn.le hmc hcr.le
  obtain ⟨g1, g2, g3, g4⟩ := st.lastElement h hn hle (by omega) hstop
    (fun h1 => hlast _ (by omega) h1 (hstop h1))
  have hloop : ∀ k, insertBatchLoop p batch batchRange pmaRange bufferRange (k + 1) n block acc =
      insertBatchLoop p batch batchRange pmaRange bufferRange k
        (acc.1.findLastBatchElementForBlock p batch n batchRange
          ((acc.1.view p).findNext c pmaRange.right) pmaRange) c
        ((acc.1.insertElementsIntoBlock p c (batchPart batch ⟨n,
          acc.1.findLastBatchElementForBlock p batch n batchRange
            ((acc.1.view p).findNext c pmaRange.right) pmaRange⟩) bufferRange acc.2.length).1,
          acc.2 ++ (acc.1.insertElementsIntoBlock p c (batchPart batch ⟨n,
            acc.1.findLastBatchElementForBlock p batch n batchRange
              ((acc.1.view p).findNext c pmaRange.right) pmaRange⟩) bufferRange
                acc.2.length).2) := fun k => by
    simp only [insertBatchLoop, if_pos hn, hsearch]
  have hloopOut : ∀ k, insertBatchLoop p batch batchRange pmaRange bufferRange (k + 1) n block
      (acc.1.withOutside pmaRange pma, acc.2) =
      insertBatchLoop p batch batchRange pmaRange bufferRange k
        (acc.1.findLastBatchElementForBlock p batch n batchRange
          ((acc.1.view p).findNext c pmaRange.right) pmaRange) c
        ((acc.1.insertElementsIntoBlock p c (batchPart batch ⟨n,
          acc.1.findLastBatchElementForBlock p batch n batchRange
            ((acc.1.view p).findNext c pmaRange.right) pmaRange⟩) bufferRange
              acc.2.length).1.withOutside pmaRange pma,
          acc.2 ++ (acc.1.insertElementsIntoBlock p c (batchPart batch ⟨n,
            acc.1.findLastBatchElementForBlock p batch n batchRange
              ((acc.1.view p).findNext c pmaRange.right) pmaRange⟩) bufferRange
                acc.2.length).2) := fun k => by
    simp only [insertBatchLoop, if_pos hn, hsearchOut, hsearch, hnextOut, hlastOut,
      insertElementsIntoBlock_withOutside hcl hcr]
  generalize (acc.1.view p).findNext c pmaRange.right = next at *
  generalize acc.1.findLastBatchElementForBlock p batch n batchRange next pmaRange = n' at *
  have hbelow : ∀ x ∈ batchPart batch ⟨n, n'⟩, ∀ j, c < j → s.empty p j = false →
      p.keyOf x < (s.pma j).head := by
    intro x hx j hj hne
    refine g3 x hx j ?_ hne
    by_contra hlt'
    rw [hskipped j hj (by omega)] at hne
    exact absurd hne (by simp)
  have hfill := hst.fill h hcr hc g1 g2 hhead hbelow
  have hown := hst.fate h hcr hc g1 g2 hbelow
  refine ⟨c, next, n', _, _, hloop, hloopOut, hfill.skip h g2 hge hle, hcl, by omega, hle, g1, g2,
    fun hlt' => Or.inr ⟨next, le_refl _, (g4 hlt').1, hstop (g4 hlt').1, (g4 hlt').2⟩,
    fun j => ?_⟩
  rcases eq_or_ne j c with rfl | hj
  · exact hown
  · refine (hfate j).congr ?_ ?_ ?_
    all_goals
      rw [insertElementsIntoBlock]
      split
    · rfl
    · rfl
    · exact Function.update_of_ne hj _ _
    · exact Function.update_of_ne hj _ _
    · rfl
    · exact Function.update_of_ne hj _ _

/-- **All rounds.** -/
lemma RangeState.rounds (h : s.RangeInput p batch batchRange pmaRange) (pma : ℕ → PmaEntry K α) :
    ∀ (fuel m n block : ℕ) (out : ℕ → List (PmaEntry K α))
      (acc : BatchedSparseArray K α × List (BufferWrite K α)),
      s.RangeState p batch batchRange pmaRange bufferRange m n out acc → m ≤ pmaRange.right →
      n ≤ batchRange.right → batchRange.right - n ≤ fuel → pmaRange.left ≤ block → block ≤ m →
      (n < batchRange.right → RangeInput.Next p s batch pmaRange m n block) →
      (∀ c, CellFate p s acc.1 c) →
      ∃ out', ∃ acc' : BatchedSparseArray K α × List (BufferWrite K α),
        (insertBatchLoop p batch batchRange pmaRange bufferRange fuel n block acc).1 = acc' ∧
        (insertBatchLoop p batch batchRange pmaRange bufferRange fuel n block
          (acc.1.withOutside pmaRange pma, acc.2)).1 = (acc'.1.withOutside pmaRange pma, acc'.2) ∧
        s.RangeState p batch batchRange pmaRange bufferRange pmaRange.right batchRange.right out'
          acc' ∧ ∀ c, CellFate p s acc'.1 c
  | fuel, m, n, block, out, acc, st, hm, hn, hfuel, hl, hb, hnext, hfate => by
      rcases Nat.lt_or_ge n batchRange.right with hlt | hge
      · cases fuel with
        | zero => omega
        | succ fuel =>
            obtain ⟨c, next, n', out', acc', h1, h2, h3, h4, h5, h6, h7, h8, h9, h10⟩ :=
              @RangeState.round _ _ _ _ _ _ _ _ _ pma _ _ _ _ h st _ hlt hl hb (hnext hlt) hfate
            rw [h1, h2]
            exact RangeState.rounds h pma fuel next n' c out' acc' h3 h6 h8 (by omega) h4 h5 h9 h10
      · obtain rfl : n = batchRange.right := by omega
        exact ⟨out, acc, by rw [insertBatchLoop_of_le hge], by rw [insertBatchLoop_of_le hge],
          st.skip h hn hm (le_refl _), hfate⟩

end Run

/-- **An insertion task among others.**  With other cells outside its range the task makes the same
calls of `writeToBufferArray` and leaves the same cells in its range. -/
lemma RangeInput.isolated (h : s.RangeInput p batch batchRange pmaRange) (bufferRange : Interval)
    (pma : ℕ → PmaEntry K α) :
    ∃ out, s.RangeState p batch batchRange pmaRange bufferRange pmaRange.right batchRange.right out
        (s.insertBatchRange p batch batchRange pmaRange bufferRange) ∧
      (s.withOutside pmaRange pma).insertBatchRange p batch batchRange pmaRange bufferRange =
        ((s.insertBatchRange p batch batchRange pmaRange bufferRange).1.withOutside pmaRange pma,
          (s.insertBatchRange p batch batchRange pmaRange bufferRange).2) ∧
      ∀ c, CellFate p s (s.insertBatchRange p batch batchRange pmaRange bufferRange).1 c := by
  have hlt := h.left_lt
  have hne : pmaRange.length ≠ 0 := by rw [Interval.length]; omega
  have hnext : RangeInput.Next p s batch pmaRange pmaRange.left batchRange.left pmaRange.left := by
    rcases lt_or_ge (batchKey p.toBlockParams batch batchRange.left)
      (s.pma pmaRange.left).head with hk | hk
    · exact Or.inl ⟨rfl, rfl, hk⟩
    · exact Or.inr ⟨pmaRange.left, le_refl _, hlt, h.first, hk⟩
  obtain ⟨out, acc, h1, h2, h3, h4⟩ := @RangeState.rounds _ _ _ _ _ _ _ _ bufferRange h pma
    batchRange.length pmaRange.left batchRange.left pmaRange.left (fun _ => []) (s, [])
    RangeInput.start hlt.le h.batch_lt.le (le_refl _) (le_refl _) (le_refl _) (fun _ => hnext)
    fun c => .kept rfl rfl
  rw [insertBatchRange, insertBatchRange, if_neg hne, if_neg hne, h1, h2]
  exact ⟨out, h3, rfl, h4⟩

end BatchedSparseArray

end BatchPMA
