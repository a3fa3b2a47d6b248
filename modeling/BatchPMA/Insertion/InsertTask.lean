import BatchPMA.Insertion.InsertRange
import BatchPMA.Queries.Refinement

/-!
# What an insertion task leaves behind

The calls of `writeToBufferArray` of a task go to consecutive cells of its buffer range.  When they
have been carried out, every cell of the pma range is followed by its own blocks in the buffer, and
the extended sequence of the range is the union of the old elements and the batch.
-/

namespace BatchPMA

open KeyedUnion Ranges

variable {K α : Type} [LinearOrder K]

namespace BatchedSparseArray

variable {p : BatchedParams K α} {s : BatchedSparseArray K α} {batch : List α}
  {batchRange pmaRange bufferRange : Interval}

/-! ## Carrying out the writes -/

/-- The state when all calls of `writeToBufferArray` of a task have been made. -/
def afterWrites (result : BatchedSparseArray K α × List (BufferWrite K α)) :
    BatchedSparseArray K α := result.2.foldl writeToBufferArray result.1

section Writes

variable {ws : List (BufferWrite K α)} {bufferStart : ℕ}

omit [LinearOrder K] in
/-- The calls change the buffer array and the recounting nodes only. -/
lemma afterWrites_frame : ∀ (ws : List (BufferWrite K α)) (s : BatchedSparseArray K α),
    afterWrites (s, ws) = { s with
      bufferArray := (afterWrites (s, ws)).bufferArray
      recountingNodesMap := (afterWrites (s, ws)).recountingNodesMap }
  | [], s => rfl
  | w :: ws, s => by
      have ih := afterWrites_frame ws (s.writeToBufferArray w)
      have hcons : afterWrites (s, w :: ws) = afterWrites (s.writeToBufferArray w, ws) := rfl
      rw [hcons, ih]
      rfl

omit [LinearOrder K] in
/-- A cell holds the block of the last call for it. -/
lemma afterWrites_bufferArray (s : BatchedSparseArray K α) (ws : List (BufferWrite K α))
    (w : BufferWrite K α) : (afterWrites (s, ws ++ [w])).bufferArray =
      Function.update (afterWrites (s, ws)).bufferArray w.writeIndex w.block := by
  rw [afterWrites, List.foldl_append]
  rfl

omit [LinearOrder K] in
/-- Calls for consecutive cells. -/
lemma afterWrites_dense (s : BatchedSparseArray K α)
    (h : ∀ i w, ws[i]? = some w → w.writeIndex = bufferStart + i) :
    (∀ i w, ws[i]? = some w → (afterWrites (s, ws)).bufferArray (bufferStart + i) = w.block) ∧
      ∀ j, j < bufferStart ∨ bufferStart + ws.length ≤ j →
        (afterWrites (s, ws)).bufferArray j = s.bufferArray j := by
  induction ws using List.reverseRecOn with
  | nil => exact ⟨fun i w hw => by simp at hw, fun j _ => rfl⟩
  | append_singleton ws w ih =>
      obtain ⟨ih1, ih2⟩ := ih fun i x hx => h i x (by
        rw [List.getElem?_append_left (List.getElem?_eq_some_iff.mp hx).1]
        exact hx)
      have hw : w.writeIndex = bufferStart + ws.length := h ws.length w (by simp)
      rw [afterWrites_bufferArray, hw]
      refine ⟨fun i x hx => ?_, fun j hj => ?_⟩
      · rcases Nat.lt_trichotomy i ws.length with hlt | rfl | hgt
        · rw [List.getElem?_append_left hlt] at hx
          rw [Function.update_of_ne (by omega)]
          exact ih1 i x hx
        · rw [List.getElem?_concat_length] at hx
          rw [Function.update_self, Option.some.inj hx]
        · rw [List.getElem?_eq_none (by simp; omega)] at hx
          exact absurd hx (by simp)
      · rw [List.length_append, List.length_singleton] at hj
        rw [Function.update_of_ne (by omega)]
        exact ih2 j (by omega)

omit [LinearOrder K] in
lemma writeIndex_writesIn {out : ℕ → List (PmaEntry K α)} {a b i : ℕ} {w : BufferWrite K α}
    (h : (writesIn out bufferStart a b)[i]? = some w) : w.writeIndex = bufferStart + i := by
  rw [writesIn, List.getElem?_mapIdx, Option.map_eq_some_iff] at h
  obtain ⟨q, -, rfl⟩ := h
  rfl

omit [LinearOrder K] in
lemma block_writesIn (out : ℕ → List (PmaEntry K α)) (bufferStart a b : ℕ) :
    (writesIn out bufferStart a b).map BufferWrite.block = itemsIn out a b := by
  have htag : (itemsIn (fun c => (out c).map (Prod.mk c)) a b).map Prod.snd = itemsIn out a b := by
    rw [itemsIn, itemsIn, List.map_flatMap]
    simp
  rw [← htag]
  refine List.ext_getElem? fun i => ?_
  rw [writesIn, List.getElem?_map, List.getElem?_mapIdx, List.getElem?_map, Option.map_map]
  rfl

omit [LinearOrder K] in
/-- The block that the buffer holds for a cell. -/
lemma afterWrites_writesIn (s : BatchedSparseArray K α) (out : ℕ → List (PmaEntry K α)) {a b : ℕ}
    {i : ℕ} {x : PmaEntry K α} (h : (itemsIn out a b)[i]? = some x) :
    (afterWrites (s, writesIn out bufferStart a b)).bufferArray (bufferStart + i) = x := by
  rw [← block_writesIn out bufferStart, List.getElem?_map, Option.map_eq_some_iff] at h
  obtain ⟨w, hw, rfl⟩ := h
  exact (afterWrites_dense s fun i w => writeIndex_writesIn).1 i w hw

end Writes

/-! ## The task -/

/-- What an insertion task achieves.  `writes` are its calls of `writeToBufferArray` and `s'` is the
state when it has ended. -/
structure RangeInserted (p : BatchedParams K α) (s : BatchedSparseArray K α) (batch : List α)
    (batchRange pmaRange bufferRange : Interval) (writes : List (BufferWrite K α))
    (s' : BatchedSparseArray K α) : Prop where
  /-- The extended sequence of the range has the new elements. -/
  union : IsUnion p.keyOf (elements (itemsIn (s.cellBlocks p) pmaRange.left pmaRange.right))
    (batchPart batch batchRange)
    (elements (itemsIn (s'.cellBlocks p) pmaRange.left pmaRange.right))
  valid : ∀ b ∈ itemsIn (s'.cellBlocks p) pmaRange.left pmaRange.right, b.Valid p.toBlockParams
  dead : DeadOk p.toBlockParams (s.AboveCell p pmaRange.right)
    (itemsIn (s'.cellBlocks p) pmaRange.left pmaRange.right)
  written : ∀ w ∈ writes, w.block.Valid p.toBlockParams ∧ p.minBlockSize ≤ w.block.size
  places : ∀ i w, writes[i]? = some w → w.writeIndex = bufferRange.left + i
  /-- The buffer pointers of the cells cut the cells written to into consecutive intervals. -/
  consecutive : itemsIn (fun c => List.range' (s'.bufferPointers c).left
    (s'.bufferPointers c).length) pmaRange.left pmaRange.right =
      List.range' bufferRange.left writes.length
  count : writes.length ≤ 2 * batchRange.length
  frame : s' = { s with
    pma := s'.pma
    bufferPointers := s'.bufferPointers
    bufferArray := s'.bufferArray
    recountingNodesMap := s'.recountingNodesMap }
  cells_outside : ∀ c, ¬ pmaRange.contains c →
    s'.pma c = s.pma c ∧ s'.bufferPointers c = s.bufferPointers c
  buffer_outside : ∀ i, i < bufferRange.left ∨ bufferRange.left + writes.length ≤ i →
    s'.bufferArray i = s.bufferArray i

section Finish

variable {out : ℕ → List (PmaEntry K α)}
  {acc : BatchedSparseArray K α × List (BufferWrite K α)}
  (h : s.RangeInput p batch batchRange pmaRange)
  (st : s.RangeState p batch batchRange pmaRange bufferRange pmaRange.right batchRange.right out
    acc)
include h st

/-- The buffer pointers of a cell point to its blocks. -/
lemma RangeState.pointers_eq {c : ℕ} (h1 : pmaRange.left ≤ c) (h2 : c < pmaRange.right) :
    (acc.1.bufferPointers c).length = (out c).length ∧ (out c ≠ [] →
      (acc.1.bufferPointers c).left =
        bufferRange.left + (itemsIn out pmaRange.left c).length) := by
  rw [st.pointers c]
  split
  · rename_i hnil
    have hnil' := List.isEmpty_iff.mp hnil
    exact ⟨by rw [h.pointers c h1 h2, hnil']; rfl, fun hne => absurd hnil' hne⟩
  · rw [itemsIn_append out h1 (Nat.le_succ c), itemsIn_succ]
    refine ⟨?_, fun _ => rfl⟩
    simp only [Interval.length, getDenseWriteIndex, List.length_append]
    omega

/-- The blocks of a cell when the task has ended. -/
lemma RangeState.cellBlocks_eq {c : ℕ} (h1 : pmaRange.left ≤ c) (h2 : c < pmaRange.right) :
    (afterWrites acc).cellBlocks p c = acc.1.extended p out c := by
  have hframe := afterWrites_frame acc.2 acc.1
  have hpma : (afterWrites acc).pma = acc.1.pma := by rw [hframe]
  have hsize : (afterWrites acc).size = acc.1.size := by rw [hframe]
  have hptr : (afterWrites acc).bufferPointers = acc.1.bufferPointers := by rw [hframe]
  obtain ⟨hlen, hleft⟩ := st.pointers_eq h h1 h2
  rw [cellBlocks, cellPlaces, List.map_append, extended, ownBlock]
  congr 1
  · rw [empty_congr hsize (congrFun hpma c)]
    split
    · rfl
    · rw [List.map_singleton, memory, hpma]
  · rw [hptr, hlen, List.map_map]
    by_cases hne : out c = []
    · rw [hne]
      rfl
    · rw [hleft hne]
      refine List.ext_getElem? fun i => ?_
      rw [List.getElem?_map]
      rcases Nat.lt_or_ge i (out c).length with hi | hi
      · rw [List.getElem?_range' hi, Option.map_some, Nat.one_mul,
          List.getElem?_eq_getElem hi]
        congr 1
        change (afterWrites acc).bufferArray _ = _
        have hacc : acc = (acc.1, writesIn out bufferRange.left pmaRange.left pmaRange.right) := by
          rw [← st.writes]
        rw [hacc, Nat.add_assoc]
        refine afterWrites_writesIn _ _ ?_
        rw [itemsIn_append out h1 h2.le, itemsIn_append out (Nat.le_succ c) h2, itemsIn_succ,
          List.getElem?_append_right (by omega), Nat.add_sub_cancel_left,
          List.getElem?_append_left hi]
        exact List.getElem?_eq_getElem hi
      · rw [List.getElem?_eq_none (by simpa using hi), List.getElem?_eq_none hi]
        rfl

lemma RangeState.consecutive {c : ℕ} (h1 : pmaRange.left ≤ c) (h2 : c ≤ pmaRange.right) :
    itemsIn (fun c => List.range' (acc.1.bufferPointers c).left
      (acc.1.bufferPointers c).length) pmaRange.left c =
        List.range' bufferRange.left (itemsIn out pmaRange.left c).length := by
  induction c, h1 using Nat.le_induction with
  | base => simp [itemsIn]
  | succ c h1 ih =>
      obtain ⟨hlen, hleft⟩ := st.pointers_eq h h1 h2
      rw [itemsIn_append _ h1 (Nat.le_succ c), itemsIn_succ, ih (by omega),
        itemsIn_append out h1 (Nat.le_succ c), itemsIn_succ, List.length_append, hlen]
      by_cases hne : out c = []
      · simp [hne]
      · rw [hleft hne]
        exact List.range'_append_1 ..

lemma RangeState.inserted : s.RangeInserted p batch batchRange pmaRange bufferRange acc.2
    (afterWrites acc) := by
  have hframe := afterWrites_frame acc.2 acc.1
  have hpma : (afterWrites acc).pma = acc.1.pma := by rw [hframe]
  have hptr : (afterWrites acc).bufferPointers = acc.1.bufferPointers := by rw [hframe]
  have hold : itemsIn (s.cellBlocks p) pmaRange.left pmaRange.right =
      itemsIn (s.ownBlock p) pmaRange.left pmaRange.right := by
    refine itemsIn_congr fun c h1 h2 => ?_
    rw [cellBlocks_of_pointers (by rw [h.pointers c h1 h2]; rfl), ownBlock]
  have hnew : itemsIn ((afterWrites acc).cellBlocks p) pmaRange.left pmaRange.right =
      itemsIn (acc.1.extended p out) pmaRange.left pmaRange.right :=
    itemsIn_congr fun c h1 h2 => st.cellBlocks_eq h h1 h2
  have hvalid : ∀ b ∈ itemsIn (acc.1.extended p out) pmaRange.left pmaRange.right,
      b.Valid p.toBlockParams := by
    intro b hb
    obtain ⟨c, hc, hb⟩ := List.mem_flatMap.mp hb
    have := List.mem_range'_1.mp hc
    exact st.valid c this.1 (by omega) b hb
  have hblock : ∀ w ∈ acc.2, ∃ c, pmaRange.left ≤ c ∧ c < pmaRange.right ∧ w.block ∈ out c := by
    intro w hw
    have hb : w.block ∈ itemsIn out pmaRange.left pmaRange.right := by
      rw [← block_writesIn out bufferRange.left, ← st.writes]
      exact List.mem_map_of_mem hw
    obtain ⟨c, hc, hb⟩ := List.mem_flatMap.mp hb
    have := List.mem_range'_1.mp hc
    exact ⟨c, this.1, by omega, hb⟩
  refine ⟨?_, ?_, ?_, fun w hw => ?_, ?_, ?_, ?_, ?_, fun c hc => ?_, ?_⟩
  · rw [hold, hnew]
    exact st.union
  · rw [hnew]
    exact hvalid
  · rw [hnew]
    exact st.dead
  · obtain ⟨c, h1, h2, hb⟩ := hblock w hw
    exact ⟨st.valid c h1 h2 _ (List.mem_append_right _ hb), st.large c _ hb⟩
  · rw [st.writes]
    exact fun i w => writeIndex_writesIn
  · rw [hptr, st.length_eq]
    exact st.consecutive h h.left_lt.le (le_refl _)
  · rw [st.length_eq]
    exact st.count
  · rw [hframe, st.frame]
  · have hc' : c < pmaRange.left ∨ pmaRange.right ≤ c := by
      rw [Interval.contains] at hc
      omega
    obtain ⟨g1, g2⟩ := st.outside c hc'
    refine ⟨by rw [hpma]; exact g1, ?_⟩
    rw [hptr, st.pointers c, g2]
    rfl
  · have hplaces : ∀ i w, acc.2[i]? = some w → w.writeIndex = bufferRange.left + i := by
      rw [st.writes]
      exact fun i w => writeIndex_writesIn
    have hwrites := (afterWrites_dense acc.1 hplaces).2
    have hbuf : acc.1.bufferArray = s.bufferArray := by rw [st.frame]
    intro i hi
    rw [← hbuf]
    exact hwrites i hi

end Finish

/-- The insertion task in one piece; its loop ends after at most one iteration per element. -/
lemma RangeInput.inserted (h : s.RangeInput p batch batchRange pmaRange) (bufferRange : Interval) :
    s.RangeInserted p batch batchRange pmaRange bufferRange
      (s.insertBatchRange p batch batchRange pmaRange bufferRange).2
      (afterWrites (s.insertBatchRange p batch batchRange pmaRange bufferRange)) ∧
    ∀ k, insertBatchLoop p batch batchRange pmaRange bufferRange (batchRange.length + k)
        batchRange.left pmaRange.left (s, []) =
      (s.insertBatchRange p batch batchRange pmaRange bufferRange, batchRange.right) := by
  have hlt := h.left_lt
  have hne : pmaRange.length ≠ 0 := by rw [Interval.length]; omega
  have hnext : RangeInput.Next p s batch pmaRange pmaRange.left batchRange.left pmaRange.left := by
    rcases lt_or_ge (batchKey p.toBlockParams batch batchRange.left)
      (s.pma pmaRange.left).head with hk | hk
    · exact Or.inl ⟨rfl, rfl, hk⟩
    · exact Or.inr ⟨pmaRange.left, le_refl _, hlt, h.first, hk⟩
  obtain ⟨⟨out, st⟩, hend, hfuel⟩ := @RangeState.loop _ _ _ _ _ _ _ _ bufferRange h
    batchRange.length pmaRange.left batchRange.left pmaRange.left (fun _ => []) (s, [])
    RangeInput.start hlt.le
    h.batch_lt.le (le_refl _) (le_refl _) (le_refl _) fun _ => hnext
  rw [insertBatchRange, if_neg hne]
  exact ⟨st.inserted h, fun k => (hfuel k).trans (Prod.ext rfl hend)⟩

/-- **Insertion task.**  `insertBatchRange` ends with the whole batch range inserted: its loop ends
with `batchIndex` at the end of the range, the extended sequence of the range is the union of the
old elements and the batch, the blocks in the buffer are at least half full, the buffer pointers are
consecutive and start at the buffer range, and nothing else changes but the recounting nodes. -/
theorem insertBatchRange_inserts (p : BatchedParams K α) (s : BatchedSparseArray K α)
    (batch : List α) (batchRange pmaRange bufferRange : Interval)
    (h : s.RangeInput p batch batchRange pmaRange) :
    s.RangeInserted p batch batchRange pmaRange bufferRange
      (s.insertBatchRange p batch batchRange pmaRange bufferRange).2
      (afterWrites (s.insertBatchRange p batch batchRange pmaRange bufferRange)) ∧
    ∀ k, insertBatchLoop p batch batchRange pmaRange bufferRange (batchRange.length + k)
        batchRange.left pmaRange.left (s, []) =
      (s.insertBatchRange p batch batchRange pmaRange bufferRange, batchRange.right) :=
  h.inserted bufferRange

/-- The block in the middle of three cells is split when it takes five elements. -/
theorem insertBatchRange_inserts_threeCells :
    let p := keyOnlyBatched 4 4
    let s : BatchedSparseArray ℕ ℕ := { create p 1 with size := 3, pma := threeCells }
    let result := s.insertBatchRange p [1, 3, 4, 6, 7] ⟨0, 5⟩ ⟨1, 3⟩ ⟨8, 18⟩
    s.RangeInserted p [1, 3, 4, 6, 7] ⟨0, 5⟩ ⟨1, 3⟩ ⟨8, 18⟩ result.2 (afterWrites result) ∧
      result.2.map (fun w => (w.writeIndex, w.block.live)) = [(8, [1, 3]), (9, [4, 5, 6, 7])] :=
  ⟨(insertBatchRange_inserts (keyOnlyBatched 4 4)
    { create (keyOnlyBatched 4 4) 1 with size := 3, pma := threeCells } [1, 3, 4, 6, 7] ⟨0, 5⟩
    ⟨1, 3⟩ ⟨8, 18⟩
    { even := by decide
      four_le := by decide
      zero_null := rfl
      right_le := by decide
      left_lt := by decide
      first := by decide
      valid := fun c _ h2 hc => (threeCells_valid.cell c h2).resolve_left fun hnull => by
        have hhead : (threeCells c).head = 0 := by rw [hnull]; rfl
        rw [empty, if_neg (not_le.mpr (show c < 3 from h2))] at hc
        exact of_decide_eq_false hc hhead
      ordered := fun c c' h1 h2 h3 _ _ x hx y hy =>
        threeCells_valid.ordered c c' h2 h3 x hx y hy
      dead := fun c _ _ _ x hx => Or.inl (by
        by_cases hc : c = 1
        · subst hc
          have hx' : x ∈ [0, 0] := hx
          have hx0 : x = 0 := by simpa using hx'
          exact hx0
        · have hnil : (threeCells c).dead = [] := by
            simp [threeCells, hc, PmaEntry.dead, PmaEntry.cells]
          have hx' : x ∈ (threeCells c).dead := hx
          rw [hnil] at hx'
          exact absurd hx' List.not_mem_nil)
      batch_lt := by decide
      batch_le := by decide
      increasing := by
        simp [Increasing, batchPart, Interval.length, keyOnlyBatched, keyOnlyBlocks]
      key_ne_null := by decide
      below := fun x _ j hj hne => by
        rw [empty, if_pos (show 3 ≤ j from hj)] at hne
        exact absurd hne (by simp)
      pointers := fun _ _ _ => rfl }).1, by decide⟩

end BatchedSparseArray

end BatchPMA
