import BatchPMA.Insertion.InverseMerge
import BatchPMA.Insertion.BulkLoading

/-!
# New blocks of the overallocated array

What `inverseMerge` and `insertIntoEmptyRange` write, and the operations that even out two
neighbouring blocks.  Unlike its counterpart, this `inverseMerge` fills every block but the last one
and leaves a small last block to `postprocessInverseMergeTasks`.
-/

namespace BatchPMA

open KeyedUnion

variable {K α : Type} [LinearOrder K] {p : BlockParams K α}

/-! ## Inverse merges -/

namespace MergeState

variable {st : MergeState K α} {above : K → Prop} {db dr : List α}

/-- With a sorted batch, skipping duplicates makes no difference. -/
lemma Merging.mergeStep_eq (h : Merging p above 0 db dr st) : st.mergeStep p = st.step p := by
  have hb := h.batch_increasing
  cases hrest : st.rest with
  | nil =>
      have hskip : st.skipWritten p = st := by
        rw [skipWritten]
        congr 1
        cases hbatch : st.batch with
        | nil => rfl
        | cons y batch =>
            rw [List.dropWhile_cons_of_neg]
            simpa using h.last y (by rw [hbatch]; exact List.mem_cons_self)
      simp only [mergeStep, MergeState.step, hrest]
      rw [hskip]
  | cons x rest =>
      cases hbatch : st.batch with
      | nil => simp only [mergeStep, MergeState.step, hrest, hbatch]
      | cons y batch =>
          rw [hbatch] at hb
          have hb' := List.pairwise_cons.mp hb
          simp only [mergeStep, MergeState.step, hrest, hbatch]
          split
          · rename_i hlt
            have hdrop := @dropWhile_eq_self _ _ _ p x (y :: batch) fun z hz => by
              rcases List.mem_cons.mp hz with rfl | hz
              · exact hlt.ne'
              · exact (lt_trans hlt (hb'.1 z hz)).ne'
            rw [appendFromBlock, takeFromBlock, hdrop]
          · split
            · rename_i heq
              have hdrop := @dropWhile_eq_self _ _ _ p x batch fun z hz =>
                (heq ▸ hb'.1 z hz).ne'
              rw [appendFromBlock, takeFromBlock, hdrop]
            · rfl

/-- The blocks that have been written are full. -/
def Full (p : BlockParams K α) (st : MergeState K α) : Prop :=
  ∀ b ∈ st.written, b.size = p.blockSize

lemma Merging.flushFull (h : Merging p above 0 db dr st) (hfull : st.Full p)
    (hzero : p.keyOf p.zero = p.nullKey) (hpos : 0 < p.blockSize) :
    Merging p above 0 db dr (st.flushFull p) ∧ (st.flushFull p).Full p ∧
      (st.flushFull p).insertionBlock.size < p.blockSize := by
  rw [MergeState.flushFull]
  split
  · rename_i hsize
    refine ⟨h.beginBlock hzero hsize hpos (Nat.zero_le _), fun b hb => ?_, hpos⟩
    rcases List.mem_append.mp hb with hb | hb
    · exact hfull b hb
    · rw [List.mem_singleton.mp hb]
      exact hsize
  · rename_i hsize
    exact ⟨h, hfull, lt_of_le_of_ne h.filled.size_le hsize⟩

omit [LinearOrder K] in
lemma flushFull_batch (st : MergeState K α) : (st.flushFull p).batch = st.batch := by
  rw [MergeState.flushFull]
  split <;> rfl

omit [LinearOrder K] in
lemma flushFull_rest (st : MergeState K α) : (st.flushFull p).rest = st.rest := by
  rw [MergeState.flushFull]
  split <;> rfl

lemma step_written (st : MergeState K α) : (st.step p).written = st.written := by
  rw [step]
  split
  · split
    · rfl
    · split
      · rfl
      · rw [takeFromBatch]
        split <;> rfl
  · rfl
  · rfl

/-- The whole loop. -/
lemma Merging.mergeLoop (hzero : p.keyOf p.zero = p.nullKey) (hpos : 0 < p.blockSize) :
    ∀ (n : ℕ) {db dr : List α} {st : MergeState K α}, st.batch.length + st.rest.length ≤ n →
      Merging p above 0 db dr st → st.Full p →
        Merging p above 0 (db ++ st.batch) (dr ++ st.rest) (MergeState.mergeLoop p n st) ∧
          (MergeState.mergeLoop p n st).Full p
  | 0, db, dr, st, hn, h, hf => by
      have hb : st.batch = [] := List.length_eq_zero_iff.mp (by omega)
      have hr : st.rest = [] := List.length_eq_zero_iff.mp (by omega)
      rw [hb, hr, List.append_nil, List.append_nil]
      exact ⟨h, hf⟩
  | n + 1, db, dr, st, hn, h, hf => by
      rw [MergeState.mergeLoop]
      split
      · rename_i hnil
        rw [hnil.1, hnil.2, List.append_nil, List.append_nil]
        exact ⟨h, hf⟩
      · rename_i hne
        obtain ⟨hflush, hfull, hroom⟩ := h.flushFull hf hzero hpos
        obtain ⟨cb, cr, hstep, h1, h2, hused⟩ := hflush.step hroom
          (by rw [flushFull_batch, flushFull_rest]; exact hne)
        rw [flushFull_batch] at h1
        rw [flushFull_rest] at h2
        rw [hflush.mergeStep_eq]
        have hfull' : ((st.flushFull p).step p).Full p := by
          rw [Full, step_written]
          exact hfull
        have hlen : ((st.flushFull p).step p).batch.length +
            ((st.flushFull p).step p).rest.length ≤ n := by
          rw [h1, h2, List.length_append, List.length_append] at hn
          omega
        have ih := Merging.mergeLoop hzero hpos n hlen hstep hfull'
        rw [List.append_assoc, List.append_assoc, ← h1, ← h2] at ih
        exact ih

end MergeState

/-- Blocks that hold the union of two lists, all of them full but the last one. -/
structure WritesFull (p : BlockParams K α) (old new : List α) (blocks : List (PmaEntry K α)) :
    Prop where
  valid : ∀ b ∈ blocks, b.Valid p
  union : IsUnion p.keyOf old new (elements blocks)
  dead : ∀ b ∈ blocks, ∀ x ∈ b.dead, p.keyOf x = p.nullKey
  full : ∀ b ∈ blocks.dropLast, b.size = p.blockSize

omit [LinearOrder K] in
lemma PmaEntry.dead_eq_nil {b : PmaEntry K α} (h : b.cells.length ≤ b.size) : b.dead = [] :=
  List.drop_eq_nil_of_le h

/-- **`inverseMerge`** of the overallocated array. -/
theorem mergedBlocks_spec {batch rest : List α} (hpos : 0 < p.blockSize)
    (hzero : p.keyOf p.zero = p.nullKey) (hbatch : Increasing p batch)
    (hrest : Increasing p rest) (hnull : ∀ e ∈ batch ++ rest, p.keyOf e ≠ p.nullKey) :
    WritesFull p rest batch (mergedBlocks p batch rest) := by
  obtain ⟨h, hfull⟩ := MergeState.Merging.mergeLoop hzero hpos (batch.length + rest.length)
    (le_refl _)
    (@MergeState.start _ _ _ _ (fun _ => False) _ _ _ hzero hbatch hrest hnull (Nat.zero_le _))
    (fun b hb => absurd hb List.not_mem_nil)
  rw [mergedBlocks, MergeState.finish]
  generalize MergeState.mergeLoop p (batch.length + rest.length)
    ⟨[], (PmaEntry.null p).allocateBlock p, p.nullKey, batch, rest⟩ = st at *
  have hold : ∀ b ∈ st.written, ∀ x ∈ b.dead, p.keyOf x = p.nullKey := by
    intro b hb x hx
    rw [PmaEntry.dead_eq_nil (by rw [(h.valid b hb).length_cells, hfull b hb])] at hx
    exact absurd hx List.not_mem_nil
  split
  · rename_i hsize
    refine ⟨fun b hb => ?_, h.union, fun b hb x hx => ?_, fun b hb => ?_⟩
    · rcases List.mem_append.mp hb with hb | hb
      · exact h.valid b hb
      · rw [List.mem_singleton.mp hb]
        exact h.filled.valid hsize
    · rcases List.mem_append.mp hb with hb | hb
      · exact hold b hb x hx
      · rw [List.mem_singleton.mp hb] at hx
        exact h.fresh x hx
    · rw [List.dropLast_concat] at hb
      exact hfull b hb
  · rename_i hsize
    have hlive : st.insertionBlock.live = [] := by
      rw [← List.length_eq_zero_iff, h.filled.length_live]
      omega
    have hunion := h.union
    rw [elements_append, elements_cons, hlive, elements_nil, List.append_nil, List.append_nil]
      at hunion
    rw [List.append_nil]
    exact ⟨h.valid, hunion, hold, fun b hb => hfull b (List.mem_of_mem_dropLast hb)⟩

/-! ## Loading an empty range -/

section Loading

variable {mergeInto : PmaEntry K α → List α → PmaEntry K α} {b : PmaEntry K α} {es : List α}

/-- Larger elements are appended. -/
lemma MergesSorted.append (hm : MergesSorted p mergeInto) (hb : InsertionBlock p b)
    (hinc : Increasing p (b.live ++ es)) (hnull : ∀ x ∈ es, p.keyOf x ≠ p.nullKey)
    (hroom : b.size + es.length ≤ p.blockSize) :
    InsertionBlock p (mergeInto b es) ∧ (mergeInto b es).live = b.live ++ es ∧
      (mergeInto b es).size = b.size + es.length := by
  have hes : Increasing p es := Ordered.right hinc
  obtain ⟨hblock, hunion⟩ := hm b es hb hes.nonDecreasing hnull hroom
  have happend := IsUnion.append (IsUnion.nil_new (Ordered.left hinc)) (IsUnion.nil_old hes)
    fun x hx y hy => Ordered.lt hinc x (by simpa using hx) y (by simpa using hy)
  rw [List.append_nil, List.nil_append] at happend
  have hlive : (mergeInto b es).live = b.live ++ es := (hunion.isUnion hes).unique happend
  refine ⟨hblock, hlive, ?_⟩
  rw [← hblock.filled.length_live, hlive, List.length_append, hb.filled.length_live]

variable (hm : MergesSorted p mergeInto) (heven : 2 ∣ p.blockSize) (htwo : 2 ≤ p.blockSize)
  (hzero : p.keyOf p.zero = p.nullKey)
include hm heven htwo hzero

/-- From a full block on, all blocks are large enough, and the elements are written as they are. -/
lemma bulkLoop_increasing : ∀ (n : ℕ) (es : List α) {b : PmaEntry K α}, es.length ≤ n →
    InsertionBlock p b → Increasing p (b.live ++ es) → (∀ x ∈ es, p.keyOf x ≠ p.nullKey) →
    (es = [] ∧ p.minBlockSize ≤ b.size ∨ b.size = p.blockSize) →
    (∀ c ∈ bulkLoop p mergeInto n es b, c.Valid p ∧ p.minBlockSize ≤ c.size) ∧
      elements (bulkLoop p mergeInto n es b) = b.live ++ es := by
  have hmin : 0 < p.minBlockSize := Nat.div_pos htwo (by omega)
  have hle : p.minBlockSize ≤ p.blockSize := Nat.div_le_self _ _
  have hend : ∀ {b : PmaEntry K α}, InsertionBlock p b → p.minBlockSize ≤ b.size →
      (∀ c ∈ if 0 < b.size then [b] else [], c.Valid p ∧ p.minBlockSize ≤ c.size) ∧
        elements (if 0 < b.size then [b] else []) = b.live ++ [] := by
    intro b hb hsize
    rw [if_pos (by omega), elements_cons, elements_nil]
    refine ⟨fun c hc => ?_, rfl⟩
    rw [List.mem_singleton.mp hc]
    exact ⟨hb.filled.valid (by omega), hsize⟩
  intro n
  induction n with
  | zero =>
      intro es b hn hb _ _ hsize
      obtain rfl := List.eq_nil_of_length_eq_zero (Nat.le_zero.mp hn)
      exact hend hb (hsize.elim And.right fun h => h ▸ hle)
  | succ n ih =>
      intro es b hn hb hinc hnull hsize
      by_cases hnil : es = []
      · subst hnil
        exact hend hb (hsize.elim And.right fun h => h ▸ hle)
      · have hfull : b.size = p.blockSize := hsize.resolve_left fun h => hnil h.1
        rcases Nat.lt_or_ge es.length p.minBlockSize with hsmall | hlarge
        · -- the right half takes all that is left
          have hs := hb.filled.split_spec hfull heven (by omega)
          have hright : InsertionBlock p (b.split p).2 :=
            ⟨hs.right_valid.filled, fun x hx => Or.inl (by rw [hs.right_dead x hx, hzero])⟩
          have hlive := hs.live_eq
          rw [← hlive, List.append_assoc] at hinc
          have hroom : (b.split p).2.size + es.length ≤ p.blockSize := by
            have h1 := hs.right_size
            have h2 : p.minBlockSize = p.blockSize / 2 := rfl
            omega
          obtain ⟨h1, h2, h3⟩ := hm.append hright (Ordered.right hinc) hnull hroom
          obtain ⟨ih1, ih2⟩ := ih [] (Nat.zero_le n) h1 (by
            rw [h2, List.append_nil]
            exact Ordered.right hinc) (fun x hx => absurd hx List.not_mem_nil)
            (Or.inl ⟨rfl, by have := hs.right_size; omega⟩)
          rw [(bulkLoop_split hnil hfull hsmall n).1]
          refine ⟨fun c hc => ?_, ?_⟩
          · rcases List.mem_cons.mp hc with rfl | hc
            · exact ⟨hs.left_valid, hs.left_size.ge⟩
            · exact ih1 c hc
          · rw [elements_cons, ih2, h2, List.append_nil, ← hlive, List.append_assoc]
        · have hnew : InsertionBlock p ((PmaEntry.null p).allocateBlock p) :=
            insertionBlock_allocate hzero
          have hopen : ((PmaEntry.null p).allocateBlock p).size ≠ p.blockSize := by
            change 0 ≠ p.blockSize
            omega
          have hnewLive : ((PmaEntry.null p).allocateBlock p).live = [] := by
            simp [PmaEntry.live, PmaEntry.allocateBlock, PmaEntry.null]
          have htake : (es.take p.blockSize).length = min p.blockSize es.length :=
            List.length_take
          have hchunk : Increasing p
              (((PmaEntry.null p).allocateBlock p).live ++ es.take p.blockSize) := by
            rw [hnewLive, List.nil_append]
            exact List.Pairwise.sublist (List.take_sublist _ _) (Ordered.right hinc)
          obtain ⟨h1, h2, h3⟩ := hm.append hnew hchunk
            (fun x hx => hnull x (List.mem_of_mem_take hx)) (by
              change 0 + _ ≤ _
              omega)
          have h3' : (mergeInto ((PmaEntry.null p).allocateBlock p) (es.take p.blockSize)).size =
              min p.blockSize es.length := by
            rw [h3, htake]
            exact Nat.zero_add _
          rw [hnewLive, List.nil_append] at h2
          obtain ⟨ih1, ih2⟩ := ih (es.drop p.blockSize) (by rw [List.length_drop]; omega) h1 (by
            rw [h2, List.take_append_drop]
            exact Ordered.right hinc) (fun x hx => hnull x (List.mem_of_mem_drop hx)) (by
              rcases Nat.le_total es.length p.blockSize with h | h
              · exact Or.inl ⟨List.drop_eq_nil_of_le h, by omega⟩
              · exact Or.inr (by omega))
          rw [(bulkLoop_full (by omega) hnil hfull hlarge n).1, (bulkLoop_open hnil hopen n).1]
          refine ⟨fun c hc => ?_, ?_⟩
          · rcases List.mem_cons.mp hc with rfl | hc
            · exact ⟨hb.filled.valid (by omega), by omega⟩
            · exact ih1 c hc
          · rw [elements_cons, ih2, h2, List.take_append_drop]

end Loading

/-- **`insertIntoEmptyRange`** of the overallocated array, for a batch without repeated keys: the
elements are written as they are, in blocks that are large enough or in a single one. -/
theorem denseRangeBlocks_spec {es : List α} (heven : 2 ∣ p.blockSize) (htwo : 2 ≤ p.blockSize)
    (hsigned : p.blockSize ≤ 2 ^ 15) (hzero : p.keyOf p.zero = p.nullKey) (hinc : Increasing p es)
    (hnull : ∀ x ∈ es, p.keyOf x ≠ p.nullKey) :
    (∀ b ∈ denseRangeBlocks p es, b.Valid p) ∧ elements (denseRangeBlocks p es) = es ∧
      ((∀ b ∈ denseRangeBlocks p es, p.minBlockSize ≤ b.size) ∨
        (denseRangeBlocks p es).length = 1) := by
  have hm := mergesSorted_mergeFaster hsigned
  have hnew : InsertionBlock p ((PmaEntry.null p).allocateBlock p) := insertionBlock_allocate hzero
  have hopen : ((PmaEntry.null p).allocateBlock p).size ≠ p.blockSize := by
    change 0 ≠ p.blockSize
    omega
  have hnewLive : ((PmaEntry.null p).allocateBlock p).live = [] := by
    simp [PmaEntry.live, PmaEntry.allocateBlock, PmaEntry.null]
  rw [denseRangeBlocks, denseRangeLoop_eq]
  cases hes : es with
  | nil =>
      refine ⟨fun b hb => absurd hb ?_, rfl, Or.inl fun b hb => absurd hb ?_⟩ <;>
        exact List.not_mem_nil
  | cons e rest =>
      rw [← hes]
      have hne : es ≠ [] := by simp [hes]
      have hlen : es.length = rest.length + 1 := by rw [hes, List.length_cons]
      have hchunk : Increasing p
          (((PmaEntry.null p).allocateBlock p).live ++ es.take p.blockSize) := by
        rw [hnewLive, List.nil_append]
        exact List.Pairwise.sublist (List.take_sublist _ _) hinc
      have htake : (es.take p.blockSize).length = min p.blockSize es.length := List.length_take
      obtain ⟨h1, h2, h3⟩ := hm.append hnew hchunk
        (fun x hx => hnull x (List.mem_of_mem_take hx)) (by
          change 0 + _ ≤ _
          omega)
      have h3' : (((PmaEntry.null p).allocateBlock p).mergeFaster p (es.take p.blockSize)).size =
          min p.blockSize es.length := by
        rw [h3, htake]
        exact Nat.zero_add _
      rw [hnewLive, List.nil_append] at h2
      rw [hlen, (bulkLoop_open hne hopen rest.length).1]
      rcases Nat.lt_or_ge es.length p.blockSize with hlt | hge
      · -- a single block
        have hdrop : es.drop p.blockSize = [] := List.drop_eq_nil_of_le hlt.le
        rw [List.take_of_length_le hlt.le] at h1 h2 h3' ⊢
        rw [hdrop]
        have hend : bulkLoop p (fun b es => b.mergeFaster p es) rest.length []
            (((PmaEntry.null p).allocateBlock p).mergeFaster p es) =
              [((PmaEntry.null p).allocateBlock p).mergeFaster p es] := by
          cases rest <;> exact if_pos (by omega)
        rw [hend, elements_cons, elements_nil, List.append_nil]
        refine ⟨fun b hb => ?_, h2, Or.inr rfl⟩
        rw [List.mem_singleton.mp hb]
        exact h1.filled.valid (by omega)
      · obtain ⟨k1, k2⟩ := bulkLoop_increasing hm heven htwo hzero rest.length
          (es.drop p.blockSize) (by rw [List.length_drop]; omega) h1 (by
            rw [h2, List.take_append_drop]
            exact hinc) (fun x hx => hnull x (List.mem_of_mem_drop hx)) (Or.inr (by omega))
        refine ⟨fun b hb => (k1 b hb).1, ?_, Or.inl fun b hb => (k1 b hb).2⟩
        rw [k2, h2, List.take_append_drop]

end BatchPMA
