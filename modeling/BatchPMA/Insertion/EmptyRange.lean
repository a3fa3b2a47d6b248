import BatchPMA.OutOfPlace.Blocks
import BatchPMA.Insertion.InverseMerge

/-!
# Loading an empty range

For a batch without repeated keys `insertIntoEmptyRange` does what `inverseMerge` does when the merge
block has no elements: the insertion block is empty or full whenever the loop comes to it, so both
routines take as many elements at a time.
-/

namespace BatchPMA

open KeyedUnion

variable {K α : Type} [LinearOrder K] {p : BlockParams K α} {es : List α} {b : PmaEntry K α}

/-- A sequence of blocks as it is between two batches: what splits have left behind in dead cells
lies in later blocks, and a block with few elements is the only one. -/
structure BlocksSound (p : BlockParams K α) (bs : List (PmaEntry K α)) : Prop where
  valid : ∀ b ∈ bs, b.Valid p
  increasing : Increasing p (elements bs)
  dead : DeadOk p (fun _ => False) bs
  large : bs.length ≤ 1 ∨ ∀ b ∈ bs, p.minBlockSize ≤ b.size

section Loading

variable (heven : 2 ∣ p.blockSize) (hfour : 4 ≤ p.blockSize) (hzero : p.keyOf p.zero = p.nullKey)
include heven hfour hzero

omit hzero in
/-- The number of elements that fit behind `nextBlock`. -/
lemma min_nextBlock (hb : InsertionBlock p b) (hfull : b.size = p.blockSize) {n : ℕ} :
    min (p.blockSize - (nextBlock p b n).2.size) n = min p.blockSize n ∧
      ((nextBlock p b n).2.size = 0 ∨ n ≤ p.blockSize) := by
  have hmin : p.minBlockSize = p.blockSize / 2 := rfl
  rw [nextBlock]
  split
  · have hs := (hb.filled.split_spec hfull heven (by omega)).right_size
    omega
  · refine ⟨?_, Or.inl rfl⟩
    change min (p.blockSize - 0) n = _
    rw [Nat.sub_zero]

/-- The two loops take the same steps. -/
lemma emptyRangeLoop_eq_merge : ∀ (n : ℕ) (es : List α) {b : PmaEntry K α}
    (written : List (PmaEntry K α)) (last : K), InsertionBlock p b → Increasing p (b.live ++ es) →
    (∀ x ∈ es, p.keyOf x ≠ p.nullKey) → (b.size = 0 ∨ b.size = p.blockSize ∨ es = []) →
      written ++ emptyRangeLoop p n es b =
        (MergeState.loop p n ⟨written, b, last, es, []⟩).finish
  | 0, es, b, written, last, _, _, _, _ => rfl
  | n + 1, [], b, written, last, _, _, _, _ => by
      have hend : MergeState.loop p (n + 1) ⟨written, b, last, [], []⟩ = ⟨written, b, last, [], []⟩ :=
        if_pos ⟨rfl, rfl⟩
      rw [hend]
      rfl
  | n + 1, e :: es, b, written, last, hb, hinc, hnull, hsize => by
      have hsize' : b.size = 0 ∨ b.size = p.blockSize :=
        hsize.imp id fun h => h.resolve_right (by simp)
      have hchunk : ∀ {c : PmaEntry K α}, InsertionBlock p c → Increasing p (c.live ++ e :: es) →
          min (p.blockSize - c.size) (es.length + 1) = min p.blockSize (es.length + 1) →
          (c.size = 0 ∨ es.length + 1 ≤ p.blockSize) → ∀ w,
          w ++ emptyRangeLoop p n ((e :: es).drop (min p.blockSize (es.length + 1)))
              (c.merge p ((e :: es).take (min p.blockSize (es.length + 1)))) =
            (MergeState.loop p n (MergeState.step p ⟨w, c, last, e :: es, []⟩)).finish := by
        intro c hc hinc hcount hcase w
        have hstep : MergeState.step p ⟨w, c, last, e :: es, []⟩ =
            ⟨w, c.merge p ((e :: es).take (min p.blockSize (es.length + 1))), last,
              (e :: es).drop (min p.blockSize (es.length + 1)), []⟩ := by
          rw [← hcount]
          rfl
        have hlen : ((e :: es).take (min p.blockSize (es.length + 1))).length =
            min p.blockSize (es.length + 1) := by
          rw [List.length_take, List.length_cons]
          omega
        have hroom : c.size + ((e :: es).take (min p.blockSize (es.length + 1))).length ≤
            p.blockSize := by
          have := hc.filled.size_le
          omega
        have hincTake : Increasing p
            (c.live ++ (e :: es).take (min p.blockSize (es.length + 1))) := by
          refine List.Pairwise.sublist ?_ hinc
          exact List.Sublist.append (List.Sublist.refl _) (List.take_sublist _ _)
        obtain ⟨h1, h2, h3⟩ := mergesSorted_merge.append hc hincTake
          (fun x hx => hnull x (List.mem_of_mem_take hx)) hroom
        rw [hstep]
        refine emptyRangeLoop_eq_merge n _ w last h1 ?_
          (fun x hx => hnull x (List.mem_of_mem_drop hx)) ?_
        · rw [h2, List.append_assoc, List.take_append_drop]
          exact hinc
        · rcases Nat.le_total (es.length + 1) p.blockSize with hle | hge
          · refine Or.inr (Or.inr (List.drop_eq_nil_of_le ?_))
            rw [List.length_cons]
            omega
          · rw [h3, hlen]
            omega
      rw [MergeState.loop, if_neg (by simp), emptyRangeLoop]
      simp only
      split
      · rename_i hfull
        obtain ⟨hcount, hcase⟩ := @min_nextBlock _ _ _ p b heven hfour hb hfull
          (es.length + 1)
        obtain ⟨-, hnew, hlive⟩ := nextBlock_spec hzero heven (by omega) hb hfull (es.length + 1)
        have hflush : MergeState.flush p ⟨written, b, last, e :: es, []⟩ =
            ⟨written ++ [(nextBlock p b (es.length + 1)).1], (nextBlock p b (es.length + 1)).2,
              last, e :: es, []⟩ := by
          rw [MergeState.flush, if_pos hfull]
          rfl
        rw [← hlive, List.append_assoc] at hinc
        rw [hflush, ← hchunk hnew (Ordered.right hinc) hcount hcase, List.append_assoc]
        rfl
      · rename_i hopen
        have h0 : b.size = 0 := hsize'.resolve_right hopen
        have hflush : MergeState.flush p ⟨written, b, last, e :: es, []⟩ =
            ⟨written, b, last, e :: es, []⟩ := if_neg hopen
        rw [hflush]
        exact hchunk hb hinc (by rw [h0, Nat.sub_zero]) (Or.inl h0) written

/-- **`insertIntoEmptyRange`** of the batched array, for a batch without repeated keys. -/
theorem emptyRangeBlocks_eq (hinc : Increasing p es) (hnull : ∀ x ∈ es, p.keyOf x ≠ p.nullKey) :
    emptyRangeBlocks p es = inverseMergeBlocks p es [] := by
  have hlive : ((PmaEntry.null p).allocateBlock p).live = [] := by
    simp [PmaEntry.live, PmaEntry.allocateBlock, PmaEntry.null]
  have heq := emptyRangeLoop_eq_merge heven hfour hzero es.length es [] p.nullKey
    (insertionBlock_allocate hzero) (by rw [hlive]; exact hinc) hnull (Or.inl rfl)
  rw [List.nil_append] at heq
  rw [emptyRangeBlocks, inverseMergeBlocks, heq]
  rfl

/-- The elements of a small batch are in a single block. -/
lemma emptyRangeBlocks_small (hinc : Increasing p es) (hnull : ∀ x ∈ es, p.keyOf x ≠ p.nullKey)
    (hne : es ≠ []) (hsmall : es.length < p.minBlockSize) : ∃ b : PmaEntry K α,
      emptyRangeBlocks p es = [b] ∧ b.Valid p ∧ b.live = es ∧
        ∀ x ∈ b.dead, p.keyOf x = p.nullKey := by
  have hmin : p.minBlockSize = p.blockSize / 2 := rfl
  have hroom : ((PmaEntry.null p).allocateBlock p).size + es.length ≤ p.blockSize := by
    change 0 + es.length ≤ p.blockSize
    omega
  -- the dead cells are as they were allocated
  have hdead : ∀ x ∈ ((PmaEntry.null p).allocateBlock p).dead, p.keyOf x = p.nullKey := by
    intro x hx
    have hx' : x ∈ List.replicate p.blockSize p.zero := List.mem_of_mem_drop hx
    rw [List.eq_of_mem_replicate hx', hzero]
  have hm := (insertionBlock_allocate (p := p) hzero).filled.merge_spec hroom hinc fun e he =>
    ⟨hnull e he, fun x hx hk => absurd (hk.symm.trans (hdead x hx)) (hnull e he)⟩
  have hlive : (((PmaEntry.null p).allocateBlock p).merge p es).live = es := by
    have hunion := hm.union
    rw [show ((PmaEntry.null p).allocateBlock p).live = [] by
      simp [PmaEntry.live, PmaEntry.allocateBlock, PmaEntry.null]] at hunion
    exact hunion.unique (IsUnion.nil_old hinc)
  have hsize : 0 < (((PmaEntry.null p).allocateBlock p).merge p es).size := by
    rw [← hm.filled.length_live, hlive]
    exact List.length_pos_iff.mpr hne
  refine ⟨((PmaEntry.null p).allocateBlock p).merge p es, ?_, hm.filled.valid hsize, hlive,
    fun x hx => hdead x (hm.dead.mem hx)⟩
  obtain ⟨e, rest, rfl⟩ := List.exists_cons_of_ne_nil hne
  have htake : min p.blockSize (rest.length + 1) = (e :: rest).length := by
    rw [List.length_cons] at hsmall ⊢
    omega
  have hopen : ¬ ((PmaEntry.null p).allocateBlock p).size = p.blockSize := by
    change ¬ 0 = p.blockSize
    omega
  rw [emptyRangeBlocks, List.length_cons, emptyRangeLoop]
  simp only
  rw [if_neg hopen, htake, List.drop_length, List.take_length]
  cases rest <;> exact if_pos hsize

/-- What is written is sound, and it is the batch. -/
theorem emptyRangeBlocks_spec (hinc : Increasing p es) (hnull : ∀ x ∈ es, p.keyOf x ≠ p.nullKey)
    (hne : es ≠ []) : BlocksSound p (emptyRangeBlocks p es) ∧ elements (emptyRangeBlocks p es) = es := by
  rcases Nat.lt_or_ge es.length p.minBlockSize with hlt | hge
  · obtain ⟨b, hb, hvalid, hlive, hdead⟩ :=
      emptyRangeBlocks_small heven hfour hzero hinc hnull hne hlt
    rw [hb, elements_cons, elements_nil, List.append_nil]
    refine ⟨⟨fun c hc => ?_, ?_, ⟨fun x hx => Or.inl (hdead x hx), trivial⟩, Or.inl (le_refl _)⟩,
      hlive⟩
    · rw [List.mem_singleton.mp hc]
      exact hvalid
    · rw [elements_cons, elements_nil, List.append_nil, hlive]
      exact hinc
  · have hw := @inverseMergeBlocks_spec _ _ _ p es [] (fun _ => False) heven hfour hzero
      hinc List.Pairwise.nil (by simpa using hnull) (le_trans hge (le_max_left _ _))
    rw [← emptyRangeBlocks_eq heven hfour hzero hinc hnull] at hw
    have helements := hw.union.unique (IsUnion.nil_old hinc)
    exact ⟨⟨hw.valid, by rw [helements]; exact hinc, hw.dead, Or.inr hw.large⟩, helements⟩

end Loading

end BatchPMA
