import BatchPMA.Runs.Batched
import BatchPMA.Runs.Validation

/-!
# What the checks of the batched array check

`isValid` runs through the blocks of the pma and of the buffer, cell by cell.  In front of both
phases of a call and behind them the blocks are sound, and it accepts them exactly if there is no
element, or if there are as many as a block has to have.  All other checks of an extended test build
are passed in every call: the counters are exact once the hierarchy has been updated, the
rebalancing tasks do not overlap, and in the end nothing is left in the buffer and in the swap array.
-/

namespace BatchPMA

open KeyedUnion Ranges RebalancingManager
open OverallocatedBatchedSparseArray (ValidityState foldl_count)

variable {K α : Type} [LinearOrder K]

omit [LinearOrder K] in
lemma foldlM_flatMap {β γ δ : Type} (f : δ → γ → Option δ) (g : β → List γ) :
    ∀ (l : List β) (d : δ), (l.flatMap g).foldlM f d = l.foldlM (fun d a => (g a).foldlM f d) d
  | [], _ => rfl
  | a :: l, d => by
      rw [List.flatMap_cons, List.foldlM_append, List.foldlM_cons]
      exact congrArg _ (funext fun d' => foldlM_flatMap f g l d')

namespace BatchedSparseArray

/-! ## The check of a sequence of blocks -/

section Blocks

variable {p : BlockParams K α} {b : PmaEntry K α} {bs : List (PmaEntry K α)}

/-- What is checked of a single block. -/
structure BlockOk (p : BlockParams K α) (b : PmaEntry K α) : Prop where
  minBlockSize_le : p.minBlockSize ≤ b.size
  size_le : b.size ≤ p.blockSize
  head_eq : b.head = p.keyOf (b.get p 0)

lemma validateBlock_eq (st : ValidityState K) (hok : BlockOk p b) :
    validateBlock p st b = (ascend st.currentHead [b.head]).bind fun head =>
      (ascend st.currentElement (b.keysRead p)).map fun element => ⟨head, element⟩ := by
  have h1 := hok.minBlockSize_le
  have h2 := hok.size_le
  rw [validateBlock, if_neg (by omega), ascend]
  split
  · rfl
  · rw [if_neg (not_not.mpr hok.head_eq), ascend]
    rfl

/-- A block that is not as it has to be ends the loop. -/
lemma BlockOk.of_validateBlock {st : ValidityState K}
    (h : (validateBlock p st b).isSome = true) : BlockOk p b := by
  rw [validateBlock] at h
  split at h
  · simp at h
  · rename_i hsize
    split at h
    · simp at h
    · split at h
      · simp at h
      · rename_i hhead
        exact ⟨by omega, by omega, not_not.mp hhead⟩

/-- The loop checks each block, and its two local variables ascend through the heads and the
keys. -/
lemma foldlM_validateBlock_isSome : ∀ {st : ValidityState K},
    (bs.foldlM (validateBlock p) st).isSome = true ↔ (∀ b ∈ bs, BlockOk p b) ∧
      (ascend st.currentHead (bs.map PmaEntry.head)).isSome = true ∧
      (ascend st.currentElement (bs.flatMap (PmaEntry.keysRead p))).isSome = true := by
  induction bs with
  | nil => simp [ascend]
  | cons b bs ih =>
      intro st
      rw [List.foldlM_cons, List.forall_mem_cons, List.map_cons, ← List.singleton_append,
        List.flatMap_cons, ascend_append, ascend_append]
      by_cases hok : BlockOk p b
      · rw [validateBlock_eq st hok]
        cases ascend st.currentHead [b.head] with
        | none => simp
        | some head =>
            cases ascend st.currentElement (b.keysRead p) with
            | none => simp
            | some element => simpa [hok] using @ih ⟨head, element⟩
      · refine ⟨fun h => ?_, fun h => absurd h.1.1 hok⟩
        cases hblock : validateBlock p st b with
        | none => simp [hblock] at h
        | some next =>
            have hsome : (validateBlock p st b).isSome = true := by rw [hblock]; rfl
            exact absurd (BlockOk.of_validateBlock hsome) hok

/-- The head of a block is one of its keys. -/
lemma heads_sublist (hvalid : ∀ b ∈ bs, b.Valid p) :
    (bs.map PmaEntry.head).Sublist (bs.flatMap (PmaEntry.keysRead p)) := by
  induction bs with
  | nil => exact List.Sublist.refl _
  | cons b bs ih =>
      rw [List.forall_mem_cons] at hvalid
      rw [List.map_cons, ← List.singleton_append, List.flatMap_cons]
      refine List.Sublist.append ?_ (ih hvalid.2)
      rw [List.singleton_sublist, PmaEntry.keysRead, List.mem_map, hvalid.1.head_eq]
      exact ⟨0, List.mem_range.mpr hvalid.1.size_pos, rfl⟩

/-- A sound sequence can only be rejected for the size of its single block. -/
lemma accepted_iff (hb : BlocksSound p bs) (hnull : ∀ x ∈ elements bs, p.nullKey < p.keyOf x) :
    (bs.foldlM (validateBlock p) ⟨p.nullKey, p.nullKey⟩).isSome = true ↔
      elements bs = [] ∨ p.minBlockSize ≤ (elements bs).length := by
  have hread : bs.flatMap (PmaEntry.keysRead p) = (elements bs).map p.keyOf := by
    rw [elements, List.map_flatMap]
    exact List.flatMap_congr fun b hin => (hb.valid b hin).keysRead_eq
  have hkeys : (p.nullKey :: (elements bs).map p.keyOf).Pairwise (· < ·) := by
    rw [List.pairwise_cons, List.pairwise_map]
    refine ⟨fun k hk => ?_, hb.increasing⟩
    obtain ⟨x, hx, rfl⟩ := List.mem_map.mp hk
    exact hnull x hx
  have hheads : (p.nullKey :: bs.map PmaEntry.head).Pairwise (· < ·) := by
    have hsub := heads_sublist hb.valid
    rw [hread] at hsub
    exact hkeys.sublist (hsub.cons_cons _)
  have hlen : ∀ b ∈ bs, b.live.length = b.size := fun b hin => (hb.valid b hin).length_live
  rw [foldlM_validateBlock_isSome, ascend_isSome_iff, ascend_isSome_iff, hread]
  constructor
  · rintro ⟨hok, -, -⟩
    cases bs with
    | nil => exact Or.inl rfl
    | cons b bs =>
        refine Or.inr ?_
        rw [elements_cons, List.length_append, hlen b List.mem_cons_self]
        have := (hok b List.mem_cons_self).minBlockSize_le
        omega
  · refine fun hmany => ⟨fun b hin => ⟨?_, (hb.valid b hin).size_le, (hb.valid b hin).head_eq⟩,
      hheads, hkeys⟩
    rcases hb.large with hone | hlarge
    · -- the only block holds all elements
      have hpos := (hb.valid b hin).size_pos
      obtain ⟨b', hb'⟩ := List.length_eq_one_iff.mp (le_antisymm hone (List.length_pos_of_mem hin))
      have helements : (elements bs).length = b.size := by
        rw [hb', List.mem_singleton] at hin
        rw [← hlen b (by rw [hb', hin]; exact List.mem_cons_self), hb', hin, elements_cons,
          elements_nil, List.append_nil]
      rcases hmany with hnil | hle
      · rw [hnil, List.length_nil] at helements
        omega
      · omega
    · exact hlarge b hin

end Blocks

/-! ## `isValid` -/

variable {p : BatchedParams K α} {r s : BatchedSparseArray K α} {batch : List α} {n : ℕ}
  {sched : Schedule}

/-- Empty cells are null, and pointers into the buffer lead to blocks only. -/
structure Tidy (p : BatchedParams K α) (s : BatchedSparseArray K α) : Prop where
  cell_null : ∀ c, s.empty p c = true → s.pma c = PmaEntry.null p.toBlockParams
  buffers_full : ∀ c j, (s.bufferPointers c).contains j → 0 < (s.bufferArray j).size
  behind : ∀ c, max 1 s.size ≤ c → (s.bufferPointers c).length = 0
  size_lt : s.size < s.capacity

lemma Quiescent.tidy (h : s.Quiescent p) : s.Tidy p := by
  refine ⟨h.cell_null, fun c j hc => ?_, fun c _ => by rw [h.pointers c]; rfl, h.size_lt⟩
  rw [h.pointers c] at hc
  exact absurd hc.2 (Nat.not_lt_zero j)

lemma InsertionResult.tidy (hr : s.InsertionResult p batch r) (h : s.PhaseInput p batch)
    (hd : s.PhaseDone p batch r) : r.Tidy p := by
  have hsize := h.size_eq_of_done hd
  obtain ⟨-, -, -, -, hcapacity, -⟩ := h.unchanged hd
  refine ⟨hr.cell_null, fun c j hc =>
    (hr.sound.valid _ (hr.mem_blocks_of_buffer h hd hc)).size_pos, fun c hc => ?_, ?_⟩
  · rw [hr.behind c (by rwa [hsize] at hc)]
    rfl
  · rw [hsize, hcapacity]
    exact h.quiet.size_lt

lemma foldlM_validateBufferCell {js : List ℕ} (hfull : ∀ j ∈ js, 0 < (s.bufferArray j).size) :
    ∀ {st : ValidityState K}, js.foldlM (s.validateBufferCell p) st =
      (js.map s.bufferArray).foldlM (validateBlock p.toBlockParams) st := by
  induction js with
  | nil => exact rfl
  | cons j js ih =>
      intro st
      rw [List.forall_mem_cons] at hfull
      have := hfull.1
      rw [List.foldlM_cons, List.map_cons, List.foldlM_cons, validateBufferCell, if_pos (by omega)]
      exact congrArg _ (funext fun _ => ih hfull.2)

namespace Tidy

variable (h : s.Tidy p)
include h

/-- One iteration looks at the blocks of the cell. -/
lemma validateCell_eq (st : ValidityState K) (c : ℕ) : s.validateCell p st c =
    (s.cellBlocks p c).foldlM (validateBlock p.toBlockParams) st := by
  have hpma : s.validatePmaCell p st c =
      (s.ownBlock p c).foldlM (validateBlock p.toBlockParams) st := by
    rw [validatePmaCell, ownBlock]
    cases hempty : s.empty p c with
    | true =>
        rw [h.cell_null c hempty]
        rfl
    | false =>
        rw [if_pos rfl, if_neg (by simp), List.foldlM_cons]
        exact (bind_pure _).symm
  rw [validateCell, cellBlocks_eq, List.foldlM_append, hpma]
  exact congrArg _ (funext fun _ => foldlM_validateBufferCell fun j hj =>
    h.buffers_full c j (mem_bufferCells.mp hj))

/-- `isValid` looks at the sequence of blocks. -/
lemma isValid_eq : s.isValid p =
    ((s.blocks p).foldlM (validateBlock p.toBlockParams) ⟨p.nullKey, p.nullKey⟩).isSome := by
  have hlt := h.size_lt
  rw [isValid, blocks_eq h.behind (show max 1 s.size ≤ s.capacity by omega), itemsIn,
    foldlM_flatMap, Nat.sub_zero, ← List.range_eq_range']
  exact congrArg Option.isSome (congrArg (fun f => List.foldlM f _ _)
    (funext fun st => funext fun c => h.validateCell_eq st c))

/-- Sound blocks can only be too few elements. -/
lemma isValid_iff_length (hb : BlocksSound p.toBlockParams (s.blocks p))
    (hnull : ∀ x ∈ elements (s.blocks p), p.nullKey < p.keyOf x) :
    s.isValid p = true ↔ elements (s.blocks p) = [] ∨
      p.minBlockSize ≤ (elements (s.blocks p)).length := by
  rw [h.isValid_eq]
  exact accepted_iff hb hnull

end Tidy

/-! ## Counting -/

/-- The blocks of all cells. -/
lemma Quiescent.blocks_eq_own (h : s.Quiescent p) :
    s.blocks p = itemsIn (s.ownBlock p) 0 s.capacity := by
  have hlt := h.size_lt
  rw [blocks_eq h.tidy.behind (show max 1 s.size ≤ s.capacity by omega)]
  exact itemsIn_congr fun c _ _ => h.cellBlocks_eq c

lemma Sound.numberOfElements_eq (h : Sound p s) :
    s.numberOfElements p = (elements (s.blocks p)).length := by
  rw [numberOfElements, foldl_count, Nat.zero_add, h.quiet.blocks_eq_own, elements, itemsIn,
    List.flatMap_assoc, List.length_flatMap, Nat.sub_zero, ← List.range_eq_range']
  congr 1
  refine List.map_congr_left fun c _ => ?_
  rw [ownBlock]
  cases hempty : s.empty p c with
  | true => rfl
  | false =>
      have hvalid := h.blocks.valid _ (h.quiet.mem_blocks hempty)
      simp [hvalid.length_live]

lemma Sound.numberOfBlocks_eq (h : Sound p s) : s.numberOfBlocks p = (s.blocks p).length := by
  rw [numberOfBlocks, foldl_count _ (fun _ => 1), Nat.zero_add, h.quiet.blocks_eq_own, itemsIn,
    List.length_flatMap, Nat.sub_zero, ← List.range_eq_range']
  congr 1
  refine List.map_congr_left fun c _ => ?_
  rw [ownBlock]
  cases s.empty p c <;> rfl

/-! ## Checks between the phases -/

omit [LinearOrder K] in
lemma overlaps_eq_false {i j : Interval} (h : ∀ c, i.contains c → ¬ j.contains c) :
    i.overlaps j = false := by
  rw [Interval.overlaps, decide_eq_false_iff_not, not_not, Interval.cut]
  refine if_pos ?_
  by_contra hlt
  simp only [not_le] at hlt
  refine h (max i.left j.left) ⟨le_max_left _ _, ?_⟩ ⟨le_max_right _ _, ?_⟩
  · exact lt_of_lt_of_le hlt (min_le_left _ _)
  · exact lt_of_lt_of_le hlt (min_le_right _ _)

omit [LinearOrder K] in
/-- Exact counters pass the assertions of `validate`. -/
lemma validate_of_exact {m : RebalancingManager} {sds : SdsView} (hm : m.LevelsValid)
    (hexact : m.CountersExact sds) (hbehind : ∀ c, n ≤ c → sds.blocksAt c = 0) :
    m.validate sds n = true := by
  rw [validate, Bool.and_eq_true, List.all_eq_true, List.all_eq_true]
  constructor
  · intro i hi
    rw [List.mem_range, hm.numberOfAggregatesInLevel_eq (Nat.zero_le _)] at hi
    rw [decide_eq_true_eq, countLevelZero_eq hbehind, hexact 0 (Nat.zero_le _) i hi]
  · intro level hlevel
    have hl := List.mem_range'_1.mp hlevel
    obtain ⟨l, rfl⟩ : ∃ l, level = l + 1 := ⟨level - 1, by omega⟩
    rw [List.all_eq_true]
    intro i hi
    rw [List.mem_range, hm.numberOfAggregatesInLevel_eq (by omega)] at hi
    rw [decide_eq_true_eq]
    exact (Rebalanceable.sums_of_exact hexact (show l < m.logCapacity by omega) hi).symm

lemma Rebalanceable.validate_withTasks (h : s.Rebalanceable p) (sched : Schedule) :
    (s.withTasks p sched).rebalancingManager.validate ((s.withTasks p sched).sdsView p)
      ((s.withTasks p sched).size + 1) = true := by
  have hready := h.ready_withTasks sched
  exact validate_of_exact hready.levels hready.counters fun c hc =>
    blocksAt_behind hready.behind c (by omega)

lemma Rebalanceable.validateRebalancingTasks (h : s.Rebalanceable p) (sched : Schedule) :
    (s.withTasks p sched).validateRebalancingTasks = true := by
  have hready := h.ready_withTasks sched
  have hdisjoint : ∀ i < (s.withTasks p sched).rebalancingTasks.length,
      ∀ j < (s.withTasks p sched).rebalancingTasks.length, i ≠ j →
      ∀ c, ((s.withTasks p sched).rebalancingTask i).pmaRange.contains c →
        ¬ ((s.withTasks p sched).rebalancingTask j).pmaRange.contains c :=
    fun i hi j hj hne c hc hc' => hne (task_unique hready.disjoint hi hj hc hc')
  rw [BatchedSparseArray.validateRebalancingTasks, List.all_eq_true]
  intro i hi
  rw [List.all_eq_true]
  intro j hj
  rw [List.mem_range] at hi hj
  by_cases hij : i = j
  · simp [hij]
  · have hroot : ((s.withTasks p sched).rebalancingTask i).rootNode ≠
        ((s.withTasks p sched).rebalancingTask j).rootNode := by
      intro heq
      have hshape := h.taskShape sched (rebalancingTask_mem hi)
      have hshape' := h.taskShape sched (rebalancingTask_mem hj)
      have hpos := hshape.blocks_pos
      have hfits := hready.fits _ (rebalancingTask_mem hi)
      rw [Interval.length] at hfits
      refine hdisjoint i hi j hj hij _ ⟨le_refl _, by omega⟩ ?_
      rw [hshape'.range_eq, ← heq, ← hshape.range_eq]
      exact ⟨le_refl _, by omega⟩
    rw [overlaps_eq_false (hdisjoint i hi j hj hij),
      overlaps_eq_false (hdisjoint j hj i hi (Ne.symm hij))]
    simp [hij, hroot]

/-- Behind the rebalancing phase the other arrays are empty. -/
lemma Quiescent.cleared (h : s.Quiescent p) :
    s.validateBufferCleared = true ∧ s.validateSwapCleared = true := by
  constructor
  · rw [validateBufferCleared, Bool.and_eq_true, List.all_eq_true, List.all_eq_true]
    refine ⟨fun c _ => ?_, fun j _ => ?_⟩
    · rw [h.pointers c]
      rfl
    · rw [h.buffer_null j]
      rfl
  · rw [validateSwapCleared, List.all_eq_true]
    intro i _
    rw [h.swap_null i]
    rfl

/-- In front of step B-9 the buffer is empty already. -/
lemma Rebalanceable.buffer_cleared (h : s.Rebalanceable p) (sched : Schedule)
    (hne : (s.withTasks p sched).rebalancingTasks ≠ []) :
    (((s.withTasks p sched).moveToSwap p sched).clearAndResize p sched
      (s.withTasks p sched).newPmaSize).validateBufferCleared = true := by
  have he := (h.ready_withTasks sched).emptied (h.clean_withTasks sched) (h.covered sched) hne
    (fun task ht => (h.taskShape sched ht).blocks_pos) h.swapCapacity_eq h.threads_pos sched
  generalize ((s.withTasks p sched).moveToSwap p sched).clearAndResize p sched
    (s.withTasks p sched).newPmaSize = r at he ⊢
  rw [validateBufferCleared, Bool.and_eq_true, List.all_eq_true, List.all_eq_true]
  refine ⟨fun c _ => ?_, fun j _ => ?_⟩
  · have hzero : r.bufferPointers c = .zero := by
      rcases he.pointer c with hz | hold
      · exact hz
      · rw [hold]
        refine h.tight c ?_
        have := he.pointers c
        rwa [hold] at this
    rw [hzero]
    rfl
  · rw [he.buffer_null j]
    rfl

/-! ## Runs -/

lemma AllowedRun.null_lt : ∀ {calls : List (Call α)} {s : BatchedSparseArray K α},
    AllowedRun p s calls → ∀ x ∈ calls.flatMap Call.batch, p.nullKey < p.keyOf x
  | [], _, _ => fun x hx => absurd hx List.not_mem_nil
  | call :: calls, _, h => fun x hx => by
      rw [List.flatMap_cons, List.mem_append] at hx
      exact hx.elim (h.1.null_lt x) (AllowedRun.null_lt h.2 x)

lemma AllowedRun.null_lt_allBatches {calls : List (Call α)} (h : AllowedRun p s calls) :
    ∀ x ∈ allBatches p calls, p.nullKey < p.keyOf x := fun x hx =>
  h.null_lt x ((mem_mergeKeyed hx).resolve_left List.not_mem_nil)

/-- A call has an element at least. -/
lemma allBatches_concat_ne_nil {calls : List (Call α)} {call : Call α}
    (hpos : 0 < s.numberOfThreads) (hc : call.Allowed p s) :
    allBatches p (calls ++ [call]) ≠ [] := by
  have hle := hc.threads_le
  obtain ⟨x, hx⟩ := List.exists_mem_of_length_pos (show 0 < call.batch.length by omega)
  have hordered : Ordered p.keyOf (allBatches p calls) :=
    (isKeyUnion_mergeKeyed List.Pairwise.nil).ordered
  rw [allBatches_concat]
  obtain ⟨y, hy, -⟩ := (isUnion_mergeKeyed hordered hc.increasing).exists_key hx
  exact List.ne_nil_of_mem hy

/-- **Validation and counting.**  In every state of a run `isValid` returns true exactly if there is
no element, or if there are as many as a block has to have.  The number of elements is that of the
ordered map, and the number of blocks is within the bounds that their sizes give. -/
theorem run_accepted_iff (p : BatchedParams K α) (calls : List (Call α)) (hp : p.Usable)
    (hpos : 0 < n) (hallowed : AllowedRun p (create p n) calls) :
    let s := run p (create p n) calls
    (s.isValid p = true ↔
      allBatches p calls = [] ∨ p.minBlockSize ≤ (allBatches p calls).length) ∧
    s.numberOfElements p = (allBatches p calls).length ∧
    (allBatches p calls).length ≤ p.blockSize * s.numberOfBlocks p ∧
    (s.numberOfBlocks p ≤ 1 ∨
      p.minBlockSize * s.numberOfBlocks p ≤ (allBatches p calls).length) := by
  intro s
  obtain ⟨hsound, hcontent, -⟩ := sound_run hp hpos hallowed
  have hvalid := hsound.blocks.valid
  refine ⟨?_, ?_, ?_, ?_⟩
  · rw [hsound.quiet.tidy.isValid_iff_length hsound.blocks
      (by rw [hcontent]; exact hallowed.null_lt_allBatches), hcontent]
  · rw [hsound.numberOfElements_eq, hcontent]
  · rw [hsound.numberOfBlocks_eq, ← hcontent]
    exact length_elements_le hvalid
  · rw [hsound.numberOfBlocks_eq, ← hcontent]
    exact hsound.blocks.large.imp id (le_length_elements hvalid)

theorem run_accepted_iff_twoBatches :
    let p := keyOnlyBatched 4 4
    let s := run p (create p 2) twoBatches
    s.isValid p = true ∧ s.numberOfElements p = 7 := by
  intro p s
  have h := run_accepted_iff (keyOnlyBatched 4 4) twoBatches
    usable_keyOnlyBatched_four (by decide) twoBatches_allowed
  exact ⟨h.1.mpr (Or.inr (by decide)), h.2.1⟩

/-- **The checks of an extended test build.**  In every call of a run the state between the phases
and the one behind step B-3 are accepted under the same condition as the one in the end, and all
other assertions hold: the counters are exact behind step B-3, the rebalancing tasks do not
overlap, the buffer is empty behind step B-8, and the buffer and the swap array are empty in the
end. -/
theorem run_passes_extendedTests (p : BatchedParams K α) (calls : List (Call α)) (call : Call α)
    (hp : p.Usable) (hpos : 0 < n) (hallowed : AllowedRun p (create p n) (calls ++ [call])) :
    let s := run p (create p n) calls
    let inserted := s.insertionPhase p call.batch call.sched
    let planned := inserted.withTasks p call.sched
    let cleared := (planned.moveToSwap p call.sched).clearAndResize p call.sched planned.newPmaSize
    let r := s.insertBatch p call.batch call.sched
    (∀ checked ∈ [inserted, planned, r], checked.isValid p = true ↔
      p.minBlockSize ≤ (allBatches p (calls ++ [call])).length) ∧
    planned.rebalancingManager.validate (planned.sdsView p) (planned.size + 1) = true ∧
    planned.validateRebalancingTasks = true ∧
    (planned.rebalancingTasks ≠ [] → cleared.validateBufferCleared = true) ∧
    r.validateBufferCleared = true ∧ r.validateSwapCleared = true := by
  have hnull := hallowed.null_lt_allBatches
  rw [allowedRun_append] at hallowed
  obtain ⟨hsound, hcontent, hthreads⟩ := sound_run hp hpos hallowed.1
  have hcall := hallowed.2.1
  have hne := @allBatches_concat_ne_nil _ _ _ _ _ calls _ (by rw [hthreads]; exact hpos) hcall
  intro s inserted planned cleared r
  have hmid := hsound.halfway hp hcall
  have hnext := hsound.insertBatch hp hcall
  have hunion : elements (inserted.blocks p) = allBatches p (calls ++ [call]) := by
    rw [hmid.content, hcontent, allBatches_concat]
  have hunion' : elements (r.blocks p) = allBatches p (calls ++ [call]) := by
    rw [hnext.2.1, hcontent, allBatches_concat]
  have hinserted := (hmid.result.tidy hmid.input hmid.done).isValid_iff_length hmid.result.sound
    (by rw [hunion]; exact hnull)
  have hlast := hnext.1.quiet.tidy.isValid_iff_length hnext.1.blocks (by rw [hunion']; exact hnull)
  rw [hunion, or_iff_right hne] at hinserted
  rw [hunion', or_iff_right hne] at hlast
  have hplanned : planned.isValid p = inserted.isValid p := rfl
  refine ⟨fun checked hin => ?_, hmid.ready.validate_withTasks call.sched,
    hmid.ready.validateRebalancingTasks call.sched, hmid.ready.buffer_cleared call.sched,
    hnext.1.quiet.cleared⟩
  simp only [List.mem_cons, List.not_mem_nil, or_false] at hin
  rcases hin with rfl | rfl | rfl
  · exact hinserted
  · rw [hplanned]
    exact hinserted
  · exact hlast

theorem run_passes_extendedTests_secondBatch :
    let p := keyOnlyBatched 4 4
    let s := run p (create p 2) [⟨[2, 4, 6, 8], Schedule.sequential⟩]
    let r := s.insertBatch p [1, 4, 5, 9] Schedule.sequential
    r.isValid p = true ∧ r.validateBufferCleared = true ∧ r.validateSwapCleared = true := by
  intro p s r
  obtain ⟨haccepted, -, -, -, hbuffer, hswap⟩ := run_passes_extendedTests (keyOnlyBatched 4 4)
    [⟨[2, 4, 6, 8], Schedule.sequential⟩] ⟨[1, 4, 5, 9], Schedule.sequential⟩
    usable_keyOnlyBatched_four (by decide) twoBatches_allowed
  exact ⟨(haccepted r (.tail _ (.tail _ (.head _)))).mpr (by decide), hbuffer, hswap⟩

end BatchedSparseArray

end BatchPMA
