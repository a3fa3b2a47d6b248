import BatchPMA.Model.Validation
import BatchPMA.Runs.Refinement

/-!
# What the checks of the array check

`isValid` accepts exactly the arrays that its assertions describe.  On the states of a run all of
them hold but one: a single block may be smaller than `MinBlockSize`.  So `isValid` rejects a state
exactly if it holds some elements, but fewer than a block has to have.
-/

namespace BatchPMA

open KeyedUnion Ranges

variable {K α : Type} [LinearOrder K]

/-! ## Ascending keys -/

lemma ascend_append (keys keys' : List K) : ∀ current : K,
    ascend current (keys ++ keys') = (ascend current keys).bind fun last => ascend last keys' := by
  induction keys with
  | nil => exact fun _ => rfl
  | cons key keys ih =>
      intro current
      rw [List.cons_append, ascend, ascend]
      split
      · rfl
      · exact ih key

/-- The loop goes through if the keys are strictly increasing and above the first one. -/
lemma ascend_isSome_iff {keys : List K} : ∀ {current : K},
    (ascend current keys).isSome = true ↔ (current :: keys).Pairwise (· < ·) := by
  induction keys with
  | nil => simp [ascend]
  | cons key keys ih =>
      intro current
      rw [ascend]
      split
      · rename_i hle
        refine ⟨fun h => by simp at h, fun h => ?_⟩
        have hlt : current < key := List.rel_of_pairwise_cons h List.mem_cons_self
        rcases hle with h' | h'
        · exact absurd h' hlt.asymm
        · exact absurd h'.symm hlt.ne
      · rename_i hlt
        have hlt : current < key := by
          rcases lt_trichotomy current key with h | h | h
          · exact h
          · exact absurd (Or.inr h.symm) hlt
          · exact absurd (Or.inl h) hlt
        rw [ih, List.pairwise_cons (a := current)]
        refine ⟨fun h => ⟨fun x hx => ?_, h⟩, fun h => h.2⟩
        rcases List.mem_cons.mp hx with rfl | hx
        · exact hlt
        · exact hlt.trans (List.rel_of_pairwise_cons h hx)

namespace PmaEntry

variable {p : BlockParams K α} {b : PmaEntry K α}

/-- What is read of a block are the keys of its live elements. -/
lemma Valid.keysRead_eq (h : b.Valid p) : b.keysRead p = b.live.map p.keyOf := by
  rw [keysRead]
  refine List.ext_getElem (by simp [h.length_live]) fun i h1 h2 => ?_
  rw [List.length_map] at h2
  rw [List.getElem_map, List.getElem_map, List.getElem_range, PmaEntry.get_of_lt h2]

end PmaEntry

namespace OverallocatedBatchedSparseArray

variable {p : OverallocatedParams K α} {s : OverallocatedBatchedSparseArray K α}

/-! ## What `isValid` checks -/

/-- The heads of the cells that are not empty. -/
def headsAt (p : OverallocatedParams K α) (s : OverallocatedBatchedSparseArray K α) (c : ℕ) :
    List K := if s.empty p c = false then [s.head c] else []

/-- The keys of the live elements of a cell. -/
def keysAt (p : OverallocatedParams K α) (s : OverallocatedBatchedSparseArray K α) (c : ℕ) :
    List K := if s.empty p c = false then (s.pma c).keysRead p.toBlockParams else []

/-- What is checked of a single cell. -/
structure CellOk (p : OverallocatedParams K α) (s : OverallocatedBatchedSparseArray K α) (c : ℕ) :
    Prop where
  null_of_empty : s.empty p c = true → (s.pma c).isEmpty = true ∧ (s.pma c).size = 0
  minBlockSize_le : s.empty p c = false → p.minBlockSize ≤ (s.pma c).size
  size_le : s.empty p c = false → (s.pma c).size ≤ p.blockSize
  head_eq : s.empty p c = false → s.head c = p.keyOf ((s.pma c).get p.toBlockParams 0)

/-- One iteration. -/
lemma validateCell_eq (st : ValidityState K) (c : ℕ) (hok : CellOk p s c) :
    s.validateCell p st c = (ascend st.currentHead (s.headsAt p c)).bind fun head =>
      (ascend st.currentElement (s.keysAt p c)).map fun element => ⟨head, element⟩ := by
  rw [validateCell, headsAt, keysAt]
  cases hempty : s.empty p c with
  | true =>
      obtain ⟨hnull, hsize⟩ := hok.null_of_empty hempty
      simp [ascend, hnull, hsize]
  | false =>
      have h1 := hok.minBlockSize_le hempty
      have h2 := hok.size_le hempty
      have h3 := hok.head_eq hempty
      rw [if_pos rfl, if_pos rfl, if_pos rfl, if_neg (by omega), ascend]
      split
      · rfl
      · rw [if_neg (not_not.mpr h3), ascend]
        rfl

/-- A cell that is not as it has to be ends the loop. -/
lemma CellOk.of_validateCell {st : ValidityState K} {c : ℕ}
    (h : (s.validateCell p st c).isSome = true) : CellOk p s c := by
  rw [validateCell] at h
  cases hempty : s.empty p c with
  | true =>
      rw [hempty] at h
      simp only [Bool.true_eq_false, if_false] at h
      split at h
      · simp at h
      · rename_i hno
        push Not at hno
        refine ⟨fun _ => ⟨by simpa using hno.1, hno.2⟩, ?_, ?_, ?_⟩ <;> simp [hempty]
  | false =>
      rw [hempty] at h
      simp only [if_true] at h
      split at h
      · simp at h
      · rename_i hsize
        split at h
        · simp at h
        · split at h
          · simp at h
          · rename_i hhead
            refine ⟨by simp [hempty], fun _ => by omega, fun _ => by omega, fun _ => ?_⟩
            exact not_not.mp hhead

/-- The loop over some cells checks each of them, and its two local variables ascend through the
heads and the keys. -/
lemma foldlM_validateCell_isSome {cells : List ℕ} : ∀ {st : ValidityState K},
    (cells.foldlM (s.validateCell p) st).isSome = true ↔ (∀ c ∈ cells, CellOk p s c) ∧
      (ascend st.currentHead (cells.flatMap (s.headsAt p))).isSome = true ∧
      (ascend st.currentElement (cells.flatMap (s.keysAt p))).isSome = true := by
  induction cells with
  | nil => simp [ascend]
  | cons c cells ih =>
      intro st
      rw [List.foldlM_cons, List.forall_mem_cons, List.flatMap_cons, List.flatMap_cons,
        ascend_append, ascend_append]
      by_cases hok : CellOk p s c
      · rw [validateCell_eq st c hok]
        cases ascend st.currentHead (s.headsAt p c) with
        | none => simp
        | some head =>
            cases ascend st.currentElement (s.keysAt p c) with
            | none => simp
            | some element => simpa [hok] using @ih ⟨head, element⟩
      · refine ⟨fun h => ?_, fun h => absurd h.1.1 hok⟩
        cases hcell : s.validateCell p st c with
        | none => simp [hcell] at h
        | some next =>
            have hsome : (s.validateCell p st c).isSome = true := by rw [hcell]; rfl
            exact absurd (CellOk.of_validateCell hsome) hok

/-- **What `isValid` accepts.**  Every cell is as it has to be, and heads and keys are strictly
increasing over all cells and above the null key. -/
theorem isValid_iff : s.isValid p = true ↔ (∀ c < s.capacity, CellOk p s c) ∧
    (p.nullKey :: itemsIn (s.headsAt p) 0 s.capacity).Pairwise (· < ·) ∧
    (p.nullKey :: itemsIn (s.keysAt p) 0 s.capacity).Pairwise (· < ·) := by
  rw [isValid, foldlM_validateCell_isSome, ascend_isSome_iff, ascend_isSome_iff, itemsIn, itemsIn,
    Nat.sub_zero, ← List.range_eq_range']
  simp only [List.mem_range]

/-! ## Validation of a run -/

/-- The keys of a cell are those of its live elements. -/
lemma Valid.keysAt_eq (h : s.Valid p) (c : ℕ) : keysAt p s c = (s.pma c).live.map p.keyOf := by
  rw [keysAt]
  rcases h.cell c with hnull | hvalid
  · rw [if_neg (by rw [h.empty_eq, hnull]; simp), hnull]
    rfl
  · rw [if_pos (by rw [h.empty_eq]; exact hvalid.isEmpty_eq), hvalid.keysRead_eq]

/-- The head of a cell is one of its keys. -/
lemma Valid.headsAt_sublist (h : s.Valid p) (c : ℕ) : (headsAt p s c).Sublist (keysAt p s c) := by
  rw [headsAt, keysAt]
  split
  · rename_i hempty
    rw [h.empty_eq] at hempty
    have hvalid := (h.cell c).resolve_left fun hnull => by simp [hnull] at hempty
    rw [List.singleton_sublist, PmaEntry.keysRead, List.mem_map, head, hvalid.head_eq]
    exact ⟨0, List.mem_range.mpr hvalid.size_pos, rfl⟩
  · exact List.Sublist.refl _

lemma Sound.keysAt_capacity (h : Sound p s) :
    itemsIn (keysAt p s) 0 s.capacity = (elements s.blocks).map p.keyOf := by
  rw [itemsIn_append _ (Nat.zero_le _) h.size_lt.le, itemsIn_eq_nil (a := s.size) fun c hc _ => ?_,
    List.append_nil, ← h.valid.content_view, ArrayView.content, List.map_flatMap, itemsIn,
    Nat.sub_zero, ← List.range_eq_range']
  · exact List.flatMap_congr fun c _ => h.valid.keysAt_eq c
  · rw [h.valid.keysAt_eq, h.valid.outside c hc]
    rfl

/-- Between two calls only the size of a single block can be wrong. -/
lemma Sound.isValid_iff_large (h : Sound p s) (hnull : ∀ x ∈ elements s.blocks, p.nullKey < p.keyOf x) :
    s.isValid p = true ↔ ∀ b ∈ s.blocks, p.minBlockSize ≤ b.size := by
  have hkeys : (p.nullKey :: itemsIn (keysAt p s) 0 s.capacity).Pairwise (· < ·) := by
    rw [h.keysAt_capacity, List.pairwise_cons, List.pairwise_map]
    refine ⟨fun k hk => ?_, h.valid.ordered⟩
    obtain ⟨x, hx, rfl⟩ := List.mem_map.mp hk
    exact hnull x hx
  have hheads : (p.nullKey :: itemsIn (headsAt p s) 0 s.capacity).Pairwise (· < ·) :=
    hkeys.sublist ((itemsIn_sublist fun c => h.valid.headsAt_sublist c).cons_cons _)
  rw [isValid_iff]
  constructor
  · rintro ⟨hok, -, -⟩ b hb
    obtain ⟨c, -, hc, hempty, rfl⟩ := mem_rangeBlocks.mp hb
    refine (hok c (hc.trans h.size_lt)).minBlockSize_le ?_
    rw [h.valid.empty_eq, hempty]
  · refine fun hlarge => ⟨fun c _ => ?_, hheads, hkeys⟩
    have hvalid : s.empty p c = false → (s.pma c).Valid p.toBlockParams := by
      intro hempty
      rw [h.valid.empty_eq] at hempty
      exact (h.valid.cell c).resolve_left fun hnull => by simp [hnull] at hempty
    refine ⟨fun hempty => ?_, fun hempty => ?_, fun hempty => (hvalid hempty).size_le,
      fun hempty => (hvalid hempty).head_eq⟩
    · rw [h.valid.empty_eq] at hempty
      rw [h.valid.eq_null hempty]
      exact ⟨rfl, rfl⟩
    · refine hlarge _ (mem_rangeBlocks.mpr ⟨c, Nat.zero_le _, ?_, (hvalid hempty).isEmpty_eq, rfl⟩)
      exact h.valid.lt_size (hvalid hempty).isEmpty_eq

/-- The same by the content alone. -/
lemma Sound.isValid_iff (h : Sound p s) (hnull : ∀ x ∈ elements s.blocks, p.nullKey < p.keyOf x) :
    s.isValid p = true ↔
      elements s.blocks = [] ∨ p.minBlockSize ≤ (elements s.blocks).length := by
  rw [h.isValid_iff_large hnull]
  constructor
  · intro hlarge
    cases hb : s.blocks with
    | nil => exact Or.inl rfl
    | cons b bs =>
        have hmem : b ∈ s.blocks := by rw [hb]; exact List.mem_cons_self
        rw [← hb]
        exact Or.inr (minBlockSize_le_length hmem (h.valid.valid_of_mem hmem) (hlarge b hmem))
  · intro hmany
    rcases h.valid.large with hlarge | hone
    · exact hlarge
    · obtain ⟨b, hb⟩ := List.length_eq_one_iff.mp hone
      have hvalid : b.Valid p.toBlockParams :=
        h.valid.valid_of_mem (by rw [hb]; exact List.mem_cons_self)
      have hlen : (elements s.blocks).length = b.size := by
        rw [hb, elements_cons, elements_nil, List.append_nil, hvalid.length_live]
      intro b' hb'
      rw [hb, List.mem_singleton] at hb'
      subst hb'
      rcases hmany with hnil | hle
      · rw [hnil, List.length_nil] at hlen
        exact absurd hlen.symm hvalid.size_pos.ne'
      · omega

/-- The keys of the ordered map come from the batches. -/
lemma mem_runContent {x : α} : ∀ {calls : List (Call α)} {content : List α},
    x ∈ runContent p content calls → x ∈ content ∨ ∃ call ∈ calls, x ∈ call.batch := by
  intro calls
  induction calls with
  | nil => exact fun h => Or.inl h
  | cons call calls ih =>
      intro content h
      rcases ih h with h | ⟨c, hc, hx⟩
      · simp only [contentAfter] at h
        split at h
        · exact absurd h List.not_mem_nil
        · rcases mem_mergeKeyed h with h | h
          · exact Or.inl h
          · exact Or.inr ⟨call, List.mem_cons_self, h⟩
      · exact Or.inr ⟨c, List.mem_cons_of_mem call hc, hx⟩

lemma null_lt_of_run {calls : List (Call α)} (hallowed : ∀ call ∈ calls, call.Allowed p) :
    ∀ x ∈ runContent p [] calls, p.nullKey < p.keyOf x := by
  intro x hx
  rcases mem_runContent hx with hx | ⟨call, hc, hx⟩
  · exact absurd hx List.not_mem_nil
  · exact (hallowed call hc).null_lt x hx

lemma run_isValid (hp : Usable p) {calls : List (Call α)}
    (hallowed : ∀ call ∈ calls, call.Allowed p) :
    (run p (create p) calls).isValid p = true ↔
      elements (run p (create p) calls).blocks = [] ∨
        p.minBlockSize ≤ (elements (run p (create p) calls).blocks).length := by
  obtain ⟨hsound, hcontent⟩ := Sound.run hp calls (sound_create p) hallowed
  rw [elements_create] at hcontent
  exact hsound.isValid_iff (by rw [hcontent]; exact null_lt_of_run hallowed)

/-- **Validation of a run.**  After any calls `isValid` returns true exactly if there is no element,
or if there are as many as a block has to have. -/
theorem run_isValid_iff (p : OverallocatedParams K α) (calls : List (Call α)) (hp : Usable p)
    (hallowed : ∀ call ∈ calls, call.Allowed p) :
    (run p (create p) calls).isValid p = true ↔
      runContent p [] calls = [] ∨ p.minBlockSize ≤ (runContent p [] calls).length := by
  have hcontent := (Sound.run hp calls (sound_create p) hallowed).2
  rw [elements_create] at hcontent
  rw [run_isValid hp hallowed, hcontent]

/-- A block of a single element is too small in the first state, and not in the second one. -/
theorem run_isValid_iff_twoCalls :
    let p := keyOnlyOverallocated 4
    let first : Call ℕ := ⟨[2], 1, Schedule.sequential, []⟩
    (run p (create p) [first]).isValid p = false ∧ (run p (create p) twoCalls).isValid p = true := by
  intro p first
  have hp : Usable p := usable_keyOnly_four
  refine ⟨?_, (run_isValid_iff p twoCalls hp twoCalls_allowed).mpr (Or.inr (by decide))⟩
  rw [Bool.eq_false_iff, ne_eq, run_isValid_iff p [first] hp]
  · decide
  · intro call hc
    rw [List.mem_singleton.mp hc]
    exact ⟨by simp [first, p, Increasing, keyOnlyOverallocated, keyOnlyBlocks], by decide, by decide,
      by decide⟩

/-! ## Counting -/

omit [LinearOrder K] in
lemma foldl_count (counted : ℕ → Prop) [DecidablePred counted] (f : ℕ → ℕ) (cells : List ℕ) :
    ∀ n : ℕ, cells.foldl (fun n i => if counted i then n + f i else n) n =
      n + (cells.map fun i => if counted i then f i else 0).sum := by
  induction cells with
  | nil => simp
  | cons c cells ih =>
      intro n
      rw [List.foldl_cons, ih, List.map_cons, List.sum_cons]
      split <;> omega

lemma Valid.numberOfElements_eq (h : s.Valid p) :
    s.numberOfElements p = (elements s.blocks).length := by
  rw [numberOfElements, foldl_count, Nat.zero_add, ← h.content_view, ArrayView.content,
    List.length_flatMap]
  congr 1
  refine List.map_congr_left fun c _ => ?_
  change _ = (s.pma c).live.length
  rcases h.cell c with hnull | hvalid
  · rw [if_neg (by rw [h.empty_eq, hnull]; simp), hnull]
    rfl
  · rw [if_pos (by rw [h.empty_eq]; exact hvalid.isEmpty_eq), hvalid.length_live]
    rfl

lemma Valid.numberOfBlocks_eq (h : s.Valid p) : s.numberOfBlocks p = s.blocks.length := by
  rw [numberOfBlocks, foldl_count _ (fun _ => 1), Nat.zero_add, blocks, rangeBlocks, itemsIn,
    List.length_flatMap, Nat.sub_zero, ← List.range_eq_range']
  congr 1
  refine List.map_congr_left fun c _ => ?_
  rw [h.empty_eq]
  cases hempty : (s.pma c).isEmpty with
  | true => rw [cellBlock_of_isEmpty hempty]; rfl
  | false => rw [cellBlock_of_not_isEmpty hempty]; rfl

omit [LinearOrder K] in
/-- Exact aggregates pass their assertions. -/
lemma AggregatesExact.validate (h : s.AggregatesExact) :
    s.sizeManager.validate s.blockSize s.size = true := by
  rw [BlockSizeManager.validate, List.all_eq_true]
  intro i hi
  rw [decide_eq_true_eq]
  exact h.exact i (lt_of_lt_of_le (List.mem_range.mp hi) (min_le_left _ _))

/-- The blocks hold as many elements as they are allowed to. -/
lemma Valid.length_bounds (h : s.Valid p) :
    (elements s.blocks).length ≤ p.blockSize * s.blocks.length ∧
      (s.blocks.length = 1 ∨ p.minBlockSize * s.blocks.length ≤ (elements s.blocks).length) := by
  have hvalid : ∀ b ∈ s.blocks, b.Valid p.toBlockParams := fun b hb => h.valid_of_mem hb
  refine ⟨length_elements_le hvalid, ?_⟩
  rcases h.large with hlarge | hone
  · exact Or.inr (le_length_elements hvalid hlarge)
  · exact Or.inl hone

/-- **Counting in a run.**  In every state reached the size manager counts like a linear one, in every
range, its assertions hold, and the total is the size of the ordered map. -/
theorem run_counts (p : OverallocatedParams K α) (calls : List (Call α)) (hp : Usable p)
    (hallowed : ∀ call ∈ calls, call.Allowed p) :
    let s := run p (create p) calls
    (∀ left right, left ≤ right → right ≤ s.size →
      s.sizeManager.getNumberOfElements s.blockSize left right =
        linearNumberOfElements s.blockSize left right) ∧
    s.sizeManager.validate s.blockSize s.size = true ∧
    s.sizeManager.getNumberOfElements s.blockSize 0 s.size = (runContent p [] calls).length ∧
    s.numberOfElements p = (runContent p [] calls).length ∧
    (runContent p [] calls).length ≤ p.blockSize * s.numberOfBlocks p ∧
    (s.numberOfBlocks p = 1 ∨
      p.minBlockSize * s.numberOfBlocks p ≤ (runContent p [] calls).length) := by
  intro s
  obtain ⟨hsound, hcontent⟩ := Sound.run hp calls (sound_create p) hallowed
  rw [elements_create] at hcontent
  change Sound p s at hsound
  change elements s.blocks = _ at hcontent
  obtain ⟨hmost, hleast⟩ := hsound.valid.length_bounds
  have hcount : ∀ left right, left ≤ right → right ≤ s.size →
      s.sizeManager.getNumberOfElements s.blockSize left right =
        linearNumberOfElements s.blockSize left right := by
    intro left right _ hright
    refine hsound.exact.exact.getNumberOfElements_eq ?_
    rw [hsound.exact.size]
    exact Nat.le_succ_of_le (Nat.div_le_div_right hright)
  refine ⟨hcount, hsound.exact.validate, ?_, ?_, ?_, ?_⟩
  · rw [hcount 0 s.size (Nat.zero_le _) (le_refl _),
      linearNumberOfElements_eq (Nat.zero_le _) (hsound.valid.cellsIn 0 s.size), ← hcontent]
    rfl
  · rw [hsound.valid.numberOfElements_eq, hcontent]
  · rw [hsound.valid.numberOfBlocks_eq, ← hcontent]
    exact hmost
  · rw [hsound.valid.numberOfBlocks_eq, ← hcontent]
    exact hleast

theorem run_counts_twoCalls :
    let p := keyOnlyOverallocated 4
    let s := run p (create p) twoCalls
    s.sizeManager.getNumberOfElements s.blockSize 0 s.size = 5 ∧ s.numberOfElements p = 5 ∧
      5 ≤ p.blockSize * s.numberOfBlocks p ∧
        (s.numberOfBlocks p = 1 ∨ p.minBlockSize * s.numberOfBlocks p ≤ 5) := by
  have h := run_counts (keyOnlyOverallocated 4) twoCalls usable_keyOnly_four
    twoCalls_allowed
  have hlen : (runContent (keyOnlyOverallocated 4) [] twoCalls).length = 5 := by decide
  rw [hlen] at h
  exact ⟨h.2.2.1, h.2.2.2.1, h.2.2.2.2⟩

/-! ## The distribution of the work -/

section

variable {batch : List α} {n : ℕ}

/-- The distribution of a group does not touch later tasks. -/
lemma tasks_distributeGroup_of_lt {t u : ℕ} (h : t < u) :
    (distributeGroup p batch s t).tasks u = s.tasks u := by
  have hset : ∀ (r : OverallocatedBatchedSparseArray K α) (f : TaskInfo → TaskInfo) {v : ℕ}, v ≤ t →
      (r.setTask v f).tasks u = r.tasks u := by
    intro r f v hv
    rw [setTask]
    exact Function.update_of_ne (by omega) _ _
  have hfold : ∀ (g : ℕ → TaskInfo → TaskInfo) (l : List ℕ)
      (r : OverallocatedBatchedSparseArray K α),
      (l.foldl (fun s' j => s'.setTask (t - j) (g j)) r).tasks u = r.tasks u := by
    intro g l
    induction l with
    | nil => exact fun _ => rfl
    | cons j l ih => exact fun r => (ih _).trans (hset r (g j) (Nat.sub_le _ _))
  rw [distributeGroup]
  simp only
  split
  · refine (hfold (fun j => s.shareTask p _ _ _ j) _ _).trans ?_
    split
    · exact hset _ _ (le_refl _)
    · rfl
  · rfl

/-- Step 2 leaves in the sentinel what an earlier call has left there. -/
lemma Insertable.sentinel (h : s.Insertable p batch n) :
    let task := (s.prepareInsertion p batch n).tasks n
    task.type = (s.tasks n).type ∧ task.mergedTasks = (s.tasks n).mergedTasks ∧
      task.mergedTaskIndex = (s.tasks n).mergedTaskIndex := by
  obtain ⟨base, hbase, hmerge⟩ := mergeTasks_spec h
  have hT := h.threads_pos
  have hfold : ∀ (l : List ℕ) (r : OverallocatedBatchedSparseArray K α), (∀ t ∈ l, t < n) →
      ((l.foldl (distributeGroup p batch) r).tasks n) = r.tasks n := by
    intro l
    induction l with
    | nil => exact fun _ _ => rfl
    | cons t l ih =>
        intro r hl
        rw [List.forall_mem_cons] at hl
        exact (ih _ hl.2).trans (tasks_distributeGroup_of_lt hl.1)
  have htask : (s.prepareInsertion p batch n).tasks n = s.splitterTask p batch n n := by
    rw [prepareInsertion, hmerge, distributeWorkInMergedTasks, hfold _ _ fun t ht => ?_]
    · exact (mergedTask_of_gt (by omega)).trans (hbase n (le_refl _))
    · have := List.mem_range'_1.mp ht
      omega
  intro task
  rw [show task = s.splitterTask p batch n n from htask, splitterTask, if_neg hT.ne']
  exact ⟨rfl, rfl, rfl⟩

/-- **The assertions behind step 2.**  What the tasks of a call are given passes all of them.  They
can fail only for the sentinel, which still has the type and the counters of a task of an earlier
call with more threads, or whatever it held before the first one. -/
theorem validateTaskDistribution_iff (p : OverallocatedParams K α)
    (s : OverallocatedBatchedSparseArray K α) (batch : List α) (n : ℕ)
    (hless : ∀ x y, p.operatorLess x y = decide (x < y)) (hins : s.Insertable p batch n) :
    let prepared := s.prepareInsertion p batch n
    let isInPlace := prepared.useInPlaceInserts p n
    (prepared.setTask n fun task => { task with requiredWidth := 0 }).validateTaskDistribution n
      batch.length isInPlace = true ↔
    (isInPlace = false → (s.tasks n).type = .inverseMerge →
      (s.tasks n).mergedTasks < n ∧ (s.tasks n).mergedTaskIndex < (s.tasks n).mergedTasks) := by
  intro prepared isInPlace
  have hT := hins.threads_pos
  obtain ⟨f, heq, hplan⟩ := hins.planned hless
  obtain ⟨htype, hmerged, hindex⟩ := hins.sentinel
  have hprep : prepared = { s with tasks := f } := heq
  rw [heq] at htype hmerged hindex
  have hsame : ∀ (task : TaskInfo) (t : ℕ), t ≠ n → Function.update f n task t = f t :=
    fun task t ht => Function.update_of_ne ht _ _
  have hzero : (f 0).firstBatchElement = 0 := by
    obtain ⟨a, e, hg, ha, -⟩ := exists_group (s.splitterBlock p batch n) hT
    obtain rfl : a = 0 := Nat.le_zero.mp ha
    have hgroup := hplan.group 0 e hg
    rcases Nat.eq_zero_or_pos e with rfl | hpos
    · have := hgroup.last_first
      rwa [if_neg (lt_irrefl _), splitterFirst_zero] at this
    · have := (hgroup.worker 0 (by omega)).first_eq
      rwa [shareFirst, splitterFirst_zero, Nat.zero_mul, Nat.zero_add, Nat.zero_min] at this
  -- the tasks of this call
  have hworker : ∀ t < n, (f t).type = .inverseMerge →
      (f t).mergedTasks < n ∧ (f t).mergedTaskIndex < (f t).mergedTasks := by
    intro t ht hinv
    obtain ⟨a, e, hg, ha, hte⟩ := exists_group (s.splitterBlock p batch n) ht
    have hgroup := hplan.group a e hg
    have hlt := hg.lt
    rcases Nat.eq_or_lt_of_le hte with rfl | hlt'
    · rw [hgroup.last_type] at hinv
      exact absurd hinv (by decide)
    · have hw := hgroup.worker (t - a) (by omega)
      rw [Nat.add_sub_cancel' ha] at hw
      rw [hw.merged_eq, hw.index_eq]
      omega
  rw [validateTaskDistribution]
  simp only [hprep, setTask, Bool.and_eq_true, decide_eq_true_eq, List.all_eq_true, List.mem_range,
    Function.update_self]
  rw [hsame _ 0 hT.ne, hplan.last_block, hplan.last_first, hzero]
  constructor
  · rintro ⟨⟨⟨-, hall⟩, -⟩, -⟩ hpath hinv
    have := hall n (Nat.lt_succ_self n)
    rw [Function.update_self, if_pos ⟨hpath, htype.trans hinv⟩] at this
    simp only [Bool.and_eq_true, decide_eq_true_eq] at this
    rwa [hmerged, hindex] at this
  · intro hsentinel
    refine ⟨⟨⟨rfl, fun t ht => ?_⟩, rfl⟩, rfl⟩
    split
    · rename_i hpath
      rw [Bool.and_eq_true, decide_eq_true_eq, decide_eq_true_eq]
      rcases Nat.eq_or_lt_of_le (Nat.lt_succ_iff.mp ht) with rfl | hlt
      · rw [Function.update_self] at hpath ⊢
        rw [hmerged, hindex]
        exact hsentinel hpath.1 (htype ▸ hpath.2)
      · rw [hsame _ t hlt.ne] at hpath ⊢
        exact hworker t hlt hpath.2
    · rfl

/-- Four tasks share the first batch.  The second call has two tasks; the third task of the first
call is its sentinel. -/
def staleSentinel : OverallocatedBatchedSparseArray ℕ ℕ :=
  run (keyOnlyOverallocated 4) (create (keyOnlyOverallocated 4))
    [⟨[1, 2, 3, 4, 5, 6, 7, 8], 4, Schedule.sequential, []⟩]

theorem validateTaskDistribution_iff_staleSentinel :
    let p := keyOnlyOverallocated 4
    let prepared := staleSentinel.prepareInsertion p [1, 2, 3] 2
    (prepared.setTask 2 fun task => { task with requiredWidth := 0 }).validateTaskDistribution 2 3
      (prepared.useInPlaceInserts p 2) = false := by
  intro p prepared
  have hp : Usable p := usable_keyOnly_four
  have hallowed : ∀ call ∈ [(⟨[1, 2, 3, 4, 5, 6, 7, 8], 4, Schedule.sequential, []⟩ : Call ℕ)],
      call.Allowed p := by
    intro call hc
    rw [List.mem_singleton.mp hc]
    exact ⟨by simp [p, Increasing, keyOnlyOverallocated, keyOnlyBlocks], by decide, by decide,
      by decide⟩
  have hsound : Sound p staleSentinel := (Sound.run hp _ (sound_create p) hallowed).1
  have hins : staleSentinel.Insertable p [1, 2, 3] 2 :=
    ⟨hsound.valid, by simp [p, Increasing, keyOnlyOverallocated, keyOnlyBlocks], by decide,
      by decide, by decide⟩
  have h := (validateTaskDistribution_iff p staleSentinel [1, 2, 3] 2 hp.less hins).not
  refine Bool.eq_false_iff.mpr (h.mpr fun hno => ?_)
  have hstale := hno (by decide +kernel) (by decide +kernel)
  have hmany : (staleSentinel.tasks 2).mergedTasks = 3 := by decide +kernel
  omega

end

end OverallocatedBatchedSparseArray

end BatchPMA
