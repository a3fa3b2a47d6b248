import BatchPMA.Insertion.Splitting

/-!
# Inverse merges

`inverseMerge` merges a part of the batch and a part of a block into new blocks.  Every iteration
appends to the block that is being filled.  At every moment this block and the elements that will
certainly still come make up at least `MinBlockSize` elements, even if all others are duplicates.
-/

namespace BatchPMA

open KeyedUnion

variable {K α : Type} [LinearOrder K] {p : BlockParams K α}

/-- Elements behind all live ones are appended. -/
lemma PmaEntry.HasMerged.live_append {b b' : PmaEntry K α} {es : List α} (h : HasMerged p b es b')
    (hinc : Increasing p (b.live ++ es)) : b'.live = b.live ++ es := by
  have hunion := IsUnion.append (IsUnion.nil_new (Ordered.left hinc))
    (IsUnion.nil_old (Ordered.right hinc)) (fun x hx y hy => by
      rw [List.append_nil] at hx
      exact Ordered.lt hinc x hx y hy)
  rw [List.append_nil] at hunion
  exact h.union.unique hunion

namespace MergeState

variable {st : MergeState K α} {above : K → Prop} {least : ℕ} {db dr cb cr es : List α}

/-- What holds while the loop of `inverseMerge` runs: `db` and `dr` are the parts of the batch and
of the merge block that have been used up, and `least` elements are left for the last block. -/
structure Merging (p : BlockParams K α) (above : K → Prop) (least : ℕ) (db dr : List α)
    (st : MergeState K α) : Prop where
  filled : st.insertionBlock.Filled p
  valid : ∀ b ∈ st.written, b.Valid p
  large : ∀ b ∈ st.written, p.minBlockSize ≤ b.size
  union : IsUnion p.keyOf dr db (elements (st.written ++ [st.insertionBlock]))
  dead : DeadOk p above st.finish
  fresh : ∀ x ∈ st.insertionBlock.dead, p.keyOf x = p.nullKey
  batch_increasing : Increasing p st.batch
  rest_increasing : Increasing p st.rest
  key_ne_null : ∀ e ∈ st.batch ++ st.rest, p.keyOf e ≠ p.nullKey
  passed : ∀ e ∈ st.batch ++ st.rest, ∀ x ∈ elements (st.written ++ [st.insertionBlock]),
    p.keyOf x < p.keyOf e
  last : ∀ y ∈ st.batch, p.keyOf y ≠ st.lastWrittenKey
  enough : least ≤ st.insertionBlock.size + max st.batch.length st.rest.length

lemma start {batch rest : List α} (hzero : p.keyOf p.zero = p.nullKey)
    (hbatch : Increasing p batch) (hrest : Increasing p rest)
    (hnull : ∀ e ∈ batch ++ rest, p.keyOf e ≠ p.nullKey)
    (hlen : least ≤ max batch.length rest.length) :
    Merging p above least [] [] ⟨[], (PmaEntry.null p).allocateBlock p, p.nullKey, batch, rest⟩ where
  filled := PmaEntry.filled_allocateBlock p
  valid := fun b hb => absurd hb List.not_mem_nil
  large := fun b hb => absurd hb List.not_mem_nil
  union := IsUnion.nil_new List.Pairwise.nil
  dead := trivial
  fresh := fun x hx => by
    have hx' : x ∈ List.replicate p.blockSize p.zero := List.mem_of_mem_drop hx
    rw [List.eq_of_mem_replicate hx']
    exact hzero
  batch_increasing := hbatch
  rest_increasing := hrest
  key_ne_null := hnull
  passed := fun e _ x hx => absurd hx List.not_mem_nil
  last := fun y hy => hnull y (List.mem_append_left _ hy)
  enough := by
    simp only
    omega

/-- An iteration uses up `cb` and `cr` and appends `es`. -/
lemma Merging.append (h : Merging p above least db dr st) {st' : MergeState K α}
    (hwritten : st'.written = st.written)
    (hmerged : PmaEntry.HasMerged p st.insertionBlock es st'.insertionBlock)
    (hbatch : st.batch = cb ++ st'.batch) (hrest : st.rest = cr ++ st'.rest)
    (hunion : IsUnion p.keyOf cr cb es)
    (hlater : ∀ e ∈ st'.batch ++ st'.rest, ∀ x ∈ es, p.keyOf x < p.keyOf e)
    (hlast : ∀ y ∈ st'.batch, p.keyOf y ≠ st'.lastWrittenKey) :
    Merging p above least (db ++ cb) (dr ++ cr) st' := by
  have hsub : ∀ {e}, e ∈ st'.batch ++ st'.rest → e ∈ st.batch ++ st.rest := by
    intro e he
    rw [hbatch, hrest]
    simp only [List.mem_append] at he ⊢
    tauto
  have hused : ∀ {e}, e ∈ cr ++ cb → e ∈ st.batch ++ st.rest := by
    intro e he
    rw [hbatch, hrest]
    simp only [List.mem_append] at he ⊢
    tauto
  have hbehind : ∀ x ∈ elements (st.written ++ [st.insertionBlock]), ∀ e ∈ es,
      p.keyOf x < p.keyOf e := fun x hx e he =>
    h.passed e (hused (List.mem_append.mpr (hunion.mem_cases he))) x hx
  have hlive : st'.insertionBlock.live = st.insertionBlock.live ++ es := by
    refine hmerged.live_append (Ordered.append h.filled.increasing hunion.ordered ?_)
    intro x hx e he
    exact hbehind x (by simp [hx]) e he
  have helems : elements (st'.written ++ [st'.insertionBlock]) =
      elements (st.written ++ [st.insertionBlock]) ++ es := by
    rw [hwritten, elements_append, elements_append, elements_cons, elements_cons, hlive]
    simp
  have hsize : st'.insertionBlock.size = st.insertionBlock.size + es.length := by
    rw [← hmerged.filled.length_live, hlive, List.length_append, h.filled.length_live]
  have hcb : Increasing p cb := by
    have := h.batch_increasing
    rw [hbatch] at this
    exact Ordered.left this
  have hcr : Increasing p cr := by
    have := h.rest_increasing
    rw [hrest] at this
    exact Ordered.left this
  refine ⟨hmerged.filled, by rw [hwritten]; exact h.valid, by rw [hwritten]; exact h.large, ?_, ?_,
    fun x hx => h.fresh x (hmerged.dead.mem hx), ?_, ?_,
    fun e he => h.key_ne_null e (hsub he), fun e he x hx => ?_, hlast, ?_⟩
  · rw [helems]
    refine h.union.append hunion fun x hx y hy => ?_
    have hy' := hused hy
    rcases List.mem_append.mp hx with hx | hx
    · exact h.passed y hy' x (h.union.mem_old hx)
    · obtain ⟨z, hz, hk⟩ := h.union.exists_key hx
      rw [← hk]
      exact h.passed y hy' z hz
  · have hd := h.dead
    rw [finish] at hd ⊢
    rw [hwritten]
    rcases Nat.eq_zero_or_pos st.insertionBlock.size with h0 | hpos
    · rw [if_neg (by omega), List.append_nil] at hd
      rw [deadOk_append]
      refine ⟨hd.mono fun k hk => Or.inl hk, ?_⟩
      split
      · exact ⟨fun x hx => Or.inl (h.fresh x (hmerged.dead.mem hx)), trivial⟩
      · trivial
    · rw [if_pos hpos] at hd
      rw [if_pos (by omega)]
      refine SplitState.deadOk_replace ?_ hmerged.dead (fun x hx => hmerged.union.mem_old hx) hd
      obtain ⟨x, hx, hk⟩ := (h.filled.valid hpos).head_mem
      rw [← hk]
      exact (hmerged.filled.valid (by omega)).head_le (hmerged.union.mem_old hx)
  · have := h.batch_increasing
    rw [hbatch] at this
    exact Ordered.right this
  · have := h.rest_increasing
    rw [hrest] at this
    exact Ordered.right this
  · rw [helems] at hx
    rcases List.mem_append.mp hx with hx | hx
    · exact h.passed e (hsub he) x hx
    · exact hlater e he x hx
  · have h1 := h.enough
    have h2 := hunion.length_old_le hcr
    have h3 := hunion.length_new_le hcb
    rw [hbatch, hrest, List.length_append, List.length_append] at h1
    omega

/-- Elements that come next can be merged into the block that is being filled. -/
lemma Merging.room (h : Merging p above least db dr st) (hsub : es ⊆ st.batch ++ st.rest) :
    ∀ x ∈ es, p.keyOf x ≠ p.nullKey ∧ st.insertionBlock.DeadHidden p x := by
  refine fun x hx => ⟨h.key_ne_null x (hsub hx), PmaEntry.DeadFree.hidden fun d hd heq => ?_⟩
  exact h.key_ne_null x (hsub hx) (heq ▸ h.fresh d hd)

/-- One element goes to the end of the block. -/
lemma Merging.insertLast (h : Merging p above least db dr st)
    (hroom : st.insertionBlock.size < p.blockSize) {x : α} (hx : x ∈ st.batch ++ st.rest) :
    PmaEntry.HasMerged p st.insertionBlock [x]
      (st.insertionBlock.insertWithIndex p x st.insertionBlock.size).1 := by
  obtain ⟨hnull, hfree⟩ := @Merging.room _ _ _ _ _ _ _ _ _ [x] h (by simpa using hx) x (List.mem_singleton_self x)
  refine (h.filled.insertWithIndex_spec hroom hnull hfree (le_refl _) fun i hi => ?_).hasMerged
  exact h.passed x hx _ (by simp [h.filled.get_mem hi])

/-- A full block is written and a new one begun. -/
lemma Merging.beginBlock (h : Merging p above least db dr st) (hzero : p.keyOf p.zero = p.nullKey)
    (hfull : st.insertionBlock.size = p.blockSize) (hpos : 0 < p.blockSize)
    (henough : least ≤ max st.batch.length st.rest.length) :
    Merging p above least db dr
      { st with
        written := st.written ++ [st.insertionBlock]
        insertionBlock := (PmaEntry.null p).allocateBlock p } := by
  have hmin : p.minBlockSize = p.blockSize / 2 := rfl
  have hd := h.dead
  rw [finish, if_pos (by omega)] at hd
  have helems : elements (st.written ++ [st.insertionBlock] ++
      [(PmaEntry.null p).allocateBlock p]) = elements (st.written ++ [st.insertionBlock]) := by
    simp [PmaEntry.allocateBlock, PmaEntry.null, PmaEntry.live]
  refine ⟨PmaEntry.filled_allocateBlock p, fun b hb => ?_, fun b hb => ?_, ?_, ?_,
    fun x hx => ?_, h.batch_increasing, h.rest_increasing, h.key_ne_null, ?_, h.last, ?_⟩
  · rcases List.mem_append.mp hb with hb | hb
    · exact h.valid b hb
    · rw [List.mem_singleton.mp hb]
      exact h.filled.valid (by omega)
  · rcases List.mem_append.mp hb with hb | hb
    · exact h.large b hb
    · rw [List.mem_singleton.mp hb]
      omega
  · simp only
    rw [helems]
    exact h.union
  · rw [finish, if_neg (by simp [PmaEntry.allocateBlock, PmaEntry.null]), List.append_nil]
    exact hd
  · have hx' : x ∈ List.replicate p.blockSize p.zero := List.mem_of_mem_drop hx
    rw [List.eq_of_mem_replicate hx']
    exact hzero
  · simp only
    rw [helems]
    exact h.passed
  · simp only
    omega

/-- Making room in the insertion block. -/
lemma Merging.flush (h : Merging p above least db dr st) (heven : 2 ∣ p.blockSize)
    (htwo : 2 ≤ p.blockSize) (hzero : p.keyOf p.zero = p.nullKey) (hleast : least ≤ p.minBlockSize)
    (hne : ¬ (st.batch = [] ∧ st.rest = [])) :
    Merging p above least db dr (st.flush p) ∧ (st.flush p).insertionBlock.size < p.blockSize := by
  have hmin : p.minBlockSize = p.blockSize / 2 := rfl
  have hpos : 0 < max st.batch.length st.rest.length := by
    by_contra h0
    exact hne ⟨List.length_eq_zero_iff.mp (by omega), List.length_eq_zero_iff.mp (by omega)⟩
  rw [MergeState.flush]
  split
  · rename_i hfull
    have hv := h.filled.valid (by omega)
    have hd := h.dead
    rw [finish, if_pos (by omega)] at hd
    by_cases hfew : 0 < max st.batch.length st.rest.length ∧
        max st.batch.length st.rest.length < p.minBlockSize
    · -- the upper half takes the few elements that remain
      rw [nextBlock, if_pos hfew]
      have hs := h.filled.split_spec hfull heven (by omega)
      have helems : elements (st.written ++ [(st.insertionBlock.split p).1] ++
          [(st.insertionBlock.split p).2]) = elements (st.written ++ [st.insertionBlock]) := by
        simp only [elements_append, elements_cons, elements_nil, List.append_nil,
          List.append_assoc, hs.live_eq]
      refine ⟨⟨hs.right_valid.filled, fun b hb => ?_, fun b hb => ?_, ?_, ?_, fun x hx => ?_,
        h.batch_increasing, h.rest_increasing, h.key_ne_null, ?_, h.last, ?_⟩, ?_⟩
      · rcases List.mem_append.mp hb with hb | hb
        · exact h.valid b hb
        · rw [List.mem_singleton.mp hb]
          exact hs.left_valid
      · rcases List.mem_append.mp hb with hb | hb
        · exact h.large b hb
        · rw [List.mem_singleton.mp hb]
          exact hs.left_size.ge
      · simp only
        rw [helems]
        exact h.union
      · rw [finish, if_pos (by simp only; rw [hs.right_size]; omega)]
        simp only
        rw [List.append_assoc, deadOk_append]
        rw [deadOk_append] at hd
        have hlater : ∀ k, (above k ∨ ∃ c ∈ [st.insertionBlock], c.head ≤ k) → above k ∨
            ∃ c ∈ [(st.insertionBlock.split p).1] ++ [(st.insertionBlock.split p).2],
              c.head ≤ k := by
          rintro k (hk | ⟨c, hc, hle⟩)
          · exact Or.inl hk
          · rw [List.mem_singleton.mp hc, ← hs.left_head] at hle
            exact Or.inr ⟨_, List.mem_cons_self, hle⟩
        refine ⟨hd.1.mono hlater, fun x hx => ?_, fun x hx => ?_, trivial⟩
        · rw [hs.left_dead] at hx
          exact Or.inr (Or.inr ⟨_, List.mem_cons_self, hs.right_valid.head_le hx⟩)
        · rw [hs.right_dead x hx]
          exact Or.inl hzero
      · rw [hs.right_dead x hx]
        exact hzero
      · simp only
        rw [helems]
        exact h.passed
      · simp only
        rw [hs.right_size]
        omega
      · simp only
        rw [hs.right_size]
        omega
    · rw [nextBlock, if_neg hfew]
      exact ⟨h.beginBlock hzero hfull (by omega) (by omega), by change 0 < p.blockSize; omega⟩
  · rename_i hfull
    have := h.filled.size_le
    exact ⟨h, by omega⟩

/-- Duplicates of an element of the merge block have been skipped already. -/
lemma dropWhile_eq_self {x : α} {batch : List α} (h : ∀ y ∈ batch, p.keyOf y ≠ p.keyOf x) :
    batch.dropWhile (fun y => decide (p.keyOf y = p.keyOf x)) = batch := by
  cases batch with
  | nil => rfl
  | cons y batch => rw [List.dropWhile_cons_of_neg (by simpa using h y List.mem_cons_self)]

/-- **One iteration of the loop.** -/
lemma Merging.step (h : Merging p above least db dr st) (hroom : st.insertionBlock.size < p.blockSize)
    (hne : ¬ (st.batch = [] ∧ st.rest = [])) :
    ∃ cb cr, Merging p above least (db ++ cb) (dr ++ cr) (st.step p) ∧
      st.batch = cb ++ (st.step p).batch ∧ st.rest = cr ++ (st.step p).rest ∧
      0 < cb.length + cr.length := by
  have hb := h.batch_increasing
  have hr := h.rest_increasing
  rw [MergeState.step]
  split
  · rename_i x rest y batch hrest hbatch
    rw [hbatch] at hb
    rw [hrest] at hr
    have hb' := List.pairwise_cons.mp hb
    have hr' := List.pairwise_cons.mp hr
    have hx : x ∈ st.batch ++ st.rest := by simp [hrest]
    have hy : y ∈ st.batch ++ st.rest := by simp [hbatch]
    split
    · -- the element of the block is smaller
      rename_i hlt
      have hskip : ∀ z ∈ y :: batch, p.keyOf x < p.keyOf z := by
        intro z hz
        rcases List.mem_cons.mp hz with rfl | hz
        · exact hlt
        · exact lt_trans hlt (hb'.1 z hz)
      have hdrop := dropWhile_eq_self (p := p) (x := x) fun z hz => (hskip z hz).ne'
      have hst : (st.takeFromBlock p x (y :: batch) rest).batch = y :: batch := hdrop
      refine ⟨[], [x], @Merging.append _ _ _ _ _ _ _ _ _ _ _ [x] h _ rfl (h.insertLast hroom hx)
        (hbatch.trans hst.symm) hrest (IsUnion.nil_new (List.pairwise_singleton _ _))
        (fun e he z hz => ?_) fun z hz => ?_, hbatch.trans hst.symm, hrest, by simp⟩
      · rw [List.mem_singleton.mp hz]
        rw [hst] at he
        rcases List.mem_append.mp he with he | he
        · exact hskip e he
        · exact hr'.1 e he
      · rw [hst] at hz
        exact (hskip z hz).ne'
    · rename_i hnlt
      split
      · -- duplicate key
        rename_i heq
        have hskip : ∀ z ∈ batch, p.keyOf x < p.keyOf z := fun z hz => heq ▸ hb'.1 z hz
        have hdrop := dropWhile_eq_self (p := p) (x := x) fun z hz => (hskip z hz).ne'
        have hst : (st.takeFromBlock p x batch rest).batch = batch := hdrop
        refine ⟨[y], [x], @Merging.append _ _ _ _ _ _ _ _ _ _ _ [x] h _ rfl (h.insertLast hroom hx)
          (by rw [hst]; exact hbatch) hrest
          (IsUnion.present (List.pairwise_singleton _ _) fun z hz => ⟨x, List.mem_singleton_self x,
            by rw [List.mem_singleton.mp hz]; exact heq⟩)
          (fun e he z hz => ?_) fun z hz => ?_, by rw [hst]; exact hbatch, hrest, by simp⟩
        · rw [List.mem_singleton.mp hz]
          rw [hst] at he
          rcases List.mem_append.mp he with he | he
          · exact hskip e he
          · exact hr'.1 e he
        · rw [hst] at hz
          exact (hskip z hz).ne'
      · -- the element of the batch is smaller
        rename_i hneq
        have hlt : p.keyOf y < p.keyOf x := lt_of_le_of_ne (not_lt.mp hnlt) (Ne.symm hneq)
        rw [takeFromBatch, if_pos (h.last y (by simp [hbatch]))]
        refine ⟨[y], [], @Merging.append _ _ _ _ _ _ _ _ _ _ _ [y] h _ rfl (h.insertLast hroom hy) hbatch rfl
          (IsUnion.nil_old (List.pairwise_singleton _ _)) (fun e he z hz => ?_) fun z hz => ?_,
          hbatch, rfl, by simp⟩
        · rw [List.mem_singleton.mp hz]
          simp only [hrest] at he
          rcases List.mem_append.mp he with he | he
          · exact hb'.1 e he
          · rcases List.mem_cons.mp he with rfl | he
            · exact hlt
            · exact lt_trans hlt (hr'.1 e he)
        · exact (hb'.1 z hz).ne'
  · -- the merge block is used up
    rename_i hrest
    have hbatch : st.batch ≠ [] := fun hnil => hne ⟨hnil, hrest⟩
    have hpos := List.length_pos_iff.mpr hbatch
    have hsplit := List.take_append_drop
      (min (p.blockSize - st.insertionBlock.size) st.batch.length) st.batch
    rw [← hsplit] at hb
    refine ⟨st.batch.take (min (p.blockSize - st.insertionBlock.size) st.batch.length), [],
      h.append rfl (h.filled.merge_spec ?_ (Ordered.left hb) (h.room fun x hx =>
        List.mem_append_left _ (List.mem_of_mem_take hx))) hsplit.symm rfl
        (IsUnion.nil_old (Ordered.left hb)) (fun e he z hz => ?_) fun z hz =>
          h.last z (List.mem_of_mem_drop hz), hsplit.symm, rfl, ?_⟩
    · rw [List.length_take]
      omega
    · simp only [mergeBatch, hrest, List.append_nil] at he
      exact Ordered.lt hb z hz e he
    · rw [List.length_take, List.length_nil]
      omega
  · -- the batch is used up
    rename_i hbatch _
    have hrest : st.rest ≠ [] := fun hnil' => hne ⟨hbatch, hnil'⟩
    have hpos := List.length_pos_iff.mpr hrest
    have hsplit := List.take_append_drop
      (min (p.blockSize - st.insertionBlock.size) st.rest.length) st.rest
    rw [← hsplit] at hr
    refine ⟨[], st.rest.take (min (p.blockSize - st.insertionBlock.size) st.rest.length),
      h.append rfl (h.filled.merge_spec ?_ (Ordered.left hr) (h.room fun x hx =>
        List.mem_append_right _ (List.mem_of_mem_take hx))) rfl hsplit.symm
        (IsUnion.nil_new (Ordered.left hr)) (fun e he z hz => ?_) h.last, rfl, hsplit.symm, ?_⟩
    · rw [List.length_take]
      omega
    · simp only [mergeRest, hbatch, List.nil_append] at he
      exact Ordered.lt hr z hz e he
    · rw [List.length_take, List.length_nil]
      omega

/-- The whole loop. -/
lemma Merging.loop (heven : 2 ∣ p.blockSize) (htwo : 2 ≤ p.blockSize)
    (hzero : p.keyOf p.zero = p.nullKey) (hleast : least ≤ p.minBlockSize) :
    ∀ (n : ℕ) {db dr : List α} {st : MergeState K α}, st.batch.length + st.rest.length ≤ n →
      Merging p above least db dr st →
        Merging p above least (db ++ st.batch) (dr ++ st.rest) (MergeState.loop p n st) ∧
          (MergeState.loop p n st).batch = [] ∧ (MergeState.loop p n st).rest = []
  | 0, db, dr, st, hn, h => by
      have hb : st.batch = [] := List.length_eq_zero_iff.mp (by omega)
      have hr : st.rest = [] := List.length_eq_zero_iff.mp (by omega)
      refine ⟨?_, hb, hr⟩
      rw [hb, hr, List.append_nil, List.append_nil]
      exact h
  | n + 1, db, dr, st, hn, h => by
      rw [MergeState.loop]
      split
      · rename_i hnil
        refine ⟨?_, hnil⟩
        rw [hnil.1, hnil.2, List.append_nil, List.append_nil]
        exact h
      · rename_i hne
        obtain ⟨hflush, hroom⟩ := h.flush heven htwo hzero hleast hne
        have hb : (st.flush p).batch = st.batch := by
          rw [MergeState.flush]
          split <;> rfl
        have hr : (st.flush p).rest = st.rest := by
          rw [MergeState.flush]
          split <;> rfl
        obtain ⟨cb, cr, hstep, h1, h2, hpos⟩ := hflush.step hroom (by rw [hb, hr]; exact hne)
        rw [hb] at h1
        rw [hr] at h2
        have hlen : ((st.flush p).step p).batch.length + ((st.flush p).step p).rest.length ≤ n := by
          rw [h1, h2, List.length_append, List.length_append] at hn
          omega
        have ih := Merging.loop heven htwo hzero hleast n hlen hstep
        rw [List.append_assoc, List.append_assoc, ← h1, ← h2] at ih
        exact ih

end MergeState

/-- **`inverseMerge`.**  The blocks that are written hold the union of the two parts, and each of
them is at least half full. -/
theorem inverseMergeBlocks_spec {batch rest : List α} (above : K → Prop) (heven : 2 ∣ p.blockSize)
    (hfour : 4 ≤ p.blockSize) (hzero : p.keyOf p.zero = p.nullKey) (hbatch : Increasing p batch)
    (hrest : Increasing p rest) (hnull : ∀ e ∈ batch ++ rest, p.keyOf e ≠ p.nullKey)
    (hlen : p.minBlockSize ≤ max batch.length rest.length) :
    WritesUnion p above rest batch (inverseMergeBlocks p batch rest) := by
  have hmin : p.minBlockSize = p.blockSize / 2 := rfl
  obtain ⟨h, hb, hr⟩ := MergeState.Merging.loop heven (by omega) hzero (le_refl _)
    (batch.length + rest.length) (le_refl _)
    (@MergeState.start _ _ _ _ above _ _ _ hzero hbatch hrest hnull hlen)
  have hsize := h.enough
  rw [hb, hr, List.length_nil, Nat.max_self, Nat.add_zero] at hsize
  have hpos : 0 < (MergeState.loop p (batch.length + rest.length) ⟨[],
      (PmaEntry.null p).allocateBlock p, p.nullKey, batch, rest⟩).insertionBlock.size := by omega
  have hd := h.dead
  rw [MergeState.finish, if_pos hpos] at hd
  rw [inverseMergeBlocks, MergeState.finish, if_pos hpos]
  refine ⟨fun b hb => ?_, fun b hb => ?_, h.union, hd⟩
  · rcases List.mem_append.mp hb with hb | hb
    · exact h.valid b hb
    · rw [List.mem_singleton.mp hb]
      exact h.filled.valid hpos
  · rcases List.mem_append.mp hb with hb | hb
    · exact h.large b hb
    · rw [List.mem_singleton.mp hb]
      exact hsize

end BatchPMA
