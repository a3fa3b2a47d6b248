import BatchPMA.Insertion.Splitting
import BatchPMA.Block.MergeFaster
import BatchPMA.Model.OutOfPlace
import BatchPMA.Model.State

/-!
# Loading an empty range

`insertIntoEmptyRange` cuts the batch into chunks of `BlockSize` elements and merges each of them
into the insertion block, which it takes to be full or new by then.  That is so as long as no key is
repeated.  The first chunk with a repetition leaves a block that is not full, and the next chunk is
merged into the same block without a look at its size; a key that is repeated across a border
between two chunks gets into two blocks.  `BulkFits` says when neither happens.

Both arrays have the same loop and differ in the merge it calls.
-/

namespace BatchPMA

open KeyedUnion

variable {K α : Type} [LinearOrder K] (p : BlockParams K α)

/-! ## The loop, and the calls it makes -/

section Loop

variable (mergeInto : PmaEntry K α → List α → PmaEntry K α)

/-- The blocks that are written, with either merge. -/
def bulkLoop : ℕ → List α → PmaEntry K α → List (PmaEntry K α)
  | 0, _, block => if 0 < block.size then [block] else []
  | _ + 1, [], block => if 0 < block.size then [block] else []
  | n + 1, e :: es, block =>
      let numberOfInsertions := min p.blockSize (es.length + 1)
      if block.size = p.blockSize then
        let (full, newBlock) := nextBlock p block (es.length + 1)
        full :: bulkLoop n ((e :: es).drop numberOfInsertions)
          (mergeInto newBlock ((e :: es).take numberOfInsertions))
      else
        bulkLoop n ((e :: es).drop numberOfInsertions)
          (mergeInto block ((e :: es).take numberOfInsertions))

/-- For each call of the merge, the size of the insertion block and the number of elements. -/
def bulkCalls : ℕ → List α → PmaEntry K α → List (ℕ × ℕ)
  | 0, _, _ => []
  | _ + 1, [], _ => []
  | n + 1, e :: es, block =>
      let numberOfInsertions := min p.blockSize (es.length + 1)
      let newBlock := if block.size = p.blockSize then (nextBlock p block (es.length + 1)).2 else block
      (newBlock.size, numberOfInsertions) :: bulkCalls n ((e :: es).drop numberOfInsertions)
        (mergeInto newBlock ((e :: es).take numberOfInsertions))

end Loop

/-- The calls of `merge` in `insertIntoEmptyRange` of the batched array. -/
def emptyRangeCalls (elements : List α) : List (ℕ × ℕ) :=
  bulkCalls p (fun b es => b.merge p es) elements.length elements ((PmaEntry.null p).allocateBlock p)

/-- The calls of `mergeFaster` in `insertIntoEmptyRange` of the overallocated array. -/
def denseRangeCalls (elements : List α) : List (ℕ × ℕ) :=
  bulkCalls p (fun b es => b.mergeFaster p es) elements.length elements
    ((PmaEntry.null p).allocateBlock p)

lemma emptyRangeLoop_eq : ∀ (n : ℕ) (es : List α) (block : PmaEntry K α),
    emptyRangeLoop p n es block = bulkLoop p (fun b es => b.merge p es) n es block := by
  intro n
  induction n with
  | zero => intro es block; rfl
  | succ n ih =>
      intro es block
      cases es with
      | nil => rfl
      | cons e es => simp only [emptyRangeLoop, bulkLoop, ih]

lemma denseRangeLoop_eq : ∀ (n : ℕ) (es : List α) (block : PmaEntry K α),
    denseRangeLoop p n es block = bulkLoop p (fun b es => b.mergeFaster p es) n es block := by
  intro n
  induction n with
  | zero => intro es block; rfl
  | succ n ih =>
      intro es block
      cases es with
      | nil => rfl
      | cons e es => simp only [denseRangeLoop, bulkLoop, ih]

/-- No merge is given more elements than the block has room for, and the blocks hold each key of the
batch once, in increasing order. -/
structure BulkLoaded (batch : List α) (calls : List (ℕ × ℕ)) (blocks : List (PmaEntry K α)) :
    Prop where
  fits : ∀ call ∈ calls, call.1 + call.2 ≤ p.blockSize
  increasing : Increasing p (elements blocks)
  exists_key_iff : ∀ k, (∃ x ∈ elements blocks, p.keyOf x = k) ↔ ∃ x ∈ batch, p.keyOf x = k

/-- There is a border `b` between two chunks in front of which no key is repeated.  Either too few
elements follow for a block of their own, or the key in front of it is not repeated behind it, and
what follows the next chunk fits into the cells that the repetitions of the next chunk leave. -/
def BulkFits (batch : List α) : Prop :=
  ∃ b, p.blockSize ∣ b ∧ Increasing p (batch.take b) ∧
    (batch.length < b + p.minBlockSize ∨
      Increasing p (batch.take (b + 1)) ∧
        (((batch.drop b).take p.blockSize).map p.keyOf).dedup.length +
          (batch.drop (b + p.blockSize)).length ≤ p.blockSize)

variable {p}

/-! ## Repeated keys -/

lemma NonDecreasing.increasing_iff {l : List α} (h : NonDecreasing p l) :
    Increasing p l ↔ (l.map p.keyOf).dedup.length = l.length := by
  constructor
  · intro hinc
    rw [(List.dedup_eq_self).mpr (Ordered.nodup_keys hinc), List.length_map]
  · intro hlen
    have heq := (List.dedup_sublist (l.map p.keyOf)).eq_of_length (by rw [hlen, List.length_map])
    have hnodup := List.dedup_eq_self.mp heq
    rw [List.Nodup, List.pairwise_map] at hnodup
    exact (List.Pairwise.and h hnodup).imp fun hxy => lt_of_le_of_ne hxy.1 hxy.2

/-- The number of keys of a union with nothing. -/
lemma length_of_isKeyUnion {es r : List α} (h : IsKeyUnion p.keyOf [] es r) :
    r.length = (es.map p.keyOf).dedup.length := by
  have hperm : (r.map p.keyOf).Perm (es.map p.keyOf).dedup := by
    refine (List.perm_ext_iff_of_nodup h.ordered.nodup_keys (List.nodup_dedup _)).mpr fun k => ?_
    rw [List.mem_dedup, List.mem_map, List.mem_map]
    exact h.exists_key_iff.trans (by simp)
  rw [← hperm.length_eq, List.length_map]

lemma length_dedup_le (es : List α) : (es.map p.keyOf).dedup.length ≤ es.length := by
  have hle := (List.dedup_sublist (es.map p.keyOf)).length_le
  rwa [List.length_map] at hle

lemma length_dedup_pos {es : List α} (hne : es ≠ []) : 0 < (es.map p.keyOf).dedup.length := by
  obtain ⟨x, hx⟩ := List.exists_mem_of_ne_nil es hne
  exact List.length_pos_of_mem (List.mem_dedup.mpr (List.mem_map_of_mem hx))

section Fits

variable {batch : List α}

/-- One chunk. -/
lemma bulkFits_of_le (h : batch.length ≤ p.blockSize) : BulkFits p batch := by
  refine ⟨0, dvd_zero _, List.Pairwise.nil, Or.inr ⟨?_, ?_⟩⟩
  · cases batch with
    | nil => exact List.Pairwise.nil
    | cons x l => exact List.pairwise_singleton _ x
  · rw [List.drop_zero, Nat.zero_add, List.drop_eq_nil_of_le h, List.take_of_length_le h]
    exact le_trans (length_dedup_le batch) h

/-- Two parts of a batch, with no repetition across the border. -/
lemma increasing_splice {b m : ℕ} (hlt : b < batch.length)
    (hborder : Increasing p (batch.take (b + 1))) (hm : Increasing p ((batch.drop b).take m)) :
    Increasing p (batch.take b ++ (batch.drop b).take m) := by
  rw [List.drop_eq_getElem_cons hlt] at hm ⊢
  rw [List.take_add_one, List.getElem?_eq_getElem hlt] at hborder
  refine Ordered.append (Ordered.left hborder) hm fun x hx y hy => ?_
  have hxz := Ordered.lt hborder x hx batch[b] (by simp)
  cases m with
  | zero => exact absurd hy (by simp)
  | succ m =>
      rw [List.take_succ_cons] at hm hy
      rcases List.mem_cons.mp hy with rfl | hy
      · exact hxz
      · exact lt_trans hxz ((List.pairwise_cons.mp hm).1 y hy)

/-- A first chunk without a repetition. -/
lemma bulkFits_iff_of_increasing (hpos : 0 < p.blockSize) (h : p.blockSize < batch.length)
    (hinc : Increasing p (batch.take p.blockSize)) : BulkFits p batch ↔
      batch.length < p.blockSize + p.minBlockSize ∨
        Increasing p (batch.take (p.blockSize + 1)) ∧ BulkFits p (batch.drop p.blockSize) := by
  have hmin : p.minBlockSize ≤ p.blockSize := Nat.div_le_self _ _
  constructor
  · rintro ⟨b, ⟨c, rfl⟩, hfront, hrest⟩
    cases c with
    | zero =>
        -- in front of the first chunk nothing can be saved
        rw [Nat.mul_zero, Nat.zero_add, Nat.zero_add] at hrest
        rcases hrest with hlt | ⟨-, hle⟩
        · exact absurd hlt (by omega)
        · have hsorted : NonDecreasing p (batch.take p.blockSize) := hinc.nonDecreasing
          rw [List.drop_zero, hsorted.increasing_iff.mp hinc, List.length_take, List.length_drop]
            at hle
          omega
    | succ c =>
        rw [Nat.mul_succ] at hfront hrest
        have hdrop : batch.take (p.blockSize * c + p.blockSize) =
            batch.take p.blockSize ++ (batch.drop p.blockSize).take (p.blockSize * c) := by
          rw [Nat.add_comm, List.take_add]
        have hfront' := hfront
        rw [hdrop] at hfront'
        have hfrontRight := Ordered.right hfront'
        rcases hrest with hlt | ⟨hborder, hle⟩
        · cases c with
          | zero => exact Or.inl (by omega)
          | succ c =>
              refine Or.inr ⟨?_, p.blockSize * (c + 1), Dvd.intro _ rfl, hfrontRight, Or.inl ?_⟩
              · refine List.Pairwise.sublist (List.take_sublist_take_left ?_) hfront
                have hle := Nat.le_mul_of_pos_right p.blockSize (show 0 < c + 1 by omega)
                omega
              · rw [List.length_drop]
                omega
        · refine Or.inr ⟨?_, p.blockSize * c, Dvd.intro _ rfl, hfrontRight, Or.inr ⟨?_, ?_⟩⟩
          · exact List.Pairwise.sublist (List.take_sublist_take_left (by omega)) hborder
          · have hadd : batch.take (p.blockSize * c + p.blockSize + 1) = batch.take p.blockSize ++
                (batch.drop p.blockSize).take (p.blockSize * c + 1) := by
              rw [← List.take_add]
              congr 1
              omega
            rw [hadd] at hborder
            exact Ordered.right hborder
          · rw [List.drop_drop, List.drop_drop, Nat.add_comm p.blockSize (p.blockSize * c),
              Nat.add_comm p.blockSize (p.blockSize * c + p.blockSize)]
            exact hle
  · rintro (hlt | ⟨hborder, b, hdvd, hfront, hrest⟩)
    · exact ⟨p.blockSize, dvd_refl _, hinc, Or.inl hlt⟩
    · have hsplice : ∀ m, Increasing p ((batch.drop p.blockSize).take m) →
          Increasing p (batch.take (p.blockSize + m)) := by
        intro m hm
        rw [List.take_add]
        exact increasing_splice (by omega) hborder hm
      refine ⟨p.blockSize + b, (Nat.dvd_add_right (dvd_refl _)).mpr hdvd, hsplice b hfront, ?_⟩
      rcases hrest with hlt | ⟨hnext, hle⟩
      · rw [List.length_drop] at hlt
        exact Or.inl (by omega)
      · refine Or.inr ⟨hsplice (b + 1) hnext, ?_⟩
        rwa [List.drop_drop, List.drop_drop, ← Nat.add_assoc] at hle

/-- A first chunk with a repetition. -/
lemma bulkFits_iff_of_repeated (h : p.blockSize < batch.length)
    (hinc : ¬ Increasing p (batch.take p.blockSize)) : BulkFits p batch ↔
      ((batch.take p.blockSize).map p.keyOf).dedup.length + (batch.drop p.blockSize).length ≤
        p.blockSize := by
  have hmin : p.minBlockSize ≤ p.blockSize := Nat.div_le_self _ _
  constructor
  · rintro ⟨b, ⟨c, rfl⟩, hfront, hrest⟩
    cases c with
    | zero =>
        rw [Nat.mul_zero, Nat.zero_add] at hrest
        rcases hrest with hlt | ⟨-, hle⟩
        · exact absurd hlt (by omega)
        · rwa [List.drop_zero, Nat.zero_add] at hle
    | succ c =>
        refine absurd (List.Pairwise.sublist (List.take_sublist_take_left ?_) hfront) hinc
        exact Nat.le_mul_of_pos_right _ (Nat.succ_pos c)
  · intro hle
    refine ⟨0, dvd_zero _, List.Pairwise.nil, Or.inr ⟨?_, ?_⟩⟩
    · cases batch with
      | nil => exact List.Pairwise.nil
      | cons x l => exact List.pairwise_singleton _ x
    · rwa [List.drop_zero, Nat.zero_add]

end Fits

/-! ## The insertion block -/

/-- What the loop keeps in its insertion block: dead cells are as allocated, or hold live elements. -/
structure InsertionBlock (p : BlockParams K α) (b : PmaEntry K α) : Prop where
  filled : b.Filled p
  dead : ∀ x ∈ b.dead, p.keyOf x = p.nullKey ∨ x ∈ b.live

/-- What the loop needs of the merge it calls. -/
def MergesSorted (p : BlockParams K α) (mergeInto : PmaEntry K α → List α → PmaEntry K α) : Prop :=
  ∀ b es, InsertionBlock p b → NonDecreasing p es → (∀ x ∈ es, p.keyOf x ≠ p.nullKey) →
    b.size + es.length ≤ p.blockSize →
      InsertionBlock p (mergeInto b es) ∧ IsKeyUnion p.keyOf b.live es (mergeInto b es).live

lemma mergesSorted_merge : MergesSorted p fun b es => b.merge p es := by
  intro b es h hsorted hnull hroom
  have hlen := h.filled.length_live
  have hle := @length_mergeKeyed_le _ _ _ p.keyOf es _ h.filled.increasing
  have hhidden : ∀ e ∈ es, b.DeadHidden p e := by
    intro e he x hx hk
    rcases h.dead x hx with hzero | hin
    · exact absurd (hk.symm.trans hzero) (hnull e he)
    · exact ⟨x, hin, hk.ge⟩
  obtain ⟨hfilled, hlive, hdead⟩ := h.filled.merge_unshadowed hsorted hnull (by omega)
    (PmaEntry.mergeUnshadowed_of_hidden h.filled hroom hhidden)
  have hunion : IsKeyUnion p.keyOf b.live es (mergeKeyed p.keyOf b.live es) :=
    isKeyUnion_mergeKeyed h.filled.increasing
  rw [← hlive] at hunion
  refine ⟨⟨hfilled, fun x hx => ?_⟩, hunion⟩
  exact (h.dead x (hdead.mem hx)).imp id (hunion.mem_old x)

lemma mergesSorted_mergeFaster (hsigned : p.blockSize ≤ 2 ^ 15) :
    MergesSorted p fun b es => b.mergeFaster p es := by
  intro b es h hsorted hnull hroom
  have hm := h.filled.mergeFaster_sorted hsigned hroom hsorted hnull
  refine ⟨⟨hm.filled, fun x hx => ?_⟩, hm.union⟩
  rcases hm.dead x hx with hx | hx
  · exact (h.dead x hx).imp id (hm.union.mem_old x)
  · exact Or.inr hx

section Blocks

variable {b : PmaEntry K α} (hzero : p.keyOf p.zero = p.nullKey)
include hzero

lemma insertionBlock_allocate : InsertionBlock p ((PmaEntry.null p).allocateBlock p) := by
  refine ⟨PmaEntry.filled_allocateBlock p, fun x hx => Or.inl ?_⟩
  have hx' : x ∈ List.replicate p.blockSize p.zero := List.mem_of_mem_drop hx
  rw [List.eq_of_mem_replicate hx', hzero]

/-- A full block is written, and the insertion block goes on with its upper half or empty. -/
lemma nextBlock_spec (heven : 2 ∣ p.blockSize) (hpos : 0 < p.blockSize) (h : InsertionBlock p b)
    (hfull : b.size = p.blockSize) (n : ℕ) :
    (nextBlock p b n).1.Filled p ∧ InsertionBlock p (nextBlock p b n).2 ∧
      (nextBlock p b n).1.live ++ (nextBlock p b n).2.live = b.live := by
  rw [nextBlock]
  split
  · have hs := h.filled.split_spec hfull heven hpos
    refine ⟨hs.left_valid.filled, ⟨hs.right_valid.filled, fun x hx => Or.inl ?_⟩, hs.live_eq⟩
    rw [hs.right_dead x hx, hzero]
  · exact ⟨h.filled, insertionBlock_allocate hzero, List.append_nil _⟩

end Blocks

/-! ## The loop -/

section Bulk

variable {mergeInto : PmaEntry K α → List α → PmaEntry K α} {b : PmaEntry K α} {es : List α}

omit [LinearOrder K] in
lemma exists_key_append {l l' : List α} {k : K} : (∃ x ∈ l ++ l', p.keyOf x = k) ↔
    (∃ x ∈ l, p.keyOf x = k) ∨ ∃ x ∈ l', p.keyOf x = k := by
  simp only [List.mem_append, or_and_right, exists_or]

/-- What is left when all elements have been merged. -/
lemma elements_bulkLoop_nil (h : b.Filled p) (n : ℕ) :
    elements (bulkLoop p mergeInto n [] b) = b.live := by
  have hlen := h.length_live
  have hend : elements (if 0 < b.size then [b] else []) = b.live := by
    split
    · rw [elements_cons, elements_nil, List.append_nil]
    · exact (List.eq_nil_of_length_eq_zero (by omega)).symm
  cases n with
  | zero => exact hend
  | succ n => exact hend

omit [LinearOrder K] in
lemma bulkCalls_nil (n : ℕ) : bulkCalls p mergeInto n [] b = [] := by
  cases n with
  | zero => rfl
  | succ n => rfl

omit [LinearOrder K] in
/-- One iteration, on a block that is not full. -/
lemma bulkLoop_open (hne : es ≠ []) (hopen : b.size ≠ p.blockSize) (n : ℕ) :
    bulkLoop p mergeInto (n + 1) es b = bulkLoop p mergeInto n (es.drop p.blockSize)
        (mergeInto b (es.take p.blockSize)) ∧
      bulkCalls p mergeInto (n + 1) es b = (b.size, min p.blockSize es.length) ::
        bulkCalls p mergeInto n (es.drop p.blockSize) (mergeInto b (es.take p.blockSize)) := by
  cases es with
  | nil => exact absurd rfl hne
  | cons e es =>
      have htake : (e :: es).take (min p.blockSize (es.length + 1)) = (e :: es).take p.blockSize := by
        rw [← List.length_cons (a := e), ← List.take_take, List.take_length]
      have hdrop : (e :: es).drop (min p.blockSize (es.length + 1)) = (e :: es).drop p.blockSize := by
        rcases Nat.le_total p.blockSize (es.length + 1) with hle | hge
        · rw [Nat.min_eq_left hle]
        · rw [Nat.min_eq_right hge, List.drop_eq_nil_of_le (by rw [List.length_cons]),
            List.drop_eq_nil_of_le (by rwa [List.length_cons])]
      simp only [bulkLoop, bulkCalls, if_neg hopen, htake, hdrop, List.length_cons, and_self]

omit [LinearOrder K] in
/-- One iteration, on a full block that is written as it is. -/
lemma bulkLoop_full (hpos : 0 < p.blockSize) (hne : es ≠ []) (hfull : b.size = p.blockSize)
    (hlarge : p.minBlockSize ≤ es.length) (n : ℕ) :
    bulkLoop p mergeInto (n + 1) es b =
        b :: bulkLoop p mergeInto (n + 1) es ((PmaEntry.null p).allocateBlock p) ∧
      bulkCalls p mergeInto (n + 1) es b =
        bulkCalls p mergeInto (n + 1) es ((PmaEntry.null p).allocateBlock p) := by
  cases es with
  | nil => exact absurd rfl hne
  | cons e es =>
      have hnext : nextBlock p b (es.length + 1) = (b, (PmaEntry.null p).allocateBlock p) := by
        rw [List.length_cons] at hlarge
        rw [nextBlock, if_neg (by omega)]
      have hopen : ((PmaEntry.null p).allocateBlock p).size ≠ p.blockSize := by
        change 0 ≠ p.blockSize
        omega
      simp only [bulkLoop, bulkCalls, if_pos hfull, if_neg hopen, hnext, and_self]

omit [LinearOrder K] in
/-- One iteration, on a full block that is split as the last elements would not fill another. -/
lemma bulkLoop_split (hne : es ≠ []) (hfull : b.size = p.blockSize)
    (hsmall : es.length < p.minBlockSize) (n : ℕ) :
    bulkLoop p mergeInto (n + 1) es b =
        (b.split p).1 :: bulkLoop p mergeInto n [] (mergeInto (b.split p).2 es) ∧
      bulkCalls p mergeInto (n + 1) es b = [((b.split p).2.size, es.length)] := by
  have hmin : p.minBlockSize ≤ p.blockSize := Nat.div_le_self _ _
  cases es with
  | nil => exact absurd rfl hne
  | cons e es =>
      have hnext : nextBlock p b (es.length + 1) = b.split p := by
        rw [List.length_cons] at hsmall
        rw [nextBlock, if_pos ⟨by omega, hsmall⟩]
      have hall : min p.blockSize (es.length + 1) = (e :: es).length := by
        rw [List.length_cons] at hsmall ⊢
        omega
      simp only [bulkLoop, bulkCalls, if_pos hfull, hnext, hall, List.take_length,
        List.drop_length, bulkCalls_nil, and_self]

variable (hm : MergesSorted p mergeInto) (heven : 2 ∣ p.blockSize) (hpos : 0 < p.blockSize)
  (hzero : p.keyOf p.zero = p.nullKey)
include hm heven hpos hzero

/-- If all calls fit, no key is lost. -/
lemma exists_key_bulkLoop : ∀ (n : ℕ) (es : List α) {b : PmaEntry K α}, InsertionBlock p b →
    NonDecreasing p es → (∀ x ∈ es, p.keyOf x ≠ p.nullKey) → es.length ≤ n →
    (∀ call ∈ bulkCalls p mergeInto n es b, call.1 + call.2 ≤ p.blockSize) →
    ∀ k, (∃ x ∈ elements (bulkLoop p mergeInto n es b), p.keyOf x = k) ↔
      (∃ x ∈ b.live, p.keyOf x = k) ∨ ∃ x ∈ es, p.keyOf x = k := by
  intro n
  induction n with
  | zero =>
      intro es b h _ _ hn _ k
      obtain rfl := List.eq_nil_of_length_eq_zero (Nat.le_zero.mp hn)
      rw [elements_bulkLoop_nil h.filled]
      simp
  | succ n ih =>
      intro es b h hsorted hnull hn hfits k
      cases es with
      | nil =>
          rw [elements_bulkLoop_nil h.filled]
          simp
      | cons e es =>
          have hne : e :: es ≠ [] := List.cons_ne_nil e es
          generalize e :: es = es at *
          -- the insertion block is not full, maybe as it is a new one
          have hstep : ∀ c : PmaEntry K α, InsertionBlock p c → c.size ≠ p.blockSize →
              (∀ call ∈ bulkCalls p mergeInto (n + 1) es c, call.1 + call.2 ≤ p.blockSize) →
              ((∃ x ∈ elements (bulkLoop p mergeInto (n + 1) es c), p.keyOf x = k) ↔
                (∃ x ∈ c.live, p.keyOf x = k) ∨ ∃ x ∈ es, p.keyOf x = k) := by
            intro c hc hopen hcalls
            obtain ⟨hloop, hcall⟩ := @bulkLoop_open _ _ p mergeInto c es hne hopen n
            rw [hcall] at hcalls
            have hfit := hcalls _ List.mem_cons_self
            obtain ⟨hnew, hunion⟩ := hm c (es.take p.blockSize) hc
              (hsorted.sublist (List.take_sublist _ _))
              (fun x hx => hnull x (List.mem_of_mem_take hx)) (by rwa [List.length_take])
            have hlen := List.length_pos_iff.mpr hne
            rw [hloop, ih (es.drop p.blockSize) hnew (hsorted.sublist (List.drop_sublist _ _))
              (fun x hx => hnull x (List.mem_of_mem_drop hx)) (by rw [List.length_drop]; omega)
              (fun call hin => hcalls call (List.mem_cons_of_mem _ hin)), hunion.exists_key_iff]
            conv_rhs => rw [← List.take_append_drop p.blockSize es]
            rw [exists_key_append, or_assoc]
          by_cases hfull : b.size = p.blockSize
          · rcases Nat.lt_or_ge es.length p.minBlockSize with hsmall | hlarge
            · obtain ⟨hloop, hcall⟩ := @bulkLoop_split _ _ p mergeInto b es hne hfull hsmall n
              obtain ⟨-, hright, hlive⟩ := nextBlock_spec hzero heven hpos h hfull es.length
              rw [nextBlock, if_pos ⟨List.length_pos_iff.mpr hne, hsmall⟩] at hright hlive
              rw [hcall] at hfits
              obtain ⟨hnew, hunion⟩ := hm _ es hright hsorted hnull
                (hfits _ (List.mem_singleton_self _))
              rw [hloop, elements_cons, elements_bulkLoop_nil hnew.filled, exists_key_append,
                hunion.exists_key_iff, ← or_assoc, ← exists_key_append, hlive]
            · obtain ⟨hloop, hcall⟩ := @bulkLoop_full _ _ p mergeInto b es hpos hne hfull hlarge n
              rw [hcall] at hfits
              rw [hloop, elements_cons, exists_key_append,
                hstep _ (insertionBlock_allocate hzero) (by change 0 ≠ _; omega) hfits]
              simp [PmaEntry.live, PmaEntry.allocateBlock, PmaEntry.null]
          · exact hstep b h hfull hfits

omit heven hpos hzero in
/-- The last call fits, and nothing is left. -/
lemma bulkLoaded_last (n : ℕ) {front : List α} {written : List (PmaEntry K α)}
    {calls : List (ℕ × ℕ)} (hb : InsertionBlock p b) (hsorted : NonDecreasing p (front ++ es))
    (hnull : ∀ x ∈ es, p.keyOf x ≠ p.nullKey) (hroom : b.size + es.length ≤ p.blockSize)
    (hfits : ∀ call ∈ calls, call.1 + call.2 ≤ p.blockSize)
    (hfront : IsKeyUnion p.keyOf [] front (elements written ++ b.live))
    (hlast : ∀ x ∈ elements written, ∀ y ∈ es, p.keyOf x < p.keyOf y) :
    BulkLoaded p (front ++ es) calls (written ++ bulkLoop p mergeInto n [] (mergeInto b es)) := by
  obtain ⟨hnew, hunion⟩ := hm b es hb (List.pairwise_append.mp hsorted).2.1 hnull hroom
  have helements : elements (written ++ bulkLoop p mergeInto n [] (mergeInto b es)) =
      elements written ++ (mergeInto b es).live := by
    rw [elements_append, elements_bulkLoop_nil hnew.filled]
  refine ⟨hfits, ?_, fun k => ?_⟩
  · rw [helements]
    refine Ordered.append (Ordered.left hfront.ordered) hnew.filled.increasing fun x hx y hy => ?_
    rcases hunion.mem_cases y hy with hy | hy
    · exact Ordered.lt hfront.ordered x hx y hy
    · exact hlast x hx y hy
  · rw [helements, exists_key_append, hunion.exists_key_iff, ← or_assoc, ← exists_key_append,
      hfront.exists_key_iff, exists_key_append]
    simp

/-- A full block is written as it is: the rest has to be loaded, and no key is repeated across the
border. -/
lemma bulkLoaded_full {n : ℕ} {call : ℕ × ℕ} (hne : es ≠ []) (hcall : call.1 + call.2 ≤ p.blockSize)
    {chunk : List α} (hsorted : NonDecreasing p (chunk ++ es))
    (hnull : ∀ x ∈ es, p.keyOf x ≠ p.nullKey) (hn : es.length ≤ n) (hb : b.Filled p)
    (hunion : IsKeyUnion p.keyOf [] chunk b.live) (hchunk : Increasing p chunk) :
    BulkLoaded p (chunk ++ es)
        (call :: bulkCalls p mergeInto n es ((PmaEntry.null p).allocateBlock p))
        (b :: bulkLoop p mergeInto n es ((PmaEntry.null p).allocateBlock p)) ↔
      Increasing p (chunk ++ es.take 1) ∧
        BulkLoaded p es (bulkCalls p mergeInto n es ((PmaEntry.null p).allocateBlock p))
          (bulkLoop p mergeInto n es ((PmaEntry.null p).allocateBlock p)) := by
  have hpair := List.pairwise_append.mp hsorted
  constructor
  · intro h
    have hfits := fun c hc => h.fits c (List.mem_cons_of_mem _ hc)
    have hkeys := exists_key_bulkLoop hm heven hpos hzero n es (insertionBlock_allocate hzero)
      hpair.2.1 hnull hn hfits
    have hinc := h.increasing
    rw [elements_cons] at hinc
    refine ⟨?_, hfits, Ordered.right hinc, fun k => ?_⟩
    · refine Ordered.append hchunk ?_ fun x hx z hz => ?_
      · cases es with
        | nil => exact List.Pairwise.nil
        | cons e es => exact List.pairwise_singleton _ e
      · obtain ⟨x', hx', hxk⟩ := hunion.exists_key x hx
        obtain ⟨z', hz', hzk⟩ := (hkeys (p.keyOf z)).mpr
          (Or.inr ⟨z, List.mem_of_mem_take hz, rfl⟩)
        rw [← hxk, ← hzk]
        exact Ordered.lt hinc x' hx' z' hz'
    · rw [hkeys]
      simp [PmaEntry.live, PmaEntry.allocateBlock, PmaEntry.null]
  · rintro ⟨hborder, h⟩
    refine ⟨fun c hc => ?_, ?_, fun k => ?_⟩
    · rcases List.mem_cons.mp hc with rfl | hc
      · exact hcall
      · exact h.fits c hc
    · rw [elements_cons]
      refine Ordered.append hb.increasing h.increasing fun x hx y hy => ?_
      -- between the two lies the first element behind the border
      obtain ⟨z, hz, hzk⟩ := (h.exists_key_iff (p.keyOf y)).mp ⟨y, hy, rfl⟩
      have hxc : x ∈ chunk := (hunion.mem_cases x hx).resolve_left List.not_mem_nil
      cases es with
      | nil => exact absurd rfl hne
      | cons e es =>
          have hlt := Ordered.lt hborder x hxc e (by simp)
          rw [← hzk]
          rcases List.mem_cons.mp hz with rfl | hz
          · exact hlt
          · exact lt_of_lt_of_le hlt ((List.pairwise_cons.mp hpair.2.1).1 z hz)
    · rw [elements_cons, exists_key_append, exists_key_append, h.exists_key_iff,
        hunion.exists_key_iff]
      simp

omit heven hm hpos hzero in
lemma bulkLoaded_nil (n : ℕ) :
    BulkLoaded p [] (bulkCalls p mergeInto n [] ((PmaEntry.null p).allocateBlock p))
      (bulkLoop p mergeInto n [] ((PmaEntry.null p).allocateBlock p)) := by
  have helements : elements (bulkLoop p mergeInto n [] ((PmaEntry.null p).allocateBlock p)) = [] :=
    elements_bulkLoop_nil (PmaEntry.filled_allocateBlock p) n
  refine ⟨?_, ?_, fun k => by rw [helements]⟩
  · rw [bulkCalls_nil]
    intro call hcall
    exact absurd hcall List.not_mem_nil
  · rw [helements]
    exact List.Pairwise.nil

/-- What follows the first chunk, which is in the insertion block. -/
lemma bulkLoaded_behind_chunk {m : ℕ} {call : ℕ × ℕ} {chunk : List α}
    (hcall : call.1 + call.2 ≤ p.blockSize) (hlen : chunk.length = p.blockSize) (hne : es ≠ [])
    (hsorted : NonDecreasing p (chunk ++ es)) (hnull : ∀ x ∈ es, p.keyOf x ≠ p.nullKey)
    (hn : es.length ≤ m + 1) (hb : InsertionBlock p b) (hunion : IsKeyUnion p.keyOf [] chunk b.live)
    (ih : BulkLoaded p es (bulkCalls p mergeInto (m + 1) es ((PmaEntry.null p).allocateBlock p))
      (bulkLoop p mergeInto (m + 1) es ((PmaEntry.null p).allocateBlock p)) ↔ BulkFits p es) :
    BulkLoaded p (chunk ++ es) (call :: bulkCalls p mergeInto (m + 1) es b)
      (bulkLoop p mergeInto (m + 1) es b) ↔ BulkFits p (chunk ++ es) := by
  have htake : (chunk ++ es).take p.blockSize = chunk := by rw [← hlen, List.take_left]
  have hdrop : (chunk ++ es).drop p.blockSize = es := by rw [← hlen, List.drop_left]
  have hpos' := List.length_pos_iff.mpr hne
  have hlong : p.blockSize < (chunk ++ es).length := by
    rw [List.length_append]
    omega
  have hpair := List.pairwise_append.mp hsorted
  have hsize := hb.filled.length_live
  rw [length_of_isKeyUnion hunion] at hsize
  have hcount := NonDecreasing.increasing_iff hpair.1
  by_cases hinc : Increasing p chunk
  · have hfull : b.size = p.blockSize := by
      rw [← hsize, hcount.mp hinc, hlen]
    rw [bulkFits_iff_of_increasing hpos hlong (by rwa [htake]), hdrop]
    rcases Nat.lt_or_ge es.length p.minBlockSize with hsmall | hlarge
    · -- the upper half of the full block takes the last elements
      obtain ⟨hloop, hcalls⟩ := @bulkLoop_split _ _ p mergeInto b es hne hfull hsmall m
      have hs := hb.filled.split_spec hfull heven hpos
      obtain ⟨-, hright, -⟩ := nextBlock_spec hzero heven hpos hb hfull es.length
      rw [nextBlock, if_pos ⟨hpos', hsmall⟩] at hright
      have hroom : (b.split p).2.size + es.length ≤ p.blockSize := by
        have hmin := hs.right_size
        rw [BlockParams.minBlockSize] at hmin hsmall
        omega
      refine iff_of_true ?_ (Or.inl (by rw [List.length_append]; omega))
      rw [hloop, hcalls]
      refine @bulkLoaded_last _ _ _ p mergeInto _ es hm m chunk [(b.split p).1] _ hright hsorted
        hnull hroom (fun c hc => ?_) ?_ fun x hx y hy => ?_
      · rcases List.mem_cons.mp hc with rfl | hc
        · exact hcall
        · rw [List.mem_singleton.mp hc]
          exact hroom
      · rwa [elements_cons, elements_nil, List.append_nil, hs.live_eq]
      · rw [elements_cons, elements_nil, List.append_nil] at hx
        obtain ⟨z, hz⟩ := List.exists_mem_of_ne_nil _ hs.right_valid.live_ne_nil
        have hord := hb.filled.increasing
        rw [← hs.live_eq] at hord
        have hzc : z ∈ chunk := (hunion.mem_cases z (by
          rw [← hs.live_eq]
          exact List.mem_append_right _ hz)).resolve_left List.not_mem_nil
        exact lt_of_lt_of_le (Ordered.lt hord x hx z hz) (hpair.2.2 z hzc y hy)
    · obtain ⟨hloop, hcalls⟩ := @bulkLoop_full _ _ p mergeInto b es hpos hne hfull hlarge m
      rw [hloop, hcalls, bulkLoaded_full hm heven hpos hzero hne hcall hsorted hnull hn hb.filled
        hunion hinc, ih]
      have hborder : (chunk ++ es).take (p.blockSize + 1) = chunk ++ es.take 1 := by
        rw [← hlen, List.take_length_add_append]
      rw [hborder]
      refine (or_iff_right ?_).symm
      rw [List.length_append]
      omega
  · have hopen : b.size ≠ p.blockSize := by
      intro hfull
      refine hinc (hcount.mpr ?_)
      rw [hsize, hfull, hlen]
    have hpos'' := @length_dedup_pos _ _ _ p chunk (List.ne_nil_of_length_pos (by omega))
    obtain ⟨hloop, hcalls⟩ := @bulkLoop_open _ _ p mergeInto b es hne hopen m
    rw [bulkFits_iff_of_repeated hlong (by rwa [htake]), htake, hdrop, hsize, hloop, hcalls]
    constructor
    · intro h
      have hfit := h.fits (b.size, min p.blockSize es.length)
        (List.mem_cons_of_mem _ List.mem_cons_self)
      simp only at hfit
      omega
    · intro hle
      have hshort : es.length ≤ p.blockSize := by omega
      rw [List.take_of_length_le hshort, List.drop_eq_nil_of_le hshort, bulkCalls_nil]
      refine @bulkLoaded_last _ _ _ p mergeInto _ es hm m chunk [] _ hb hsorted hnull hle
        (fun c hc => ?_) hunion fun x hx => absurd hx List.not_mem_nil
      rcases List.mem_cons.mp hc with rfl | hc
      · exact hcall
      · rw [List.mem_singleton.mp hc]
        simp only
        omega

/-- **The loop**, on a new block. -/
lemma bulkLoaded_iff : ∀ (n : ℕ) (es : List α), NonDecreasing p es →
    (∀ x ∈ es, p.keyOf x ≠ p.nullKey) → es.length ≤ n →
    (BulkLoaded p es (bulkCalls p mergeInto n es ((PmaEntry.null p).allocateBlock p))
      (bulkLoop p mergeInto n es ((PmaEntry.null p).allocateBlock p)) ↔ BulkFits p es) := by
  intro n
  induction n with
  | zero =>
      intro es _ _ hn
      obtain rfl := List.eq_nil_of_length_eq_zero (Nat.le_zero.mp hn)
      exact iff_of_true (bulkLoaded_nil 0) (bulkFits_of_le (Nat.zero_le _))
  | succ n ih =>
      intro es hsorted hnull hn
      rcases List.eq_nil_or_concat es with rfl | hne
      · exact iff_of_true (bulkLoaded_nil _) (bulkFits_of_le (Nat.zero_le _))
      replace hne : es ≠ [] := by
        obtain ⟨l, x, rfl⟩ := hne
        simp
      have hfresh := insertionBlock_allocate (p := p) hzero
      obtain ⟨hloop, hcalls⟩ := @bulkLoop_open _ _ p mergeInto
        ((PmaEntry.null p).allocateBlock p) es hne (by change 0 ≠ p.blockSize; omega) n
      rw [hloop, hcalls]
      have hfirst : ∀ call ∈ [(((PmaEntry.null p).allocateBlock p).size,
          min p.blockSize es.length)], call.1 + call.2 ≤ p.blockSize := by
        intro call hcall
        rw [List.mem_singleton.mp hcall]
        change 0 + min _ _ ≤ _
        omega
      rcases Nat.lt_or_ge p.blockSize es.length with hlong | hshort
      · have hsplit := List.take_append_drop p.blockSize es
        have hlenChunk : (es.take p.blockSize).length = p.blockSize := by
          rw [List.length_take]
          omega
        have hlenRest : (es.drop p.blockSize).length = es.length - p.blockSize := List.length_drop
        have hsorted' := hsorted
        rw [← hsplit] at hsorted'
        have hpair := List.pairwise_append.mp hsorted'
        have hnullRest : ∀ x ∈ es.drop p.blockSize, p.keyOf x ≠ p.nullKey :=
          fun x hx => hnull x (List.mem_of_mem_drop hx)
        obtain ⟨hnew, hunion⟩ := hm _ (es.take p.blockSize) hfresh hpair.1
          (fun x hx => hnull x (List.mem_of_mem_take hx)) (by change 0 + _ ≤ _; omega)
        obtain ⟨m, rfl⟩ : ∃ m, n = m + 1 := ⟨n - 1, by omega⟩
        have hchunk := bulkLoaded_behind_chunk hm heven hpos hzero (hfirst _ List.mem_cons_self)
          hlenChunk (List.ne_nil_of_length_pos (by omega)) hsorted' hnullRest (by omega) hnew hunion
          (ih _ hpair.2.1 hnullRest (by omega))
        rwa [hsplit] at hchunk
      · refine iff_of_true ?_ (bulkFits_of_le hshort)
        rw [List.take_of_length_le hshort, List.drop_eq_nil_of_le hshort, bulkCalls_nil]
        exact @bulkLoaded_last _ _ _ p mergeInto _ es hm n [] [] _ hfresh hsorted hnull
          (by change 0 + _ ≤ _; omega) hfirst
          ⟨List.Pairwise.nil, fun x hx => hx, fun x hx => Or.inl hx, fun x hx => absurd hx
            List.not_mem_nil⟩ fun x hx => absurd hx List.not_mem_nil

end Bulk

/-! ## The null key -/

section NullKey

variable {b : PmaEntry K α} {es : List α}

/-- A block without the null key; its head may be wrong. -/
structure NoNullKey (p : BlockParams K α) (b : PmaEntry K α) : Prop where
  length_cells : b.cells.length = p.blockSize
  size_le : b.size ≤ p.blockSize
  key_ne_null : ∀ x ∈ b.live, p.keyOf x ≠ p.nullKey

lemma noNullKey_allocate : NoNullKey p ((PmaEntry.null p).allocateBlock p) :=
  ⟨(PmaEntry.filled_allocateBlock p).length_cells, Nat.zero_le _, fun x hx => by
    simp [PmaEntry.live, PmaEntry.allocateBlock, PmaEntry.null] at hx⟩

omit [LinearOrder K] in
lemma NoNullKey.insertAtIndex (h : NoNullKey p b) (hroom : b.size < p.blockSize) {e : α}
    (he : p.keyOf e ≠ p.nullKey) {i : ℕ} (hi : i ≤ b.size) :
    NoNullKey p (b.insertAtIndex p e i) := by
  obtain ⟨hlive, -, hcells⟩ := PmaEntry.insertAtIndex_spec (p := p) (e := e) hi
    (by rw [h.length_cells]; exact hroom)
  refine ⟨hcells.trans h.length_cells, hroom, ?_⟩
  intro x hx
  rw [hlive] at hx
  rcases List.mem_append.mp hx with hx | hx
  · exact h.key_ne_null x (List.mem_of_mem_take hx)
  · rcases List.mem_cons.mp hx with rfl | hx
    · exact he
    · exact h.key_ne_null x (List.mem_of_mem_drop hx)

lemma NoNullKey.mergeLoop : ∀ (es : List α) {b : PmaEntry K α} {start : ℕ}, NoNullKey p b →
    start ≤ b.size → b.size + es.length ≤ p.blockSize → (∀ x ∈ es, p.keyOf x ≠ p.nullKey) →
    NoNullKey p (PmaEntry.mergeLoop p es b start) := by
  intro es
  induction es with
  | nil => intro b start h _ _ _; exact h
  | cons e es ih =>
      intro b start h hs hroom hnull
      rw [List.length_cons] at hroom
      have hle := PmaEntry.linearSearch_le (p := p) b (p.keyOf e) start hs
      have hrest := fun x hx => hnull x (List.mem_cons_of_mem _ hx)
      rw [PmaEntry.mergeLoop]
      split
      · exact ih h hle (by omega) hrest
      · have hins := h.insertAtIndex (by omega) (hnull e List.mem_cons_self) hle
        refine ih hins ?_ ?_ hrest
        · change _ ≤ b.size + 1
          omega
        · change b.size + 1 + _ ≤ _
          omega

lemma NoNullKey.merge (h : NoNullKey p b) (hroom : b.size + es.length ≤ p.blockSize)
    (hnull : ∀ x ∈ es, p.keyOf x ≠ p.nullKey) : NoNullKey p (b.merge p es) := by
  cases es with
  | nil => exact h
  | cons e es =>
      rw [List.length_cons] at hroom
      have hle := PmaEntry.linearSearch_le (p := p) b (p.keyOf e) 0 (Nat.zero_le _)
      have hrest := fun x hx => hnull x (List.mem_cons_of_mem _ hx)
      have hins := h.insertAtIndex (by omega) (hnull e List.mem_cons_self) hle
      rw [PmaEntry.merge]
      split
      · exact NoNullKey.mergeLoop es h hle (by omega) hrest
      · split
        · refine NoNullKey.mergeLoop es ⟨hins.length_cells, hins.size_le, hins.key_ne_null⟩ ?_ ?_ hrest
          · change _ ≤ b.size + 1
            omega
          · change b.size + 1 + _ ≤ _
            omega
        · refine NoNullKey.mergeLoop es hins ?_ ?_ hrest
          · change _ ≤ b.size + 1
            omega
          · change b.size + 1 + _ ≤ _
            omega

omit [LinearOrder K] in
lemma NoNullKey.split (h : NoNullKey p b) (hfull : b.size = p.blockSize) :
    NoNullKey p (b.split p).1 ∧ NoNullKey p (b.split p).2 := by
  have hlive : b.live = b.cells := by
    rw [PmaEntry.live, hfull, ← h.length_cells, List.take_length]
  have hhalf := Nat.div_le_self p.blockSize 2
  refine ⟨⟨h.length_cells, hhalf, ?_⟩, ⟨?_, hhalf, ?_⟩⟩
  · intro x hx
    have hx' : x ∈ b.cells.take (p.blockSize / 2) := hx
    exact h.key_ne_null x (by rw [hlive]; exact List.mem_of_mem_take hx')
  · change (b.cells.drop (p.blockSize / 2) ++ (List.replicate p.blockSize p.zero).drop
      (b.cells.drop (p.blockSize / 2)).length).length = _
    rw [List.length_append, List.length_drop, List.length_drop, List.length_replicate,
      h.length_cells]
    omega
  · intro x hx
    have hx' : x ∈ (b.cells.drop (p.blockSize / 2) ++ (List.replicate p.blockSize p.zero).drop
      (b.cells.drop (p.blockSize / 2)).length).take (p.blockSize / 2) := hx
    rw [List.take_append_of_le_length (by rw [List.length_drop, h.length_cells]; omega)] at hx'
    refine h.key_ne_null x ?_
    rw [hlive]
    exact List.mem_of_mem_drop (List.mem_of_mem_take hx')

/-- From the first key on that is not the null key, none is. -/
lemma key_ne_null_of_sorted {e : α} (hsorted : NonDecreasing p (e :: es))
    (hge : ∀ x ∈ e :: es, p.nullKey ≤ p.keyOf x) (he : p.keyOf e ≠ p.nullKey) :
    ∀ x ∈ e :: es, p.keyOf x ≠ p.nullKey := by
  have hlt := lt_of_le_of_ne (hge e List.mem_cons_self) he.symm
  intro x hx
  rcases List.mem_cons.mp hx with rfl | hx
  · exact he
  · exact (lt_of_lt_of_le hlt ((List.pairwise_cons.mp hsorted).1 x hx)).ne'

variable (hpos : 0 < p.blockSize) (hzero : p.keyOf p.zero = p.nullKey)
include hpos hzero

omit [LinearOrder K] hzero in
lemma get_allocate : ((PmaEntry.null p).allocateBlock p).get p 0 = p.zero := by
  obtain ⟨n, hn⟩ : ∃ n, p.blockSize = n + 1 := ⟨p.blockSize - 1, by omega⟩
  rw [PmaEntry.get, PmaEntry.allocateBlock, PmaEntry.cells, hn]
  rfl

/-- In a new block the null key meets itself: it is skipped. -/
lemma mergeLoop_allocate {e : α} (he : p.keyOf e = p.nullKey) (es : List α) :
    PmaEntry.mergeLoop p (e :: es) ((PmaEntry.null p).allocateBlock p) 0 =
      PmaEntry.mergeLoop p es ((PmaEntry.null p).allocateBlock p) 0 := by
  have hsearch : ((PmaEntry.null p).allocateBlock p).linearSearch p (p.keyOf e) 0 = 0 := rfl
  rw [PmaEntry.mergeLoop]
  simp only [hsearch]
  rw [get_allocate hpos, hzero, he, if_pos rfl]

lemma merge_allocate {e : α} (he : p.keyOf e = p.nullKey) (es : List α) :
    ((PmaEntry.null p).allocateBlock p).merge p (e :: es) =
      PmaEntry.mergeLoop p es ((PmaEntry.null p).allocateBlock p) 0 := by
  have hsearch : ((PmaEntry.null p).allocateBlock p).linearSearch p (p.keyOf e) 0 = 0 := rfl
  rw [PmaEntry.merge]
  simp only [hsearch]
  rw [get_allocate hpos, hzero, he, if_pos rfl]

/-- Nothing but null keys. -/
lemma merge_allocate_null (hnull : ∀ x ∈ es, p.keyOf x = p.nullKey) :
    ((PmaEntry.null p).allocateBlock p).merge p es = (PmaEntry.null p).allocateBlock p := by
  have hloop : ∀ l : List α, (∀ x ∈ l, p.keyOf x = p.nullKey) → PmaEntry.mergeLoop p l
      ((PmaEntry.null p).allocateBlock p) 0 = (PmaEntry.null p).allocateBlock p := by
    intro l
    induction l with
    | nil => intro _; rfl
    | cons e l ih =>
        intro hl
        rw [mergeLoop_allocate hpos hzero (hl e List.mem_cons_self)]
        exact ih fun x hx => hl x (List.mem_cons_of_mem _ hx)
  cases es with
  | nil => rfl
  | cons e es =>
      rw [merge_allocate hpos hzero (hnull e List.mem_cons_self)]
      exact hloop es fun x hx => hnull x (List.mem_cons_of_mem _ hx)

/-- Null keys in front of the others. -/
lemma noNullKey_merge_allocate (hsorted : NonDecreasing p es)
    (hge : ∀ x ∈ es, p.nullKey ≤ p.keyOf x) (hlen : es.length ≤ p.blockSize) :
    NoNullKey p (((PmaEntry.null p).allocateBlock p).merge p es) := by
  have hloop : ∀ l : List α, NonDecreasing p l → (∀ x ∈ l, p.nullKey ≤ p.keyOf x) →
      l.length ≤ p.blockSize →
      NoNullKey p (PmaEntry.mergeLoop p l ((PmaEntry.null p).allocateBlock p) 0) := by
    intro l
    induction l with
    | nil => intro _ _ _; exact noNullKey_allocate
    | cons e l ih =>
        intro hl hlge hlen
        have hcons := List.pairwise_cons.mp hl
        by_cases he : p.keyOf e = p.nullKey
        · rw [mergeLoop_allocate hpos hzero he]
          refine ih hcons.2 (fun x hx => hlge x (List.mem_cons_of_mem _ hx)) ?_
          rw [List.length_cons] at hlen
          omega
        · refine NoNullKey.mergeLoop _ noNullKey_allocate (Nat.zero_le _) ?_ fun x hx => ?_
          · change 0 + _ ≤ _
            omega
          · exact (key_ne_null_of_sorted hl hlge he x hx)
  cases es with
  | nil => exact noNullKey_allocate
  | cons e es =>
      have hcons := List.pairwise_cons.mp hsorted
      by_cases he : p.keyOf e = p.nullKey
      · rw [merge_allocate hpos hzero he]
        refine hloop es hcons.2 (fun x hx => hge x (List.mem_cons_of_mem _ hx)) ?_
        rw [List.length_cons] at hlen
        omega
      · refine noNullKey_allocate.merge ?_ (key_ne_null_of_sorted hsorted hge he)
        change 0 + _ ≤ _
        omega

/-- The blocks that are written never hold the null key. -/
lemma key_ne_null_bulkLoop : ∀ (n : ℕ) (es : List α) {b : PmaEntry K α}, NoNullKey p b →
    NonDecreasing p es → (∀ x ∈ es, p.nullKey ≤ p.keyOf x) →
    (b = (PmaEntry.null p).allocateBlock p ∨ ∀ x ∈ es, p.keyOf x ≠ p.nullKey) →
    (∀ call ∈ bulkCalls p (fun b es => b.merge p es) n es b, call.1 + call.2 ≤ p.blockSize) →
    ∀ x ∈ elements (bulkLoop p (fun b es => b.merge p es) n es b), p.keyOf x ≠ p.nullKey := by
  have hend : ∀ b : PmaEntry K α, NoNullKey p b →
      ∀ x ∈ elements (if 0 < b.size then [b] else []), p.keyOf x ≠ p.nullKey := by
    intro b h x hx
    split at hx
    · rw [elements_cons, elements_nil, List.append_nil] at hx
      exact h.key_ne_null x hx
    · exact absurd hx List.not_mem_nil
  intro n
  induction n with
  | zero => intro es b h _ _ _ _; exact hend b h
  | succ n ih =>
      intro es b h hsorted hge hor hfits
      cases es with
      | nil => exact hend b h
      | cons e es =>
          have hne : e :: es ≠ [] := List.cons_ne_nil e es
          generalize e :: es = es at *
          have hstep : ∀ c : PmaEntry K α, NoNullKey p c → c.size ≠ p.blockSize →
              (c = (PmaEntry.null p).allocateBlock p ∨ ∀ x ∈ es, p.keyOf x ≠ p.nullKey) →
              (∀ call ∈ bulkCalls p (fun b es => b.merge p es) (n + 1) es c,
                call.1 + call.2 ≤ p.blockSize) →
              ∀ x ∈ elements (bulkLoop p (fun b es => b.merge p es) (n + 1) es c),
                p.keyOf x ≠ p.nullKey := by
            intro c hc hopen hcases hcalls
            obtain ⟨hloop, hcall⟩ :=
              @bulkLoop_open _ _ p (fun b es => b.merge p es) c es hne hopen n
            rw [hcall] at hcalls
            have hfit := hcalls _ List.mem_cons_self
            rw [← List.length_take] at hfit
            have hsplit := hsorted
            rw [← List.take_append_drop p.blockSize es] at hsplit
            have hpair := List.pairwise_append.mp hsplit
            have hgeTake := fun x hx => hge x (List.take_subset p.blockSize es hx)
            have hgeDrop := fun x hx => hge x (List.drop_subset p.blockSize es hx)
            rw [hloop]
            have hnew : NoNullKey p (c.merge p (es.take p.blockSize)) ∧
                (c.merge p (es.take p.blockSize) = (PmaEntry.null p).allocateBlock p ∨
                  ∀ x ∈ es.drop p.blockSize, p.keyOf x ≠ p.nullKey) := by
              rcases hcases with rfl | hnull
              · refine ⟨noNullKey_merge_allocate hpos hzero hpair.1 hgeTake ?_, ?_⟩
                · rw [List.length_take]
                  omega
                · by_cases hall : ∀ x ∈ es.take p.blockSize, p.keyOf x = p.nullKey
                  · exact Or.inl (merge_allocate_null hpos hzero hall)
                  · push Not at hall
                    obtain ⟨y, hy, hyk⟩ := hall
                    have hlt := lt_of_le_of_ne (hgeTake y hy) hyk.symm
                    exact Or.inr fun x hx => (lt_of_lt_of_le hlt (hpair.2.2 y hy x hx)).ne'
              · exact ⟨hc.merge hfit fun x hx => hnull x (List.mem_of_mem_take hx),
                  Or.inr fun x hx => hnull x (List.mem_of_mem_drop hx)⟩
            exact ih _ hnew.1 hpair.2.1 hgeDrop hnew.2
              fun call hin => hcalls call (List.mem_cons_of_mem _ hin)
          by_cases hfull : b.size = p.blockSize
          · have hnull : ∀ x ∈ es, p.keyOf x ≠ p.nullKey := by
              refine hor.resolve_left fun hfresh => ?_
              rw [hfresh] at hfull
              change 0 = _ at hfull
              omega
            intro x hx
            rcases Nat.lt_or_ge es.length p.minBlockSize with hsmall | hlarge
            · obtain ⟨hloop, hcall⟩ :=
                @bulkLoop_split _ _ p (fun b es => b.merge p es) b es hne hfull hsmall n
              obtain ⟨hleft, hright⟩ := h.split hfull
              rw [hcall] at hfits
              have hmerged := hright.merge (hfits _ (List.mem_singleton_self _)) hnull
              rw [hloop, elements_cons] at hx
              rcases List.mem_append.mp hx with hx | hx
              · exact hleft.key_ne_null x hx
              · cases n with
                | zero => exact hend _ hmerged x hx
                | succ n => exact hend _ hmerged x hx
            · obtain ⟨hloop, hcall⟩ :=
                @bulkLoop_full _ _ p (fun b es => b.merge p es) b es hpos hne hfull hlarge n
              rw [hcall] at hfits
              rw [hloop, elements_cons] at hx
              rcases List.mem_append.mp hx with hx | hx
              · exact h.key_ne_null x hx
              · exact hstep _ noNullKey_allocate (by change 0 ≠ _; omega) (Or.inr hnull) hfits x hx
          · exact hstep b h hfull hor hfits

end NullKey

/-! ## Both arrays -/

lemma batchSorted_spec : ∀ {batch : List α} {last : K}, batchSorted p last batch = true →
    NonDecreasing p batch ∧ ∀ x ∈ batch, last ≤ p.keyOf x := by
  intro batch
  induction batch with
  | nil => intro last _; exact ⟨List.Pairwise.nil, fun x hx => absurd hx List.not_mem_nil⟩
  | cons e es ih =>
      intro last h
      rw [batchSorted] at h
      split at h
      · exact absurd h (by simp)
      · rename_i hge
        obtain ⟨hsorted, hle⟩ := ih h
        refine ⟨List.pairwise_cons.mpr ⟨hle, hsorted⟩, fun x hx => ?_⟩
        rcases List.mem_cons.mp hx with rfl | hx
        · exact not_lt.mp hge
        · exact le_trans (not_lt.mp hge) (hle x hx)

/-- **Loading an empty range.**  In both arrays all calls of the merge fit and the blocks hold each
key of the part of the batch once, if and only if the null key is not among them and no repetition
comes too early.  Blocks are not longer than the signed positions of `mergeFaster` reach. -/
theorem insertIntoEmptyRange_loads_iff (p : BlockParams K α) (heven : 2 ∣ p.blockSize)
    (hpos : 0 < p.blockSize) (hsigned : p.blockSize ≤ 2 ^ 15)
    (hzero : p.keyOf p.zero = p.nullKey) (batch : List α)
    (hsorted : batchSorted p p.nullKey batch = true) (batchRange : Interval) :
    (BulkLoaded p (batchPart batch batchRange) (emptyRangeCalls p (batchPart batch batchRange))
        (emptyRangeBlocks p (batchPart batch batchRange)) ∧
      BulkLoaded p (batchPart batch batchRange) (denseRangeCalls p (batchPart batch batchRange))
        (denseRangeBlocks p (batchPart batch batchRange))) ↔
      (∀ x ∈ batchPart batch batchRange, p.keyOf x ≠ p.nullKey) ∧
        BulkFits p (batchPart batch batchRange) := by
  obtain ⟨hbatch, hge⟩ := batchSorted_spec hsorted
  have hsub : (batchPart batch batchRange).Sublist batch :=
    (List.take_sublist _ _).trans (List.drop_sublist _ _)
  have hpart : NonDecreasing p (batchPart batch batchRange) := hbatch.sublist hsub
  have hgePart := fun x hx => hge x (hsub.subset hx)
  generalize batchPart batch batchRange = es at *
  rw [emptyRangeBlocks, emptyRangeLoop_eq, denseRangeBlocks, denseRangeLoop_eq, emptyRangeCalls,
    denseRangeCalls]
  constructor
  · rintro ⟨hmerge, -⟩
    have hnull : ∀ x ∈ es, p.keyOf x ≠ p.nullKey := by
      intro x hx hk
      obtain ⟨y, hy, hyk⟩ := (hmerge.exists_key_iff p.nullKey).mpr ⟨x, hx, hk⟩
      exact key_ne_null_bulkLoop hpos hzero _ _ noNullKey_allocate hpart hgePart (Or.inl rfl)
        hmerge.fits y hy hyk
    exact ⟨hnull, (bulkLoaded_iff mergesSorted_merge heven hpos hzero _ es hpart hnull
      (le_refl _)).mp hmerge⟩
  · rintro ⟨hnull, hfits⟩
    exact ⟨(bulkLoaded_iff mergesSorted_merge heven hpos hzero _ es hpart hnull (le_refl _)).mpr
        hfits,
      (bulkLoaded_iff (mergesSorted_mergeFaster hsigned) heven hpos hzero _ es hpart hnull
        (le_refl _)).mpr hfits⟩

/-- A key that is repeated across a border, where the full block is split. -/
theorem insertIntoEmptyRange_loads_fiveElements :
    BulkLoaded (keyOnlyBlocks 4) [1, 2, 3, 4, 4] (emptyRangeCalls (keyOnlyBlocks 4) [1, 2, 3, 4, 4])
        (emptyRangeBlocks (keyOnlyBlocks 4) [1, 2, 3, 4, 4]) ∧
      BulkLoaded (keyOnlyBlocks 4) [1, 2, 3, 4, 4]
        (denseRangeCalls (keyOnlyBlocks 4) [1, 2, 3, 4, 4])
        (denseRangeBlocks (keyOnlyBlocks 4) [1, 2, 3, 4, 4]) := by
  refine (insertIntoEmptyRange_loads_iff (keyOnlyBlocks 4) (by decide) (by decide) (by decide)
    rfl [1, 2, 3, 4, 4] (by decide) ⟨0, 5⟩).mpr ⟨by decide, 4, by decide, ?_, Or.inl (by decide)⟩
  simp [Increasing, batchPart, Interval.length, keyOnlyBlocks]

/-- Four times the same key, then four others: the second merge is given four elements for the three
cells that are left. -/
theorem insertIntoEmptyRange_overfills :
    batchSorted (keyOnlyBlocks 4) 0 [1, 1, 1, 1, 2, 3, 4, 5] = true ∧
      emptyRangeCalls (keyOnlyBlocks 4) [1, 1, 1, 1, 2, 3, 4, 5] = [(0, 4), (1, 4)] ∧
      denseRangeCalls (keyOnlyBlocks 4) [1, 1, 1, 1, 2, 3, 4, 5] = [(0, 4), (1, 4)] ∧
      ¬ BulkLoaded (keyOnlyBlocks 4) [1, 1, 1, 1, 2, 3, 4, 5]
        (emptyRangeCalls (keyOnlyBlocks 4) [1, 1, 1, 1, 2, 3, 4, 5])
        (emptyRangeBlocks (keyOnlyBlocks 4) [1, 1, 1, 1, 2, 3, 4, 5]) := by
  refine ⟨by decide, by decide, by decide, ?_⟩
  intro h
  exact absurd (h.fits (1, 4) (by decide)) (by decide)

end BatchPMA
