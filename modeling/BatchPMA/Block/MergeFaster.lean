import BatchPMA.Model.OverallocatedBlock
import BatchPMA.Block.Insert

/-!
# Merging from the back

`mergeFaster` writes the union of a block and a part of the batch from the back into the cells of
the block.  At every moment the cells in front of the write index are the old ones, and the written
part is the union of the elements that have been read.  What is left over is moved to the front in
the end, so that dead cells may hold copies of live elements.
-/

namespace BatchPMA

open KeyedUnion

variable {K α : Type} [LinearOrder K] {p : BlockParams K α}

namespace PmaEntry

variable {b : PmaEntry K α} {es written : List α}

omit [LinearOrder K] in
/-- A write in front of a part that has been written. -/
lemma set_take_append {l r : List α} {w : ℕ} (e : α) (hpos : 0 < w) (hle : w ≤ l.length) :
    (l.take w ++ r).set (w - 1) e = l.take (w - 1) ++ e :: r := by
  obtain ⟨n, rfl⟩ := Nat.exists_eq_add_of_lt hpos
  have htake : l.take (0 + n + 1) = l.take n ++ [l[n]] := by
    rw [Nat.zero_add, List.take_add_one, List.getElem?_eq_getElem (by omega)]
    rfl
  rw [htake, Nat.zero_add, Nat.add_sub_cancel, List.append_assoc, List.set_append_right _ _ (by
    rw [List.length_take]; omega)]
  rw [List.length_take, Nat.min_eq_left (by omega), Nat.sub_self]
  rfl

omit [LinearOrder K] in
lemma getD_zero_append {l r : List α} {zero : α} (h : 0 < l.length) :
    (l ++ r).getD 0 zero = l.getD 0 zero := by
  rw [List.getD_eq_getElem?_getD, List.getElem?_append_left h, ← List.getD_eq_getElem?_getD]

omit [LinearOrder K] in
/-- Moving a part forward by the length of what is in front of it. -/
lemma foldl_set_forward (a gap moved r : List α) (zero : α) : ∀ n ≤ moved.length,
    (List.range n).foldl (fun cells i =>
      cells.set (a.length + i) (cells.getD (a.length + i + gap.length) zero))
      (a ++ (gap ++ moved ++ r)) = a ++ (moved.take n ++ ((gap ++ moved).drop n ++ r))
  | 0, _ => by simp
  | n + 1, hn => by
      rw [List.range_succ, List.foldl_append, foldl_set_forward a gap moved r zero n (by omega)]
      have hmid : n < (gap ++ moved).length := by rw [List.length_append]; omega
      have hlen : (moved.take n).length = n := by rw [List.length_take]; omega
      -- the cell that is read holds the next element of the moved part
      have hget : (a ++ (moved.take n ++ ((gap ++ moved).drop n ++ r))).getD
          (a.length + n + gap.length) zero = moved[n] := by
        rw [List.getD_eq_getElem?_getD, List.getElem?_append_right (by omega),
          List.getElem?_append_right (by omega), hlen,
          List.getElem?_append_left (by rw [List.length_drop, List.length_append]; omega),
          List.getElem?_drop, List.getElem?_append_right (by omega),
          show n + (a.length + n + gap.length - a.length - n) - gap.length = n by omega,
          List.getElem?_eq_getElem (by omega), Option.getD_some]
      simp only [List.foldl_cons, List.foldl_nil]
      rw [hget, List.set_append_right _ _ (by omega), Nat.add_sub_cancel_left,
        List.set_append_right _ _ (by omega), hlen, Nat.sub_self, List.drop_eq_getElem_cons hmid,
        List.cons_append, List.set_cons_zero]
      have htake : moved.take (n + 1) = moved.take n ++ [moved[n]] := by
        rw [List.take_add_one, List.getElem?_eq_getElem (by omega)]
        rfl
      rw [htake, List.append_assoc, List.singleton_append]

namespace MergeFasterState

/-! ## Indices of 16 bits -/

lemma toSigned_of_lt {n : ℕ} (h : n ≤ 2 ^ 15) : toSigned ((n : ℤ) - 1) = n - 1 := by
  rw [toSigned, Int.bmod_def]
  omega

lemma toUnsigned_of_lt {n : ℕ} (h : n < 2 ^ 16) : toUnsigned (n : ℤ) = n := by
  rw [toUnsigned, Int.emod_eq_of_lt (by omega) (by omega), Int.toNat_natCast]

/-- The index of the last one of `n` elements. -/
lemma toUnsigned_pred {n : ℕ} (hpos : 0 < n) (h : n < 2 ^ 16) :
    toUnsigned ((n : ℤ) - 1) = n - 1 := by
  rw [← Nat.cast_pred hpos]
  exact toUnsigned_of_lt (by omega)

omit [LinearOrder K] in
/-- A write with an index that is in range. -/
lemma write_eq {st : MergeFasterState K α} {w : ℕ} (hw : st.writeIndex = w - 1) (hpos : 0 < w)
    (hle : w ≤ 2 ^ 15) (hn : st.numberOfWrites < 2 ^ 15) (e : α) :
    st.write p e =
      { st with
        cells := st.cells.set (w - 1) e
        writeIndex := ((w - 1 : ℕ) : ℤ) - 1
        numberOfWrites := st.numberOfWrites + 1
        lastWrittenKey := p.keyOf e } := by
  have hindex : st.writeIndex = ((w - 1 : ℕ) : ℤ) := by omega
  have hcount : toUnsigned ((st.numberOfWrites : ℤ) + 1) = st.numberOfWrites + 1 :=
    toUnsigned_of_lt (n := st.numberOfWrites + 1) (by omega)
  rw [write, hindex, if_pos (Int.natCast_nonneg _), Int.toNat_natCast, toSigned_of_lt (by omega),
    hcount]

/-! ## The invariant -/

/-- What holds while `mergeFaster` runs: `written` is the union of the elements read so far, `k`
elements of the block and `n` of the batch are left, and the first `w` cells have not been
written. -/
structure Merging (p : BlockParams K α) (b : PmaEntry K α) (es written : List α) (k n w : ℕ)
    (st : MergeFasterState K α) : Prop where
  blockEnd_eq : st.blockEnd = k - 1
  batchEnd_eq : st.batchEnd = n - 1
  writeIndex_eq : st.writeIndex = w - 1
  block_le : k ≤ b.live.length
  batch_le : n ≤ es.length
  le_write : k + n ≤ w
  write_add : w + written.length = b.size + es.length
  numberOfWrites_eq : st.numberOfWrites = written.length
  cells_eq : st.cells = b.cells.take w ++ (written ++ b.cells.drop (b.size + es.length))
  union : IsKeyUnion p.keyOf (b.live.drop k) (es.drop n) written
  last_eq : st.lastWrittenKey = (written.head?.map p.keyOf).getD p.nullKey
  old_lt : ∀ x ∈ b.live.take k, ∀ y ∈ es.drop n, p.keyOf x < p.keyOf y
  new_le : ∀ y ∈ es.take n, ∀ x ∈ b.live.drop k, p.keyOf y ≤ p.keyOf x

variable {st : MergeFasterState K α} {k n w : ℕ}

lemma firstOccurrence_eq (hinc : Increasing p es) : ∀ {n : ℕ}, n < es.length →
    firstOccurrence p es n = n
  | 0, _ => rfl
  | n + 1, hn => by
      rw [firstOccurrence, if_neg]
      have h1 : es.getD (n + 1) p.zero = es[n + 1] := by
        rw [List.getD_eq_getElem?_getD, List.getElem?_eq_getElem (by omega), Option.getD_some]
      have h0 : es.getD n p.zero = es[n] := by
        rw [List.getD_eq_getElem?_getD, List.getElem?_eq_getElem (by omega), Option.getD_some]
      rw [h1, h0]
      exact (List.pairwise_iff_getElem.mp hinc n (n + 1) _ _ (Nat.lt_succ_self n)).ne'

/-- All elements from the first occurrence on have the same key. -/
lemma firstOccurrence_spec (es : List α) : ∀ n : ℕ, firstOccurrence p es n ≤ n ∧
    ∀ j, firstOccurrence p es n ≤ j → j ≤ n →
      p.keyOf (es.getD j p.zero) = p.keyOf (es.getD (firstOccurrence p es n) p.zero)
  | 0 => ⟨le_refl _, fun j _ hj => by rw [Nat.le_zero.mp hj]; rfl⟩
  | n + 1 => by
      rw [firstOccurrence]
      split
      · rename_i heq
        obtain ⟨h1, h2⟩ := firstOccurrence_spec es n
        refine ⟨by omega, fun j hj hle => ?_⟩
        rcases Nat.eq_or_lt_of_le hle with rfl | hlt
        · rw [heq]
          exact h2 n h1 (le_refl _)
        · exact h2 j hj (by omega)
      · refine ⟨le_refl _, fun j hj hle => ?_⟩
        rw [le_antisymm hle hj]

/-- The cells in front of the write index are the old ones. -/
lemma Merging.cell (h : Merging p b es written k n w st) (hb : b.Filled p) {i : ℕ}
    (hi : i < k) : st.cells.getD i p.zero = b.get p i := by
  have h1 := h.le_write
  have h2 := h.block_le
  have hlive := hb.length_live
  have hlen : b.cells.length = p.blockSize := hb.length_cells
  have hsize := hb.size_le
  rw [h.cells_eq, List.getD_eq_getElem?_getD, List.getElem?_append_left (by
    rw [List.length_take]; omega), List.getElem?_take_of_lt (by omega), get,
    List.getD_eq_getElem?_getD]

/-- Everything that has been written is above the elements that are left in the block. -/
lemma Merging.lt_written (h : Merging p b es written k n w st) (hb : b.Filled p) :
    ∀ x ∈ b.live.take k, ∀ z ∈ written, p.keyOf x < p.keyOf z := by
  intro x hx z hz
  rcases h.union.mem_cases z hz with hz | hz
  · have hord := hb.increasing
    rw [← List.take_append_drop k b.live] at hord
    exact Ordered.lt hord x hx z hz
  · exact h.old_lt x hx z hz

section Steps

variable (hb : b.Filled p) (hroom : b.size + es.length ≤ p.blockSize)
  (hsigned : p.blockSize ≤ 2 ^ 15)
include hb hroom

include hsigned in
/-- What a write does while there is something left to be written. -/
lemma Merging.write_eq (h : Merging p b es written k n w st) (hpos : 0 < k + n) (e : α) :
    st.write p e =
      { st with
        cells := b.cells.take (w - 1) ++ (e :: written ++ b.cells.drop (b.size + es.length))
        writeIndex := ((w - 1 : ℕ) : ℤ) - 1
        numberOfWrites := (e :: written).length
        lastWrittenKey := p.keyOf e } := by
  have hle := h.le_write
  have hadd := h.write_add
  have hcount := h.numberOfWrites_eq
  rw [MergeFasterState.write_eq h.writeIndex_eq (by omega) (by omega) (by omega), h.cells_eq,
    set_take_append e (by omega) (by rw [hb.length_cells]; omega), h.numberOfWrites_eq,
    List.length_cons, List.cons_append]

/-- The next elements of the batch, from `m` on, have one key, and that key is above the elements
that are left in the block: the first one of them is written, or the key has been written before. -/
lemma Merging.takeFromBatch (h : Merging p b es written k n w st)
    (hsigned : p.blockSize ≤ 2 ^ 15) (hsorted : NonDecreasing p es)
    (hnull : ∀ x ∈ es, p.keyOf x ≠ p.nullKey) {m : ℕ} (hm : m < n)
    (hsame : ∀ j, m ≤ j → j < n → p.keyOf (es.getD j p.zero) = p.keyOf (es.getD m p.zero))
    (hlt : ∀ x ∈ b.live.take k, p.keyOf x < p.keyOf (es.getD m p.zero)) :
    (p.keyOf (es.getD m p.zero) ≠ st.lastWrittenKey →
      Merging p b es (es.getD m p.zero :: written) k m (w - 1)
        { st.write p (es.getD m p.zero) with batchEnd := (m : ℤ) - 1 }) ∧
    (p.keyOf (es.getD m p.zero) = st.lastWrittenKey →
      Merging p b es written k m w { st with batchEnd := (m : ℤ) - 1 }) := by
  have hbatch := h.batch_le
  have hget : ∀ j (hj : j < es.length), es.getD j p.zero = es[j] := by
    intro j hj
    rw [List.getD_eq_getElem?_getD, List.getElem?_eq_getElem hj, Option.getD_some]
  have hdrop : es.drop m = (es.take n).drop m ++ es.drop n := by
    conv_lhs => rw [← List.take_append_drop n es]
    rw [List.drop_append_of_le_length (by rw [List.length_take]; omega)]
  have hkeys : ∀ z ∈ (es.take n).drop m, p.keyOf z = p.keyOf (es.getD m p.zero) := by
    intro z hz
    obtain ⟨j, hj, rfl⟩ := List.mem_iff_getElem.mp hz
    rw [List.length_drop, List.length_take] at hj
    rw [List.getElem_drop, List.getElem_take, ← hget _ (by omega)]
    exact hsame _ (Nat.le_add_right _ _) (by omega)
  have hmem : es.getD m p.zero ∈ (es.take n).drop m := by
    refine List.mem_iff_getElem.mpr ⟨0, by rw [List.length_drop, List.length_take]; omega, ?_⟩
    rw [List.getElem_drop, List.getElem_take, hget m (by omega)]
    rfl
  generalize es.getD m p.zero = y at *
  have hmem' : y ∈ es.take n := List.mem_of_mem_drop hmem
  have hy : y ∈ es := List.take_subset _ _ hmem'
  have hord := hsorted
  rw [← List.take_append_drop n es] at hord
  have hord := (List.pairwise_append.mp hord).2.2
  -- what has been written is not below `y`
  have hge : ∀ z ∈ written, p.keyOf y ≤ p.keyOf z := by
    intro z hz
    rcases h.union.mem_cases z hz with hz | hz
    · exact h.new_le y hmem' z hz
    · exact hord y hmem' z hz
  have hold : ∀ x ∈ b.live.take k, ∀ z ∈ es.drop m, p.keyOf x < p.keyOf z := by
    intro x hx z hz
    rw [hdrop] at hz
    rcases List.mem_append.mp hz with hz | hz
    · rw [hkeys z hz]
      exact hlt x hx
    · exact h.old_lt x hx z hz
  have hnew : ∀ z ∈ es.take m, ∀ x ∈ b.live.drop k, p.keyOf z ≤ p.keyOf x := by
    intro z hz
    refine h.new_le z ?_
    rw [← Nat.min_eq_left hm.le, ← List.take_take] at hz
    exact List.mem_of_mem_take hz
  have hle := h.le_write
  have hadd := h.write_add
  constructor
  · intro hne
    rw [h.write_eq hb hroom hsigned (by omega) y]
    refine ⟨h.blockEnd_eq, rfl, rfl, h.block_le, by omega, by omega, ?_, rfl, rfl, ?_, rfl, hold,
      hnew⟩
    · rw [List.length_cons]
      omega
    · rw [hdrop]
      refine h.union.cons_new (fun z hz => ?_) hmem hkeys
      refine lt_of_le_of_ne (hge z hz) fun heq => hne ?_
      -- an element with the key of `y` is the one written last
      cases hwr : written with
      | nil =>
          rw [hwr] at hz
          exact absurd hz List.not_mem_nil
      | cons z₀ rest =>
          rw [h.last_eq, hwr]
          simp only [List.head?_cons, Option.map_some, Option.getD_some]
          refine le_antisymm (hge z₀ (by rw [hwr]; exact List.mem_cons_self)) ?_
          have hincr := h.union.ordered
          rw [hwr] at hz hincr
          rw [heq]
          rcases List.mem_cons.mp hz with rfl | hz
          · exact le_refl _
          · exact ((List.pairwise_cons.mp hincr).1 z hz).le
  · intro heq
    refine ⟨h.blockEnd_eq, rfl, h.writeIndex_eq, h.block_le, by omega, by omega, hadd,
      h.numberOfWrites_eq, h.cells_eq, ?_, h.last_eq, hold, hnew⟩
    rw [hdrop]
    refine h.union.append_present fun z hz => ?_
    rw [hkeys z hz]
    rw [h.last_eq] at heq
    cases hwr : written with
    | nil =>
        rw [hwr] at heq
        exact absurd heq (hnull y hy)
    | cons z₀ rest =>
        rw [hwr] at heq
        exact ⟨z₀, List.mem_cons_self, heq.symm⟩

include hsigned in
/-- The next element of the block is not below the next one of the batch. -/
lemma Merging.takeFromBlock (h : Merging p b es written k n w st) (hpos : 0 < k)
    (hle : ∀ y ∈ es.take n, p.keyOf y ≤ p.keyOf (b.get p (k - 1))) :
    p.keyOf (b.get p (k - 1)) ≠ st.lastWrittenKey ∧
      Merging p b es (b.get p (k - 1) :: written) (k - 1) n (w - 1)
        { st.write p (b.get p (k - 1)) with blockEnd := st.blockEnd - 1 } := by
  have hblock := h.block_le
  have hget := get_of_lt (p := p) (b := b) (i := k - 1) (by omega)
  have hdrop : b.live.drop (k - 1) = b.get p (k - 1) :: b.live.drop k := by
    rw [hget, List.drop_eq_getElem_cons (by omega), Nat.sub_add_cancel hpos]
  have htake : b.live.take k = b.live.take (k - 1) ++ [b.get p (k - 1)] := by
    conv_lhs => rw [← Nat.sub_add_cancel hpos]
    rw [List.take_add_one, List.getElem?_eq_getElem (by omega), hget]
    rfl
  rw [h.write_eq hb hroom hsigned (by omega)]
  generalize b.get p (k - 1) = x at *
  have hmem : x ∈ b.live.take k := by
    rw [htake]
    exact List.mem_append_right _ (List.mem_singleton_self x)
  have hx : x ∈ b.live := List.take_subset _ _ hmem
  have hltw := h.lt_written hb x hmem
  have hadd := h.write_add
  have hwi := h.le_write
  have hend := h.blockEnd_eq
  refine ⟨?_, ⟨?_, h.batchEnd_eq, rfl, by omega, h.batch_le, by omega, ?_, rfl, rfl, ?_, rfl,
    ?_, ?_⟩⟩
  · rw [h.last_eq]
    cases hwr : written with
    | nil => exact hb.key_ne_null x hx
    | cons z₀ rest =>
        simp only [List.head?_cons, Option.map_some, Option.getD_some]
        exact (hltw z₀ (by rw [hwr]; exact List.mem_cons_self)).ne
  · change st.blockEnd - 1 = ((k - 1 : ℕ) : ℤ) - 1
    omega
  · rw [List.length_cons]
    omega
  · rw [hdrop]
    exact h.union.cons_old hltw
  · intro x' hx' y hy
    exact h.old_lt x' (by rw [htake]; exact List.mem_append_left _ hx') y hy
  · intro y hy x' hx'
    rw [hdrop] at hx'
    rcases List.mem_cons.mp hx' with rfl | hx'
    · exact hle y hy
    · exact h.new_le y hy x' hx'

end Steps

omit [LinearOrder K] in
/-- The last one of the first elements of a sorted list is the largest. -/
lemma key_le_last [LinearOrder K] {l : List α} (hsorted : NonDecreasing p l) {i : ℕ} (hpos : 0 < i)
    (hi : i ≤ l.length) : ∀ x ∈ l.take i, p.keyOf x ≤ p.keyOf (l.getD (i - 1) p.zero) := by
  intro x hx
  obtain ⟨j, hj, rfl⟩ := List.mem_iff_getElem.mp hx
  rw [List.length_take] at hj
  rw [List.getElem_take, List.getD_eq_getElem?_getD, List.getElem?_eq_getElem (by omega),
    Option.getD_some]
  rcases Nat.eq_or_lt_of_le (show j ≤ i - 1 by omega) with heq | hlt
  · subst heq
    exact le_refl _
  · exact List.pairwise_iff_getElem.mp hsorted j (i - 1) _ _ hlt

section Loops

variable (hb : b.Filled p) (hroom : b.size + es.length ≤ p.blockSize)
  (hsigned : p.blockSize ≤ 2 ^ 15) (hsorted : NonDecreasing p es)
  (hnull : ∀ x ∈ es, p.keyOf x ≠ p.nullKey)
include hb hroom hsigned

omit hroom in
/-- The element of the block that is read next. -/
lemma Merging.getD_blockEnd (h : Merging p b es written k n w st) (hpos : 0 < k) :
    st.cells.getD (toUnsigned st.blockEnd) p.zero = b.get p (k - 1) := by
  have hblock := h.block_le
  have hlive := hb.length_live
  have hsize := hb.size_le
  rw [h.blockEnd_eq, toUnsigned_pred hpos (by omega)]
  exact h.cell hb (by omega)

omit hb hroom hsigned in
/-- The position in the batch that is read next. -/
lemma Merging.toNat_batchEnd (h : Merging p b es written k n w st) :
    st.batchEnd.toNat = n - 1 := by
  rw [h.batchEnd_eq]
  omega

include hsorted hnull

/-- One iteration of the first loop uses up at least one element. -/
lemma Merging.step (h : Merging p b es written k n w st) (hpos : 0 < k) (hpos' : 0 < n) :
    ∃ written' k' n' w', Merging p b es written' k' n' w' (st.step p es) ∧ k' + n' < k + n := by
  have hbatch := h.batch_le
  have hlast : ∀ x ∈ b.live.take k, p.keyOf x ≤ p.keyOf (b.get p (k - 1)) := by
    have hl := key_le_last (p := p) hb.increasing.nonDecreasing hpos h.block_le
    have hblock := h.block_le
    have hlive := hb.length_live
    rwa [List.getD_eq_getElem?_getD, hb.getElem?_live (by omega), Option.getD_some] at hl
  obtain ⟨hle, hsame⟩ := firstOccurrence_spec (p := p) es (n - 1)
  simp only [MergeFasterState.step]
  rw [h.getD_blockEnd hb hsigned hpos, h.toNat_batchEnd]
  split
  · rename_i hlt
    split
    · rename_i hne
      have hkey := hsame (n - 1) hle (le_refl _)
      refine ⟨_, k, firstOccurrence p es (n - 1), _, (h.takeFromBatch hb hroom hsigned hsorted hnull
        (by omega) (fun j h1 h2 => hsame j h1 (by omega)) fun x hx => ?_).1 (by rwa [← hkey]),
        by omega⟩
      rw [← hkey]
      exact lt_of_le_of_lt (hlast x hx) hlt
    · rename_i heq
      have hindex : st.batchEnd - 1 = ((n - 1 : ℕ) : ℤ) - 1 := by
        rw [h.batchEnd_eq]
        omega
      rw [hindex]
      refine ⟨_, k, n - 1, _, (h.takeFromBatch hb hroom hsigned hsorted hnull (by omega)
        (fun j h1 h2 => ?_) fun x hx => lt_of_le_of_lt (hlast x hx) hlt).2 (not_not.mp heq),
        by omega⟩
      rw [show j = n - 1 by omega]
  · rename_i hge
    obtain ⟨hne, h'⟩ := h.takeFromBlock hb hroom hsigned hpos fun y hy =>
      le_trans (key_le_last hsorted hpos' h.batch_le y hy) (not_lt.mp hge)
    rw [if_pos hne]
    exact ⟨_, k - 1, n, _, h', by omega⟩

/-- The first loop. -/
lemma Merging.loop :
    ∀ (m : ℕ) {st : MergeFasterState K α} {written : List α} {k n w : ℕ},
      Merging p b es written k n w st → k + n ≤ m →
      ∃ written' k' n' w', Merging p b es written' k' n' w' (MergeFasterState.loop p es m st) ∧
        (k' = 0 ∨ n' = 0)
  | 0, st, written, k, n, w, h, hm => ⟨written, k, n, w, h, Or.inl (by omega)⟩
  | m + 1, st, written, k, n, w, h, hm => by
      rw [MergeFasterState.loop, h.blockEnd_eq, h.batchEnd_eq]
      split
      · rename_i hpos
        obtain ⟨_, _, _, _, h', hused⟩ :=
          h.step hb hroom hsigned hsorted hnull (by omega) (by omega)
        exact Merging.loop m h' (by omega)
      · rename_i hpos
        exact ⟨written, k, n, w, h, by omega⟩

/-- One iteration of the second loop. -/
lemma Merging.restStep (h : Merging p b es written 0 n w st) (hpos : 0 < n) :
    ∃ written' w', Merging p b es written' 0 (n - 1) w' (st.restStep p es) := by
  obtain ⟨hwrite, hskip⟩ := h.takeFromBatch hb hroom hsigned hsorted hnull
    (show n - 1 < n by omega) (fun j h1 h2 => by rw [show j = n - 1 by omega])
    fun x hx => absurd hx List.not_mem_nil
  have hindex : st.batchEnd - 1 = ((n - 1 : ℕ) : ℤ) - 1 := by
    rw [h.batchEnd_eq]
    omega
  simp only [MergeFasterState.restStep]
  rw [h.toNat_batchEnd, hindex]
  split
  · rename_i hne
    exact ⟨_, _, hwrite hne⟩
  · rename_i heq
    exact ⟨_, _, hskip (not_not.mp heq)⟩

/-- The second loop. -/
lemma Merging.restLoop :
    ∀ (m : ℕ) {st : MergeFasterState K α} {written : List α} {k n w : ℕ},
      Merging p b es written k n w st → n ≤ m → (k = 0 ∨ n = 0) →
      ∃ written' k' w', Merging p b es written' k' 0 w' (MergeFasterState.restLoop p es m st)
  | 0, st, written, k, n, w, h, hm, _ => by
      obtain rfl : n = 0 := by omega
      exact ⟨written, k, w, h⟩
  | m + 1, st, written, k, n, w, h, hm, hend => by
      rw [MergeFasterState.restLoop, h.batchEnd_eq]
      split
      · rename_i hpos
        obtain rfl : k = 0 := by omega
        obtain ⟨_, _, h'⟩ := h.restStep hb hroom hsigned hsorted hnull (by omega)
        exact Merging.restLoop m h' (by omega) (Or.inl rfl)
      · rename_i hpos
        obtain rfl : n = 0 := by omega
        exact ⟨written, k, w, h⟩

omit hsorted hnull in
/-- What `mergeFaster` starts with. -/
lemma Merging.start : Merging p b es [] b.size es.length (b.size + es.length)
    (b.mergeFasterStart p es) := by
  have hlive := hb.length_live
  have hsize := hb.size_le
  have htotal := toSigned_of_lt (n := b.size + es.length) (by omega)
  push_cast at htotal
  refine ⟨toSigned_of_lt (by omega), toSigned_of_lt (by omega), htotal, hlive.ge, le_refl _,
    le_refl _, rfl, rfl, ?_, ?_, rfl, ?_, ?_⟩
  · rw [List.nil_append, List.take_append_drop]
    rfl
  · rw [← hlive, List.drop_length, List.drop_length]
    exact ⟨List.Pairwise.nil, fun x hx => hx, fun x hx => Or.inl hx, fun x hx => ⟨x, hx, rfl⟩⟩
  · intro x _ y hy
    rw [List.drop_length] at hy
    exact absurd hy List.not_mem_nil
  · intro y _ x hx
    rw [← hlive, List.drop_length] at hx
    exact absurd hx List.not_mem_nil

/-- Behind the two loops the batch has been read. -/
lemma Merging.finish :
    ∃ written k w, Merging p b es written k 0 w (b.mergeFasterEnd p es) := by
  obtain ⟨_, _, _, _, h₁, hend⟩ := Merging.loop hb hroom hsigned hsorted hnull
    (b.size + es.length) (Merging.start hb hroom hsigned) (le_refl _)
  exact Merging.restLoop hb hroom hsigned hsorted hnull es.length h₁ h₁.batch_le hend

end Loops

section Finish

variable (h : Merging p b es written k n w st) (hb : b.Filled p)
  (hroom : b.size + es.length ≤ p.blockSize) (hsigned : p.blockSize ≤ 2 ^ 15)
include h hb hroom hsigned

omit hroom in
/-- Nothing in front of the written part has the key that was written last. -/
lemma Merging.duplicate_eq : st.duplicate p = false := by
  rw [duplicate, decide_eq_false_iff_not]
  rintro ⟨hend, heq⟩
  have hblock := h.block_le
  have hpos : 0 < k := by
    have := h.blockEnd_eq
    omega
  rw [h.getD_blockEnd hb hsigned hpos, h.last_eq] at heq
  have hget := get_of_lt (p := p) (b := b) (i := k - 1) (by omega)
  have hin : b.get p (k - 1) ∈ b.live.take k := by
    rw [hget]
    exact List.mem_take_iff_getElem.mpr ⟨k - 1, by omega, rfl⟩
  cases hwr : written with
  | nil =>
      rw [hwr] at heq
      exact hb.key_ne_null _ (List.take_subset _ _ hin) heq
  | cons z₀ rest =>
      rw [hwr] at heq
      exact absurd heq (h.lt_written hb _ hin z₀ (by rw [hwr]; exact List.mem_cons_self)).ne

omit hroom in
lemma Merging.emptyRegionStart_eq : st.emptyRegionStart p = k := by
  have hblock := h.block_le
  have hlive := hb.length_live
  have hindex : st.blockEnd + 1 - (if st.duplicate p then 1 else 0) = (k : ℤ) := by
    rw [h.duplicate_eq hb hsigned, h.blockEnd_eq]
    simp
  rw [emptyRegionStart, hindex]
  exact toUnsigned_of_lt (by have := hb.size_le; omega)

omit hb in
/-- The gap between the part that is left in place and the written part. -/
lemma Merging.numberOfSkipped_eq : st.numberOfSkipped (b.size + es.length) = w - k := by
  have hle := h.le_write
  have hadd := h.write_add
  have hgap : ((b.size + es.length : ℕ) : ℤ) - (st.blockEnd + 1) - st.numberOfWrites =
      ((w - k : ℕ) : ℤ) := by
    rw [h.blockEnd_eq, h.numberOfWrites_eq]
    omega
  rw [numberOfSkipped, hgap]
  exact toUnsigned_of_lt (by omega)

lemma Merging.numberOfDuplicates_eq :
    st.numberOfDuplicates p (b.size + es.length) = w - k := by
  have hadd := h.write_add
  rw [numberOfDuplicates, h.duplicate_eq hb hsigned, h.numberOfSkipped_eq hroom hsigned]
  simp only [Bool.false_eq_true, if_false, add_zero]
  exact toUnsigned_of_lt (by omega)

lemma Merging.shiftedWriteIndex_eq :
    st.shiftedWriteIndex p (b.size + es.length) = (k : ℤ) - 1 := by
  have hle := h.le_write
  have hblock := h.block_le
  have hlive := hb.length_live
  have hsize := hb.size_le
  rw [shiftedWriteIndex, h.emptyRegionStart_eq hb hsigned,
    h.numberOfDuplicates_eq hb hroom hsigned, h.writeIndex_eq]
  split
  · have hindex : (w : ℤ) - 1 - ((w - k : ℕ) : ℤ) = (k : ℤ) - 1 := by omega
    rw [hindex]
    exact toSigned_of_lt (by omega)
  · omega

/-- What `mergeFaster` leaves in the cells: in front of the write index the old elements, then the
written ones. -/
lemma Merging.shiftForward_eq : st.shiftForward p (b.size + es.length) = b.cells.take k ++
    (written ++ (((b.cells.take w).drop k ++ written).drop written.length ++
      b.cells.drop (b.size + es.length))) := by
  have hw := h.le_write
  have hadd := h.write_add
  have hn := h.numberOfWrites_eq
  have hblock := h.block_le
  have hlive := hb.length_live
  have hlen := hb.length_cells
  have hsize := hb.size_le
  have hfront : (b.cells.take w).take k = b.cells.take k := by
    rw [List.take_take, Nat.min_eq_left (by omega)]
  have hcells : st.cells = b.cells.take k ++
      ((b.cells.take w).drop k ++ written ++ b.cells.drop (b.size + es.length)) := by
    rw [h.cells_eq, List.append_assoc, ← List.append_assoc (b.cells.take k), ← hfront,
      List.take_append_drop]
  rw [shiftForward, h.numberOfDuplicates_eq hb hroom hsigned,
    h.emptyRegionStart_eq hb hsigned]
  split
  · -- the gap is as long as the number of elements that were not written
    rename_i hgap
    have hlenGap : ((b.cells.take w).drop k).length = w - k := by
      rw [List.length_drop, List.length_take]
      omega
    have hlenFront : (b.cells.take k).length = k := by
      rw [List.length_take]
      omega
    have hmove := foldl_set_forward (b.cells.take k) ((b.cells.take w).drop k) written
      (b.cells.drop (b.size + es.length)) p.zero written.length (le_refl _)
    rw [hlenFront, hlenGap, ← hcells, List.take_length] at hmove
    rw [← hmove, hn]
    refine List.foldl_ext _ _ _ fun cells i hi => ?_
    have hi := List.mem_range.mp hi
    rw [toUnsigned_of_lt (by omega)]
  · rename_i hgap
    have hnil : (b.cells.take w).drop k = [] := by
      rw [List.drop_eq_nil_iff, List.length_take]
      omega
    rw [hcells, hnil, List.nil_append, List.drop_length, List.nil_append]

end Finish

end MergeFasterState

/-- The block `b'` is `b` with the elements `es`, which may have equal keys; dead cells may hold
copies of live elements. -/
structure HasMergedSorted (p : BlockParams K α) (b : PmaEntry K α) (es : List α)
    (b' : PmaEntry K α) : Prop where
  filled : b'.Filled p
  union : IsKeyUnion p.keyOf b.live es b'.live
  dead : ∀ x ∈ b'.dead, x ∈ b.dead ∨ x ∈ b'.live

/-- The same for elements of different keys. -/
structure HasMergedFaster (p : BlockParams K α) (b : PmaEntry K α) (es : List α)
    (b' : PmaEntry K α) : Prop where
  filled : b'.Filled p
  union : IsUnion p.keyOf b.live es b'.live
  dead : ∀ x ∈ b'.dead, x ∈ b.dead ∨ x ∈ b'.live

open MergeFasterState in
/-- **`mergeFaster`**, also for elements of equal keys. -/
theorem Filled.mergeFaster_sorted (hb : b.Filled p) (hsigned : p.blockSize ≤ 2 ^ 15)
    (hroom : b.size + es.length ≤ p.blockSize) (hsorted : NonDecreasing p es)
    (hnull : ∀ x ∈ es, p.keyOf x ≠ p.nullKey) : HasMergedSorted p b es (b.mergeFaster p es) := by
  have hlive := hb.length_live
  have hlen := hb.length_cells
  obtain ⟨written, k, w, h⟩ := Merging.finish hb hroom hsigned hsorted hnull
  rw [mergeFaster]
  generalize b.mergeFasterEnd p es = st at *
  have hw := h.le_write
  have hadd := h.write_add
  have hblock := h.block_le
  have hshift := h.shiftForward_eq hb hroom hsigned
  have hsize : toUnsigned ((b.size + es.length : ℕ) - ((w - k : ℕ) : ℤ)) = k + written.length := by
    have hcount : ((b.size + es.length : ℕ) : ℤ) - ((w - k : ℕ) : ℤ) =
        ((k + written.length : ℕ) : ℤ) := by omega
    rw [hcount]
    exact toUnsigned_of_lt (by omega)
  rw [h.shiftedWriteIndex_eq hb hroom hsigned, h.numberOfDuplicates_eq hb hroom hsigned, hsize]
  have hlenFront : (b.cells.take k).length = k := by
    have := hb.size_le
    rw [List.length_take]
    omega
  have hfront : b.cells.take k = b.live.take k := by
    rw [live, List.take_take, Nat.min_eq_left (by omega)]
  have hunion : IsKeyUnion p.keyOf b.live es (b.cells.take k ++ written) := by
    have hord := hb.increasing
    rw [← List.take_append_drop k b.live] at hord
    have hu := h.union
    rw [List.drop_zero] at hu
    have happ := hu.append_old (Ordered.left hord) (h.lt_written hb)
    rwa [List.take_append_drop, ← hfront] at happ
  -- the two cases differ in the head only
  have hspec : ∀ head, (0 < k + written.length →
      head = p.keyOf ((b.cells.take k ++ written).getD 0 p.zero)) →
      HasMergedSorted p b es
        ⟨some (st.shiftForward p (b.size + es.length)), head, k + written.length⟩ := by
    intro head hhead
    have hcells := hshift
    rw [← List.append_assoc] at hcells
    have hfrontLen : (b.cells.take k ++ written).length = k + written.length := by
      rw [List.length_append, hlenFront]
    have hl : (⟨some (st.shiftForward p (b.size + es.length)), head,
        k + written.length⟩ : PmaEntry K α).live =
          b.cells.take k ++ written := by
      rw [live, cells, Option.getD_some, hcells, ← hfrontLen, List.take_left]
    have hd : (⟨some (st.shiftForward p (b.size + es.length)), head,
        k + written.length⟩ : PmaEntry K α).dead =
          ((b.cells.take w).drop k ++ written).drop written.length ++
            b.cells.drop (b.size + es.length) := by
      rw [dead, cells, Option.getD_some, hcells, ← hfrontLen, List.drop_left]
    refine ⟨⟨?_, ?_, ?_, ?_, ?_⟩, by rw [hl]; exact hunion, fun x hx => ?_⟩
    · rw [cells, Option.getD_some, hshift]
      simp only [List.length_append, List.length_take, List.length_drop]
      have := hb.size_le
      omega
    · simp only
      omega
    · intro hpos
      change head = p.keyOf ((st.shiftForward p (b.size + es.length)).getD 0 p.zero)
      rw [hcells, getD_zero_append (by rw [hfrontLen]; exact hpos)]
      exact hhead hpos
    · rw [hl]
      exact hunion.ordered
    · intro x hx
      rw [hl] at hx
      rcases hunion.mem_cases x hx with hx | hx
      · exact hb.key_ne_null x hx
      · exact hnull x hx
    · rw [hd] at hx
      rw [hl]
      have hdead : ∀ {n}, b.size ≤ n → b.cells.drop n ⊆ b.dead := by
        intro n hn x hx
        rw [← Nat.add_sub_cancel' hn, ← List.drop_drop] at hx
        exact List.mem_of_mem_drop hx
      rcases List.mem_append.mp hx with hx | hx
      · rcases List.mem_append.mp (List.mem_of_mem_drop hx) with hx | hx
        · rw [List.drop_take] at hx
          have hx := List.mem_of_mem_take hx
          rw [← live_append_dead, List.drop_append_of_le_length hblock] at hx
          rcases List.mem_append.mp hx with hx | hx
          · exact Or.inr (hunion.mem_old x (List.mem_of_mem_drop hx))
          · exact Or.inl hx
        · exact Or.inr (List.mem_append_right _ hx)
      · exact Or.inl (hdead (by omega) hx)
  split
  · rename_i h0
    refine hspec _ fun hpos => ?_
    change p.keyOf ((st.shiftForward p (b.size + es.length)).getD 0 p.zero) = _
    rw [hshift, ← List.append_assoc,
      getD_zero_append (by rw [List.length_append, hlenFront]; exact hpos)]
  · rename_i h0
    refine hspec b.head fun _ => ?_
    rw [hb.head_eq (by omega), get, getD_zero_append (by omega)]
    simp only [List.getD_eq_getElem?_getD]
    rw [List.getElem?_take_of_lt (by omega)]

/-- **`mergeFaster`.** -/
theorem Filled.mergeFaster_spec (hb : b.Filled p) (hsigned : p.blockSize ≤ 2 ^ 15)
    (hroom : b.size + es.length ≤ p.blockSize) (hinc : Increasing p es)
    (hnull : ∀ x ∈ es, p.keyOf x ≠ p.nullKey) : HasMergedFaster p b es (b.mergeFaster p es) :=
  have h := hb.mergeFaster_sorted hsigned hroom hinc.nonDecreasing hnull
  ⟨h.filled, h.union.isUnion hinc, h.dead⟩

/-! ## Blocks that are too long

In a block of more than `2 ^ 15` elements `size - 1` is negative as a signed index.  The first loop
ends at once, and the second one writes in front of the block. -/

section Long

variable (hlong : 2 ^ 15 < b.size) (hroom : b.size + es.length < 2 ^ 16)
  (hinc : Increasing p es) (hnull : ∀ x ∈ es, p.keyOf x ≠ p.nullKey)

namespace MergeFasterState

/-- The second loop, with `n` elements of the batch left: `cells` does not change. -/
lemma restLoop_long (cells : List α) (blockEnd : ℤ) {size : ℕ} (hlong : 2 ^ 15 < size)
    (hroom : size + es.length < 2 ^ 16) (hinc : Increasing p es)
    (hnull : ∀ x ∈ es, p.keyOf x ≠ p.nullKey) : ∀ n ≤ es.length,
    restLoop p es n ⟨cells, blockEnd, n - 1, size + n - 1 - 2 ^ 16, es.length - n,
        ((es.drop n).head?.map p.keyOf).getD p.nullKey⟩ =
      ⟨cells, blockEnd, -1, size - 1 - 2 ^ 16, es.length,
        (es.head?.map p.keyOf).getD p.nullKey⟩
  | 0, _ => by
      rw [restLoop, List.drop_zero, Nat.sub_zero]
      simp
  | n + 1, hn => by
      have hget : es.getD n p.zero = es[n] := by
        rw [List.getD_eq_getElem?_getD, List.getElem?_eq_getElem (by omega), Option.getD_some]
      -- the batch is increasing, so the next key is a new one
      have hne : p.keyOf es[n] ≠ ((es.drop (n + 1)).head?.map p.keyOf).getD p.nullKey := by
        rcases Nat.lt_or_ge (n + 1) es.length with hlt | hge
        · rw [List.head?_drop, List.getElem?_eq_getElem hlt, Option.map_some, Option.getD_some]
          exact (List.pairwise_iff_getElem.mp hinc n (n + 1) _ _ (Nat.lt_succ_self n)).ne
        · rw [List.drop_eq_nil_of_le hge]
          exact hnull _ (List.getElem_mem _)
      have hindex : ((n + 1 : ℕ) : ℤ) - 1 = n := by omega
      have hwrite : toSigned ((size : ℤ) + (n + 1 : ℕ) - 1 - 2 ^ 16 - 1) =
          size + n - 1 - 2 ^ 16 := by
        rw [toSigned, Int.bmod_def]
        omega
      have hcount : toUnsigned (((es.length - (n + 1) : ℕ) : ℤ) + 1) = es.length - n := by
        have hsucc : ((es.length - (n + 1) : ℕ) : ℤ) + 1 = ((es.length - n : ℕ) : ℤ) := by omega
        rw [hsucc]
        exact toUnsigned_of_lt (by omega)
      rw [restLoop, if_pos (by simp only; omega), restStep]
      simp only [hindex, Int.toNat_natCast]
      rw [hget, if_pos hne, write, if_neg (by simp only; omega)]
      simp only
      rw [hwrite, hcount]
      have ih := restLoop_long cells blockEnd hlong hroom hinc hnull n (by omega)
      rw [List.head?_drop, List.getElem?_eq_getElem (by omega), Option.map_some,
        Option.getD_some] at ih
      exact ih

end MergeFasterState

include hlong hroom hinc hnull

/-- All new elements are lost, and the size counts them. -/
theorem mergeFaster_long (hblock : b.isEmpty = false) :
    b.mergeFaster p es = { b with size := b.size + es.length } := by
  have hstart : b.mergeFasterStart p es = ⟨b.cells, b.size - 1 - 2 ^ 16, es.length - 1,
      b.size + es.length - 1 - 2 ^ 16, 0, p.nullKey⟩ := by
    rw [mergeFasterStart]
    congr 1
    · rw [toSigned, Int.bmod_def]
      omega
    · exact MergeFasterState.toSigned_of_lt (by omega)
    · rw [toSigned, Int.bmod_def]
      omega
  have hloop : ∀ n (st : MergeFasterState K α), st.blockEnd < 0 →
      MergeFasterState.loop p es n st = st := by
    intro n st hneg
    cases n with
    | zero => rfl
    | succ n => rw [MergeFasterState.loop, if_neg (by omega)]
  have hrest := MergeFasterState.restLoop_long b.cells (b.size - 1 - 2 ^ 16) hlong hroom hinc hnull
    es.length (le_refl _)
  rw [List.drop_length, Nat.sub_self] at hrest
  have hend : b.mergeFasterEnd p es = ⟨b.cells, b.size - 1 - 2 ^ 16, -1, b.size - 1 - 2 ^ 16,
      es.length, (es.head?.map p.keyOf).getD p.nullKey⟩ := by
    rw [mergeFasterEnd, hstart, hloop _ _ (by simp only; omega)]
    exact hrest
  have hdup : (b.mergeFasterEnd p es).duplicate p = false := by
    rw [hend, MergeFasterState.duplicate, decide_eq_false_iff_not]
    simp only
    omega
  have hnone : (b.mergeFasterEnd p es).numberOfDuplicates p (b.size + es.length) = 0 := by
    rw [MergeFasterState.numberOfDuplicates, hdup, MergeFasterState.numberOfSkipped, hend]
    simp only [toUnsigned]
    simp
    omega
  have hregion : (b.mergeFasterEnd p es).emptyRegionStart p = b.size := by
    rw [MergeFasterState.emptyRegionStart, hdup, hend, toUnsigned]
    simp
    omega
  have hsize : toUnsigned ((b.size + es.length : ℕ) - ((0 : ℕ) : ℤ)) = b.size + es.length := by
    rw [Nat.cast_zero, sub_zero]
    exact MergeFasterState.toUnsigned_of_lt hroom
  have hwrite : ¬ (b.mergeFasterEnd p es).shiftedWriteIndex p (b.size + es.length) + 1 = 0 := by
    rw [MergeFasterState.shiftedWriteIndex, hregion, hend, if_neg (by simp only; omega)]
    simp only
    omega
  have hcells : some b.cells = b.block := by
    cases hb : b.block with
    | none => simp [isEmpty, hb] at hblock
    | some c => rw [cells, hb, Option.getD_some]
  rw [mergeFaster]
  rw [if_neg hwrite, hnone, hsize, MergeFasterState.shiftForward, hnone, if_neg (lt_irrefl 0), hend,
    hcells]

end Long

end PmaEntry

end BatchPMA
