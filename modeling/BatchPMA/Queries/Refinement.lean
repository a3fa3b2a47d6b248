import BatchPMA.Model.State
import BatchPMA.Queries.SearchSpec

/-!
# Queries refine an ordered map

The content of an array is the list of its live elements, block by block.  In a valid state this
list is strictly increasing, so it is an ordered map, and every query is a function of it:
`remaining it` is the part of the content an iterator has still to visit, `advance` drops its
first element, and `lowerBound e` is the iterator whose remaining part is the keys from `e` on.
-/

namespace BatchPMA

variable {K α : Type}

namespace ArrayView

variable (v : ArrayView K α)

/-- The live elements of the cells from `b` on. -/
def contentFrom (b : ℕ) : List α := (List.range' b (v.size - b)).flatMap fun i => (v.pma i).live

/-- The live elements of `pma[0..size)`, read block by block. -/
def content : List α := (List.range v.size).flatMap fun i => (v.pma i).live

/-- What an iterator has still to visit. -/
def remaining (it : Iterator) : List α :=
  if v.size ≤ it.blockIndex then []
  else (v.pma it.blockIndex).live.drop it.elementIndex ++ v.contentFrom (it.blockIndex + 1)

/-- The iterator is at a live element. -/
def AtElement (it : Iterator) : Prop :=
  v.empty it.blockIndex = false ∧ it.elementIndex < v.blockSize it.blockIndex

/-- The iterator is at the element `x`. -/
def PointsAt (p : BlockParams K α) (it : Iterator) (x : α) : Prop :=
  v.AtElement it ∧ v.deref p it = x

variable {v}

lemma contentFrom_zero : v.contentFrom 0 = v.content := by
  simp [contentFrom, content, List.range_eq_range']

lemma contentFrom_of_le {b : ℕ} (h : v.size ≤ b) : v.contentFrom b = [] := by
  simp [contentFrom, Nat.sub_eq_zero_of_le h]

lemma contentFrom_succ {b : ℕ} (h : b < v.size) :
    v.contentFrom b = (v.pma b).live ++ v.contentFrom (b + 1) := by
  rw [contentFrom, show v.size - b = (v.size - (b + 1)) + 1 by omega, List.range'_succ,
    List.flatMap_cons]
  rfl

lemma mem_content {x : α} : x ∈ v.content ↔ ∃ i, i < v.size ∧ x ∈ (v.pma i).live := by
  simp [content]

lemma remaining_last : v.remaining v.last = [] := by simp [remaining, last]

variable [LinearOrder K] {p : BlockParams K α}

lemma Valid.live_eq_nil (h : v.Valid p) {i : ℕ} (hi : i < v.size) (he : v.empty i = true) :
    (v.pma i).live = [] := by
  have hnull := ((h.empty_iff i).mp he).resolve_left (by omega)
  rw [hnull, PmaEntry.live_null]

/-- A block that holds an element is not empty. -/
lemma Valid.empty_of_mem (h : v.Valid p) {i : ℕ} (hi : i < v.size) {x : α}
    (hx : x ∈ (v.pma i).live) : v.empty i = false := by
  cases he : v.empty i with
  | false => rfl
  | true => rw [h.live_eq_nil hi he] at hx; simp at hx

/-- Skipping empty cells skips no element. -/
lemma Valid.contentFrom_skipEmpty (h : v.Valid p) (b : ℕ) :
    v.contentFrom (v.skipEmpty b v.size) = v.contentFrom b := by
  by_cases hb : v.size ≤ b
  · rw [contentFrom_of_le hb, contentFrom_of_le (le_trans hb (v.le_skipEmpty b v.size))]
  · have hskip : ∀ n, b + n ≤ v.skipEmpty b v.size → v.contentFrom (b + n) = v.contentFrom b := by
      intro n
      induction n with
      | zero => intro _; rfl
      | succ n ih =>
          intro hn
          have hlt : b + n < v.size := by
            have := v.skipEmpty_le (show b ≤ v.size by omega)
            omega
          rw [← ih (by omega), contentFrom_succ hlt,
            h.live_eq_nil hlt (skipEmpty_skipped v.size (show b ≤ b + n by omega) (by omega)),
            List.nil_append]
          rfl
    have hle := v.le_skipEmpty b v.size
    have := hskip (v.skipEmpty b v.size - b) (by omega)
    rwa [Nat.add_sub_cancel' hle] at this

lemma Valid.increasing_content (h : v.Valid p) : Increasing p v.content := by
  rw [Increasing, content, List.pairwise_flatMap]
  constructor
  · intro i hi
    have hi' := List.mem_range.mp hi
    cases he : v.empty i with
    | true => rw [h.live_eq_nil hi' he]; exact List.Pairwise.nil
    | false => exact (h.entry i he).increasing
  · refine List.Pairwise.imp_of_mem ?_ List.pairwise_lt_range
    intro i j hi hj hij x hx y hy
    exact h.ordered i j hij (h.empty_of_mem (List.mem_range.mp hi) hx)
      (h.empty_of_mem (List.mem_range.mp hj) hy) x hx y hy

/-! ## Iteration -/

/-- The first position behind a run of empty cells has the rest of the content in front of it. -/
lemma Valid.remaining_skipEmpty (h : v.Valid p) (b : ℕ) (hb : b ≤ v.size) :
    v.remaining ⟨v.skipEmpty b v.size, 0⟩ = v.contentFrom b ∧
      (v.AtElement ⟨v.skipEmpty b v.size, 0⟩ ∨ (⟨v.skipEmpty b v.size, 0⟩ : Iterator) = v.last) := by
  rw [← h.contentFrom_skipEmpty b]
  have hle := v.skipEmpty_le hb
  rcases Nat.eq_or_lt_of_le hle with heq | hlt
  · rw [heq, contentFrom_of_le (le_refl _)]
    exact ⟨remaining_last, Or.inr rfl⟩
  · have hne := skipEmpty_stop hlt
    refine ⟨?_, Or.inl ⟨hne, (h.entry _ hne).size_pos⟩⟩
    rw [remaining, if_neg (by simpa using hlt), contentFrom_succ hlt, List.drop_zero]

/-- **One step of the iterator** visits the first remaining element and leaves the others. -/
lemma Valid.remaining_advance (h : v.Valid p) {it : Iterator} (hit : v.AtElement it) :
    v.remaining it = v.deref p it :: v.remaining (v.advance it) ∧
      (v.AtElement (v.advance it) ∨ v.advance it = v.last) := by
  obtain ⟨hne, hlt⟩ := hit
  have hentry := h.entry _ hne
  have hsize := h.lt_size hne
  have hlive : it.elementIndex < (v.pma it.blockIndex).live.length := by
    rw [hentry.length_live]; exact hlt
  have hcons : (v.pma it.blockIndex).live.drop it.elementIndex
      = v.deref p it :: (v.pma it.blockIndex).live.drop (it.elementIndex + 1) := by
    rw [List.drop_eq_getElem_cons hlive, deref, PmaEntry.get_of_lt hlive]
  rw [remaining, if_neg (not_le.mpr hsize), hcons, List.cons_append, advance]
  by_cases hmore : it.elementIndex + 1 < v.blockSize it.blockIndex
  · rw [if_pos hmore]
    refine ⟨?_, Or.inl ⟨hne, hmore⟩⟩
    rw [remaining, if_neg (not_le.mpr hsize)]
  · -- the block is finished
    rw [if_neg hmore]
    obtain ⟨hrem, hpos⟩ := h.remaining_skipEmpty (it.blockIndex + 1) hsize
    refine ⟨?_, hpos⟩
    have hnil : (v.pma it.blockIndex).live.drop (it.elementIndex + 1) = [] := by
      rw [List.drop_eq_nil_iff, hentry.length_live]
      exact not_lt.mp hmore
    rw [hrem, hnil, List.nil_append]

/-- Iterating to the end visits what remains, in order and once each. -/
lemma Valid.iterate_eq (h : v.Valid p) : ∀ n it, (v.AtElement it ∨ it = v.last) →
    (v.remaining it).length < n → v.iterate p n it = some (v.remaining it)
  | 0, _, _, hn => by omega
  | n + 1, it, hpos, hn => by
      rw [iterate]
      rcases hpos with hat | rfl
      · have hne : it ≠ v.last := by
          rintro rfl
          exact absurd (h.lt_size hat.1) (by simp [last])
        obtain ⟨hrem, hpos'⟩ := h.remaining_advance hat
        rw [if_neg hne, h.iterate_eq n _ hpos' (by rw [hrem, List.length_cons] at hn; omega), hrem]
        rfl
      · rw [if_pos rfl, remaining_last]

lemma Valid.rangeLoop_eq (h : v.Valid p) (right : K) : ∀ n it, (v.AtElement it ∨ it = v.last) →
    (v.remaining it).length < n → v.rangeLoop p right n it
      = some ((v.remaining it).takeWhile fun x => decide (p.keyOf x < right))
  | 0, _, _, hn => by omega
  | n + 1, it, hpos, hn => by
      rw [rangeLoop]
      rcases hpos with hat | rfl
      · have hne : it ≠ v.last := by
          rintro rfl
          exact absurd (h.lt_size hat.1) (by simp [last])
        obtain ⟨hrem, hpos'⟩ := h.remaining_advance hat
        by_cases hlt : p.keyOf (v.deref p it) < right
        · rw [if_pos ⟨hne, hlt⟩, h.rangeLoop_eq right n _ hpos'
            (by rw [hrem, List.length_cons] at hn; omega), hrem]
          simp [hlt]
        · rw [if_neg (fun hc => hlt hc.2), hrem]
          simp [hlt]
      · rw [if_neg (fun hc => hc.1 rfl), remaining_last]
        rfl

lemma Valid.remaining_first (h : v.Valid p) :
    v.remaining v.first = v.content ∧ (v.AtElement v.first ∨ v.first = v.last) := by
  have hfirst : v.first = ⟨v.skipEmpty 0 v.size, 0⟩ := by
    rw [first]
    congr 1
    have hle := v.skipEmpty_le (Nat.zero_le v.size)
    refine Scan.scanUp_eq (Nat.zero_le _) (by omega) (fun i h1 h2 => ?_) (fun _ => ?_)
    · simp only [Bool.and_eq_true, decide_eq_true_eq]
      exact ⟨skipEmpty_skipped v.size h1 h2, by omega⟩
    · rcases Nat.eq_or_lt_of_le hle with heq | hlt
      · simp [heq]
      · simp [skipEmpty_stop hlt]
  rw [hfirst, ← contentFrom_zero]
  exact h.remaining_skipEmpty 0 (Nat.zero_le _)

/-! ## Lower bounds -/

/-- Blocks in front of the first block with head above `e` hold no key from `e` on, except the one
right in front of it. -/
lemma Valid.filter_content (h : v.Valid p) {e : K} {b : ℕ} (hb : b < v.size)
    (hbelow : ∀ j, j < b → ∀ x ∈ (v.pma j).live, p.keyOf x < e)
    (habove : ∀ j, b < j → v.empty j = false → e ≤ v.head j) :
    v.content.filter (fun x => decide (e ≤ p.keyOf x))
      = (v.pma b).live.filter (fun x => decide (e ≤ p.keyOf x)) ++ v.contentFrom (b + 1) := by
  have hsplit : v.content
      = ((List.range b).flatMap fun i => (v.pma i).live) ++ v.contentFrom b := by
    rw [content, contentFrom, ← List.flatMap_append]
    congr 1
    rw [List.range_eq_range', List.range_eq_range']
    have := @List.range'_append 0 b (v.size - b) 1
    simp only [Nat.zero_add, Nat.one_mul] at this
    rw [this]
    congr 1
    omega
  rw [hsplit, contentFrom_succ hb, List.filter_append, List.filter_append]
  have hnil : ((List.range b).flatMap fun i => (v.pma i).live).filter
      (fun x => decide (e ≤ p.keyOf x)) = [] := by
    rw [List.filter_eq_nil_iff]
    intro x hx
    obtain ⟨i, hi, hx'⟩ := List.mem_flatMap.mp hx
    simpa using hbelow i (List.mem_range.mp hi) x hx'
  have hself : (v.contentFrom (b + 1)).filter (fun x => decide (e ≤ p.keyOf x))
      = v.contentFrom (b + 1) := by
    rw [List.filter_eq_self]
    intro x hx
    obtain ⟨i, hi, hx'⟩ := List.mem_flatMap.mp hx
    rw [List.mem_range'_1] at hi
    have hne := h.empty_of_mem (by omega) hx'
    simpa using le_trans (habove i (by omega) hne) ((h.entry i hne).head_le hx')
  rw [hnil, hself, List.nil_append]

/-- Every element in front of a block is below its head. -/
lemma Valid.lt_head (h : v.Valid p) {i j : ℕ} (hij : i < j) (hj : v.empty j = false) {x : α}
    (hx : x ∈ (v.pma i).live) : p.keyOf x < v.head j := by
  obtain ⟨y, hy, hyk⟩ := (h.entry j hj).head_mem
  rw [head, ← hyk]
  exact h.ordered i j hij (h.empty_of_mem (lt_trans hij (h.lt_size hj)) hx) hj x hx y hy

/-- **`lowerBound e`** has exactly the elements with keys from `e` on in front of it. -/
theorem Valid.remaining_lowerBound (h : v.Valid p) (e : K) :
    v.remaining (v.lowerBound p e) = v.content.filter (fun x => decide (e ≤ p.keyOf x)) ∧
      (v.AtElement (v.lowerBound p e) ∨ v.lowerBound p e = v.last) := by
  rcases findBlockIndex_spec h e with ⟨hne, hle, habove⟩ | ⟨hall, hbefore, hbs, hbne⟩
  · have hb := h.lt_size hne
    have hentry := h.entry _ hne
    have hfilter := h.filter_content (e := e) hb
      (fun j hj x hx => lt_of_lt_of_le (h.lt_head hj hne hx) hle)
      (fun j hj hne' => le_of_lt (habove j hj hne'))
    rw [lowerBound]
    generalize v.findBlockIndex e = b at hne hle habove hb hentry hfilter
    rw [if_neg (not_le.mpr hb), hfilter, ← hentry.drop_findIndex]
    by_cases hlast : v.blockSize b ≤ (v.pma b).findIndex p e
    · -- every key of the block is below `e`
      rw [if_pos hlast]
      have hnil : (v.pma b).live.drop ((v.pma b).findIndex p e) = [] := by
        rw [List.drop_eq_nil_iff, hentry.length_live]
        exact hlast
      obtain ⟨hrem, hpos⟩ := h.remaining_skipEmpty (b + 1) hb
      rw [hnil, List.nil_append]
      dsimp only [findNext]
      by_cases hend : v.size ≤ v.skipEmpty (b + 1) v.size
      · rw [if_pos hend, ← hrem, remaining_last, remaining, if_pos hend]
        exact ⟨rfl, Or.inr rfl⟩
      · rw [if_neg hend]
        exact ⟨hrem, hpos⟩
    · rw [if_neg hlast]
      refine ⟨?_, Or.inl ⟨hne, not_le.mp hlast⟩⟩
      rw [remaining, if_neg (not_le.mpr hb)]
  · -- `e` is in front of the first head, if there is one
    have hall' : v.content.filter (fun x => decide (e ≤ p.keyOf x)) = v.content := by
      rw [List.filter_eq_self]
      intro x hx
      obtain ⟨i, hi, hx'⟩ := mem_content.mp hx
      have hne := h.empty_of_mem hi hx'
      simpa using le_of_lt (lt_of_lt_of_le (hall i hne) ((h.entry i hne).head_le hx'))
    have hcontent : v.contentFrom (v.findBlockIndex e) = v.content := by
      rw [← contentFrom_zero, ← h.contentFrom_skipEmpty 0]
      congr 1
      rw [skipEmpty]
      exact (Scan.scanUp_eq (Nat.zero_le _) (by omega) (fun i _ hi => hbefore i hi)
        (fun hlt => hbne (by omega))).symm
    rw [lowerBound, hall', ← hcontent]
    generalize v.findBlockIndex e = b at hbefore hbs hbne hcontent
    by_cases hend : v.size ≤ b
    · rw [if_pos hend, remaining_last, contentFrom_of_le hend]
      exact ⟨rfl, Or.inr rfl⟩
    · rw [if_neg hend]
      have hne := hbne (not_le.mp hend)
      have hentry := h.entry b hne
      have hzero : (v.pma b).findIndex p e = 0 := by
        by_contra hpos
        have := (hentry.lt_findIndex_iff (e := e) hentry.size_pos).mp (Nat.pos_of_ne_zero hpos)
        rw [← hentry.head_eq] at this
        exact absurd this (not_lt.mpr (le_of_lt (hall b hne)))
      have hsize : ¬ v.blockSize b ≤ 0 := not_le.mpr hentry.size_pos
      dsimp only
      rw [hzero, if_neg hsize]
      refine ⟨?_, Or.inl ⟨hne, hentry.size_pos⟩⟩
      rw [remaining, if_neg hend, List.drop_zero, contentFrom_succ (not_le.mp hend)]

/-! ## The ordered map -/

/-- Every query of the view is the corresponding operation of the ordered map `m`, a list that is
strictly increasing in key. -/
structure RefinesOrderedMap (p : BlockParams K α) (v : ArrayView K α) (m : List α) : Prop where
  increasing : Increasing p m
  contains_iff : ∀ e, v.contains p e = true ↔ ∃ x ∈ m, p.keyOf x = e
  find : ∀ e, (∃ x ∈ m, p.keyOf x = e ∧ v.PointsAt p (v.find p e) x) ∨
    ((∀ x ∈ m, p.keyOf x ≠ e) ∧ v.find p e = v.last)
  lowerBound : ∀ e, (∃ x ∈ m, e ≤ p.keyOf x ∧ (∀ y ∈ m, e ≤ p.keyOf y → p.keyOf x ≤ p.keyOf y) ∧
      v.PointsAt p (v.lowerBound p e) x) ∨
    ((∀ x ∈ m, p.keyOf x < e) ∧ v.lowerBound p e = v.last)
  iterate : ∃ n, ∀ k, n ≤ k → v.iterate p k v.first = some m
  rangeQuery : ∀ left right, ∃ n, ∀ k, n ≤ k → v.rangeQuery p k left right
    = some (m.filter fun x => decide (left ≤ p.keyOf x ∧ p.keyOf x < right))

/-- An element with key `e` can only be in the containing block. -/
lemma Valid.mem_containing (h : v.Valid p) {e : K} {r : ℕ} (hr : v.IsLastLE e r) {x : α}
    (hx : x ∈ v.content) (hk : p.keyOf x = e) : x ∈ (v.pma r).live := by
  obtain ⟨i, hi, hx'⟩ := mem_content.mp hx
  have hne := h.empty_of_mem hi hx'
  rcases Nat.lt_trichotomy i r with hlt | rfl | hgt
  · exact absurd (hk ▸ h.lt_head hlt hr.1 hx') (not_lt.mpr hr.2.1)
  · exact hx'
  · exact absurd (hr.2.2 i hgt hne) (not_lt.mpr (hk ▸ (h.entry i hne).head_le hx'))

lemma Valid.no_element (h : v.Valid p) {e : K} (hall : ∀ j, v.empty j = false → e < v.head j)
    {x : α} (hx : x ∈ v.content) : e < p.keyOf x := by
  obtain ⟨i, hi, hx'⟩ := mem_content.mp hx
  have hne := h.empty_of_mem hi hx'
  exact lt_of_lt_of_le (hall i hne) ((h.entry i hne).head_le hx')

lemma Valid.live_subset_content (h : v.Valid p) {r : ℕ} (hr : v.empty r = false) {x : α}
    (hx : x ∈ (v.pma r).live) : x ∈ v.content :=
  mem_content.mpr ⟨r, h.lt_size hr, hx⟩

lemma Valid.contains_iff (h : v.Valid p) (e : K) :
    v.contains p e = true ↔ ∃ x ∈ v.content, p.keyOf x = e := by
  have hspec := findContainingBlock_spec h e
  rw [contains]
  cases hc : v.findContainingBlock e with
  | none =>
      rw [hc] at hspec
      simp only [Bool.false_eq_true, false_iff, not_exists, not_and]
      exact fun x hx hk => absurd (h.no_element hspec hx) (by simp [hk])
  | some r =>
      rw [hc] at hspec
      have hentry := h.entry r hspec.1
      simp only [hentry.isEmpty_eq, Bool.not_false, Bool.true_and, hentry.contains_iff]
      exact ⟨fun ⟨x, hx, hk⟩ => ⟨x, h.live_subset_content hspec.1 hx, hk⟩,
        fun ⟨x, hx, hk⟩ => ⟨x, h.mem_containing hspec hx hk, hk⟩⟩

lemma Valid.find_spec (h : v.Valid p) (e : K) :
    (∃ x ∈ v.content, p.keyOf x = e ∧ v.PointsAt p (v.find p e) x) ∨
      ((∀ x ∈ v.content, p.keyOf x ≠ e) ∧ v.find p e = v.last) := by
  have hspec := findContainingBlock_spec h e
  rw [find]
  cases hc : v.findContainingBlock e with
  | none =>
      rw [hc] at hspec
      exact Or.inr ⟨fun x hx hk => absurd (h.no_element hspec hx) (by simp [hk]), rfl⟩
  | some r =>
      rw [hc] at hspec
      have hentry := h.entry r hspec.1
      dsimp only
      rw [hentry.isEmpty_eq, if_neg (by simp)]
      by_cases hbad : v.blockSize r ≤ (v.pma r).findIndex p e ∨
          p.keyOf ((v.pma r).get p ((v.pma r).findIndex p e)) ≠ e
      · rw [if_pos hbad]
        refine Or.inr ⟨fun x hx hk => ?_, rfl⟩
        have hcont := (hentry.contains_iff e).mpr ⟨x, h.mem_containing hspec hx hk, hk⟩
        rw [PmaEntry.contains, decide_eq_true_eq] at hcont
        exact hbad.elim (fun hle => absurd hcont.1 (not_lt.mpr hle)) (fun hne => hne hcont.2.symm)
      · rw [if_neg hbad]
        push Not at hbad
        exact Or.inl ⟨_, h.live_subset_content hspec.1 (hentry.get_mem hbad.1), hbad.2,
          ⟨hspec.1, hbad.1⟩, rfl⟩

lemma Valid.lowerBound_spec (h : v.Valid p) (e : K) :
    (∃ x ∈ v.content, e ≤ p.keyOf x ∧
        (∀ y ∈ v.content, e ≤ p.keyOf y → p.keyOf x ≤ p.keyOf y) ∧
        v.PointsAt p (v.lowerBound p e) x) ∨
      ((∀ x ∈ v.content, p.keyOf x < e) ∧ v.lowerBound p e = v.last) := by
  obtain ⟨hrem, hpos⟩ := h.remaining_lowerBound e
  have hinc := h.increasing_content
  rcases hpos with hat | hlast
  · have hcons := (h.remaining_advance hat).1
    rw [hrem] at hcons
    -- the element pointed at is the first one of the filtered content
    have hsorted : Increasing p (v.content.filter fun x => decide (e ≤ p.keyOf x)) :=
      List.Pairwise.filter _ hinc
    have hmem : v.deref p (v.lowerBound p e) ∈ v.content.filter (fun x => decide (e ≤ p.keyOf x)) := by
      rw [hcons]
      exact List.mem_cons_self
    obtain ⟨hm1, hm2⟩ := List.mem_filter.mp hmem
    refine Or.inl ⟨_, hm1, by simpa using hm2, fun y hy hye => ?_, hat, rfl⟩
    have hy' : y ∈ v.content.filter (fun x => decide (e ≤ p.keyOf x)) :=
      List.mem_filter.mpr ⟨hy, by simpa using hye⟩
    rw [hcons] at hy' hsorted
    rcases List.mem_cons.mp hy' with rfl | hy'
    · exact le_refl _
    · exact le_of_lt ((List.pairwise_cons.mp hsorted).1 y hy')
  · rw [hlast, remaining_last] at hrem
    refine Or.inr ⟨fun x hx => ?_, hlast⟩
    have := List.filter_eq_nil_iff.mp hrem.symm x hx
    simpa using this

/-- In an increasing list the elements below a bound are a prefix. -/
lemma takeWhile_eq_filter_of_increasing {l : List α} (h : Increasing p l) (right : K) :
    l.takeWhile (fun x => decide (p.keyOf x < right))
      = l.filter (fun x => decide (p.keyOf x < right)) := by
  induction l with
  | nil => rfl
  | cons x l ih =>
      obtain ⟨hx, hl⟩ := List.pairwise_cons.mp h
      by_cases hlt : p.keyOf x < right
      · simp only [List.takeWhile_cons, List.filter_cons, hlt, decide_true, if_true, ih hl]
      · have hnil : l.filter (fun x => decide (p.keyOf x < right)) = [] := by
          rw [List.filter_eq_nil_iff]
          intro y hy
          simpa using le_of_lt (lt_of_le_of_lt (not_lt.mp hlt) (hx y hy))
        simp [hlt, hnil]

/-- The queries of a valid view are those of the ordered map it stores. -/
theorem Valid.refinesOrderedMap (h : v.Valid p) : v.RefinesOrderedMap p v.content where
  increasing := h.increasing_content
  contains_iff := h.contains_iff
  find := h.find_spec
  lowerBound := h.lowerBound_spec
  iterate := by
    obtain ⟨hrem, hpos⟩ := h.remaining_first
    refine ⟨v.content.length + 1, fun k hk => ?_⟩
    rw [← hrem] at hk ⊢
    exact h.iterate_eq k _ hpos hk
  rangeQuery := by
    intro left right
    obtain ⟨hrem, hpos⟩ := h.remaining_lowerBound left
    refine ⟨(v.remaining (v.lowerBound p left)).length + 1, fun k hk => ?_⟩
    rw [rangeQuery, h.rangeLoop_eq right k _ hpos hk, hrem, takeWhile_eq_filter_of_increasing
      (List.Pairwise.filter _ h.increasing_content), List.filter_filter]
    congr 2
    funext x
    by_cases h1 : left ≤ p.keyOf x <;> by_cases h2 : p.keyOf x < right <;> simp [h1, h2]

end ArrayView

/-! ## The two data structures -/

variable [LinearOrder K]

/-- Cells are empty or hold well-formed blocks, and keys increase strictly across blocks. -/
structure CellsValid (p : BlockParams K α) (size : ℕ) (pma : ℕ → PmaEntry K α) : Prop where
  cell : ∀ i, i < size → pma i = PmaEntry.null p ∨ (pma i).Valid p
  ordered : ∀ i j, i < j → j < size →
    ∀ x ∈ (pma i).live, ∀ y ∈ (pma j).live, p.keyOf x < p.keyOf y

lemma CellsValid.head_eq_null_iff {p : BlockParams K α} {size : ℕ} {pma : ℕ → PmaEntry K α}
    (h : CellsValid p size pma) {i : ℕ} (hi : i < size) :
    (pma i).head = p.nullKey ↔ pma i = PmaEntry.null p := by
  constructor
  · intro hhead
    exact (h.cell i hi).resolve_right fun hv => hv.head_ne_null hhead
  · intro hnull
    rw [hnull, PmaEntry.head_null]

/-- Any predicate that is true exactly on the cells behind `size` and on the null cells makes a
valid view of valid cells. -/
lemma CellsValid.view_valid {p : BlockParams K α} {v : ArrayView K α}
    (h : CellsValid p v.size v.pma)
    (hempty : ∀ i, v.empty i = true ↔ v.size ≤ i ∨ v.pma i = PmaEntry.null p) : v.Valid p where
  empty_iff := hempty
  entry := by
    intro i hi
    have hn := (hempty i).not.mp (by simp [hi])
    push Not at hn
    exact (h.cell i hn.1).resolve_left hn.2
  ordered := by
    intro i j hij _ hj
    have hn := (hempty j).not.mp (by simp [hj])
    push Not at hn
    exact h.ordered i j hij hn.1

lemma BatchedSparseArray.view_valid {p : BatchedParams K α} {s : BatchedSparseArray K α}
    (h : CellsValid p.toBlockParams s.size s.pma) : (s.view p).Valid p.toBlockParams := by
  refine CellsValid.view_valid (v := s.view p) h fun i => ?_
  simp only [view, empty]
  by_cases hi : s.size ≤ i
  · simp [hi]
  · simp only [hi, if_false, decide_eq_true_eq, false_or]
    exact h.head_eq_null_iff (not_le.mp hi)

lemma OverallocatedBatchedSparseArray.view_valid {p : OverallocatedParams K α}
    {s : OverallocatedBatchedSparseArray K α} (h : CellsValid p.toBlockParams s.size s.pma)
    (hbehind : ∀ i, s.size ≤ i → s.pma i = PmaEntry.null p.toBlockParams) :
    (s.view p).Valid p.toBlockParams := by
  refine CellsValid.view_valid (v := s.view p) h fun i => ?_
  simp only [view, empty, decide_eq_true_eq]
  rcases Nat.lt_or_ge i s.size with hi | hi
  · rw [h.head_eq_null_iff hi]
    simp [not_le.mpr hi]
  · simp [hi, hbehind i hi]

/-- **Queries refine an ordered map**, in both data structures, whatever cells are empty.  In the
second one the cells behind `size` are part of the state that is read, and hold nothing. -/
theorem queries_refine_orderedMap :
    (∀ (p : BatchedParams K α) (s : BatchedSparseArray K α),
      CellsValid p.toBlockParams s.size s.pma →
      (s.view p).RefinesOrderedMap p.toBlockParams (s.view p).content) ∧
    (∀ (p : OverallocatedParams K α) (s : OverallocatedBatchedSparseArray K α),
      CellsValid p.toBlockParams s.size s.pma →
      (∀ i, s.size ≤ i → s.pma i = PmaEntry.null p.toBlockParams) →
      (s.view p).RefinesOrderedMap p.toBlockParams (s.view p).content) :=
  ⟨fun _ _ h => (BatchedSparseArray.view_valid h).refinesOrderedMap,
    fun _ _ h hb => (OverallocatedBatchedSparseArray.view_valid h hb).refinesOrderedMap⟩

/-- Three cells of which only the middle one holds a block, with the keys `3` and `5`. -/
def threeCells : ℕ → PmaEntry ℕ ℕ :=
  fun i => if i = 1 then ⟨some [3, 5, 0, 0], 3, 2⟩ else ⟨none, 0, 0⟩

lemma threeCells_valid : CellsValid (keyOnlyBlocks 4) 3 threeCells where
  cell := by
    intro i hi
    by_cases h1 : i = 1
    · subst h1
      exact Or.inr
        { length_cells := by decide, size_pos := by decide, size_le := by decide,
          head_eq := by decide, increasing := by simp [Increasing, threeCells, PmaEntry.live,
            PmaEntry.cells, keyOnlyBlocks],
          key_ne_null := by simp [threeCells, PmaEntry.live, PmaEntry.cells, keyOnlyBlocks] }
    · exact Or.inl (by simp [threeCells, h1, PmaEntry.null, keyOnlyBlocks])
  ordered := by
    intro i j hij _ x hx y hy
    have hi : i = 1 := by
      by_contra h
      simp [threeCells, h, PmaEntry.live, PmaEntry.cells] at hx
    have hj : j = 1 := by
      by_contra h
      simp [threeCells, h, PmaEntry.live, PmaEntry.cells] at hy
    omega

/-- Both classes with these cells, at size `3`. -/
theorem queries_refine_orderedMap_threeCells :
    (({ BatchedSparseArray.create (keyOnlyBatched 4 4) 1 with size := 3, pma := threeCells }
        : BatchedSparseArray ℕ ℕ).view (keyOnlyBatched 4 4)).RefinesOrderedMap (keyOnlyBlocks 4)
      [3, 5] ∧
    ((⟨4096, 4096, 3, 9 / 5, threeCells, fun _ => ⟨none, 0, 0⟩, ⟨fun _ => 0, 1⟩,
        fun _ => TaskInfo.zero⟩ : OverallocatedBatchedSparseArray ℕ ℕ).view
        (keyOnlyOverallocated 4)).RefinesOrderedMap (keyOnlyBlocks 4) [3, 5] :=
  ⟨queries_refine_orderedMap.1 (keyOnlyBatched 4 4) _ threeCells_valid,
    queries_refine_orderedMap.2 (keyOnlyOverallocated 4) _ threeCells_valid fun i hi => by
      have h1 : i ≠ 1 := by
        rintro rfl
        exact absurd hi (by simp)
      simp [threeCells, h1, PmaEntry.null, keyOnlyOverallocated, keyOnlyBlocks]⟩

end BatchPMA
