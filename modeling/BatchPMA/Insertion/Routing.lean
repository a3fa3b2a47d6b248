import BatchPMA.Model.Insertion
import BatchPMA.Queries.SearchSpec

/-!
# Where the elements of a batch go

The searches of the insertion phase.  On a sorted batch `findFirstBatchElement` and the search of
step A-3 count the elements below a key; `findBlockIndex` and `exponentialSearch` find the block
an element belongs to, its home.
-/

namespace BatchPMA

variable {K α : Type} [LinearOrder K]

/-! ## Counting in a sorted batch -/

section Batch

variable {p : BlockParams K α} {batch : List α}

/-- The number of elements of the batch whose keys are below `k`. -/
def countBelow (p : BlockParams K α) (batch : List α) (k : K) : ℕ :=
  Scan.scanUp (fun i => decide (batchKey p batch i < k)) batch.length 0

omit [LinearOrder K] in
lemma batchKey_eq {i : ℕ} (hi : i < batch.length) : batchKey p batch i = p.keyOf batch[i] := by
  rw [batchKey, List.getD_eq_getElem?_getD, List.getElem?_eq_getElem hi, Option.getD_some]

lemma batchKey_lt (h : Increasing p batch) {i j : ℕ} (hij : i < j) (hj : j < batch.length) :
    batchKey p batch i < batchKey p batch j := by
  rw [batchKey_eq (by omega), batchKey_eq hj]
  exact List.pairwise_iff_getElem.mp h i j _ _ hij

lemma NonDecreasing.batchKey_le (h : NonDecreasing p batch) {i j : ℕ} (hij : i ≤ j)
    (hj : j < batch.length) : batchKey p batch i ≤ batchKey p batch j := by
  rcases Nat.eq_or_lt_of_le hij with rfl | hlt
  · exact le_refl _
  · rw [batchKey_eq (by omega), batchKey_eq hj]
    exact List.pairwise_iff_getElem.mp h i j _ _ hlt

lemma batchKey_le (h : Increasing p batch) {i j : ℕ} (hij : i ≤ j) (hj : j < batch.length) :
    batchKey p batch i ≤ batchKey p batch j :=
  h.nonDecreasing.batchKey_le hij hj

lemma countBelow_le (k : K) : countBelow p batch k ≤ batch.length := by
  have := Scan.scanUp_le (fun i => decide (batchKey p batch i < k)) batch.length 0
  rw [countBelow]
  omega

lemma NonDecreasing.lt_countBelow_iff (h : NonDecreasing p batch) {i : ℕ} (hi : i < batch.length)
    {k : K} : i < countBelow p batch k ↔ batchKey p batch i < k := by
  constructor
  · intro hlt
    simpa using Scan.scanUp_skipped (p := fun i => decide (batchKey p batch i < k))
      (Nat.zero_le i) hlt
  · intro hlt
    by_contra hge
    have hstop := Scan.scanUp_stop (p := fun i => decide (batchKey p batch i < k))
      (n := batch.length) (c := 0) (by rw [countBelow] at hge; omega)
    simp only [decide_eq_false_iff_not, not_lt] at hstop
    have := h.batchKey_le (i := countBelow p batch k) (not_lt.mp hge) hi
    exact absurd hlt (not_lt.mpr (le_trans hstop this))

lemma lt_countBelow_iff (h : Increasing p batch) {i : ℕ} (hi : i < batch.length) {k : K} :
    i < countBelow p batch k ↔ batchKey p batch i < k :=
  h.nonDecreasing.lt_countBelow_iff hi

/-- The exponential search of `findFirstBatchElement`. -/
lemma widenLoop_spec (h : NonDecreasing p batch) {blockHead : K} {start : ℕ}
    (hstart : start < batch.length) : ∀ (n current delta : ℕ), current ≤ n → 0 < delta →
    (current + 2 * delta = start + 1 ∨ (current = 0 ∧ delta ≤ start)) →
    (countBelow p batch blockHead ≤ current + delta ∨ current + delta = start) →
    let r := widenLoop p batch blockHead n current delta
    r.1 + r.2 ≤ start ∧
      (countBelow p batch blockHead ≤ r.1 + r.2 ∨ r.1 + r.2 = start) ∧
      (r.1 = 0 ∨ batchKey p batch r.1 < blockHead)
  | 0, current, delta, hn, hd, hsum, htop => by
      simp only [widenLoop]
      exact ⟨by omega, htop, Or.inl (by omega)⟩
  | n + 1, current, delta, hn, hd, hsum, htop => by
      simp only [widenLoop]
      split
      · rename_i hcond
        have hle : blockHead ≤ batchKey p batch current := by
          rcases hcond.2 with hlt | heq
          · exact hlt.le
          · exact heq.le
        have hcount : countBelow p batch blockHead ≤ current := by
          by_contra hlt
          have := (h.lt_countBelow_iff (i := current) (k := blockHead) (by omega)).mp (by omega)
          exact absurd this (not_lt.mpr hle)
        exact widenLoop_spec h hstart n (current - delta * 2) (delta * 2) (by omega) (by omega)
          (by omega) (Or.inl (by omega))
      · rename_i hcond
        refine ⟨by omega, htop, ?_⟩
        by_contra hno
        push Not at hno
        exact hcond ⟨by omega, hno.2.lt_or_eq⟩

/-- `findFirstBatchElement` on a sorted batch. -/
theorem NonDecreasing.findFirstBatchElement_eq (h : NonDecreasing p batch) {start : ℕ}
    (hpos : 0 < start) (hstart : start < batch.length) (blockHead : K) :
    findFirstBatchElement p batch start blockHead =
      min (countBelow p batch blockHead) (start + 1) := by
  obtain ⟨hsum, htop, hlow⟩ := @widenLoop_spec _ _ _ _ _ h blockHead _ hstart start (start - 1) 1
    (by omega) (by omega) (by omega) (Or.inr (by omega))
  rw [findFirstBatchElement]
  generalize widenLoop p batch blockHead start (start - 1) 1 = r at *
  obtain ⟨current, delta⟩ := r
  simp only at hsum htop hlow ⊢
  refine Scan.scanUp_eq ?_ ?_ (fun i _ hi => ?_) (fun hlt => ?_)
  · rcases hlow with h0 | hlt
    · omega
    · have := (h.lt_countBelow_iff (i := current) (by omega)).mpr hlt
      omega
  · omega
  · have := (h.lt_countBelow_iff (i := i) (k := blockHead) (by omega)).mp (by omega)
    simpa using this
  · have hr : min (countBelow p batch blockHead) (start + 1) = countBelow p batch blockHead := by
      omega
    rw [hr]
    have := (h.lt_countBelow_iff (i := countBelow p batch blockHead) (k := blockHead)
      (by omega)).not.mp (lt_irrefl _)
    simpa using this

theorem findFirstBatchElement_eq (h : Increasing p batch) {start : ℕ} (hpos : 0 < start)
    (hstart : start < batch.length) (blockHead : K) :
    findFirstBatchElement p batch start blockHead =
      min (countBelow p batch blockHead) (start + 1) :=
  h.nonDecreasing.findFirstBatchElement_eq hpos hstart blockHead

end Batch

namespace ArrayView

variable {p : BlockParams K α} {v : ArrayView K α} {e e' : K} {c : ℕ}

/-! ## The home of an element -/

/-- `c` is the block that `e` belongs to: the last one with head at most `e`, or the first one. -/
structure IsHome (v : ArrayView K α) (e : K) (c : ℕ) : Prop where
  nonempty : v.empty c = false
  head_le : v.head c ≤ e ∨ ∀ j < c, v.empty j = true
  lt_head : ∀ j, c < j → v.empty j = false → e < v.head j

lemma IsHome.mono (h : v.IsHome e c) (hle : e ≤ e') {c' : ℕ} (h' : v.IsHome e' c') : c ≤ c' := by
  by_contra hlt
  rcases h.head_le with hhead | hfirst
  · have := h'.lt_head c (by omega) h.nonempty
    exact absurd (lt_of_lt_of_le this hhead) (not_lt.mpr hle)
  · have := hfirst c' (by omega)
    rw [h'.nonempty] at this
    exact absurd this (by simp)

/-- `findBlockIndex` finds the home, unless there is no block at all. -/
lemma Valid.isHome_findBlockIndex (h : v.Valid p) (hne : ∃ c, v.empty c = false) (e : K) :
    v.IsHome e (v.findBlockIndex e) := by
  rcases findBlockIndex_spec h e with ⟨h1, h2, h3⟩ | ⟨h1, h2, h3, h4⟩
  · exact ⟨h1, Or.inl h2, h3⟩
  · have hlt : v.findBlockIndex e < v.size := by
      obtain ⟨c, hc⟩ := hne
      have := h.lt_size hc
      by_contra hge
      rw [h2 c (by omega)] at hc
      exact absurd hc (by simp)
    exact ⟨h4 hlt, Or.inr h2, fun j _ hj => h1 j hj⟩

lemma Valid.findBlockIndex_of_empty (h : v.Valid p) (hemp : ∀ c, v.empty c = true) (e : K) :
    v.findBlockIndex e = v.size := by
  rcases findBlockIndex_spec h e with ⟨h1, -, -⟩ | ⟨-, h2, h3, h4⟩
  · rw [hemp] at h1
    exact absurd h1 (by simp)
  · by_contra hne
    have := h4 (by omega)
    rw [hemp] at this
    exact absurd this (by simp)

lemma Valid.findBlockIndex_mono (h : v.Valid p) (hle : e ≤ e') :
    v.findBlockIndex e ≤ v.findBlockIndex e' := by
  by_cases hne : ∃ c, v.empty c = false
  · exact (h.isHome_findBlockIndex hne e).mono hle (h.isHome_findBlockIndex hne e')
  · push Not at hne
    have hemp : ∀ c, v.empty c = true := fun c => by simpa using hne c
    rw [h.findBlockIndex_of_empty hemp, h.findBlockIndex_of_empty hemp]

lemma Valid.findBlockIndex_le (h : v.Valid p) (e : K) : v.findBlockIndex e ≤ v.size := by
  by_cases hne : ∃ c, v.empty c = false
  · exact (h.lt_size (h.isHome_findBlockIndex hne e).nonempty).le
  · push Not at hne
    exact (h.findBlockIndex_of_empty (fun c => by simpa using hne c) e).le

/-! ## Searching from the last block on -/

/-- `c` is the last block in front of `upper` with head at most `e`. -/
structure IsLastIn (v : ArrayView K α) (e : K) (upper c : ℕ) : Prop where
  lt_upper : c < upper
  nonempty : v.empty c = false
  head_le : v.head c ≤ e
  lt_head : ∀ j, c < j → j < upper → v.empty j = false → e < v.head j

variable {upper : ℕ}

lemma IsLastIn.le_of_head_le (h : v.IsLastIn e upper c) {j : ℕ} (hj : j < upper)
    (hne : v.empty j = false) (hle : v.head j ≤ e) : j ≤ c := by
  by_contra hlt
  exact absurd (h.lt_head j (by omega) hj hne) (not_lt.mpr hle)

lemma exists_isLastIn {j : ℕ} (hj : j < upper) (hne : v.empty j = false) (hle : v.head j ≤ e) :
    ∃ c, j ≤ c ∧ v.IsLastIn e upper c := by
  have hspec := Nat.findGreatest_spec (P := fun i => v.empty i = false ∧ v.head i ≤ e)
    (Nat.le_sub_one_of_lt hj) ⟨hne, hle⟩
  have hle' := Nat.findGreatest_le (P := fun i => v.empty i = false ∧ v.head i ≤ e) (upper - 1)
  refine ⟨_, Nat.le_findGreatest (Nat.le_sub_one_of_lt hj) ⟨hne, hle⟩, by omega, hspec.1, hspec.2,
    fun i h1 h2 h3 => ?_⟩
  by_contra hge
  exact Nat.findGreatest_is_greatest h1 (by omega) ⟨h3, not_lt.mp hge⟩

lemma IsLastIn.lt_of_lt_head {lower : ℕ} (h : v.IsLastIn e upper c)
    (hinc : v.HeadsIncreasingOn lower upper) {j : ℕ} (hj : lower ≤ j) (hne : v.empty j = false)
    (hlt : e < v.head j) : c < j := by
  by_contra hge
  rcases Nat.eq_or_lt_of_le (not_lt.mp hge) with rfl | hjc
  · exact absurd hlt (not_lt.mpr h.head_le)
  · have := hinc j c hj hjc h.lt_upper hne h.nonempty
    exact absurd (lt_of_lt_of_le (lt_trans hlt this) h.head_le) (lt_irrefl _)

/-- What the binary search has narrowed down: the block is still in the interval, or it is the
candidate. -/
lemma binaryLoop_spec {lower : ℕ} (hinc : v.HeadsIncreasingOn lower upper)
    (hc : v.IsLastIn e upper c) :
    ∀ (n left right : ℕ) (candidate : Option ℕ), lower ≤ left → left < upper → right ≤ upper →
      (left ≤ c ∧ c < right ∨ c < left ∧ candidate = some c) →
      match v.binaryLoop e n left right candidate with
      | .found r => r = c
      | .narrowed left' _ candidate' =>
          lower ≤ left' ∧ left' < upper ∧ (left' ≤ c ∨ c < left' ∧ candidate' = some c)
  | 0, left, right, candidate, hlow, hl, _, h => by
      simp only [binaryLoop]
      exact ⟨hlow, hl, h.imp And.left id⟩
  | n + 1, left, right, candidate, hlow, hl, hr, h => by
      rw [binaryLoop]
      by_cases hcut : left + binarySearchCutoff + 1 < right
      · rw [if_pos hcut]
        dsimp only
        have hmid : left ≤ (left + (right - 1)) / 2 ∧ (left + (right - 1)) / 2 + 1 < right := by
          omega
        generalize (left + (right - 1)) / 2 = mid at *
        cases hprev : v.lastNonEmpty left mid with
        | none =>
            refine binaryLoop_spec hinc hc n (mid + 1) right candidate (by omega) (by omega) hr ?_
            rcases h with ⟨h1, h2⟩ | ⟨h1, h2⟩
            · refine Or.inl ⟨?_, h2⟩
              by_contra hlt
              have := lastNonEmpty_none hprev c h1 (by omega)
              rw [hc.nonempty] at this
              exact absurd this (by simp)
            · exact Or.inr ⟨by omega, h2⟩
        | some prev =>
            obtain ⟨g1, g2, g3, g4⟩ := lastNonEmpty_some hprev
            dsimp only
            by_cases heq : v.head prev = e
            · rw [if_pos heq]
              have hpc := hc.le_of_head_le (by omega) g3 heq.le
              by_contra hne
              have := hinc prev c (by omega) (by omega) hc.lt_upper g3 hc.nonempty
              rw [heq] at this
              exact absurd (lt_of_lt_of_le this hc.head_le) (lt_irrefl _)
            · by_cases hlt : e < v.head prev
              · rw [if_neg heq, if_pos hlt]
                have hcp := hc.lt_of_lt_head hinc (by omega) g3 hlt
                refine binaryLoop_spec hinc hc n left prev candidate hlow hl (by omega) ?_
                exact h.imp (fun h1 => ⟨h1.1, hcp⟩) id
              · rw [if_neg heq, if_neg hlt]
                have hpc := hc.le_of_head_le (by omega) g3 (not_lt.mp hlt)
                refine binaryLoop_spec hinc hc n (mid + 1) right (some prev) (by omega) (by omega) hr ?_
                rcases h with ⟨-, h2⟩ | ⟨h1, -⟩
                · rcases Nat.eq_or_lt_of_le hpc with rfl | hpc'
                  · exact Or.inr ⟨by omega, rfl⟩
                  · refine Or.inl ⟨?_, h2⟩
                    by_contra hle
                    have := g4 c hpc' (by omega)
                    rw [hc.nonempty] at this
                    exact absurd this (by simp)
                · omega
      · rw [if_neg hcut]
        exact ⟨hlow, hl, h.imp And.left id⟩

/-- The linear search finds the block as well. -/
lemma linearSearch_eq {lower : ℕ} (hinc : v.HeadsIncreasingOn lower upper)
    (hc : v.IsLastIn e upper c) (hlc : lower ≤ c) : v.linearSearch e lower upper = c := by
  obtain ⟨-, g2, g3⟩ := linearSearch_spec hinc e
  generalize v.linearSearch e lower upper = r at *
  rcases Nat.lt_trichotomy r c with hlt | heq | hgt
  · exact absurd (g3 c hlt hc.lt_upper hc.nonempty) (not_lt.mpr hc.head_le)
  · exact heq
  · rcases g2 with heq | ⟨h1, h2, h3⟩
    · omega
    · have := hc.le_of_head_le h1 h2 h3
      omega

lemma binarySearch_eq {lower : ℕ} (hinc : v.HeadsIncreasingOn lower upper)
    (hc : v.IsLastIn e upper c) (hlc : lower ≤ c) : v.binarySearch e lower upper = c := by
  have hloop := binaryLoop_spec hinc hc (upper - lower) lower upper none
    (le_refl _) (lt_of_le_of_lt hlc hc.lt_upper) (le_refl _) (Or.inl ⟨hlc, hc.lt_upper⟩)
  rw [binarySearch]
  cases hres : v.binaryLoop e (upper - lower) lower upper none with
  | found r =>
      rw [hres] at hloop
      exact hloop
  | narrowed left right candidate =>
      rw [hres] at hloop
      obtain ⟨hlow, hl, hcase⟩ := hloop
      simp only
      rcases hcase with hle | ⟨hlt, rfl⟩
      · rw [linearSearch_eq (hinc.mono hlow (le_refl _)) hc hle, if_neg]
        rintro (hemp | ⟨hlt, -⟩)
        · rw [hc.nonempty] at hemp
          exact absurd hemp (by simp)
        · exact absurd hlt (not_lt.mpr hc.head_le)
      · obtain ⟨g1, g2, -⟩ := linearSearch_spec (hinc.mono hlow (le_refl _)) e
        generalize v.linearSearch e left upper = r at *
        have hrl : r = left := by
          rcases g2 with heq | ⟨h1, h2, h3⟩
          · exact heq
          · have := hc.le_of_head_le h1 h2 h3
            omega
        rw [hrl, if_pos, Option.getD_some]
        cases hemp : v.empty left with
        | true => exact Or.inl rfl
        | false => exact Or.inr ⟨hc.lt_head left hlt hl hemp, by omega⟩

lemma exponentialLoop_spec {lower : ℕ} (hinc : v.HeadsIncreasingOn lower upper)
    (hc : v.IsLastIn e upper c) :
    ∀ (n start stop delta : ℕ), lower ≤ start → lower ≤ stop → upper ≤ stop + n → start ≤ c →
      (stop < upper → v.empty stop = false) →
      let r := v.exponentialLoop e upper n start stop delta
      lower ≤ r.1 ∧ r.1 ≤ c ∧ c < min upper r.2
  | 0, start, stop, delta, hlow, hlow', hn, hs, _ => by
      have := hc.lt_upper
      simp only [exponentialLoop]
      exact ⟨hlow, hs, by omega⟩
  | n + 1, start, stop, delta, hlow, hlow', hn, hs, hstop => by
      have hup := hc.lt_upper
      simp only [exponentialLoop]
      split
      · rename_i hcond
        have hle : v.head stop ≤ e := by
          rcases hcond.2 with hlt | heq
          · exact hlt.le
          · exact heq.le
        have hnext : stop + delta + 1 ≤ v.findNext (stop + delta) upper :=
          v.le_skipEmpty (stop + delta + 1) upper
        exact exponentialLoop_spec hinc hc n stop _ (delta * 2) hlow' (by omega) (by omega)
          (hc.le_of_head_le hcond.1 (hstop hcond.1) hle) skipEmpty_stop
      · rename_i hcond
        refine ⟨hlow, hs, ?_⟩
        by_cases hlt : stop < upper
        · have hhead : e < v.head stop := by
            by_contra hle
            exact hcond ⟨hlt, (not_lt.mp hle).lt_or_eq⟩
          have := hc.lt_of_lt_head hinc hlow' (hstop hlt) hhead
          omega
        · omega

/-- `exponentialSearch` finds the last block with head at most `e`. -/
theorem exponentialSearch_eq {lower : ℕ} (hinc : v.HeadsIncreasingOn lower upper)
    (hc : v.IsLastIn e upper c) (hlc : lower ≤ c) : v.exponentialSearch e lower upper = c := by
  have hup := hc.lt_upper
  have hskip := v.le_skipEmpty lower upper
  obtain ⟨h0, h1, h2⟩ := exponentialLoop_spec hinc hc (upper - lower) lower
    (v.skipEmpty lower upper) 1 (le_refl _) hskip (by omega) hlc skipEmpty_stop
  rw [exponentialSearch]
  generalize v.exponentialLoop e upper (upper - lower) lower (v.skipEmpty lower upper) 1 = r at *
  obtain ⟨start, stop⟩ := r
  exact binarySearch_eq (hinc.mono h0 (min_le_left _ _))
    ⟨h2, hc.nonempty, hc.head_le, fun j g1 g2 => hc.lt_head j g1 (by omega)⟩ h1

omit [LinearOrder K] in
lemma skipEmpty_eq_self {lower : ℕ} (hne : v.empty lower = false) :
    v.skipEmpty lower upper = lower :=
  Scan.scanUp_eq (le_refl _) (by omega) (fun i h1 h2 => by omega) fun _ => hne

lemma linearSearch_self (e : K) (lower : ℕ) : v.linearSearch e lower lower = lower := by
  obtain ⟨g1, g2, -⟩ := @linearSearch_spec _ _ v _ lower lower
    (fun i j h1 h2 h3 => by omega) e
  rcases g2 with heq | ⟨h1, -⟩
  · exact heq
  · omega

lemma exponentialLoop_first {lower : ℕ} (hlt : lower < upper) (he : e < v.head lower) :
    v.exponentialLoop e upper (upper - lower) lower lower 1 = (lower, lower) := by
  obtain ⟨n, hn⟩ : ∃ n, upper - lower = n + 1 := ⟨upper - lower - 1, by omega⟩
  rw [hn, exponentialLoop, if_neg]
  rintro ⟨-, h1 | h1⟩
  · exact absurd (lt_trans he h1) (lt_irrefl _)
  · exact absurd he (by rw [h1]; exact lt_irrefl _)

/-- An element below the first block. -/
lemma exponentialSearch_first {lower : ℕ} (hlt : lower < upper)
    (hne : v.empty lower = false) (he : e < v.head lower) :
    v.exponentialSearch e lower upper = lower := by
  rw [exponentialSearch, skipEmpty_eq_self hne, exponentialLoop_first hlt he]
  simp only
  rw [min_eq_right hlt.le, binarySearch, Nat.sub_self]
  simp [binaryLoop, linearSearch_self, hne]

/-! ## The searches end by themselves -/

lemma binaryLoop_ends (v : ArrayView K α) (e : K) :
    ∀ (n left right : ℕ) (candidate : Option ℕ), right ≤ left + n →
      ∀ left' right' candidate', v.binaryLoop e n left right candidate =
        .narrowed left' right' candidate' → ¬ left' + binarySearchCutoff + 1 < right'
  | 0, left, right, candidate, hn, left', right', candidate', h => by
      rw [binaryLoop, SearchResult.narrowed.injEq] at h
      omega
  | n + 1, left, right, candidate, hn, left', right', candidate', h => by
      rw [binaryLoop] at h
      split at h
      · rename_i hcut
        dsimp only at h
        have hmid : left ≤ (left + (right - 1)) / 2 ∧ (left + (right - 1)) / 2 + 1 < right := by
          omega
        generalize (left + (right - 1)) / 2 = mid at *
        split at h
        · exact binaryLoop_ends v e n (mid + 1) right candidate (by omega) _ _ _ h
        · rename_i prev hprev
          obtain ⟨g1, g2, -, -⟩ := lastNonEmpty_some hprev
          split at h
          · exact absurd h (by simp)
          · split at h
            · exact binaryLoop_ends v e n left prev candidate (by omega) _ _ _ h
            · exact binaryLoop_ends v e n (mid + 1) right (some prev) (by omega) _ _ _ h
      · rename_i hcut
        rw [SearchResult.narrowed.injEq] at h
        omega

lemma exponentialLoop_ends (v : ArrayView K α) (e : K) (upper : ℕ) :
    ∀ (n start stop delta : ℕ), upper ≤ stop + n →
      let r := v.exponentialLoop e upper n start stop delta
      ¬ (r.2 < upper ∧ (v.head r.2 < e ∨ v.head r.2 = e))
  | 0, start, stop, delta, hn => by
      simp only [exponentialLoop]
      omega
  | n + 1, start, stop, delta, hn => by
      simp only [exponentialLoop]
      split
      · have hnext : stop + delta + 1 ≤ v.findNext (stop + delta) upper :=
          v.le_skipEmpty (stop + delta + 1) upper
        exact exponentialLoop_ends v e upper n stop _ (delta * 2) (by omega)
      · assumption

/-- The loops of `binarySearch` have ended by their own conditions and not for lack of steps, and
where the search falls back on the candidate, there is one. -/
structure BinaryEnds (v : ArrayView K α) (e : K) (lower upper left right : ℕ)
    (candidate : Option ℕ) : Prop where
  binary : ¬ left + binarySearchCutoff + 1 < right
  linear :
    let firstLarger := v.linearSearchLoop e upper (upper - v.findNext left upper)
      (v.findNext left upper)
    ¬ (firstLarger < upper ∧ v.empty firstLarger = false ∧
      (v.head firstLarger < e ∨ e = v.head firstLarger))
  candidate :
    let result := v.linearSearch e left upper
    v.empty result = true ∨ (e < v.head result ∧ result ≠ lower) → candidate ≠ none

/-- The same for `exponentialSearch` and the binary search that it calls. -/
structure SearchEnds (v : ArrayView K α) (e : K) (lower upper : ℕ) : Prop where
  exponential :
    let r := v.exponentialLoop e upper (upper - lower) lower (v.skipEmpty lower upper) 1
    ¬ (r.2 < upper ∧ (v.head r.2 < e ∨ v.head r.2 = e))
  binary :
    let r := v.exponentialLoop e upper (upper - lower) lower (v.skipEmpty lower upper) 1
    ∀ left right candidate,
      v.binaryLoop e (min upper r.2 - r.1) r.1 (min upper r.2) none =
        .narrowed left right candidate → v.BinaryEnds e r.1 (min upper r.2) left right candidate

lemma linearSearchLoop_ends (v : ArrayView K α) (e : K) (left upper : ℕ) :
    let firstLarger := v.linearSearchLoop e upper (upper - v.findNext left upper)
      (v.findNext left upper)
    ¬ (firstLarger < upper ∧ v.empty firstLarger = false ∧
      (v.head firstLarger < e ∨ e = v.head firstLarger)) := by
  rintro firstLarger ⟨h1, -, h2⟩
  obtain ⟨-, -, -, h3⟩ := v.linearSearchLoop_spec e upper (upper - v.findNext left upper)
    (v.findNext left upper) (by omega) (fun h => skipEmpty_stop h)
  have hlt := (h3 h1).2
  rcases h2 with h2 | h2
  · exact absurd (lt_trans hlt h2) (lt_irrefl _)
  · exact absurd h2 hlt.ne

/-- A block to be found is behind `left`, where the linear search finds it, or it is the
candidate. -/
lemma binarySearch_ends {lower : ℕ} (hinc : v.HeadsIncreasingOn lower upper)
    (hc : v.IsLastIn e upper c) (hlc : lower ≤ c) {left right : ℕ} {candidate : Option ℕ}
    (hres : v.binaryLoop e (upper - lower) lower upper none = .narrowed left right candidate) :
    v.BinaryEnds e lower upper left right candidate := by
  refine ⟨binaryLoop_ends v e _ _ _ _ (by omega) _ _ _ hres, linearSearchLoop_ends v e left upper,
    ?_⟩
  intro result hfall
  have hloop := binaryLoop_spec hinc hc (upper - lower) lower upper none
    (le_refl _) (lt_of_le_of_lt hlc hc.lt_upper) (le_refl _) (Or.inl ⟨hlc, hc.lt_upper⟩)
  rw [hres] at hloop
  obtain ⟨hlow, -, hle | ⟨-, heq⟩⟩ := hloop
  · have hrc : v.linearSearch e left upper = c :=
      linearSearch_eq (hinc.mono hlow (le_refl _)) hc hle
    rw [show result = c from hrc] at hfall
    rcases hfall with hemp | ⟨hlt, -⟩
    · rw [hc.nonempty] at hemp
      exact absurd hemp (by simp)
    · exact absurd hlt (not_lt.mpr hc.head_le)
  · rw [heq]
    exact Option.some_ne_none c

/-- `exponentialSearch` ends when there is a block with head at most `e`. -/
lemma exponentialSearch_ends {lower : ℕ} (hinc : v.HeadsIncreasingOn lower upper)
    (hc : v.IsLastIn e upper c) (hlc : lower ≤ c) : v.SearchEnds e lower upper := by
  have hup := hc.lt_upper
  have hskip := v.le_skipEmpty lower upper
  refine ⟨exponentialLoop_ends v e upper _ _ _ _ (by omega), ?_⟩
  obtain ⟨h0, h1, h2⟩ := exponentialLoop_spec hinc hc (upper - lower) lower
    (v.skipEmpty lower upper) 1 (le_refl _) hskip (by omega) hlc skipEmpty_stop
  generalize v.exponentialLoop e upper (upper - lower) lower (v.skipEmpty lower upper) 1 = r at *
  intro r' left right candidate hres
  exact binarySearch_ends (hinc.mono h0 (min_le_left _ _))
    ⟨h2, hc.nonempty, hc.head_le, fun j g1 g2 => hc.lt_head j g1 (by omega)⟩ h1 hres

/-- `exponentialSearch` ends when already the first block is larger. -/
lemma exponentialSearch_first_ends {lower : ℕ} (hlt : lower < upper)
    (hne : v.empty lower = false) (he : e < v.head lower) : v.SearchEnds e lower upper := by
  have hskip : v.skipEmpty lower upper = lower := skipEmpty_eq_self hne
  have hloop := exponentialLoop_first hlt he
  refine ⟨exponentialLoop_ends v e upper _ _ _ _ (by have := v.le_skipEmpty lower upper; omega), ?_⟩
  rw [hskip, hloop]
  intro r left right candidate hres
  simp only [r] at hres ⊢
  rw [min_eq_right hlt.le, Nat.sub_self, binaryLoop, SearchResult.narrowed.injEq] at hres
  obtain ⟨rfl, rfl, rfl⟩ := hres
  rw [min_eq_right hlt.le]
  refine ⟨by omega, linearSearchLoop_ends v e _ _, ?_⟩
  intro result hfall
  rw [show result = lower from linearSearch_self e lower] at hfall
  rcases hfall with hemp | ⟨-, hself⟩
  · rw [hne] at hemp
    exact absurd hemp (by simp)
  · exact absurd rfl hself

/-- **Exponential search equals linear search.**  For every pattern of holes, the search ends and
finds the last block with head at most `e`, or `lower` if that block is already larger; and where
`lower` is a block it finds what the linear search finds. -/
theorem exponentialSearch_eq_linearSearch (v : ArrayView K α) (e : K) (lower upper : ℕ)
    (hinc : v.HeadsIncreasingOn lower upper) (hlt : lower < upper)
    (hfirst : v.empty lower = false ∨ ∃ j, lower ≤ j ∧ j < upper ∧ v.empty j = false ∧
      (∀ i, lower ≤ i → i < j → v.empty i = true) ∧ v.head j ≤ e) :
    v.SearchEnds e lower upper ∧
      ((lower ≤ v.exponentialSearch e lower upper ∧
          v.IsLastIn e upper (v.exponentialSearch e lower upper)) ∨
        (v.empty lower = false ∧ e < v.head lower ∧ v.exponentialSearch e lower upper = lower)) ∧
      (v.empty lower = false →
        v.exponentialSearch e lower upper = v.linearSearch e lower upper) := by
  by_cases hbelow : v.empty lower = false ∧ e < v.head lower
  · obtain ⟨hne, he⟩ := hbelow
    have hres := exponentialSearch_first hlt hne he
    refine ⟨exponentialSearch_first_ends hlt hne he, Or.inr ⟨hne, he, hres⟩, fun _ => ?_⟩
    obtain ⟨g1, g2, -⟩ := linearSearch_spec hinc e
    rw [hres]
    rcases g2 with heq | ⟨k1, k2, k3⟩
    · exact heq.symm
    · -- a later block is larger still
      rcases Nat.eq_or_lt_of_le g1 with heq | hgt
      · exact heq
      · have := hinc lower _ (le_refl _) hgt k1 hne k2
        exact absurd (lt_trans he this) (not_lt.mpr k3)
  · obtain ⟨j, h1, h2, h3, h4⟩ : ∃ j, lower ≤ j ∧ j < upper ∧ v.empty j = false ∧ v.head j ≤ e := by
      rcases hfirst with hne | ⟨j, h1, h2, h3, -, h5⟩
      · exact ⟨lower, le_refl _, hlt, hne, not_lt.mp fun he => hbelow ⟨hne, he⟩⟩
      · exact ⟨j, h1, h2, h3, h5⟩
    obtain ⟨c, hjc, hc⟩ := exists_isLastIn h2 h3 h4
    have hlc : lower ≤ c := le_trans h1 hjc
    rw [exponentialSearch_eq hinc hc hlc, linearSearch_eq hinc hc hlc]
    exact ⟨exponentialSearch_ends hinc hc hlc, Or.inl ⟨hlc, hc⟩, fun _ => rfl⟩

/-- Three cells of which only the middle one holds a block. -/
theorem exponentialSearch_eq_linearSearch_hole :
    let v : ArrayView ℕ ℕ := ⟨3, fun i => if i = 1 then ⟨some [3], 3, 1⟩ else ⟨none, 0, 0⟩,
      fun i => decide (i ≠ 1)⟩
    v.IsLastIn 7 3 (v.exponentialSearch 7 0 3) ∧ v.exponentialSearch 7 0 3 = 1 := by
  intro v
  have h := exponentialSearch_eq_linearSearch v 7 0 3
    (fun i j _ hij _ hi hj => by
      simp only [v, decide_eq_false_iff_not, not_not] at hi hj
      omega) (by decide)
    (Or.inr ⟨1, by decide, by decide, by decide, fun i _ hi => by
      have h0 : i = 0 := by omega
      subst h0
      decide, by decide⟩)
  have hres : v.exponentialSearch 7 0 3 = 1 := by decide
  refine ⟨?_, hres⟩
  rcases h.2.1 with ⟨-, hlast⟩ | ⟨hne, -⟩
  · exact hlast
  · exact absurd hne (by decide)

end ArrayView

end BatchPMA
