import BatchPMA.Model.Search
import BatchPMA.Block.Valid

/-!
# The search routines find the last block with head `<= e`

`ArrayView.Valid` is the state invariant that searching needs: every cell is empty or holds a
well-formed block, and keys increase strictly across blocks.  Empty cells may be anywhere.

The specification of the array search is `IsLastLE`: a non-empty cell with head at most `e` behind
which all heads are larger.  `findContainingBlock_spec` shows that the binary search, which
shrinks over empty stretches and keeps a fallback candidate, and the linear search below the
cutoff, which ignores its own first cell, together compute exactly that.
-/

namespace BatchPMA

variable {K α : Type}

namespace ArrayView

variable {v : ArrayView K α}

/-! ## Stepping over empty cells -/

lemma le_skipEmpty (v : ArrayView K α) (cur upper : ℕ) : cur ≤ v.skipEmpty cur upper :=
  Scan.le_scanUp _ _ _

lemma skipEmpty_le (v : ArrayView K α) {cur upper : ℕ} (h : cur ≤ upper) : v.skipEmpty cur upper ≤ upper := by
  have := Scan.scanUp_le v.empty (upper - cur) cur
  rw [skipEmpty]
  omega

lemma skipEmpty_skipped {cur i : ℕ} (upper : ℕ) (h1 : cur ≤ i) (h2 : i < v.skipEmpty cur upper) :
    v.empty i = true :=
  Scan.scanUp_skipped h1 h2

lemma skipEmpty_stop {cur upper : ℕ} (h : v.skipEmpty cur upper < upper) :
    v.empty (v.skipEmpty cur upper) = false :=
  Scan.scanUp_stop (by
    have := v.le_skipEmpty cur upper
    rw [skipEmpty] at h this
    omega)

/-- `findPrevious` returns its lower limit or the last non-empty cell in front of `start`. -/
lemma findPrevious_spec (v : ArrayView K α) (start lower : ℕ) (h : lower < start) :
    lower ≤ v.findPrevious start lower ∧ v.findPrevious start lower < start ∧
      (v.findPrevious start lower = lower ∨ v.empty (v.findPrevious start lower) = false) ∧
      ∀ i, v.findPrevious start lower < i → i < start → v.empty i = true := by
  have h1 := Scan.scanDown_le v.empty (start - 1 - lower) (start - 1)
  have h2 := Scan.le_scanDown v.empty (start - 1 - lower) (start - 1)
  refine ⟨by rw [findPrevious]; omega, by rw [findPrevious]; omega, ?_, ?_⟩
  · rw [findPrevious]
    by_cases heq : Scan.scanDown v.empty (start - 1 - lower) (start - 1) = lower
    · exact Or.inl heq
    · exact Or.inr (Scan.scanDown_stop (by omega) (by omega))
  · intro i hi hi'
    exact Scan.scanDown_skipped (p := v.empty) (n := start - 1 - lower) (c := start - 1)
      (by omega) hi

lemma lastNonEmpty_some {left mid r : ℕ} (h : v.lastNonEmpty left mid = some r) :
    left ≤ r ∧ r ≤ mid ∧ v.empty r = false ∧ ∀ i, r < i → i ≤ mid → v.empty i = true := by
  obtain ⟨h1, h2, h3, h4⟩ := Scan.scanDown?_some (by omega) h
  exact ⟨by omega, h2, h3, h4⟩

lemma lastNonEmpty_none {left mid : ℕ} (h : v.lastNonEmpty left mid = none) (i : ℕ)
    (h1 : left ≤ i) (h2 : i ≤ mid) : v.empty i = true :=
  Scan.scanDown?_none (by omega) h i (by omega) h2

/-! ## The invariant -/

variable [LinearOrder K]

/-- The state invariant of the two array classes, as far as searching and iterating needs it. -/
structure Valid (p : BlockParams K α) (v : ArrayView K α) : Prop where
  empty_iff : ∀ i, v.empty i = true ↔ v.size ≤ i ∨ v.pma i = PmaEntry.null p
  entry : ∀ i, v.empty i = false → (v.pma i).Valid p
  ordered : ∀ i j, i < j → v.empty i = false → v.empty j = false →
    ∀ x ∈ (v.pma i).live, ∀ y ∈ (v.pma j).live, p.keyOf x < p.keyOf y

/-- `r` is the last block whose head is at most `e`. -/
def IsLastLE (v : ArrayView K α) (e : K) (r : ℕ) : Prop :=
  v.empty r = false ∧ v.head r ≤ e ∧ ∀ j, r < j → v.empty j = false → e < v.head j

variable {p : BlockParams K α}

/-- Heads strictly increase, the only fact about keys that the array search uses. -/
def HeadsIncreasing (v : ArrayView K α) : Prop :=
  ∀ i j, i < j → v.empty i = false → v.empty j = false → v.head i < v.head j

/-- Heads strictly increase in a part of the array. -/
def HeadsIncreasingOn (v : ArrayView K α) (lower upper : ℕ) : Prop :=
  ∀ i j, lower ≤ i → i < j → j < upper → v.empty i = false → v.empty j = false →
    v.head i < v.head j

lemma HeadsIncreasing.on (h : v.HeadsIncreasing) (lower upper : ℕ) :
    v.HeadsIncreasingOn lower upper := fun i j _ hij _ => h i j hij

lemma HeadsIncreasingOn.mono {lower upper lower' upper' : ℕ} (h : v.HeadsIncreasingOn lower upper)
    (h1 : lower ≤ lower') (h2 : upper' ≤ upper) : v.HeadsIncreasingOn lower' upper' :=
  fun i j hi hij hj => h i j (le_trans h1 hi) hij (lt_of_lt_of_le hj h2)

lemma Valid.headsIncreasing (h : v.Valid p) : v.HeadsIncreasing := by
  intro i j hij hi hj
  obtain ⟨x, hx, hxk⟩ := (h.entry i hi).head_mem
  obtain ⟨y, hy, hyk⟩ := (h.entry j hj).head_mem
  rw [head, head, ← hxk, ← hyk]
  exact h.ordered i j hij hi hj x hx y hy

lemma Valid.lt_size (h : v.Valid p) {i : ℕ} (hi : v.empty i = false) : i < v.size := by
  by_contra hle
  have := (h.empty_iff i).mpr (Or.inl (not_lt.mp hle))
  rw [hi] at this
  exact absurd this (by simp)

/-! ## Linear search -/

/-- Where the loop of `linearSearch` ends: every block passed has head at most `e`, and a block
it stops at is larger. -/
lemma linearSearchLoop_spec (v : ArrayView K α) (e : K) (upper : ℕ) :
    ∀ n firstLarger, upper ≤ firstLarger + n →
    (firstLarger < upper → v.empty firstLarger = false) →
    firstLarger ≤ v.linearSearchLoop e upper n firstLarger ∧
      v.linearSearchLoop e upper n firstLarger ≤ max firstLarger upper ∧
      (∀ i, firstLarger ≤ i → i < v.linearSearchLoop e upper n firstLarger → i < upper →
        v.empty i = false → v.head i ≤ e) ∧
      (v.linearSearchLoop e upper n firstLarger < upper →
        v.empty (v.linearSearchLoop e upper n firstLarger) = false ∧
          e < v.head (v.linearSearchLoop e upper n firstLarger))
  | 0, f, hn, _ => by
      rw [linearSearchLoop]
      exact ⟨le_refl _, by omega, fun i h1 h2 _ _ => by omega, fun h => by omega⟩
  | n + 1, f, hn, hf => by
      rw [linearSearchLoop]
      split
      · rename_i hc
        have hle : f + 1 ≤ v.findNext f upper := v.le_skipEmpty (f + 1) upper
        have hle' : v.findNext f upper ≤ upper := v.skipEmpty_le hc.1
        obtain ⟨h1, h1', h2, h3⟩ := v.linearSearchLoop_spec e upper n (v.findNext f upper)
          (by omega) (fun h => skipEmpty_stop h)
        refine ⟨by omega, by omega, fun i hi hi' hu hne => ?_, h3⟩
        -- the block just passed, a hole behind it, or a block the rest of the loop passes
        rcases Nat.eq_or_lt_of_le hi with rfl | hlt
        · exact hc.2.2.elim le_of_lt (fun h => le_of_eq h.symm)
        · rcases Nat.lt_or_ge i (v.findNext f upper) with hskip | hge
          · rw [skipEmpty_skipped upper (Nat.succ_le_of_lt hlt) hskip] at hne
            exact absurd hne (by simp)
          · exact h2 i hge hi' hu hne
      · rename_i hc
        refine ⟨le_refl _, by omega, fun i h1 h2 _ _ => by omega, fun hu => ⟨hf hu, ?_⟩⟩
        by_contra hge
        exact hc ⟨hu, hf hu, (lt_or_eq_of_le (not_lt.mp hge)).imp id Eq.symm⟩

/-- **Linear search.**  The result is `lower` itself or a block with head at most `e`, and all
blocks between it and `upper` are larger. -/
theorem linearSearch_spec {lower upper : ℕ} (hinc : v.HeadsIncreasingOn lower upper) (e : K) :
    lower ≤ v.linearSearch e lower upper ∧
      (v.linearSearch e lower upper = lower ∨
        (v.linearSearch e lower upper < upper ∧ v.empty (v.linearSearch e lower upper) = false ∧
          v.head (v.linearSearch e lower upper) ≤ e)) ∧
      ∀ i, v.linearSearch e lower upper < i → i < upper → v.empty i = false → e < v.head i := by
  rw [linearSearch]
  have hfirst : lower + 1 ≤ v.findNext lower upper := v.le_skipEmpty (lower + 1) upper
  obtain ⟨h1, h1', h2, h3⟩ := v.linearSearchLoop_spec e upper
    (upper - v.findNext lower upper) (v.findNext lower upper) (by omega)
    (fun h => skipEmpty_stop h)
  generalize v.linearSearchLoop e upper (upper - v.findNext lower upper)
    (v.findNext lower upper) = f at h1 h1' h2 h3
  obtain ⟨g1, g2, g3, g4⟩ := v.findPrevious_spec f lower (by omega)
  generalize v.findPrevious f lower = r at g1 g2 g3 g4
  refine ⟨g1, ?_, fun i hi hu hne => ?_⟩
  · rcases Nat.eq_or_lt_of_le g1 with heq | hlt
    · exact Or.inl heq.symm
    · -- a result behind `lower` is a block the loop has passed
      have hne : v.empty r = false := g3.resolve_left (by omega)
      have hge : v.findNext lower upper ≤ r := by
        by_contra hskip
        rw [skipEmpty_skipped upper (Nat.succ_le_of_lt hlt) (not_le.mp hskip)] at hne
        exact absurd hne (by simp)
      have hru : r < upper := by omega
      exact Or.inr ⟨hru, hne, h2 r hge g2 hru hne⟩
  · rcases Nat.lt_or_ge i f with hlt | hge
    · rw [g4 i hi hlt] at hne
      exact absurd hne (by simp)
    · obtain ⟨hfe, hfh⟩ := h3 (by omega)
      rcases Nat.eq_or_lt_of_le hge with rfl | hlt
      · exact hfh
      · exact lt_trans hfh (hinc f i (by omega) hlt hu hfe hne)

/-! ## Binary search with holes -/

/-- What is known in front of `left`: no block at all, or the candidate is the last one. -/
def CandidateBelow (v : ArrayView K α) (e : K) (left : ℕ) : Option ℕ → Prop
  | none => ∀ j, j < left → v.empty j = true
  | some c => c < left ∧ v.empty c = false ∧ v.head c < e ∧
      ∀ j, c < j → j < left → v.empty j = true

/-- The invariant of `findContainingBlock`: the block searched for is the candidate or in
`[left, right)`. -/
structure Narrowed (v : ArrayView K α) (e : K) (left right : ℕ) (candidate : Option ℕ) : Prop where
  left_le : left ≤ right
  above : ∀ j, right ≤ j → v.empty j = false → e < v.head j
  below : v.CandidateBelow e left candidate

lemma CandidateBelow.extend {e : K} {left left' : ℕ} {candidate : Option ℕ}
    (h : v.CandidateBelow e left candidate) (hle : left ≤ left')
    (hempty : ∀ j, left ≤ j → j < left' → v.empty j = true) :
    v.CandidateBelow e left' candidate := by
  cases candidate with
  | none =>
      intro j hj
      rcases Nat.lt_or_ge j left with hlt | hge
      · exact h j hlt
      · exact hempty j hge hj
  | some c =>
      obtain ⟨h1, h2, h3, h4⟩ := h
      refine ⟨by omega, h2, h3, fun j hc hj => ?_⟩
      rcases Nat.lt_or_ge j left with hlt | hge
      · exact h4 j hc hlt
      · exact hempty j hge hj

/-- The binary search keeps its invariant and returns early only with a block whose head is `e`. -/
lemma containingLoop_spec (hinc : v.HeadsIncreasing) (e : K) :
    ∀ n left right candidate, v.Narrowed e left right candidate →
      match v.containingLoop e n left right candidate with
      | .found r => v.IsLastLE e r
      | .narrowed left' right' candidate' => v.Narrowed e left' right' candidate'
  | 0, left, right, candidate, h => by simpa [containingLoop] using h
  | n + 1, left, right, candidate, h => by
      rw [containingLoop]
      by_cases hcut : left + binarySearchCutoff + 1 < right
      · rw [if_pos hcut]
        simp only [binarySearchCutoff] at hcut
        have hmid : left ≤ (left + (right - 1)) / 2 ∧ (left + (right - 1)) / 2 < right := by omega
        dsimp only
        cases hprev : v.lastNonEmpty left ((left + (right - 1)) / 2) with
        | none =>
            refine containingLoop_spec hinc e n _ _ _ ⟨by omega, h.above, ?_⟩
            exact h.below.extend (by omega) fun j hj hj' =>
              lastNonEmpty_none hprev j hj (by omega)
        | some prev =>
            obtain ⟨h1, h2, h3, -⟩ := lastNonEmpty_some hprev
            dsimp only
            by_cases hlt : e < v.head prev
            · rw [if_pos hlt]
              refine containingLoop_spec hinc e n _ _ _ ⟨h1, fun j hj hne => ?_, h.below⟩
              rcases Nat.eq_or_lt_of_le hj with rfl | hj'
              · exact hlt
              · exact lt_trans hlt (hinc prev j hj' h3 hne)
            · rw [if_neg hlt]
              by_cases hgt : v.head prev < e
              · rw [if_pos hgt]
                exact containingLoop_spec hinc e n _ _ _
                  ⟨by omega, h.above, Nat.lt_succ_self _, h3, hgt, fun j hj hj' => by omega⟩
              · rw [if_neg hgt]
                have heq : v.head prev = e := le_antisymm (not_lt.mp hlt) (not_lt.mp hgt)
                exact ⟨h3, le_of_eq heq, fun j hj hne => heq ▸ hinc prev j hj h3 hne⟩
      · rw [if_neg hcut]
        exact h

/-- **`findContainingBlock` is right for every pattern of empty cells**: it returns the last block
with head at most `e`, or nothing when every head is larger. -/
theorem findContainingBlock_spec (h : v.Valid p) (e : K) :
    match v.findContainingBlock e with
    | some r => v.IsLastLE e r
    | none => ∀ j, v.empty j = false → e < v.head j := by
  have hinc := h.headsIncreasing
  have hstart : v.Narrowed e 0 v.size none :=
    ⟨Nat.zero_le _, fun j hj hne => absurd (h.lt_size hne) (by omega), fun j hj => by omega⟩
  have hloop := containingLoop_spec hinc e v.size 0 v.size none hstart
  rw [findContainingBlock]
  cases hres : v.containingLoop e v.size 0 v.size none with
  | found r => rw [hres] at hloop; exact hloop
  | narrowed left right candidate =>
      rw [hres] at hloop
      dsimp only at hloop ⊢
      obtain ⟨h1, h2, h3⟩ := linearSearch_spec (hinc.on left right) e
      generalize v.linearSearch e left right = r at h1 h2 h3
      by_cases hbad : v.empty r = true ∨ e < v.head r
      · -- the linear search came back with its own lower end, which is not a candidate
        rw [if_pos hbad]
        have hr : r = left := h2.resolve_right fun ⟨_, hne, hle⟩ =>
          hbad.elim (fun he => by simp [hne] at he) (fun hlt => absurd hlt (not_lt.mpr hle))
        subst hr
        have habove : ∀ j, r ≤ j → v.empty j = false → e < v.head j := by
          intro j hj hne
          rcases Nat.lt_or_ge j right with hlt | hge
          · rcases Nat.eq_or_lt_of_le hj with rfl | hj'
            · exact hbad.resolve_left (by simp [hne])
            · exact h3 j hj' hlt hne
          · exact hloop.above j hge hne
        have hbelow := hloop.below
        cases candidate with
        | none =>
            intro j hne
            rcases Nat.lt_or_ge j r with hlt | hge
            · have := hbelow j hlt
              simp [hne] at this
            · exact habove j hge hne
        | some c =>
            obtain ⟨-, hc2, hc3, hc4⟩ := hbelow
            refine ⟨hc2, le_of_lt hc3, fun j hj hne => ?_⟩
            rcases Nat.lt_or_ge j r with hlt | hge
            · have := hc4 j hj hlt
              simp [hne] at this
            · exact habove j hge hne
      · rw [if_neg hbad]
        push Not at hbad
        refine ⟨by simpa using hbad.1, hbad.2, fun j hj hne => ?_⟩
        rcases Nat.lt_or_ge j right with hlt | hge
        · exact h3 j hj hlt hne
        · exact hloop.above j hge hne

/-- `findBlockIndex`: the last block with head at most `e`; the first block when all heads are
larger; the end of the array when there is no block. -/
theorem findBlockIndex_spec (h : v.Valid p) (e : K) :
    v.IsLastLE e (v.findBlockIndex e) ∨
      ((∀ j, v.empty j = false → e < v.head j) ∧
        (∀ j, j < v.findBlockIndex e → v.empty j = true) ∧ v.findBlockIndex e ≤ v.size ∧
        (v.findBlockIndex e < v.size → v.empty (v.findBlockIndex e) = false)) := by
  have hspec := findContainingBlock_spec h e
  rw [findBlockIndex]
  cases hc : v.findContainingBlock e with
  | some r => rw [hc] at hspec; exact Or.inl hspec
  | none =>
      rw [hc] at hspec
      exact Or.inr ⟨hspec, fun j hj => skipEmpty_skipped v.size (Nat.zero_le _) hj,
        v.skipEmpty_le (Nat.zero_le _), fun hlt => skipEmpty_stop hlt⟩

end ArrayView

end BatchPMA
