import Mathlib.Tactic

/-!
# Lists over ranges of cells

Every cell of an array holds a list of items, and a range of cells holds the items of its cells
one after the other.  If the items are rearranged within disjoint ranges, each of which still
holds the same list, the whole array holds the same list.
-/

namespace Ranges

variable {β : Type*} {f f' : ℕ → List β}

/-- The items of the cells `[a, b)`. -/
def itemsIn (f : ℕ → List β) (a b : ℕ) : List β := (List.range' a (b - a)).flatMap f

lemma itemsIn_append (f : ℕ → List β) {a b c : ℕ} (h1 : a ≤ b) (h2 : b ≤ c) :
    itemsIn f a c = itemsIn f a b ++ itemsIn f b c := by
  have hr : List.range' a (c - a) = List.range' a (b - a) ++ List.range' b (c - b) := by
    have := @List.range'_append a (b - a) (c - b) 1
    rw [Nat.one_mul, Nat.add_sub_cancel' h1] at this
    rw [this]
    congr 1
    omega
  rw [itemsIn, hr, List.flatMap_append]
  rfl

lemma itemsIn_succ (f : ℕ → List β) (c : ℕ) : itemsIn f c (c + 1) = f c := by
  rw [itemsIn, Nat.add_sub_cancel_left, List.range'_one, List.flatMap_singleton]

lemma itemsIn_congr {a b : ℕ} (h : ∀ c, a ≤ c → c < b → f c = f' c) :
    itemsIn f a b = itemsIn f' a b := by
  rw [itemsIn, itemsIn, List.flatMap_def, List.flatMap_def, List.map_congr_left]
  intro c hc
  have := List.mem_range'_1.mp hc
  exact h c this.1 (by omega)

lemma itemsIn_eq_nil {a b : ℕ} (h : ∀ c, a ≤ c → c < b → f c = []) : itemsIn f a b = [] := by
  rw [itemsIn, List.flatMap_eq_nil_iff]
  intro c hc
  have := List.mem_range'_1.mp hc
  exact h c this.1 (by omega)

lemma itemsIn_sublist (h : ∀ c, (f c).Sublist (f' c)) {a b : ℕ} :
    (itemsIn f a b).Sublist (itemsIn f' a b) := by
  rw [itemsIn, itemsIn]
  induction List.range' a (b - a) with
  | nil => exact List.Sublist.refl _
  | cons c cells ih =>
      rw [List.flatMap_cons, List.flatMap_cons]
      exact (h c).append ih

/-- Cells that hold what the cells behind them held. -/
lemma itemsIn_shift (f : ℕ → List β) (a b : ℕ) :
    itemsIn (fun c => f (c + 1)) a b = itemsIn f (a + 1) (b + 1) := by
  have hr : List.range' (a + 1) (b + 1 - (a + 1)) = (List.range' a (b - a)).map (1 + ·) := by
    rw [List.map_add_range', Nat.add_sub_add_right, Nat.add_comm]
  rw [itemsIn, itemsIn, hr, List.flatMap_map]
  simp only [Nat.add_comm 1]

/-- If no cell is without items, there are as many items as cells at least. -/
lemma le_length_itemsIn {a b : ℕ} (h : ∀ c, a ≤ c → c < b → f c ≠ []) :
    b - a ≤ (itemsIn f a b).length := by
  rw [itemsIn, List.length_flatMap]
  have hsum := List.card_nsmul_le_sum ((List.range' a (b - a)).map fun c => (f c).length) 1
    fun x hx => by
      obtain ⟨c, hc, rfl⟩ := List.mem_map.mp hx
      have := List.mem_range'_1.mp hc
      exact List.length_pos_iff.mpr (h c this.1 (by omega))
  simpa using hsum

lemma length_itemsIn_le {a b : ℕ} (h : ∀ c, a ≤ c → c < b → (f c).length ≤ 1) :
    (itemsIn f a b).length ≤ b - a := by
  rw [itemsIn, List.length_flatMap]
  have hsum := List.sum_le_card_nsmul ((List.range' a (b - a)).map fun c => (f c).length) 1
    fun x hx => by
      obtain ⟨c, hc, rfl⟩ := List.mem_map.mp hx
      have := List.mem_range'_1.mp hc
      exact h c this.1 (by omega)
  simpa using hsum

/-- Rearranging items within disjoint ranges. -/
lemma itemsIn_patch {f : ℕ → List β} {n : ℕ} : ∀ {f' : ℕ → List β} (ranges : List (ℕ × ℕ)),
    ranges.Pairwise (fun r r' => ∀ c, r.1 ≤ c → c < r.2 → ¬ (r'.1 ≤ c ∧ c < r'.2)) →
    (∀ r ∈ ranges, r.1 ≤ r.2 ∧ r.2 ≤ n ∧ itemsIn f' r.1 r.2 = itemsIn f r.1 r.2) →
    (∀ c, (∀ r ∈ ranges, ¬ (r.1 ≤ c ∧ c < r.2)) → f' c = f c) →
    itemsIn f' 0 n = itemsIn f 0 n
  | f', [], _, _, hout => itemsIn_congr fun c _ _ => hout c (fun r hr => absurd hr List.not_mem_nil)
  | f', r :: ranges, hdis, hin, hout => by
      obtain ⟨hfirst, hrest⟩ := List.pairwise_cons.mp hdis
      obtain ⟨h1, h2, heq⟩ := hin r List.mem_cons_self
      -- undo the rearrangement of the first range
      have hundo : itemsIn f' 0 n =
          itemsIn (fun c => if r.1 ≤ c ∧ c < r.2 then f c else f' c) 0 n := by
        rw [itemsIn_append f' (Nat.zero_le r.1) (le_trans h1 h2), itemsIn_append f' h1 h2,
          itemsIn_append _ (Nat.zero_le r.1) (le_trans h1 h2), itemsIn_append _ h1 h2]
        congr 1
        · exact itemsIn_congr fun c _ hc => (if_neg (by omega)).symm
        · congr 1
          · rw [heq]
            exact itemsIn_congr fun c h3 h4 => (if_pos ⟨h3, h4⟩).symm
          · exact itemsIn_congr fun c hc _ => (if_neg (by omega)).symm
      rw [hundo]
      refine itemsIn_patch ranges hrest (fun r' hr' => ?_) fun c hc => ?_
      · obtain ⟨h1', h2', heq'⟩ := hin r' (List.mem_cons_of_mem _ hr')
        refine ⟨h1', h2', ?_⟩
        rw [← heq']
        exact itemsIn_congr fun c h3 h4 =>
          if_neg fun ⟨h5, h6⟩ => hfirst r' hr' c h5 h6 ⟨h3, h4⟩
      · split
        · rfl
        · rename_i hnot
          refine hout c fun r' hr' => ?_
          rcases List.mem_cons.mp hr' with rfl | hr'
          · exact hnot
          · exact hc r' hr'

/-- One item in each of `n` cells, in order, and nothing in the other cells. -/
lemma itemsIn_targets {a : ℕ} {t : ℕ → ℕ} {item : ℕ → β} : ∀ {n b : ℕ},
    (∀ k < n, a ≤ t k ∧ t k < b) → (∀ k k', k < k' → k' < n → t k < t k') →
    (∀ k < n, f (t k) = [item k]) →
    (∀ c, a ≤ c → c < b → (∀ k < n, t k ≠ c) → f c = []) →
    itemsIn f a b = (List.range n).map item
  | 0, b, _, _, _, hno => itemsIn_eq_nil fun c h1 h2 => hno c h1 h2 fun k hk => by omega
  | n + 1, b, ht, hmono, hitem, hno => by
      obtain ⟨h1, h2⟩ := ht n (Nat.lt_succ_self n)
      have hpre := itemsIn_targets (n := n) (b := t n)
        (fun k hk => ⟨(ht k (by omega)).1, hmono k n hk (Nat.lt_succ_self n)⟩)
        (fun k k' hk hk' => hmono k k' hk (by omega)) (fun k hk => hitem k (by omega))
        (fun c h3 h4 hc => hno c h3 (by omega) fun k hk => by
          rcases Nat.eq_or_lt_of_le (Nat.lt_succ_iff.mp hk) with rfl | hlt
          · omega
          · exact hc k hlt)
      have hpost : itemsIn f (t n + 1) b = [] := by
        refine itemsIn_eq_nil fun c h3 h4 => hno c (by omega) h4 fun k hk => ?_
        rcases Nat.eq_or_lt_of_le (Nat.lt_succ_iff.mp hk) with rfl | hlt
        · omega
        · have := hmono k n hlt (Nat.lt_succ_self n)
          omega
      rw [itemsIn_append f h1 h2.le, itemsIn_append f (Nat.le_succ (t n)) h2, itemsIn_succ,
        hitem n (Nat.lt_succ_self n), hpre, hpost, List.range_succ, List.map_append]
      rfl

end Ranges
