import Mathlib.Tactic
import Mathlib.Order.Interval.Set.LinearOrder

/-!
# Consecutive segments

A list of lengths cuts the numbers from zero on into consecutive segments; `offset` is where a
segment begins.  The same numbers are also cut into shares of equal width, one for each worker.
This module has the facts that relate the two: which segment a number lies in, and that the
shares cover everything and do not overlap.
-/

namespace Segments

variable {ι β : Type*}

/-- Where segment `i` begins. -/
def offset (len : ι → ℕ) (l : List ι) (i : ℕ) : ℕ := ((l.take i).map len).sum

variable {len : ι → ℕ} {l : List ι}

@[simp] lemma offset_zero (len : ι → ℕ) (l : List ι) : offset len l 0 = 0 := by simp [offset]

lemma offset_succ {i : ℕ} {x : ι} (h : l[i]? = some x) :
    offset len l (i + 1) = offset len l i + len x := by
  rw [offset, offset, List.take_add_one, h]
  simp

lemma offset_mono (len : ι → ℕ) (l : List ι) {i j : ℕ} (h : i ≤ j) :
    offset len l i ≤ offset len l j := by
  obtain ⟨k, rfl⟩ := Nat.exists_eq_add_of_le h
  rw [offset, offset, List.take_add, List.map_append, List.sum_append]
  exact Nat.le_add_right _ _

lemma offset_of_length_le {i : ℕ} (h : l.length ≤ i) :
    offset len l i = offset len l l.length := by
  rw [offset, offset, List.take_of_length_le h, List.take_length]

/-- Segments of different numbers do not overlap. -/
lemma offset_unique {i j g : ℕ} (h1 : offset len l i ≤ g) (h2 : g < offset len l (i + 1))
    (h3 : offset len l j ≤ g) (h4 : g < offset len l (j + 1)) : i = j := by
  rcases Nat.lt_trichotomy i j with h | h | h
  · have := offset_mono len l (Nat.succ_le_of_lt h)
    rw [Nat.succ_eq_add_one] at this
    omega
  · exact h
  · have := offset_mono len l (Nat.succ_le_of_lt h)
    rw [Nat.succ_eq_add_one] at this
    omega

/-- Every number in front of the end lies in a segment. -/
lemma exists_segment : ∀ {n g : ℕ}, g < offset len l n →
    ∃ i < n, offset len l i ≤ g ∧ g < offset len l (i + 1)
  | 0, g, h => by simp at h
  | n + 1, g, h => by
      rcases Nat.lt_or_ge g (offset len l n) with hlt | hge
      · obtain ⟨i, hi, h1, h2⟩ := exists_segment hlt
        exact ⟨i, by omega, h1, h2⟩
      · exact ⟨n, Nat.lt_succ_self n, hge, h⟩

/-- The elements of a list of lists by segment and position. -/
lemma getElem?_flatMap {f : ι → List β} : ∀ {l : List ι} {i j : ℕ} {x : ι}, l[i]? = some x →
    j < (f x).length → (l.flatMap f)[offset (fun y => (f y).length) l i + j]? = (f x)[j]?
  | [], i, j, x, h, _ => by simp at h
  | y :: l, 0, j, x, h, hj => by
      obtain rfl : y = x := by simpa using h
      rw [List.flatMap_cons, offset_zero, Nat.zero_add, List.getElem?_append_left hj]
  | y :: l, i + 1, j, x, h, hj => by
      have hoff : offset (fun y => (f y).length) (y :: l) (i + 1) =
          (f y).length + offset (fun y => (f y).length) l i := by simp [offset]
      rw [List.flatMap_cons, hoff, Nat.add_assoc, List.getElem?_append_right (Nat.le_add_right _ _),
        Nat.add_sub_cancel_left]
      exact getElem?_flatMap (by simpa using h) hj

lemma length_flatMap_eq_offset (f : ι → List β) (l : List ι) :
    (l.flatMap f).length = offset (fun y => (f y).length) l l.length := by
  rw [offset, List.take_length, List.length_flatMap]

lemma offset_congr (len' : ι → ℕ) (h : ∀ x ∈ l, len x = len' x) (i : ℕ) :
    offset len l i = offset len' l i := by
  rw [offset, offset, List.map_congr_left fun x hx => h x (List.mem_of_mem_take hx)]

/-! ## Work on consecutive segments

`Inv D s` says that `s` is a state in which the numbers in `D` have been dealt with. -/

section Run

variable {σ : Type*} {Inv : Set ℕ → σ → Prop}

/-- Whole segments one after the other. -/
lemma run_segments {off : ℕ → ℕ} (hoff : Monotone off) (full : σ → ℕ → σ) {a : ℕ} : ∀ {n : ℕ},
    (∀ i, a ≤ i → i < a + n → ∀ D s, Inv D s → (∀ g ∈ Set.Ico (off i) (off (i + 1)), g ∉ D) →
      Inv (D ∪ Set.Ico (off i) (off (i + 1))) (full s i)) →
    ∀ D s, Inv D s → (∀ g ∈ Set.Ico (off a) (off (a + n)), g ∉ D) →
      Inv (D ∪ Set.Ico (off a) (off (a + n))) ((List.range' a n).foldl full s)
  | 0, _, D, s, h, _ => by simpa using h
  | n + 1, hfull, D, s, h, hD => by
      have h1 : off a ≤ off (a + n) := hoff (Nat.le_add_right _ _)
      have h2 : off (a + n) ≤ off (a + n + 1) := hoff (Nat.le_succ _)
      have hpre := run_segments hoff full (fun i ha hi => hfull i ha (by omega)) D s h
        (fun g hg => hD g ⟨hg.1, lt_of_lt_of_le hg.2 h2⟩)
      rw [List.range'_concat, List.foldl_append, Nat.one_mul]
      have hstep := hfull (a + n) (Nat.le_add_right _ _) (by omega) _ _ hpre (fun g hg hin => by
        rcases hin with hin | hin
        · exact hD g ⟨le_trans h1 hg.1, hg.2⟩ hin
        · exact absurd hin.2 (not_lt.mpr hg.1))
      rw [Set.union_assoc, Set.Ico_union_Ico_eq_Ico h1 h2] at hstep
      exact hstep

/-- A run of numbers that begins in one segment and ends in another one: a part of the first, the
segments in between, and a part of the last. -/
lemma run_pieces {off : ℕ → ℕ} (hoff : Monotone off) (first last : σ → σ) (full : σ → ℕ → σ)
    {i j b e : ℕ} (hij : i ≤ j) (hb : b ≤ off (i + 1)) (he : e ≤ off (j + 1))
    (hje : i < j → off j ≤ e)
    (hfirst : ∀ D s, Inv D s → (∀ g ∈ Set.Ico b (min e (off (i + 1))), g ∉ D) →
      Inv (D ∪ Set.Ico b (min e (off (i + 1)))) (first s))
    (hfull : ∀ k, i < k → k < j → ∀ D s, Inv D s →
      (∀ g ∈ Set.Ico (off k) (off (k + 1)), g ∉ D) →
      Inv (D ∪ Set.Ico (off k) (off (k + 1))) (full s k))
    (hlast : i < j → ∀ D s, Inv D s → (∀ g ∈ Set.Ico (off j) e, g ∉ D) →
      Inv (D ∪ Set.Ico (off j) e) (last s))
    {D : Set ℕ} {s : σ} (h : Inv D s) (hD : ∀ g ∈ Set.Ico b e, g ∉ D) :
    Inv (D ∪ Set.Ico b e) (if i < j then
      last ((List.range' (i + 1) (j - (i + 1))).foldl full (first s))
      else (List.range' (i + 1) (j - (i + 1))).foldl full (first s)) := by
  have h1 := hfirst D s h fun g hg => hD g ⟨hg.1, lt_of_lt_of_le hg.2 (min_le_left _ _)⟩
  split
  · rename_i hlt
    have hend := hje hlt
    have hmid : off (i + 1) ≤ off j := hoff hlt
    rw [min_eq_right (by omega)] at h1
    have h2 := run_segments hoff full (a := i + 1) (n := j - (i + 1))
      (fun k h1 h2 => hfull k (by omega) (by omega)) _ _ h1
    rw [Nat.add_sub_cancel' hlt] at h2
    have h2' := h2 fun g hg hin => by
      rcases hin with hin | hin
      · exact hD g ⟨le_trans hb hg.1, lt_of_lt_of_le hg.2 hend⟩ hin
      · exact absurd hin.2 (not_lt.mpr hg.1)
    rw [Set.union_assoc, Set.Ico_union_Ico_eq_Ico hb hmid] at h2'
    have h3 := hlast hlt _ _ h2' fun g hg hin => by
      rcases hin with hin | hin
      · exact hD g ⟨le_trans (le_trans hb hmid) hg.1, hg.2⟩ hin
      · exact absurd hin.2 (not_lt.mpr hg.1)
    rw [Set.union_assoc, Set.Ico_union_Ico_eq_Ico (le_trans hb hmid) hend] at h3
    exact h3
  · obtain rfl : i = j := by omega
    rw [min_eq_left he] at h1
    rw [Nat.sub_eq_zero_of_le (Nat.le_succ i)]
    exact h1

end Run

/-! ## Shares -/

/-- The first number of the share of worker `t`, when every share has `n / k + 1` numbers. -/
def shareStart (n k t : ℕ) : ℕ := t * (n / k + 1)

lemma lt_mul_share {n k : ℕ} (hk : 0 < k) : n < k * (n / k + 1) := by
  have := Nat.lt_div_mul_add hk (a := n)
  rw [Nat.mul_add, Nat.mul_one, Nat.mul_comm]
  exact this

/-- Every number lies in the share of exactly one worker. -/
lemma share_of {n k g : ℕ} (hk : 0 < k) (hg : g < n) :
    g / (n / k + 1) < k ∧ shareStart n k (g / (n / k + 1)) ≤ g ∧
      g < shareStart n k (g / (n / k + 1) + 1) := by
  have hpos : 0 < n / k + 1 := Nat.succ_pos _
  refine ⟨?_, Nat.div_mul_le_self _ _, ?_⟩
  · rw [Nat.div_lt_iff_lt_mul hpos]
    exact lt_trans hg (lt_mul_share hk)
  · rw [shareStart, Nat.add_mul, Nat.one_mul]
    exact Nat.lt_div_mul_add hpos

/-- The numbers worker `t` has to deal with. -/
def share (n k t : ℕ) : Set ℕ := Set.Ico (shareStart n k t) (min n (shareStart n k (t + 1)))

lemma share_unique {n k t t' g : ℕ} (h1 : shareStart n k t ≤ g) (h2 : g < shareStart n k (t + 1))
    (h3 : shareStart n k t' ≤ g) (h4 : g < shareStart n k (t' + 1)) : t = t' := by
  simp only [shareStart] at *
  have e1 := Nat.div_eq_of_lt_le h1 h2
  have e2 := Nat.div_eq_of_lt_le h3 h4
  exact e1.symm.trans e2

/-- All workers, in any order. -/
lemma run_shares {σ : Type*} {Inv : Set ℕ → σ → Prop} (body : σ → ℕ → σ) {n k : ℕ} (hk : 0 < k)
    (hbody : ∀ t < k, ∀ D s, Inv D s → (∀ g ∈ share n k t, g ∉ D) →
      Inv (D ∪ share n k t) (body s t))
    {order : List ℕ} (hperm : order.Perm (List.range k)) {s : σ} (h : Inv ∅ s) :
    Inv (Set.Iio n) (order.foldl body s) := by
  have hrun : ∀ (l : List ℕ) (D : Set ℕ) (s : σ), (∀ t ∈ l, t < k) → l.Nodup → Inv D s →
      (∀ t ∈ l, ∀ g ∈ share n k t, g ∉ D) →
      Inv (D ∪ ⋃ t ∈ l, share n k t) (l.foldl body s) := by
    intro l
    induction l with
    | nil => intro D s _ _ h _; simpa using h
    | cons t l ih =>
        intro D s hlt hnd h hD
        have hstep := hbody t (hlt t List.mem_cons_self) D s h (hD t List.mem_cons_self)
        have hrest := ih (D ∪ share n k t) (body s t)
          (fun t' ht' => hlt t' (List.mem_cons_of_mem _ ht')) (List.nodup_cons.mp hnd).2 hstep ?_
        · have hset : D ∪ share n k t ∪ ⋃ t' ∈ l, share n k t' =
              D ∪ ⋃ t' ∈ t :: l, share n k t' := by
            simp [Set.union_assoc, Set.iUnion_or, Set.iUnion_union_distrib]
          rw [hset] at hrest
          exact hrest
        · intro t' ht' g hg hin
          rcases hin with hin | hin
          · exact hD t' (List.mem_cons_of_mem _ ht') g hg hin
          · -- shares of different workers have no number in common
            have := share_unique hg.1 (lt_of_lt_of_le hg.2 (min_le_right _ _)) hin.1
              (lt_of_lt_of_le hin.2 (min_le_right _ _))
            exact (List.nodup_cons.mp hnd).1 (this ▸ ht')
  have hall := hrun order ∅ s (fun t ht => List.mem_range.mp (hperm.mem_iff.mp ht))
    (hperm.nodup_iff.mpr List.nodup_range) h (fun _ _ _ _ => Set.notMem_empty _)
  have hset : ∅ ∪ ⋃ t ∈ order, share n k t = Set.Iio n := by
    ext g
    simp only [Set.empty_union, Set.mem_iUnion, Set.mem_Iio, exists_prop]
    constructor
    · rintro ⟨t, -, hg⟩
      exact lt_of_lt_of_le hg.2 (min_le_left _ _)
    · intro hg
      obtain ⟨h1, h2, h3⟩ := share_of hk hg
      exact ⟨_, hperm.mem_iff.mpr (List.mem_range.mpr h1), h2, lt_min hg h3⟩
  rw [hset] at hall
  exact hall

end Segments
