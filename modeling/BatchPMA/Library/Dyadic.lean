import Mathlib.Tactic
import Mathlib.Algebra.BigOperators.Intervals
import Mathlib.Algebra.Order.BigOperators.Group.Finset

/-!
# Dyadic nodes

A complete binary tree over the natural numbers: the node number `i` of level `l` covers the
leaves `[i * 2 ^ l, (i + 1) * 2 ^ l)`, its parent is the node `i / 2` of level `l + 1`, and the
ancestor of a leaf `j` on level `l` is the node `j / 2 ^ l`.

`subtotal` adds up a function on the leaves over a node.
-/

namespace Dyadic

/-- The sum of `f` over the leaves of node `i` of level `l`. -/
def subtotal (f : ℕ → ℕ) (l i : ℕ) : ℕ := ∑ j ∈ Finset.Ico (i * 2 ^ l) ((i + 1) * 2 ^ l), f j

@[simp] lemma subtotal_zero (f : ℕ → ℕ) (i : ℕ) : subtotal f 0 i = f i := by
  simp [subtotal]

/-- A node is the disjoint union of its two children. -/
lemma subtotal_succ (f : ℕ → ℕ) (l i : ℕ) :
    subtotal f (l + 1) i = subtotal f l (i * 2) + subtotal f l (i * 2 + 1) := by
  have h1 : i * 2 ^ (l + 1) = i * 2 * 2 ^ l := by ring
  have h2 : (i + 1) * 2 ^ (l + 1) = (i * 2 + 1 + 1) * 2 ^ l := by ring
  rw [subtotal, subtotal, subtotal, h1, h2]
  refine (Finset.sum_Ico_consecutive f ?_ ?_).symm
  · exact Nat.mul_le_mul_right _ (by omega)
  · exact Nat.mul_le_mul_right _ (by omega)

/-- The leftmost nodes contain each other. -/
lemma subtotal_leftmost_le (f : ℕ → ℕ) {l k : ℕ} (hlk : l ≤ k) : subtotal f l 0 ≤ subtotal f k 0 := by
  induction k, hlk using Nat.le_induction with
  | base => exact le_refl _
  | succ k _ ih =>
      rw [subtotal_succ, Nat.zero_mul]
      exact le_trans ih (Nat.le_add_right _ _)

lemma subtotal_congr {f g : ℕ → ℕ} {l i : ℕ}
    (h : ∀ j, i * 2 ^ l ≤ j → j < (i + 1) * 2 ^ l → f j = g j) : subtotal f l i = subtotal g l i := by
  refine Finset.sum_congr rfl fun j hj => ?_
  rw [Finset.mem_Ico] at hj
  exact h j hj.1 hj.2

/-- Adding up segment by segment, for segments of width `w`. -/
lemma sum_segments (g : ℕ → ℕ) (w a : ℕ) : ∀ n,
    ∑ j ∈ Finset.Ico a (a + n), ∑ c ∈ Finset.Ico (j * w) ((j + 1) * w), g c =
      ∑ c ∈ Finset.Ico (a * w) ((a + n) * w), g c
  | 0 => by simp
  | n + 1 => by
      have h1 : a * w ≤ (a + n) * w := Nat.mul_le_mul_right _ (by omega)
      have h2 : (a + n) * w ≤ (a + n + 1) * w := Nat.mul_le_mul_right _ (by omega)
      rw [← Nat.add_assoc, Finset.sum_Ico_succ_top (by omega), sum_segments g w a n,
        Finset.sum_Ico_consecutive g h1 h2]

/-- A node over leaves that are segments of width `w` is itself a segment. -/
lemma subtotal_segments (g : ℕ → ℕ) (w l i : ℕ) :
    subtotal (fun j => ∑ c ∈ Finset.Ico (j * w) ((j + 1) * w), g c) l i =
      ∑ c ∈ Finset.Ico (i * (2 ^ l * w)) ((i + 1) * (2 ^ l * w)), g c := by
  have hb : (i + 1) * 2 ^ l = i * 2 ^ l + 2 ^ l := by ring
  have := sum_segments g w (i * 2 ^ l) (2 ^ l)
  rw [subtotal, hb, this, ← hb, Nat.mul_assoc, Nat.mul_assoc]

/-- The ancestor on the next level is the parent of the ancestor. -/
lemma ancestor_succ (j l : ℕ) : j / 2 ^ (l + 1) = j / 2 ^ l / 2 := by
  rw [Nat.div_div_eq_div_mul, pow_succ]

/-- Ancestors stay within the tree. -/
lemma ancestor_lt {j k l : ℕ} (hj : j < 2 ^ k) : j / 2 ^ l < 2 ^ (k - l) := by
  rcases Nat.le_total l k with hl | hl
  · rw [Nat.div_lt_iff_lt_mul (Nat.two_pow_pos l), ← pow_add]
    rwa [Nat.sub_add_cancel hl]
  · rw [Nat.sub_eq_zero_of_le hl, pow_zero, Nat.lt_one_iff]
    exact Nat.div_eq_of_lt (lt_of_lt_of_le hj (Nat.pow_le_pow_right (by norm_num) hl))

/-- The leaves of a node of the tree are leaves of the tree. -/
lemma leaf_lt {i j k l : ℕ} (hl : l ≤ k) (hi : i < 2 ^ (k - l)) (hj : j < (i + 1) * 2 ^ l) :
    j < 2 ^ k := by
  have h1 : (i + 1) * 2 ^ l ≤ 2 ^ (k - l) * 2 ^ l := Nat.mul_le_mul_right _ hi
  rw [← pow_add, Nat.sub_add_cancel hl] at h1
  omega

end Dyadic
