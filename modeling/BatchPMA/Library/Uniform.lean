import Mathlib.Tactic

/-!
# Spreading items evenly

`spread length n k` is the position of item `k` when `n` items are spread evenly over `length`
positions, rounded down.  A run of items `[x, y)` can also be spread on its own over the positions
from `spread length n x` to `spread length n y`; this is `pieceSpread`.  In both cases items keep
their order, different items get different positions if there are at least as many positions as
items, and no gap is wider than `w` if there are at most `w` positions for each item.
-/

namespace Uniform

/-- The position of item `k`. -/
def spread (length n k : ℕ) : ℕ := k * length / n

/-- The position of item `k` when the items `[x, y)` are spread on their own. -/
def pieceSpread (length n x y k : ℕ) : ℕ :=
  spread length n x + spread (spread length n y - spread length n x) (y - x) (k - x)

variable {length n w x y k : ℕ}

@[simp] lemma spread_zero (length n : ℕ) : spread length n 0 = 0 := by simp [spread]

lemma spread_self (length : ℕ) (h : 0 < n) : spread length n n = length := by
  rw [spread, Nat.mul_div_cancel_left _ h]

lemma spread_add_le (h : n ≤ length) (hn : 0 < n) (k d : ℕ) :
    spread length n k + d ≤ spread length n (k + d) := by
  rw [spread, spread, ← Nat.add_mul_div_right _ _ hn, Nat.add_mul]
  exact Nat.div_le_div_right (Nat.add_le_add_left (Nat.mul_le_mul_left d h) _)

lemma spread_mono (length n : ℕ) {k k' : ℕ} (h : k ≤ k') :
    spread length n k ≤ spread length n k' :=
  Nat.div_le_div_right (Nat.mul_le_mul_right _ h)

lemma spread_add_le_add (h : length ≤ w * n) (hn : 0 < n) (k d : ℕ) :
    spread length n (k + d) ≤ spread length n k + w * d := by
  have hmul : d * length ≤ w * d * n := by
    calc d * length ≤ d * (w * n) := Nat.mul_le_mul_left d h
      _ = w * d * n := by ring
  rw [spread, spread, Nat.add_mul, ← Nat.add_mul_div_right _ _ hn]
  exact Nat.div_le_div_right (Nat.add_le_add_left hmul _)

lemma spread_lt (h : n ≤ length) (hn : 0 < n) {k k' : ℕ} (hk : k < k') :
    spread length n k < spread length n k' := by
  have := spread_add_le h hn k (k' - k)
  rw [Nat.add_sub_cancel' hk.le] at this
  omega

/-! ## Pieces -/

lemma pieceSpread_left (length n x y : ℕ) :
    pieceSpread length n x y x = spread length n x := by
  rw [pieceSpread, Nat.sub_self, spread_zero, Nat.add_zero]

lemma pieceSpread_right (length n : ℕ) (h : x < y) :
    pieceSpread length n x y y = spread length n y := by
  rw [pieceSpread, spread_self _ (by omega)]
  exact Nat.add_sub_cancel' (spread_mono _ _ h.le)

/-- A whole run is spread as before. -/
lemma pieceSpread_whole (hn : 0 < n) (k : ℕ) :
    pieceSpread length n 0 n k = spread length n k := by
  rw [pieceSpread, spread_zero, spread_self _ hn, Nat.zero_add, Nat.sub_zero, Nat.sub_zero,
    Nat.sub_zero]

/-- A piece has at least as many positions as items. -/
lemma le_piece (h : n ≤ length) (hn : 0 < n) (hxy : x ≤ y) :
    y - x ≤ spread length n y - spread length n x := by
  have := spread_add_le h hn x (y - x)
  rw [Nat.add_sub_cancel' hxy] at this
  omega

lemma pieceSpread_lt (h : n ≤ length) (hn : 0 < n) {k k' : ℕ} (hx : x ≤ k) (hk : k < k')
    (hy : k' ≤ y) : pieceSpread length n x y k < pieceSpread length n x y k' := by
  have := spread_lt (le_piece h hn (by omega : x ≤ y)) (by omega) (by omega : k - x < k' - x)
  rw [pieceSpread, pieceSpread]
  omega

lemma le_pieceSpread (length n x y k : ℕ) : spread length n x ≤ pieceSpread length n x y k :=
  Nat.le_add_right _ _

lemma pieceSpread_lt_right (h : n ≤ length) (hn : 0 < n) (hx : x ≤ k) (hy : k < y) :
    pieceSpread length n x y k < spread length n y := by
  rw [← pieceSpread_right length n (lt_of_le_of_lt hx hy)]
  exact pieceSpread_lt h hn hx hy (le_refl y)

/-- No gap within a piece, or between a piece and the next one, is wider than `w`. -/
lemma pieceSpread_succ_le (h : length ≤ w * n) (hn : 0 < n) (hx : x ≤ k) (hy : k < y) :
    pieceSpread length n x y (k + 1) ≤ pieceSpread length n x y k + w := by
  have hpiece := spread_add_le_add h hn x (y - x)
  rw [Nat.add_sub_cancel' (by omega : x ≤ y)] at hpiece
  have := spread_add_le_add (by omega : spread length n y - spread length n x ≤ w * (y - x))
    (by omega) (k - x) 1
  have hk : k + 1 - x = k - x + 1 := by omega
  rw [pieceSpread, pieceSpread, hk]
  omega

end Uniform
