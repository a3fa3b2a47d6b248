import Mathlib.Tactic
import Mathlib.Data.Int.Log

/-!
# Rounding to a number of binary digits

`nearest p x` is the number with at most `p` binary digits that is nearest to `x`; of two equally
near ones it is the one with the even last digit.  Exponents are unbounded, so there is neither
overflow nor underflow.

Numbers that have the format are kept, rounding is monotone on the non-negative numbers, and the
relative error is at most `2 ^ -p`.
-/

namespace Rounding

/-- The integer nearest to `x`, the even one if there are two. -/
def nearestEven (x : ℚ) : ℤ :=
  if x - ⌊x⌋ < 1 / 2 ∨ x - ⌊x⌋ = 1 / 2 ∧ ⌊x⌋ % 2 = 0 then ⌊x⌋ else ⌊x⌋ + 1

/-- The value of the last of `p` digits of `x`. -/
def lastPlace (p : ℕ) (x : ℚ) : ℚ := 2 ^ (Int.log 2 |x| + 1 - p)

/-- `x` rounded to `p` binary digits. -/
def nearest (p : ℕ) (x : ℚ) : ℚ := nearestEven (x / lastPlace p x) * lastPlace p x

/-! ## Integers -/

@[simp] lemma nearestEven_intCast (n : ℤ) : nearestEven (n : ℚ) = n := by simp [nearestEven]

lemma abs_nearestEven_sub_le (x : ℚ) : |(nearestEven x : ℚ) - x| ≤ 1 / 2 := by
  have h0 := Int.floor_le x
  have h1 := Int.lt_floor_add_one x
  rw [nearestEven, abs_le]
  split_ifs with h
  · have : x - ⌊x⌋ ≤ 1 / 2 := h.elim le_of_lt fun h => h.1.le
    constructor <;> linarith
  · have : 1 / 2 ≤ x - ⌊x⌋ := le_of_not_gt fun hlt => h (Or.inl hlt)
    push_cast
    constructor <;> linarith

lemma floor_le_nearestEven (x : ℚ) : ⌊x⌋ ≤ nearestEven x := by
  rw [nearestEven]
  split_ifs <;> omega

lemma nearestEven_le_floor_add_one (x : ℚ) : nearestEven x ≤ ⌊x⌋ + 1 := by
  rw [nearestEven]
  split_ifs <;> omega

lemma nearestEven_mono {x y : ℚ} (h : x ≤ y) : nearestEven x ≤ nearestEven y := by
  rcases (Int.floor_mono h).eq_or_lt with heq | hlt
  · -- between the same two integers: if `y` is rounded down then so is `x`
    rw [nearestEven, nearestEven, heq]
    split_ifs with hx hy hy
    · exact le_refl _
    · omega
    · refine absurd ?_ hx
      rcases hy with hy | hy
      · exact Or.inl (by linarith)
      · rcases h.eq_or_lt with hxy | hxy
        · exact Or.inr ⟨by rw [hxy]; exact hy.1, hy.2⟩
        · exact Or.inl (by linarith)
    · exact le_refl _
  · calc nearestEven x ≤ ⌊x⌋ + 1 := nearestEven_le_floor_add_one x
      _ ≤ ⌊y⌋ := hlt
      _ ≤ nearestEven y := floor_le_nearestEven y

/-! ## Binary digits -/

variable (p : ℕ)

lemma lastPlace_pos (x : ℚ) : 0 < lastPlace p x := zpow_pos two_pos _

@[simp] lemma nearest_zero : nearest p 0 = 0 := by
  have h := nearestEven_intCast 0
  rw [Int.cast_zero] at h
  rw [nearest, zero_div, h, Int.cast_zero, zero_mul]

/-- The relative error of a rounding. -/
lemma abs_nearest_sub_le (x : ℚ) : |nearest p x - x| ≤ |x| / 2 ^ p := by
  rcases eq_or_ne x 0 with rfl | hx
  · simp
  have hpos := lastPlace_pos p x
  have hlog : (2 : ℚ) ^ Int.log 2 |x| ≤ |x| := by
    exact_mod_cast Int.zpow_log_le_self one_lt_two (abs_pos.mpr hx)
  have herror : nearest p x - x =
      ((nearestEven (x / lastPlace p x) : ℚ) - x / lastPlace p x) * lastPlace p x := by
    rw [nearest, sub_mul, div_mul_cancel₀ x hpos.ne']
  have hplace : lastPlace p x = 2 ^ Int.log 2 |x| * 2 / 2 ^ p := by
    rw [lastPlace, zpow_sub₀ two_ne_zero, zpow_add_one₀ two_ne_zero, zpow_natCast]
  calc |nearest p x - x|
      ≤ 1 / 2 * lastPlace p x := by
        rw [herror, abs_mul, abs_of_pos hpos]
        exact mul_le_mul_of_nonneg_right (abs_nearestEven_sub_le _) hpos.le
    _ = 2 ^ Int.log 2 |x| / 2 ^ p := by rw [hplace]; ring
    _ ≤ |x| / 2 ^ p := div_le_div_of_nonneg_right hlog (by positivity)

lemma nearest_le_mul {x : ℚ} (hx : 0 ≤ x) : nearest p x ≤ x * (1 + 1 / 2 ^ p) := by
  have h := (abs_le.mp (abs_nearest_sub_le p x)).2
  rw [abs_of_nonneg hx] at h
  calc nearest p x ≤ x + x / 2 ^ p := by linarith
    _ = x * (1 + 1 / 2 ^ p) := by ring

lemma mul_le_nearest {x : ℚ} (hx : 0 ≤ x) : x * (1 - 1 / 2 ^ p) ≤ nearest p x := by
  have h := (abs_le.mp (abs_nearest_sub_le p x)).1
  rw [abs_of_nonneg hx] at h
  calc x * (1 - 1 / 2 ^ p) = x - x / 2 ^ p := by ring
    _ ≤ nearest p x := by linarith

/-- A number of the format is kept: an integer of at most `p` digits, moved by a power of two. -/
lemma nearest_eq_self {n : ℕ} (hn : n < 2 ^ p) (k : ℤ) :
    nearest p (n * 2 ^ k) = n * 2 ^ k := by
  rcases n.eq_zero_or_pos with rfl | hpos
  · simp
  have hn0 : (0 : ℚ) < n := by exact_mod_cast hpos
  have hx : (0 : ℚ) < n * 2 ^ k := mul_pos hn0 (zpow_pos two_pos _)
  -- the last place is a power of two at most `2 ^ k`
  have hlog : Int.log 2 |(n * 2 ^ k : ℚ)| + 1 - p ≤ k := by
    have hlt : Int.log 2 |(n * 2 ^ k : ℚ)| < p + k := by
      rw [abs_of_pos hx, ← Int.lt_zpow_iff_log_lt one_lt_two hx]
      push_cast
      rw [zpow_add₀ two_ne_zero, zpow_natCast]
      refine mul_lt_mul_of_pos_right ?_ (zpow_pos two_pos _)
      exact_mod_cast hn
    omega
  obtain ⟨d, hd⟩ := Int.le.dest hlog
  have hdiv : (n * 2 ^ k : ℚ) / lastPlace p (n * 2 ^ k) = ((n * 2 ^ d : ℕ) : ℤ) := by
    have hd' : k - (Int.log 2 |(n * 2 ^ k : ℚ)| + 1 - p) = (d : ℤ) := by omega
    rw [lastPlace, mul_div_assoc, ← zpow_sub₀ two_ne_zero, hd', zpow_natCast]
    push_cast
    rfl
  rw [nearest, hdiv, nearestEven_intCast, ← hdiv, div_mul_cancel₀ _ (lastPlace_pos p _).ne']

lemma nearest_nonneg {x : ℚ} (hx : 0 ≤ x) : 0 ≤ nearest p x := by
  have h : nearestEven 0 ≤ nearestEven (x / lastPlace p x) :=
    nearestEven_mono (div_nonneg hx (lastPlace_pos p x).le)
  have h0 := nearestEven_intCast 0
  rw [Int.cast_zero] at h0
  rw [h0] at h
  exact mul_nonneg (by exact_mod_cast h) (lastPlace_pos p x).le

/-- `x` is at most the power of two above it, and so is its rounding. -/
lemma nearest_le_zpow {x : ℚ} (hx : 0 < x) : nearest p x ≤ 2 ^ (Int.log 2 x + 1) := by
  have hpos := lastPlace_pos p x
  have hplace : (2 : ℚ) ^ (Int.log 2 x + 1) = ((2 ^ p : ℕ) : ℤ) * lastPlace p x := by
    rw [lastPlace, abs_of_pos hx, zpow_sub₀ two_ne_zero, zpow_natCast]
    push_cast
    field_simp
  have hlt : x < 2 ^ (Int.log 2 x + 1) := by
    exact_mod_cast Int.lt_zpow_succ_log_self one_lt_two x
  have hle : x / lastPlace p x ≤ ((2 ^ p : ℕ) : ℤ) := by
    rw [div_le_iff₀ hpos, ← hplace]
    exact hlt.le
  have h := nearestEven_mono hle
  rw [nearestEven_intCast] at h
  rw [hplace, nearest]
  exact mul_le_mul_of_nonneg_right (by exact_mod_cast h) hpos.le

/-- `x` is at least the power of two below it, and so is its rounding. -/
lemma zpow_le_nearest (hp : 0 < p) {x : ℚ} (hx : 0 < x) : 2 ^ Int.log 2 x ≤ nearest p x := by
  have hpos := lastPlace_pos p x
  have hplace : (2 : ℚ) ^ Int.log 2 x = ((2 ^ (p - 1) : ℕ) : ℤ) * lastPlace p x := by
    obtain ⟨q, rfl⟩ := Nat.exists_eq_add_of_lt hp
    rw [lastPlace, abs_of_pos hx, zpow_sub₀ two_ne_zero, zpow_add_one₀ two_ne_zero, zpow_natCast]
    have hq : 0 + q + 1 - 1 = q := by omega
    rw [hq, zero_add, pow_succ]
    push_cast
    field_simp
  have hle : (((2 ^ (p - 1) : ℕ) : ℤ) : ℚ) ≤ x / lastPlace p x := by
    rw [le_div_iff₀ hpos, ← hplace]
    exact_mod_cast Int.zpow_log_le_self one_lt_two hx
  have h := nearestEven_mono hle
  rw [nearestEven_intCast] at h
  rw [hplace, nearest]
  exact mul_le_mul_of_nonneg_right (by exact_mod_cast h) hpos.le

lemma nearest_mono (hp : 0 < p) {x y : ℚ} (hx : 0 ≤ x) (hxy : x ≤ y) :
    nearest p x ≤ nearest p y := by
  rcases hx.eq_or_lt with rfl | hx
  · rw [nearest_zero]
    exact nearest_nonneg p hxy
  have hy : 0 < y := hx.trans_le hxy
  rcases (Int.log_mono_right (b := 2) hx hxy).eq_or_lt with heq | hlt
  · have hplace : lastPlace p x = lastPlace p y := by
      rw [lastPlace, lastPlace, abs_of_pos hx, abs_of_pos hy, heq]
    rw [nearest, nearest, hplace]
    have h := nearestEven_mono (div_le_div_of_nonneg_right hxy (lastPlace_pos p y).le)
    exact mul_le_mul_of_nonneg_right (by exact_mod_cast h) (lastPlace_pos p y).le
  · -- a power of two lies between them
    calc nearest p x ≤ 2 ^ (Int.log 2 x + 1) := nearest_le_zpow p hx
      _ ≤ 2 ^ Int.log 2 y := zpow_le_zpow_right₀ one_le_two (by omega)
      _ ≤ nearest p y := zpow_le_nearest p hp hy

end Rounding
