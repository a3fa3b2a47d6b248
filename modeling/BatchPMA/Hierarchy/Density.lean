import BatchPMA.Model.Helpers

/-!
# Density managers

A density manager decides how many blocks a node may hold.  The hierarchy only relies on two
bounds: a node within its threshold fits into its range, and a range is not shorter than its number
of blocks.  Where it is to stay well filled, a node above its threshold also has to fill two thirds
of its cells.

The three managers compute with `double`s.  The rounding errors do not cancel, so their thresholds
may lie below the exact products, but they keep all three bounds.
-/

namespace BatchPMA

open Rounding

/-- What the hierarchy expects of a density manager at a given segment width. -/
structure DensityManager.Valid (d : DensityManager) (aggregateWidth : ℕ) : Prop where
  maxBlocks_le : ∀ level height, level ≤ height →
    d.maxBlocks level height aggregateWidth (2 ^ level) ≤ 2 ^ level * aggregateWidth
  le_minRangeLength : ∀ n, n ≤ d.minRangeLength n

/-- A node above its threshold fills two thirds of its cells. -/
def DensityManager.TwoThirds (d : DensityManager) (aggregateWidth : ℕ) : Prop :=
  ∀ level height, level ≤ height →
    2 * (2 ^ level * aggregateWidth) ≤
      3 * (d.maxBlocks level height aggregateWidth (2 ^ level) + 1)

/-! ## Doubles -/

lemma double_mono {x y : ℚ} (hx : 0 ≤ x) (hxy : x ≤ y) : double x ≤ double y :=
  nearest_mono 53 (by norm_num) hx hxy

lemma double_nonneg {x : ℚ} (hx : 0 ≤ x) : 0 ≤ double x := nearest_nonneg 53 hx

lemma le_double {x : ℚ} (hx : 0 ≤ x) : x * (1 - 1 / 2 ^ 53) ≤ double x := mul_le_nearest 53 hx

lemma double_le {x : ℚ} (hx : 0 ≤ x) : double x ≤ x * (1 + 1 / 2 ^ 53) := nearest_le_mul 53 hx

/-- An integer below `2 ^ 53` is a `double`, and so are its products with powers of two. -/
lemma double_mul_two_pow {n : ℕ} (hn : n < 2 ^ 53) (l : ℕ) :
    double (n * 2 ^ l) = n * 2 ^ l := by
  have h := nearest_eq_self 53 hn l
  rw [zpow_natCast] at h
  exact h

lemma double_natCast {n : ℕ} (hn : n < 2 ^ 53) : double n = n := by
  have h := double_mul_two_pow hn 0
  rw [pow_zero, mul_one] at h
  exact h

lemma double_two_pow (l : ℕ) : double ((2 ^ l : ℕ) : ℚ) = 2 ^ l := by
  have h := double_mul_two_pow (n := 1) (by norm_num) l
  rw [Nat.cast_one, one_mul] at h
  push_cast
  exact h

/-! ## Thresholds -/

/-- A density of at most `1` leaves a threshold within the range, also after rounding. -/
lemma truncatedProduct_le {density : ℚ} (h0 : 0 ≤ density) (h1 : density ≤ 1) {w : ℕ}
    (hw : w < 2 ^ 53) (l : ℕ) : truncatedProduct density w (2 ^ l) ≤ 2 ^ l * w := by
  have hwidth := double_natCast hw
  have hw0 : (0 : ℚ) ≤ w := Nat.cast_nonneg w
  have hinner : double (density * double w) ≤ w := by
    rw [hwidth]
    calc double (density * w) ≤ double w :=
          double_mono (mul_nonneg h0 hw0) (mul_le_of_le_one_left hw0 h1)
      _ = w := hwidth
  have hinner0 : 0 ≤ double (density * double w) :=
    double_nonneg (mul_nonneg h0 (double_nonneg hw0))
  refine Nat.floor_le_of_le ?_
  rw [double_two_pow]
  calc double (double (density * double w) * 2 ^ l) ≤ double (w * 2 ^ l) :=
        double_mono (mul_nonneg hinner0 (by positivity))
          (mul_le_mul_of_nonneg_right hinner (by positivity))
    _ = w * 2 ^ l := double_mul_two_pow hw l
    _ = ((2 ^ l * w : ℕ) : ℚ) := by push_cast; ring

/-- A density of at least `11 / 16` leaves two thirds after rounding and truncation. -/
lemma le_truncatedProduct {density : ℚ} (h : 11 / 16 ≤ density) (w width : ℕ) :
    2 * (width * w) ≤ 3 * (truncatedProduct density w width + 1) := by
  have hw0 : (0 : ℚ) ≤ w := Nat.cast_nonneg w
  have hwidth0 : (0 : ℚ) ≤ width := Nat.cast_nonneg width
  have hd0 : (0 : ℚ) ≤ density := by linarith
  have hfactor : (0 : ℚ) ≤ 1 - 1 / 2 ^ 53 := by norm_num
  have hsecond : (width : ℚ) * (1 - 1 / 2 ^ 53) ≤ double width := le_double hwidth0
  have hfirst : density * (w * (1 - 1 / 2 ^ 53)) * (1 - 1 / 2 ^ 53) ≤
      double (density * double w) := by
    have hle := mul_le_mul_of_nonneg_left (le_double hw0) hd0
    have h0 : 0 ≤ density * (w * (1 - 1 / 2 ^ 53)) := mul_nonneg hd0 (mul_nonneg hw0 hfactor)
    exact (mul_le_mul_of_nonneg_right hle hfactor).trans (le_double (h0.trans hle))
  have hproduct : density * (w * (1 - 1 / 2 ^ 53)) * (1 - 1 / 2 ^ 53) *
      (width * (1 - 1 / 2 ^ 53)) * (1 - 1 / 2 ^ 53) ≤
      double (double (density * double w) * double width) := by
    have h0 : 0 ≤ double (density * double w) :=
      double_nonneg (mul_nonneg hd0 (double_nonneg hw0))
    have hle := mul_le_mul hfirst hsecond (mul_nonneg hwidth0 hfactor) h0
    exact (mul_le_mul_of_nonneg_right hle hfactor).trans
      (le_double (mul_nonneg h0 (double_nonneg hwidth0)))
  have hexact : (2 / 3 : ℚ) * (width * w) ≤ density * (w * (1 - 1 / 2 ^ 53)) *
      (1 - 1 / 2 ^ 53) * (width * (1 - 1 / 2 ^ 53)) * (1 - 1 / 2 ^ 53) := by
    have hscale : (2 / 3 : ℚ) ≤ density * (1 - 1 / 2 ^ 53) ^ 4 := by
      refine le_trans ?_ (mul_le_mul_of_nonneg_right h (by norm_num))
      norm_num
    calc (2 / 3 : ℚ) * (width * w)
        ≤ density * (1 - 1 / 2 ^ 53) ^ 4 * (width * w) :=
          mul_le_mul_of_nonneg_right hscale (mul_nonneg hwidth0 hw0)
      _ = _ := by ring
  have hlt : (2 / 3 : ℚ) * (width * w) < truncatedProduct density w width + 1 :=
    lt_of_le_of_lt (hexact.trans hproduct) (Nat.lt_floor_add_one _)
  have hgoal : (2 : ℚ) * (width * w) ≤ 3 * (truncatedProduct density w width + 1) := by linarith
  exact_mod_cast hgoal

/-! ## The three managers -/

/-- The density stays between `11 / 16` and `1`. -/
lemma maxDensity_mem {deltaTau : ℚ} (h0 : 0 ≤ deltaTau) (h1 : deltaTau ≤ 0.31) {level height : ℕ}
    (hle : level ≤ height) :
    11 / 16 ≤ maxDensity deltaTau level height ∧ maxDensity deltaTau level height ≤ 1 := by
  have hlevel : (0 : ℚ) ≤ double level := double_nonneg (Nat.cast_nonneg _)
  have hheight : (0 : ℚ) ≤ double height := double_nonneg (Nat.cast_nonneg _)
  have hquot : double level / double height ≤ 1 :=
    div_le_one_of_le₀ (double_mono (Nat.cast_nonneg _) (by exact_mod_cast hle)) hheight
  have hdelta : 0 ≤ deltaTau * double level := mul_nonneg h0 hlevel
  have hfall : 0 ≤ double (deltaTau * double level) / double height :=
    div_nonneg (double_nonneg hdelta) hheight
  have hfall' : double (deltaTau * double level) / double height ≤
      0.31 * (1 + 1 / 2 ^ 53) := by
    calc double (deltaTau * double level) / double height
        ≤ deltaTau * double level * (1 + 1 / 2 ^ 53) / double height :=
          div_le_div_of_nonneg_right (double_le hdelta) hheight
      _ = deltaTau * (double level / double height) * (1 + 1 / 2 ^ 53) := by ring
      _ ≤ 0.31 * 1 * (1 + 1 / 2 ^ 53) := by
          refine mul_le_mul_of_nonneg_right ?_ (by norm_num)
          exact mul_le_mul h1 hquot (div_nonneg hlevel hheight) (by norm_num)
      _ = 0.31 * (1 + 1 / 2 ^ 53) := by ring
  have hround : double (double (deltaTau * double level) / double height) ≤ 5 / 16 := by
    calc double (double (deltaTau * double level) / double height)
        ≤ double (deltaTau * double level) / double height * (1 + 1 / 2 ^ 53) := double_le hfall
      _ ≤ 0.31 * (1 + 1 / 2 ^ 53) * (1 + 1 / 2 ^ 53) :=
          mul_le_mul_of_nonneg_right hfall' (by norm_num)
      _ ≤ 5 / 16 := by norm_num
  have hround0 := double_nonneg hfall
  have heleven : double (11 / 16) = 11 / 16 := by
    have h := nearest_eq_self 53 (n := 11) (by norm_num) (-4)
    norm_num at h
    exact h
  have hone : double 1 = 1 := by
    have h := double_natCast (n := 1) (by norm_num)
    rw [Nat.cast_one] at h
    exact h
  rw [maxDensity]
  generalize double (double (deltaTau * double level) / double height) = fall at hround hround0
  constructor
  · have h := double_mono (x := 11 / 16) (y := 1 - fall) (by norm_num) (by linarith)
    rw [heleven] at h
    exact h
  · have h := double_mono (x := 1 - fall) (y := 1) (by linarith) (by linarith)
    rw [hone] at h
    exact h

/-- The difference `1 - tauMax` of two `double`s. -/
lemma deltaTau_mem {tauMax : ℚ} (h0 : 0.7 ≤ tauMax) (h1 : tauMax ≤ 0.9) :
    0 ≤ double (1 - double tauMax) ∧ double (1 - double tauMax) ≤ 0.31 := by
  have hlow := le_double (x := tauMax) (by linarith)
  have hhigh := double_le (x := tauMax) (by linarith)
  have hlow' : (0.7 : ℚ) * (1 - 1 / 2 ^ 53) ≤ double tauMax :=
    (mul_le_mul_of_nonneg_right h0 (by norm_num)).trans hlow
  have hhigh' : double tauMax ≤ (0.9 : ℚ) * (1 + 1 / 2 ^ 53) :=
    hhigh.trans (mul_le_mul_of_nonneg_right h1 (by norm_num))
  have hpos : 0 ≤ 1 - double tauMax := by
    have : (0.9 : ℚ) * (1 + 1 / 2 ^ 53) ≤ 1 := by norm_num
    linarith
  refine ⟨double_nonneg hpos, (double_le hpos).trans ?_⟩
  calc (1 - double tauMax) * (1 + 1 / 2 ^ 53)
      ≤ (1 - 0.7 * (1 - 1 / 2 ^ 53)) * (1 + 1 / 2 ^ 53) :=
        mul_le_mul_of_nonneg_right (by linarith) (by norm_num)
    _ ≤ 0.31 := by norm_num

lemma le_minRangeLength {growingFactor : ℚ} (hg : 1.2 ≤ growingFactor) (n : ℕ) :
    n ≤ ⌊double (double n * double growingFactor)⌋₊ := by
  have hn0 : (0 : ℚ) ≤ n := Nat.cast_nonneg n
  have hfactor : (0 : ℚ) ≤ 1 - 1 / 2 ^ 53 := by norm_num
  have hg' : (1.2 : ℚ) * (1 - 1 / 2 ^ 53) ≤ double growingFactor :=
    (mul_le_mul_of_nonneg_right hg hfactor).trans (le_double (by linarith))
  have hproduct := mul_le_mul (le_double hn0) hg' (by norm_num) (double_nonneg hn0)
  have h0 : (0 : ℚ) ≤ n * (1 - 1 / 2 ^ 53) * (1.2 * (1 - 1 / 2 ^ 53)) :=
    mul_nonneg (mul_nonneg hn0 hfactor) (by norm_num)
  refine Nat.le_floor ?_
  calc (n : ℚ) = n * 1 := (mul_one _).symm
    _ ≤ n * ((1 - 1 / 2 ^ 53) * (1.2 * (1 - 1 / 2 ^ 53)) * (1 - 1 / 2 ^ 53)) :=
        mul_le_mul_of_nonneg_left (by norm_num) hn0
    _ = n * (1 - 1 / 2 ^ 53) * (1.2 * (1 - 1 / 2 ^ 53)) * (1 - 1 / 2 ^ 53) := by ring
    _ ≤ double n * double growingFactor * (1 - 1 / 2 ^ 53) :=
        mul_le_mul_of_nonneg_right hproduct hfactor
    _ ≤ double (double n * double growingFactor) := le_double (h0.trans hproduct)

section Linear

variable {growingFactor tauMax : ℚ} (h0 : 0.7 ≤ tauMax) (h1 : tauMax ≤ 0.9)
include h0 h1

lemma densityLinear_valid (hg : 1.2 ≤ growingFactor) {w : ℕ} (hw : w < 2 ^ 53) :
    (densityLinear (double growingFactor) (double tauMax)).Valid w where
  maxBlocks_le level height hle := by
    obtain ⟨hdelta0, hdelta1⟩ := deltaTau_mem h0 h1
    obtain ⟨hlow, hhigh⟩ := maxDensity_mem hdelta0 hdelta1 hle
    exact truncatedProduct_le (by linarith) hhigh hw level
  le_minRangeLength := le_minRangeLength hg

lemma densityLinear_twoThirds (w : ℕ) :
    (densityLinear (double growingFactor) (double tauMax)).TwoThirds w := by
  intro level height hle
  obtain ⟨hdelta0, hdelta1⟩ := deltaTau_mem h0 h1
  exact le_truncatedProduct (maxDensity_mem hdelta0 hdelta1 hle).1 w (2 ^ level)

end Linear

section Managers

variable {w : ℕ} (hw : w < 2 ^ 53)
include hw

lemma densityOne_valid : densityOne.Valid w :=
  densityLinear_valid (by norm_num) (by norm_num) (by norm_num) hw

lemma densityTwo_valid : densityTwo.Valid w :=
  densityLinear_valid (by norm_num) (by norm_num) (by norm_num) hw

lemma densityThree_valid : densityThree.Valid w :=
  densityLinear_valid (by norm_num) (by norm_num) (by norm_num) hw

end Managers

lemma densityOne_twoThirds (w : ℕ) : densityOne.TwoThirds w :=
  densityLinear_twoThirds (by norm_num) (by norm_num) w

lemma densityTwo_twoThirds (w : ℕ) : densityTwo.TwoThirds w :=
  densityLinear_twoThirds (by norm_num) (by norm_num) w

lemma densityThree_twoThirds (w : ℕ) : densityThree.TwoThirds w :=
  densityLinear_twoThirds (by norm_num) (by norm_num) w

/-- One block less than seven tenths of `90 * 2 ^ 14` cells. -/
example : densityThree.maxBlocks 14 14 90 (2 ^ 14) = 1032191 := by decide +kernel

end BatchPMA
