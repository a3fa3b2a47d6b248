import Mathlib.Tactic

/-!
# Bounded scans

The three loop shapes that array code uses to step over the cells it is not interested in:
upwards to an exclusive end (`scanUp`), downwards to an inclusive stop (`scanDown`), and
downwards with the possibility of finding nothing at all (`scanDown?`).  The predicate `p` says
which cells are skipped, and the step count is explicit, so every scan is structurally recursive
and computes.

Each scan comes with the four facts that determine its result: where it may stop, that everything
it passed was to be skipped, and that the cell it stopped at was not.
-/

namespace Scan

variable {p : ℕ → Bool}

/-- `for (cur; n steps left && p(cur); ++cur)`. -/
def scanUp (p : ℕ → Bool) : ℕ → ℕ → ℕ
  | 0, cur => cur
  | n + 1, cur => if p cur then scanUp p n (cur + 1) else cur

/-- `for (cur; n steps left && p(cur); --cur)`. -/
def scanDown (p : ℕ → Bool) : ℕ → ℕ → ℕ
  | 0, cur => cur
  | n + 1, cur => if p cur then scanDown p n (cur - 1) else cur

/-- The largest of the `n` indices `cur, cur - 1, …` that is not skipped, if there is one. -/
def scanDown? (p : ℕ → Bool) : ℕ → ℕ → Option ℕ
  | 0, _ => none
  | n + 1, cur => if p cur then scanDown? p n (cur - 1) else some cur

/-! ## Upwards -/

lemma le_scanUp (p : ℕ → Bool) : ∀ n cur, cur ≤ scanUp p n cur
  | 0, _ => le_refl _
  | n + 1, cur => by
      rw [scanUp]
      split
      · exact le_trans (Nat.le_succ cur) (le_scanUp p n (cur + 1))
      · exact le_refl _

lemma scanUp_le (p : ℕ → Bool) : ∀ n cur, scanUp p n cur ≤ cur + n
  | 0, _ => le_refl _
  | n + 1, cur => by
      have ih := scanUp_le p n (cur + 1)
      rw [scanUp]
      split <;> omega

/-- Everything passed on the way up was to be skipped. -/
lemma scanUp_skipped : ∀ {n cur i : ℕ}, cur ≤ i → i < scanUp p n cur → p i = true
  | 0, cur, i, hle, hlt => by rw [scanUp] at hlt; omega
  | n + 1, cur, i, hle, hlt => by
      rw [scanUp] at hlt
      split at hlt
      · rename_i hp
        rcases Nat.eq_or_lt_of_le hle with rfl | h
        · exact hp
        · exact scanUp_skipped h hlt
      · omega

/-- A scan that stops early stops at a cell that is not skipped. -/
lemma scanUp_stop : ∀ {n c : ℕ}, scanUp p n c < c + n → p (scanUp p n c) = false
  | 0, cur, h => by rw [scanUp] at h; omega
  | n + 1, cur, h => by
      rw [scanUp] at h ⊢
      split at h
      · rename_i hp
        rw [if_pos hp]
        exact scanUp_stop (by omega)
      · rename_i hp
        rw [if_neg hp]
        simpa using hp

/-- The first cell that is not skipped is where the scan stops. -/
lemma scanUp_eq {n cur r : ℕ} (hle : cur ≤ r) (hr : r ≤ cur + n)
    (hskip : ∀ i, cur ≤ i → i < r → p i = true) (hstop : r < cur + n → p r = false) :
    scanUp p n cur = r := by
  rcases Nat.lt_trichotomy (scanUp p n cur) r with h | h | h
  · have h1 := hskip _ (le_scanUp p n cur) h
    have h2 := scanUp_stop (p := p) (n := n) (c := cur) (by omega)
    rw [h1] at h2
    exact absurd h2 (by simp)
  · exact h
  · have h1 := scanUp_skipped hle h
    have h2 := scanUp_le p n cur
    rw [hstop (by omega)] at h1
    exact absurd h1 (by simp)

/-- A scan reads its predicate only on the cells in front of its end. -/
lemma scanUp_congr {q : ℕ → Bool} : ∀ {n cur : ℕ}, (∀ i, cur ≤ i → i < cur + n → p i = q i) →
    scanUp p n cur = scanUp q n cur
  | 0, _, _ => rfl
  | n + 1, cur, h => by
      rw [scanUp, scanUp, h cur (le_refl _) (by omega),
        scanUp_congr (fun i h1 h2 => h i (by omega) (by omega))]

/-! ## Downwards -/

lemma scanDown_le (p : ℕ → Bool) : ∀ n cur, scanDown p n cur ≤ cur
  | 0, _ => le_refl _
  | n + 1, cur => by
      have ih := scanDown_le p n (cur - 1)
      rw [scanDown]
      split <;> omega

lemma le_scanDown (p : ℕ → Bool) : ∀ n cur, cur ≤ scanDown p n cur + n
  | 0, _ => le_refl _
  | n + 1, cur => by
      have ih := le_scanDown p n (cur - 1)
      rw [scanDown]
      split <;> omega

/-- Everything passed on the way down was to be skipped. -/
lemma scanDown_skipped : ∀ {n c i : ℕ}, i ≤ c → scanDown p n c < i → p i = true
  | 0, cur, i, hle, hlt => by rw [scanDown] at hlt; omega
  | n + 1, cur, i, hle, hlt => by
      rw [scanDown] at hlt
      split at hlt
      · rename_i hp
        rcases Nat.eq_or_lt_of_le hle with rfl | h
        · exact hp
        · exact scanDown_skipped (by omega) hlt
      · omega

lemma scanDown_stop : ∀ {n cur : ℕ}, n ≤ cur → cur < scanDown p n cur + n →
    p (scanDown p n cur) = false
  | 0, cur, _, h => by rw [scanDown] at h; omega
  | n + 1, cur, hn, h => by
      rw [scanDown] at h ⊢
      split at h
      · rename_i hp
        rw [if_pos hp]
        exact scanDown_stop (by omega) (by omega)
      · rename_i hp
        rw [if_neg hp]
        simpa using hp

/-! ## Downwards, possibly to nothing -/

/-- A downward scan ends at the only index where it can. -/
lemma scanDown_eq : ∀ {n c r : ℕ}, r ≤ c → c ≤ r + n → (∀ i, r < i → i ≤ c → p i = true) →
    (c < r + n → p r = false) → scanDown p n c = r
  | 0, c, r, h1, h2, _, _ => by
      rw [scanDown]
      omega
  | n + 1, c, r, h1, h2, h3, h4 => by
      rw [scanDown]
      rcases Nat.eq_or_lt_of_le h1 with rfl | hlt
      · rw [if_neg (by rw [h4 (by omega)]; exact Bool.false_ne_true)]
      · rw [if_pos (h3 c hlt (le_refl c))]
        exact scanDown_eq (by omega) (by omega) (fun i g1 g2 => h3 i g1 (by omega)) fun g =>
          h4 (by omega)

/-- The result is one of the `n` cells, is not skipped, and everything above it is. -/
lemma scanDown?_some : ∀ {n cur r : ℕ}, n ≤ cur + 1 → scanDown? p n cur = some r →
    cur < r + n ∧ r ≤ cur ∧ p r = false ∧ ∀ i, r < i → i ≤ cur → p i = true
  | 0, _, _, _, h => by simp [scanDown?] at h
  | n + 1, cur, r, hn, h => by
      rw [scanDown?] at h
      split at h
      · rename_i hp
        cases cur with
        | zero =>
            have : n = 0 := by omega
            subst this
            simp [scanDown?] at h
        | succ c =>
            obtain ⟨h1, h2, h3, h4⟩ := scanDown?_some (by omega) h
            refine ⟨by omega, by omega, h3, fun i hi hi' => ?_⟩
            rcases Nat.eq_or_lt_of_le hi' with rfl | hlt
            · exact hp
            · exact h4 i hi (by omega)
      · rename_i hp
        obtain rfl : cur = r := by simpa using h
        exact ⟨by omega, le_refl _, by simpa using hp, fun i hi hi' => by omega⟩

lemma scanDown?_none : ∀ {n cur : ℕ}, n ≤ cur + 1 → scanDown? p n cur = none →
    ∀ i, cur < i + n → i ≤ cur → p i = true
  | 0, _, _, _, i, h1, h2 => by omega
  | n + 1, cur, hn, h, i, h1, h2 => by
      rw [scanDown?] at h
      split at h
      · rename_i hp
        rcases Nat.eq_or_lt_of_le h2 with rfl | hlt
        · exact hp
        · exact scanDown?_none (by omega) h i (by omega) (by omega)
      · simp at h

end Scan
