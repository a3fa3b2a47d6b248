import BatchPMA.Model.Block

/-!
# Well-formed blocks

`PmaEntry.Valid` is what every operation on a non-empty block relies on: an array of `MaxSize`
cells of which a non-empty prefix is live, live keys strictly increasing and different from
`NULL_KEY`, and the head equal to the first key.  Nothing is said about dead cells here.
-/

namespace BatchPMA

variable {K α : Type}

/-- Strictly increasing in key. -/
def Increasing [LinearOrder K] (p : BlockParams K α) (l : List α) : Prop :=
  l.Pairwise fun x y => p.keyOf x < p.keyOf y

/-- What `batchSorted` accepts: non-decreasing in key, with repetitions. -/
def NonDecreasing [LinearOrder K] (p : BlockParams K α) (l : List α) : Prop :=
  l.Pairwise fun x y => p.keyOf x ≤ p.keyOf y

lemma Increasing.nonDecreasing [LinearOrder K] {p : BlockParams K α} {l : List α}
    (h : Increasing p l) : NonDecreasing p l :=
  h.imp fun hlt => hlt.le

namespace PmaEntry

@[simp] lemma block_null (p : BlockParams K α) : (null p).block = none := rfl
@[simp] lemma head_null (p : BlockParams K α) : (null p).head = p.nullKey := rfl
@[simp] lemma size_null (p : BlockParams K α) : (null p).size = 0 := rfl
@[simp] lemma cells_null (p : BlockParams K α) : (null p).cells = [] := rfl
@[simp] lemma live_null (p : BlockParams K α) : (null p).live = [] := rfl
@[simp] lemma isEmpty_null (p : BlockParams K α) : (null p).isEmpty = true := rfl

variable {p : BlockParams K α} {b : PmaEntry K α}

lemma get_of_lt {i : ℕ} (hi : i < b.live.length) : b.get p i = b.live[i] := by
  have h : i < b.cells.length := by
    simp only [live, List.length_take] at hi
    omega
  simp [get, live, List.getD_eq_getElem?_getD, List.getElem?_eq_getElem h]

variable [LinearOrder K]

/-- A well-formed non-empty block. -/
structure Valid (p : BlockParams K α) (b : PmaEntry K α) : Prop where
  length_cells : b.cells.length = p.blockSize
  size_pos : 0 < b.size
  size_le : b.size ≤ p.blockSize
  head_eq : b.head = p.keyOf (b.get p 0)
  increasing : Increasing p b.live
  key_ne_null : ∀ x ∈ b.live, p.keyOf x ≠ p.nullKey

lemma Valid.length_live (h : b.Valid p) : b.live.length = b.size := by
  have h1 := h.length_cells
  have h2 := h.size_le
  simp only [live, List.length_take]
  omega

lemma Valid.get_mem (h : b.Valid p) {i : ℕ} (hi : i < b.size) : b.get p i ∈ b.live := by
  rw [get_of_lt (p := p) (h.length_live ▸ hi)]
  exact List.getElem_mem _

lemma Valid.isEmpty_eq (h : b.Valid p) : b.isEmpty = false := by
  have h1 := h.length_cells
  have h2 := h.size_pos
  have h3 := h.size_le
  cases hb : b.block with
  | none => simp [cells, hb] at h1; omega
  | some c => simp [isEmpty, hb]

lemma Valid.live_ne_nil (h : b.Valid p) : b.live ≠ [] := by
  intro hnil
  have := h.length_live
  have := h.size_pos
  simp [hnil] at *
  omega

lemma Valid.head_mem (h : b.Valid p) : ∃ x ∈ b.live, p.keyOf x = b.head :=
  ⟨b.get p 0, h.get_mem h.size_pos, h.head_eq.symm⟩

lemma Valid.head_ne_null (h : b.Valid p) : b.head ≠ p.nullKey := by
  obtain ⟨x, hx, hk⟩ := h.head_mem
  rw [← hk]
  exact h.key_ne_null x hx

/-- Positions order the keys of a block. -/
lemma Valid.key_lt (h : b.Valid p) {i j : ℕ} (hij : i < j) (hj : j < b.size) :
    p.keyOf (b.get p i) < p.keyOf (b.get p j) := by
  rw [get_of_lt (p := p) (i := i) (by rw [h.length_live]; omega),
    get_of_lt (p := p) (i := j) (by rw [h.length_live]; omega)]
  exact List.pairwise_iff_getElem.mp h.increasing i j _ _ hij

/-- The head is the smallest key. -/
lemma Valid.head_le (h : b.Valid p) {x : α} (hx : x ∈ b.live) : b.head ≤ p.keyOf x := by
  obtain ⟨i, hi, rfl⟩ := List.mem_iff_getElem.mp hx
  rw [h.head_eq, ← get_of_lt (p := p) hi]
  rcases Nat.eq_zero_or_pos i with rfl | hpos
  · exact le_refl _
  · exact le_of_lt (h.key_lt hpos (h.length_live ▸ hi))

/-! ## Searching a block -/

lemma linearSearch_le (b : PmaEntry K α) (e : K) (start : ℕ) (hs : start ≤ b.size) :
    b.linearSearch p e start ≤ b.size := by
  have := Scan.scanUp_le (fun i => decide (p.keyOf (b.get p i) < e)) (b.size - start) start
  rw [linearSearch]
  omega

lemma le_linearSearch (b : PmaEntry K α) (e : K) (start : ℕ) :
    start ≤ b.linearSearch p e start :=
  Scan.le_scanUp _ _ _

lemma key_lt_of_lt_linearSearch {e : K} {start i : ℕ} (h1 : start ≤ i)
    (h2 : i < b.linearSearch p e start) : p.keyOf (b.get p i) < e := by
  simpa using Scan.scanUp_skipped h1 h2

lemma le_key_linearSearch {e : K} {start : ℕ} (hs : start ≤ b.size)
    (h : b.linearSearch p e start < b.size) :
    e ≤ p.keyOf (b.get p (b.linearSearch p e start)) := by
  have := Scan.scanUp_stop (p := fun i => decide (p.keyOf (b.get p i) < e))
    (n := b.size - start) (c := start) (by rw [linearSearch] at h; omega)
  rw [linearSearch]
  simpa using this

lemma findIndex_le (b : PmaEntry K α) (e : K) : b.findIndex p e ≤ b.size :=
  linearSearch_le b e 0 (Nat.zero_le _)

/-- `findIndex` separates the keys below `e` from the others. -/
lemma Valid.lt_findIndex_iff (h : b.Valid p) {e : K} {i : ℕ} (hi : i < b.size) :
    i < b.findIndex p e ↔ p.keyOf (b.get p i) < e := by
  constructor
  · exact fun hlt => key_lt_of_lt_linearSearch (Nat.zero_le _) hlt
  · intro hlt
    by_contra hle
    push Not at hle
    have hstop := le_key_linearSearch (p := p) (b := b) (e := e) (Nat.zero_le _)
      (lt_of_le_of_lt hle hi)
    rcases Nat.eq_or_lt_of_le hle with heq | hlt'
    · rw [findIndex] at heq
      rw [heq] at hstop
      exact absurd hlt (not_lt.mpr hstop)
    · have := h.key_lt hlt' hi
      exact absurd (lt_of_le_of_lt hstop this) (not_lt.mpr (le_of_lt hlt))

/-- The elements from `findIndex` on are those with keys at least `e`. -/
lemma Valid.drop_findIndex (h : b.Valid p) (e : K) :
    b.live.drop (b.findIndex p e) = b.live.filter (fun x => decide (e ≤ p.keyOf x)) := by
  conv_rhs => rw [← List.take_append_drop (b.findIndex p e) b.live]
  rw [List.filter_append]
  have htake : (b.live.take (b.findIndex p e)).filter (fun x => decide (e ≤ p.keyOf x)) = [] := by
    rw [List.filter_eq_nil_iff]
    intro x hx
    obtain ⟨i, hi, rfl⟩ := List.mem_iff_getElem.mp hx
    simp only [List.length_take, lt_inf_iff, h.length_live] at hi
    rw [List.getElem_take, ← get_of_lt (p := p)]
    have := (h.lt_findIndex_iff (e := e) hi.2).mp hi.1
    simpa using this
  have hdrop : (b.live.drop (b.findIndex p e)).filter (fun x => decide (e ≤ p.keyOf x))
      = b.live.drop (b.findIndex p e) := by
    rw [List.filter_eq_self]
    intro x hx
    obtain ⟨i, hi, rfl⟩ := List.mem_iff_getElem.mp hx
    simp only [List.length_drop, h.length_live] at hi
    rw [List.getElem_drop, ← get_of_lt (p := p)]
    have := (h.lt_findIndex_iff (e := e) (i := b.findIndex p e + i) (by omega)).not.mp (by omega)
    simpa using this
  rw [htake, hdrop, List.nil_append]

lemma Valid.contains_iff (h : b.Valid p) (e : K) :
    b.contains p e = true ↔ ∃ x ∈ b.live, p.keyOf x = e := by
  rw [contains, decide_eq_true_eq]
  constructor
  · rintro ⟨hlt, he⟩
    exact ⟨_, h.get_mem hlt, he.symm⟩
  · rintro ⟨x, hx, rfl⟩
    obtain ⟨i, hi, rfl⟩ := List.mem_iff_getElem.mp hx
    have hi' : i < b.size := h.length_live ▸ hi
    rw [← get_of_lt (p := p) hi]
    -- the search can neither stop in front of `i` nor pass it
    have hle : ¬ i < b.linearSearch p (p.keyOf (b.get p i)) 0 :=
      (h.lt_findIndex_iff hi').not.mpr (lt_irrefl _)
    have hge : ¬ b.linearSearch p (p.keyOf (b.get p i)) 0 < i := fun hlt =>
      absurd (h.key_lt hlt hi') (not_lt.mpr (le_key_linearSearch (Nat.zero_le _) (by omega)))
    have heq : b.linearSearch p (p.keyOf (b.get p i)) 0 = i := by omega
    rw [heq]
    exact ⟨hi', rfl⟩

end PmaEntry

end BatchPMA
