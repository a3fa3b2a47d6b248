import BatchPMA.InPlace.Aggregates
import BatchPMA.Library.Ranges
import BatchPMA.Block.Valid

/-!
# Writing a block in place

`writeBlockInPlace` moves blocks by one cell, to the right or to the left, up to the next free
cell.  Seen as a sequence of blocks, it puts the new block between two others, whichever of its
branches runs; it needs nothing but a free cell somewhere in the range.
-/

namespace BatchPMA

open Ranges OverallocatedBatchedSparseArray

variable {K α : Type}

/-! ## The blocks of a range -/

/-- The block of a cell, if there is one. -/
def cellBlock (b : PmaEntry K α) : List (PmaEntry K α) := if b.isEmpty then [] else [b]

/-- The blocks of the cells `[left, right)`, in order. -/
def rangeBlocks (pma : ℕ → PmaEntry K α) (left right : ℕ) : List (PmaEntry K α) :=
  itemsIn (fun c => cellBlock (pma c)) left right

section

variable {pma pma' : ℕ → PmaEntry K α} {new carry : PmaEntry K α} {a b c e left right target : ℕ}

lemma cellBlock_of_isEmpty (h : new.isEmpty = true) : cellBlock new = [] := if_pos h

lemma cellBlock_of_not_isEmpty (h : new.isEmpty = false) : cellBlock new = [new] :=
  if_neg (by rw [h]; exact Bool.false_ne_true)

lemma mem_rangeBlocks {block : PmaEntry K α} : block ∈ rangeBlocks pma left right ↔
    ∃ c, left ≤ c ∧ c < right ∧ (pma c).isEmpty = false ∧ pma c = block := by
  simp only [rangeBlocks, itemsIn, List.mem_flatMap, List.mem_range'_1]
  refine exists_congr fun c => ?_
  constructor
  · rintro ⟨⟨h1, h2⟩, hin⟩
    cases hc : (pma c).isEmpty with
    | true =>
        rw [cellBlock_of_isEmpty hc] at hin
        exact absurd hin List.not_mem_nil
    | false =>
        rw [cellBlock_of_not_isEmpty hc, List.mem_singleton] at hin
        exact ⟨h1, by omega, rfl, hin.symm⟩
  · rintro ⟨h1, h2, h3, rfl⟩
    refine ⟨⟨h1, by omega⟩, ?_⟩
    rw [cellBlock_of_not_isEmpty h3]
    exact List.mem_singleton_self _

lemma rangeBlocks_append (h1 : a ≤ b) (h2 : b ≤ c) :
    rangeBlocks pma a c = rangeBlocks pma a b ++ rangeBlocks pma b c :=
  itemsIn_append _ h1 h2

lemma rangeBlocks_succ (pma : ℕ → PmaEntry K α) (c : ℕ) :
    rangeBlocks pma c (c + 1) = cellBlock (pma c) := itemsIn_succ _ c

lemma rangeBlocks_congr (h : ∀ c, a ≤ c → c < b → pma' c = pma c) :
    rangeBlocks pma' a b = rangeBlocks pma a b :=
  itemsIn_congr fun c h1 h2 => by rw [h c h1 h2]

/-- Fewer blocks than cells leave a free cell. -/
lemma exists_free (h : (rangeBlocks pma left right).length < right - left) :
    ∃ c, left ≤ c ∧ c < right ∧ (pma c).isEmpty = true := by
  by_contra hno
  push Not at hno
  refine absurd (le_length_itemsIn fun c h1 h2 hnil => ?_) (not_le.mpr h)
  rw [cellBlock_of_not_isEmpty (by simpa using hno c h1 h2)] at hnil
  exact absurd hnil (List.cons_ne_nil _ _)

/-- The first free cell from `a` on. -/
lemma exists_first_free {pma : ℕ → PmaEntry K α} {a b : ℕ}
    (h : ∃ c, a ≤ c ∧ c < b ∧ (pma c).isEmpty = true) :
    ∃ m, a + m < b ∧ (pma (a + m)).isEmpty = true ∧
      ∀ c, a ≤ c → c < a + m → (pma c).isEmpty = false := by
  obtain ⟨c, h1, h2, h3⟩ := h
  have hex : ∃ m, (pma (a + m)).isEmpty = true := ⟨c - a, by rwa [Nat.add_sub_cancel' h1]⟩
  refine ⟨Nat.find hex, ?_, Nat.find_spec hex, fun d g1 g2 => ?_⟩
  · have := Nat.find_min' hex (m := c - a) (by rwa [Nat.add_sub_cancel' h1])
    omega
  · have := Nat.find_min hex (m := d - a) (by omega)
    rw [Nat.add_sub_cancel' g1] at this
    simpa using this

/-- The last free cell in front of `b`. -/
lemma exists_last_free {pma : ℕ → PmaEntry K α} {a b : ℕ}
    (h : ∃ c, a ≤ c ∧ c < b ∧ (pma c).isEmpty = true) :
    ∃ e m, b = e + m + 1 ∧ a ≤ e ∧ (pma e).isEmpty = true ∧
      ∀ c, e < c → c ≤ e + m → (pma c).isEmpty = false := by
  obtain ⟨c, h1, h2, h3⟩ := h
  have hspec := Nat.findGreatest_spec (P := fun i => (pma i).isEmpty = true)
    (Nat.le_sub_one_of_lt h2) h3
  have hle := Nat.findGreatest_le (P := fun i => (pma i).isEmpty = true) (b - 1)
  have hge := Nat.le_findGreatest (P := fun i => (pma i).isEmpty = true)
    (Nat.le_sub_one_of_lt h2) h3
  refine ⟨Nat.findGreatest (fun i => (pma i).isEmpty = true) (b - 1),
    b - 1 - Nat.findGreatest (fun i => (pma i).isEmpty = true) (b - 1), by omega, by omega, hspec,
    fun d g1 g2 => ?_⟩
  simpa using Nat.findGreatest_is_greatest g1 (by omega)

/-! ## Shifts -/

/-- The blocks from `a` on have moved to the right, up to the cell `e`, in favour of a new one. -/
def shiftedRight (pma : ℕ → PmaEntry K α) (new : PmaEntry K α) (a e : ℕ) : ℕ → PmaEntry K α :=
  fun c => if c = a then new else if a < c ∧ c ≤ e then pma (c - 1) else pma c

/-- The blocks up to `b` have moved to the left, down to the cell `e`, in favour of a new one. -/
def shiftedLeft (pma : ℕ → PmaEntry K α) (new : PmaEntry K α) (e b : ℕ) : ℕ → PmaEntry K α :=
  fun c => if c = b then new else if e ≤ c ∧ c < b then pma (c + 1) else pma c

lemma shiftedRight_self : shiftedRight pma new a a = Function.update pma a new := by
  funext c
  rw [shiftedRight, Function.update_apply]
  split
  · rfl
  · rw [if_neg (by omega)]

lemma shiftedLeft_self : shiftedLeft pma new a a = Function.update pma a new := by
  funext c
  rw [shiftedLeft, Function.update_apply]
  split
  · rfl
  · rw [if_neg (by omega)]

lemma swapUp_of_isEmpty (n : ℕ) (h : carry.isEmpty = true) :
    swapUp n pma carry a = (pma, carry, a) := by
  cases n with
  | zero => rfl
  | succ n => rw [swapUp, if_pos h]

lemma swapDown_of_isEmpty (n : ℕ) (h : carry.isEmpty = true) :
    swapDown n pma carry a = (pma, carry, a) := by
  cases n with
  | zero => rfl
  | succ n => rw [swapDown, if_pos h]

/-- The swaps over `m` blocks and the cell behind them. -/
lemma swapUp_eq (k : ℕ) : ∀ (m : ℕ) {pma : ℕ → PmaEntry K α} {carry : PmaEntry K α} {a : ℕ},
    carry.isEmpty = false → (∀ c, a ≤ c → c < a + m → (pma c).isEmpty = false) →
    swapUp (m + 1 + k) pma carry a =
      swapUp k (shiftedRight pma carry a (a + m)) (pma (a + m)) (a + m + 1)
  | 0, pma, carry, a, hcarry, _ => by
      rw [show 0 + 1 + k = k + 1 by omega, swapUp, if_neg (by simp [hcarry]),
        ← shiftedRight_self]
      rfl
  | m + 1, pma, carry, a, hcarry, hfull => by
      have hne : ∀ c, a < c → Function.update pma a carry c = pma c := fun c hc =>
        Function.update_of_ne (by omega) _ _
      rw [show m + 1 + 1 + k = m + 1 + k + 1 by omega, swapUp, if_neg (by simp [hcarry]),
        swapUp_eq k m (hfull a (le_refl a) (by omega)) fun c h1 h2 => by
          rw [hne c (by omega)]
          exact hfull c (by omega) (by omega),
        hne _ (by omega), show a + 1 + m = a + (m + 1) by omega]
      congr 1
      funext c
      rw [shiftedRight, shiftedRight]
      rcases Nat.lt_trichotomy c (a + 1) with hlt | rfl | hgt
      · rw [if_neg (by omega), if_neg (by omega)]
        rcases Nat.eq_or_lt_of_le (Nat.lt_succ_iff.mp hlt) with rfl | hlt
        · rw [if_pos rfl, Function.update_self]
        · rw [if_neg (by omega), if_neg (by omega), Function.update_of_ne (by omega)]
      · rw [if_pos rfl, if_neg (by omega), if_pos (by omega), Nat.add_sub_cancel]
      · rw [if_neg (by omega), if_neg (show ¬ c = a by omega),
          if_congr (show a + 1 < c ∧ c ≤ a + (m + 1) ↔ a < c ∧ c ≤ a + (m + 1) by omega) rfl rfl,
          hne _ (by omega), hne _ (by omega)]

/-- The same in the other direction. -/
lemma swapDown_eq (k : ℕ) : ∀ (m : ℕ) {pma : ℕ → PmaEntry K α} {carry : PmaEntry K α} {e : ℕ},
    carry.isEmpty = false → (∀ c, e < c → c ≤ e + m → (pma c).isEmpty = false) →
    swapDown (m + 1 + k) pma carry (e + m + 1) =
      swapDown k (shiftedLeft pma carry e (e + m)) (pma e) e
  | 0, pma, carry, e, hcarry, _ => by
      rw [show 0 + 1 + k = k + 1 by omega, swapDown, if_neg (by simp [hcarry]), Nat.add_sub_cancel,
        Nat.add_zero, ← shiftedLeft_self]
  | m + 1, pma, carry, e, hcarry, hfull => by
      have hne : ∀ c, c < e + (m + 1) →
          Function.update pma (e + (m + 1)) carry c = pma c := fun c hc =>
        Function.update_of_ne (by omega) _ _
      rw [show m + 1 + 1 + k = m + 1 + k + 1 by omega, swapDown, if_neg (by simp [hcarry]),
        Nat.add_sub_cancel, show e + (m + 1) = e + m + 1 by omega,
        swapDown_eq k m (hfull _ (by omega) (by omega)) fun c h1 h2 => by
          rw [Function.update_of_ne (by omega)]
          exact hfull c (by omega) (by omega),
        Function.update_of_ne (by omega)]
      congr 1
      funext c
      rw [shiftedLeft, shiftedLeft]
      rcases Nat.lt_trichotomy c (e + m) with hlt | rfl | hgt
      · rw [if_neg (by omega), if_neg (show ¬ c = e + m + 1 by omega),
          if_congr (show e ≤ c ∧ c < e + m ↔ e ≤ c ∧ c < e + m + 1 by omega) rfl rfl,
          Function.update_of_ne (by omega), Function.update_of_ne (by omega)]
      · rw [if_pos rfl, if_neg (by omega), if_pos (by omega)]
      · rw [if_neg (by omega), if_neg (by omega)]
        rcases Nat.eq_or_lt_of_le (Nat.succ_le_of_lt hgt) with heq | hgt
        · rw [if_pos heq.symm, ← heq, Function.update_self]
        · rw [if_neg (by omega), if_neg (by omega), Function.update_of_ne (by omega)]

/-- A shift to the right is undone by a shift to the left. -/
lemma shiftedLeft_shiftedRight (h : a ≤ b) :
    shiftedLeft (shiftedRight pma new a b) (pma b) a b = pma := by
  funext c
  rw [shiftedLeft]
  split
  · rename_i heq
    rw [heq]
  · rename_i hne
    split
    · rw [shiftedRight, if_neg (by omega), if_pos (by omega), Nat.add_sub_cancel]
    · rw [shiftedRight, if_neg (by omega), if_neg (by omega)]

/-! ### As sequences of blocks -/

/-- A new block behind `block`s in front of it and in front of the ones behind it. -/
lemma rangeBlocks_shiftedRight (hnew : new.isEmpty = false) (h1 : left ≤ a) (h2 : a ≤ e)
    (h3 : e < right) (hfree : (pma e).isEmpty = true) :
    rangeBlocks (shiftedRight pma new a e) left (a + 1) = rangeBlocks pma left a ++ [new] ∧
      rangeBlocks (shiftedRight pma new a e) (a + 1) right = rangeBlocks pma a right := by
  constructor
  · rw [rangeBlocks_append h1 (Nat.le_succ a), rangeBlocks_succ]
    congr 1
    · refine rangeBlocks_congr fun c _ hc => ?_
      rw [shiftedRight, if_neg (by omega), if_neg (by omega)]
    · rw [shiftedRight, if_pos rfl, cellBlock_of_not_isEmpty hnew]
  · have hmoved : rangeBlocks (shiftedRight pma new a e) (a + 1) (e + 1) =
        rangeBlocks pma a e := by
      rw [rangeBlocks, ← itemsIn_shift fun c => cellBlock (shiftedRight pma new a e c)]
      refine itemsIn_congr fun c g1 g2 => ?_
      rw [shiftedRight, if_neg (by omega), if_pos (by omega), Nat.add_sub_cancel]
    have hrest : rangeBlocks (shiftedRight pma new a e) (e + 1) right =
        rangeBlocks pma (e + 1) right := rangeBlocks_congr fun c g1 _ => by
      rw [shiftedRight, if_neg (by omega), if_neg (by omega)]
    rw [rangeBlocks_append (show a + 1 ≤ e + 1 by omega) h3, hmoved, hrest,
      rangeBlocks_append h2 h3.le, rangeBlocks_append (Nat.le_succ e) h3, rangeBlocks_succ,
      cellBlock_of_isEmpty hfree, List.nil_append]

lemma rangeBlocks_shiftedLeft (hnew : new.isEmpty = false) (h1 : left ≤ e) (h2 : e ≤ b)
    (hfree : (pma e).isEmpty = true) :
    rangeBlocks (shiftedLeft pma new e b) left (b + 1) = rangeBlocks pma left (b + 1) ++ [new] ∧
      rangeBlocks (shiftedLeft pma new e b) (b + 1) right = rangeBlocks pma (b + 1) right := by
  constructor
  · have hfront : rangeBlocks (shiftedLeft pma new e b) left e = rangeBlocks pma left e :=
      rangeBlocks_congr fun c _ hc => by
        rw [shiftedLeft, if_neg (by omega), if_neg (by omega)]
    have hmoved : rangeBlocks (shiftedLeft pma new e b) e b = rangeBlocks pma (e + 1) (b + 1) := by
      rw [rangeBlocks, rangeBlocks, ← itemsIn_shift fun c => cellBlock (pma c)]
      refine itemsIn_congr fun c g1 g2 => ?_
      rw [shiftedLeft, if_neg (by omega), if_pos (by omega)]
    rw [rangeBlocks_append (show left ≤ b by omega) (Nat.le_succ b), rangeBlocks_append h1 h2,
      hfront, hmoved, rangeBlocks_succ, shiftedLeft, if_pos rfl, cellBlock_of_not_isEmpty hnew,
      rangeBlocks_append h1 (show e ≤ b + 1 by omega),
      rangeBlocks_append (Nat.le_succ e) (show e + 1 ≤ b + 1 by omega), rangeBlocks_succ,
      cellBlock_of_isEmpty hfree, List.nil_append]
  · refine rangeBlocks_congr fun c hc _ => ?_
    rw [shiftedLeft, if_neg (by omega), if_neg (by omega)]

end

/-! ## `writeBlockInPlace` -/

variable [LinearOrder K]

/-- Every cell of a range is null or holds a well-formed block. -/
def CellsIn (p : BlockParams K α) (pma : ℕ → PmaEntry K α) (left right : ℕ) : Prop :=
  ∀ c, left ≤ c → c < right → pma c = PmaEntry.null p ∨ (pma c).Valid p

namespace OverallocatedBatchedSparseArray

variable {p : OverallocatedParams K α} {s : OverallocatedBatchedSparseArray K α}
  {new : PmaEntry K α} {target : ℕ} {range : Interval}

lemma empty_eq_isEmpty {c : ℕ}
    (h : s.pma c = PmaEntry.null p.toBlockParams ∨ (s.pma c).Valid p.toBlockParams) :
    s.empty p c = (s.pma c).isEmpty := by
  rcases h with h | h
  · rw [empty, h]
    simp
  · rw [empty, h.isEmpty_eq, decide_eq_false_iff_not]
    exact h.head_ne_null

/-- What `writeBlockInPlace` achieves: the new block is at the returned index, nothing is carried
any more, and exact aggregates stay exact. -/
structure Written (s : OverallocatedBatchedSparseArray K α) (new : PmaEntry K α) (target : ℕ)
    (range : Interval) (result : WriteResult K α) : Prop where
  carry : result.carry.isEmpty = true
  moved : (∃ e, target ≤ e ∧ e < range.right ∧ (s.pma e).isEmpty = true ∧
      result.array.pma = shiftedRight s.pma new target e ∧ result.insertionIndex = target) ∨
    ∃ b e, target = b + 1 ∧ range.left ≤ e ∧ e ≤ b ∧ (s.pma e).isEmpty = true ∧
      (target < range.right → (s.pma target).isEmpty = false) ∧
      result.array.pma = shiftedLeft s.pma new e b ∧ result.insertionIndex = b
  rest : ∃ sizeManager, sizeManager.size = s.sizeManager.size ∧
    result.array = { s with pma := result.array.pma, sizeManager := sizeManager }
  exact : s.sizeManager.Exact s.blockSize →
    result.array.sizeManager.Exact result.array.blockSize

section

variable (hcells : CellsIn p.toBlockParams s.pma range.left range.right)
include hcells

lemma size_of_isEmpty {e : ℕ} (h1 : range.left ≤ e) (h2 : e < range.right)
    (hfree : (s.pma e).isEmpty = true) : s.blockSize e = 0 := by
  rcases hcells e h1 h2 with h | h
  · rw [blockSize, h, PmaEntry.size_null]
  · rw [h.isEmpty_eq] at hfree
    exact absurd hfree (by simp)

lemma written_right {e : ℕ} (h1 : range.left ≤ target) (h2 : target ≤ e) (h3 : e < range.right)
    (hfree : (s.pma e).isEmpty = true) :
    s.Written new target range ⟨s.withPma (shiftedRight s.pma new target e) fun blockSize =>
      (s.sizeManager.adjustBlockSize target 0 new.size).shiftRight blockSize (target + 1) e,
      target, s.pma e⟩ where
  carry := hfree
  moved := Or.inl ⟨e, h2, h3, hfree, rfl, rfl⟩
  rest := ⟨_, by rw [BlockSizeManager.size_shiftRight]; rfl, rfl⟩
  exact := fun hexact => by
    refine hexact.shiftRight h2 (size_of_isEmpty hcells (by omega) h3 hfree) ?_
      (fun c g1 g2 => ?_) fun c hc => ?_
    · rw [shiftedRight, if_pos rfl]
    · rw [shiftedRight, if_neg (by omega), if_pos ⟨g1, g2⟩]
      rfl
    · rw [shiftedRight, if_neg (by omega), if_neg (by omega)]
      rfl

lemma written_left {b e : ℕ} (h1 : range.left ≤ e) (h2 : e ≤ b) (h3 : b < range.right)
    (hfree : (s.pma e).isEmpty = true)
    (hocc : b + 1 < range.right → (s.pma (b + 1)).isEmpty = false) :
    s.Written new (b + 1) range ⟨s.withPma (shiftedLeft s.pma new e b) fun blockSize =>
      (s.sizeManager.adjustBlockSize b 0 new.size).shiftLeft blockSize e b, b, s.pma e⟩ where
  carry := hfree
  moved := Or.inr ⟨b, e, rfl, h1, h2, hfree, hocc, rfl, rfl⟩
  rest := ⟨_, by rw [BlockSizeManager.size_shiftLeft]; rfl, rfl⟩
  exact := fun hexact => by
    refine hexact.shiftLeft h2 (size_of_isEmpty hcells h1 (by omega) hfree) ?_
      (fun c g1 g2 => ?_) fun c hc => ?_
    · rw [shiftedLeft, if_pos rfl]
    · rw [shiftedLeft, if_neg (by omega), if_pos ⟨g1, g2⟩]
      rfl
    · rw [shiftedLeft, if_neg (by omega), if_neg (by omega)]
      rfl

/-- **`writeBlockInPlace`** needs a free cell in the range, and nothing else. -/
theorem writeBlockInPlace_spec (hnew : new.isEmpty = false) (h1 : range.left ≤ target)
    (h2 : target ≤ range.right)
    (hroom : ∃ c, range.left ≤ c ∧ c < range.right ∧ (s.pma c).isEmpty = true) :
    s.Written new target range (s.writeBlockInPlace p new target range) := by
  rw [writeBlockInPlace]
  split
  · -- a new last block
    rename_i heq
    obtain ⟨e, m, hb, he, hfree, hfull⟩ := exists_last_free hroom
    rw [heq, hb, show e + m + 1 - range.left = m + 1 + (e - range.left) by omega,
      swapDown_eq _ m hnew hfull, swapDown_of_isEmpty _ hfree]
    exact written_left hcells he (Nat.le_add_right e m) (by omega) hfree fun h => by omega
  · rename_i hne
    have htarget := empty_eq_isEmpty (hcells target h1 (by omega))
    rw [htarget]
    split
    · rename_i hocc
      by_cases hright : ∃ c, target ≤ c ∧ c < range.right ∧ (s.pma c).isEmpty = true
      · obtain ⟨m, hm, hfree, hfull⟩ := exists_first_free hright
        rw [show range.right - target = m + 1 + (range.right - target - m - 1) by omega,
          swapUp_eq _ m hnew hfull, swapUp_of_isEmpty _ hfree]
        simp only
        rw [if_pos hfree, Nat.add_sub_cancel]
        exact written_right hcells h1 (Nat.le_add_right target m) hm hfree
      · -- no free cell on the right: the first swaps are undone, and the new block is carried on
        push Not at hright
        have hfull : ∀ c, target ≤ c → c < range.right → (s.pma c).isEmpty = false :=
          fun c g1 g2 => by simpa using hright c g1 g2
        obtain ⟨n, hn⟩ : ∃ n, range.right = target + n + 1 :=
          ⟨range.right - target - 1, by omega⟩
        have hlast := hfull (target + n) (by omega) (by omega)
        have hleft : ∃ c, range.left ≤ c ∧ c < target ∧ (s.pma c).isEmpty = true := by
          obtain ⟨c, g1, g2, g3⟩ := hroom
          refine ⟨c, g1, ?_, g3⟩
          by_contra hge
          rw [hfull c (by omega) g2] at g3
          exact absurd g3 (by simp)
        obtain ⟨e, m, hb, he, hfree, hfull'⟩ := exists_last_free hleft
        rw [show range.right - target = n + 1 + 0 by omega,
          swapUp_eq 0 n hnew fun c g1 g2 => hfull c g1 (by omega)]
        simp only [swapUp, hlast, Bool.false_eq_true, if_false]
        rw [show range.right - range.left = n + 1 + (m + 1 + (e - range.left)) by omega, hn,
          swapDown_eq _ n hlast fun c g1 g2 => ?_, shiftedLeft_shiftedRight (by omega), hb]
        · have hcarry : shiftedRight s.pma new (e + m + 1) (e + m + 1 + n) (e + m + 1) = new :=
            if_pos rfl
          rw [hcarry, swapDown_eq _ m hnew hfull', swapDown_of_isEmpty _ hfree]
          exact written_left hcells he (Nat.le_add_right e m) (by omega) hfree fun _ =>
            hb ▸ hocc
        · rw [shiftedRight, if_neg (by omega), if_pos (by omega)]
          exact hfull (c - 1) (by omega) (by omega)
    · -- the cell itself is free
      rename_i hocc
      have hfree : (s.pma target).isEmpty = true := by simpa using hocc
      refine ⟨rfl, ?_, ⟨s.sizeManager.adjustBlockSize target 0 new.size, rfl, rfl⟩, fun hexact => ?_⟩
      · exact Or.inl ⟨target, le_refl _, by omega, hfree, shiftedRight_self.symm, rfl⟩
      · have hsize := size_of_isEmpty hcells h1 (by omega) hfree
        have := @BlockSizeManager.Exact.adjustBlockSize _
          (fun c => (Function.update s.pma target new c).size) target _ hexact new.size (by rw [Function.update_self]) fun c hc => by
            rw [Function.update_of_ne hc]
            rfl
        rwa [hsize] at this

end

end OverallocatedBatchedSparseArray

end BatchPMA
