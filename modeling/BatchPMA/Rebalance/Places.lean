import BatchPMA.Model.Rebalancing
import BatchPMA.Library.Transfer
import BatchPMA.Library.Ranges

/-!
# Places

The three block arrays as one memory: a place is a cell of the pma, of the swap array or of the
buffer array.  The blocks of a cell of the pma are its own block and its buffer blocks, in this
order, and the blocks of a range of cells are those of its cells one after the other.

`rebalanceBlocks` moves a run of these places to consecutive cells of the swap array.  Here that
is stated for one cell; `Rebalance.Execution` puts the cells together.
-/

namespace BatchPMA

open Ranges

inductive Place where
  | pma (index : ℕ)
  | swap (index : ℕ)
  | buffer (index : ℕ)
  deriving DecidableEq

namespace BatchedSparseArray

variable {K α : Type}

/-- The three arrays as one memory. -/
def memory (s : BatchedSparseArray K α) : Place → PmaEntry K α
  | .pma i => s.pma i
  | .swap i => s.swapPma i
  | .buffer i => s.bufferArray i

/-- The same state with other blocks in the three arrays and another hierarchy. -/
def withBlocks (s : BatchedSparseArray K α) (pma swapPma bufferArray : ℕ → PmaEntry K α)
    (m : RebalancingManager) : BatchedSparseArray K α :=
  { s with
    pma := pma
    swapPma := swapPma
    bufferArray := bufferArray
    rebalancingManager := m }

section

variable (p : BatchedParams K α) (s : BatchedSparseArray K α)

lemma memory_movePmaBlock (c w : ℕ) : (s.movePmaBlock p c w).memory =
    Transfer.move (PmaEntry.null p.toBlockParams) s.memory (.pma c) (.swap w) := by
  funext q
  cases q <;> simp [memory, movePmaBlock, Transfer.move, Function.update_apply]

lemma memory_moveBufferBlock (j w : ℕ) : (s.moveBufferBlock p j w).memory =
    Transfer.move (PmaEntry.null p.toBlockParams) s.memory (.buffer j) (.swap w) := by
  funext q
  cases q <;> simp [memory, moveBufferBlock, Transfer.move, Function.update_apply]

/-- Moves the block at a place to a cell of the swap array. -/
def movePlace (q : Place) (w : ℕ) : BatchedSparseArray K α :=
  match q with
  | .pma c => s.movePmaBlock p c w
  | .buffer j => s.moveBufferBlock p j w
  | .swap _ => s

lemma movePlace_frame (q : Place) (w : ℕ) :
    ∃ a b c, s.movePlace p q w = s.withBlocks a b c s.rebalancingManager := by
  cases q with
  | pma c => exact ⟨_, _, _, rfl⟩
  | buffer j => exact ⟨_, _, _, rfl⟩
  | swap i => exact ⟨_, _, _, rfl⟩

/-- Moves the blocks at the given places to consecutive cells of the swap array. -/
def movePlaces : ℕ → List Place → BatchedSparseArray K α → BatchedSparseArray K α
  | _, [], s => s
  | w, q :: rest, s => movePlaces (w + 1) rest (s.movePlace p q w)

/-- The inner loop of `rebalanceBlocks`, when all the blocks are there. -/
lemma moveBufferBlocks_eq (start : ℕ) : ∀ (n i out : ℕ) (s : BatchedSparseArray K α),
    (∀ j, i ≤ j → j < i + n → 0 < (s.bufferArray j).size) →
      moveBufferBlocks p start n i out s =
        (movePlaces p (start + out) ((List.range' i n).map .buffer) s, out + n)
  | 0, i, out, s, _ => rfl
  | n + 1, i, out, s, h => by
      have hrest : ∀ j, i + 1 ≤ j → j < i + 1 + n →
          0 < ((s.moveBufferBlock p i (start + out)).bufferArray j).size := by
        intro j h1 h2
        have : (s.moveBufferBlock p i (start + out)).bufferArray j = s.bufferArray j :=
          Function.update_of_ne (by omega) _ _
        rw [this]
        exact h j (by omega) (by omega)
      rw [moveBufferBlocks, if_pos (h i (le_refl _) (by omega)),
        moveBufferBlocks_eq start n (i + 1) (out + 1) _ hrest, List.range'_succ, List.map_cons,
        movePlaces, movePlace, Nat.add_assoc out 1 n, Nat.add_comm 1 n, Nat.add_assoc start out 1]

end

/-! ## The places of a cell and of a range -/

variable [DecidableEq K] (p : BatchedParams K α) (s : BatchedSparseArray K α)

/-- The blocks of a cell: its own and its buffer blocks. -/
def cellPlaces (c : ℕ) : List Place :=
  (if s.empty p c then [] else [.pma c]) ++
    (List.range' (s.bufferPointers c).left (s.bufferPointers c).length).map .buffer

/-- The blocks of the cells `[a, b)`. -/
def placesIn (a b : ℕ) : List Place := itemsIn (s.cellPlaces p) a b

/-- How many blocks of its own cell come before an extended index. -/
def cellOffset (i : ExtendedPmaIndex) : ℕ :=
  match i.bufferIndex with
  | none => 0
  | some y => (if s.empty p i.pmaIndex then 0 else 1) + y

/-- How many blocks of the cells from `a` on come before an extended index. -/
def rank (a : ℕ) (i : ExtendedPmaIndex) : ℕ :=
  (s.placesIn p a i.pmaIndex).length + s.cellOffset p i

/-- The buffer index of an extended index, if there is one, is that of a buffer block. -/
def InCell (i : ExtendedPmaIndex) : Prop :=
  ∀ y, i.bufferIndex = some y → y < (s.bufferPointers i.pmaIndex).length

variable {p s}

lemma length_cellPlaces (c : ℕ) : (s.cellPlaces p c).length =
    (if s.empty p c then 0 else 1) + (s.bufferPointers c).length := by
  rw [cellPlaces, List.length_append, List.length_map, List.length_range']
  split <;> rfl

lemma placesIn_self (a : ℕ) : s.placesIn p a a = [] := by
  rw [placesIn, itemsIn, Nat.sub_self]
  rfl

lemma placesIn_append {a b c : ℕ} (h1 : a ≤ b) (h2 : b ≤ c) :
    s.placesIn p a c = s.placesIn p a b ++ s.placesIn p b c :=
  itemsIn_append _ h1 h2

lemma placesIn_succ (c : ℕ) : s.placesIn p c (c + 1) = s.cellPlaces p c := itemsIn_succ _ c

lemma rank_none (a c : ℕ) : s.rank p a ⟨c, none⟩ = (s.placesIn p a c).length := rfl

lemma rank_succ {a c : ℕ} (h : a ≤ c) :
    s.rank p a ⟨c + 1, none⟩ = s.rank p a ⟨c, none⟩ + (s.cellPlaces p c).length := by
  rw [rank_none, rank_none, placesIn_append h (Nat.le_succ c), placesIn_succ, List.length_append]

/-! ## One cell -/

/-- The blocks of a cell that lie between two extended indices. -/
def cellSegment (p : BatchedParams K α) (s : BatchedSparseArray K α)
    (blockEnd blockIndex : ExtendedPmaIndex) : List Place :=
  ((s.cellPlaces p blockIndex.pmaIndex).take
    (if blockIndex.pmaIndex = blockEnd.pmaIndex then s.cellOffset p blockEnd
      else (s.cellPlaces p blockIndex.pmaIndex).length)).drop (s.cellOffset p blockIndex)

/-- The buffer blocks with numbers `[x, y)` of a cell. -/
lemma bufferPlaces_segment {a n x y : ℕ} (hy : y ≤ n) :
    (((List.range' a n).map Place.buffer).take y).drop x =
      (List.range' (a + x) (y - x)).map .buffer := by
  rw [← List.map_take, ← List.map_drop, List.take_range'_of_length_ge hy, List.drop_range',
    Nat.mul_one]

/-- Where the buffer blocks of a cell end for `rebalanceBlocks`. -/
def bufferEnd (s : BatchedSparseArray K α) (blockEnd : ExtendedPmaIndex) (c : ℕ) : ℕ :=
  if c = blockEnd.pmaIndex then
    (s.bufferPointers blockEnd.pmaIndex).left + blockEnd.bufferIndex.getD 0
  else (s.bufferPointers c).right

/-- `cellSegment` when the pma block of the cell is wanted. -/
lemma cellSegment_none {blockEnd : ExtendedPmaIndex} {c : ℕ} (hend : s.InCell blockEnd)
    (hless : ExtendedPmaIndex.less ⟨c, none⟩ blockEnd = true) :
    s.cellSegment p blockEnd ⟨c, none⟩ = (if s.empty p c then [] else [.pma c]) ++
      (List.range' (s.bufferPointers c).left
        (s.bufferEnd blockEnd c - (s.bufferPointers c).left)).map .buffer := by
  rcases blockEnd with ⟨ec, eb⟩
  by_cases hc : c = ec
  · subst hc
    -- the end lies in this cell, so it is a buffer block
    cases eb with
    | none => simp [ExtendedPmaIndex.less, ExtendedPmaIndex.offset] at hless
    | some y =>
        have hle : y ≤ (s.bufferPointers c).length := (hend y rfl).le
        have htake := bufferPlaces_segment (a := (s.bufferPointers c).left) (x := 0) hle
        rw [List.drop_zero, Nat.add_zero, Nat.sub_zero] at htake
        simp only [cellSegment, cellOffset, bufferEnd, cellPlaces, if_true, Option.getD_some,
          Nat.add_sub_cancel_left, List.drop_zero]
        split
        · simpa using htake
        · simpa [Nat.add_comm 1 y] using htake
  · simp only [cellSegment, cellOffset, bufferEnd, if_neg hc, List.take_length, List.drop_zero,
      cellPlaces, Interval.length]

/-- `cellSegment` when the pma block of the cell is not wanted. -/
lemma cellSegment_some {blockEnd : ExtendedPmaIndex} {c x : ℕ} (hend : s.InCell blockEnd)
    (hless : ExtendedPmaIndex.less ⟨c, some x⟩ blockEnd = true) :
    s.cellSegment p blockEnd ⟨c, some x⟩ = (List.range' ((s.bufferPointers c).left + x)
      (s.bufferEnd blockEnd c - ((s.bufferPointers c).left + x))).map .buffer := by
  rcases blockEnd with ⟨ec, eb⟩
  by_cases hc : c = ec
  · subst hc
    cases eb with
    | none => simp [ExtendedPmaIndex.less, ExtendedPmaIndex.offset] at hless
    | some y =>
        have hle : y ≤ (s.bufferPointers c).length := (hend y rfl).le
        have htake := bufferPlaces_segment (a := (s.bufferPointers c).left) (x := x) hle
        simp only [cellSegment, cellOffset, bufferEnd, cellPlaces, if_true, Option.getD_some,
          Nat.add_sub_add_left]
        split
        · simpa using htake
        · simpa [Nat.add_comm 1 y, Nat.add_comm 1 x] using htake
  · have hdrop := bufferPlaces_segment (a := (s.bufferPointers c).left) (x := x)
      (le_refl (s.bufferPointers c).length)
    have hlen : (s.bufferPointers c).right - ((s.bufferPointers c).left + x) =
        (s.bufferPointers c).length - x := by
      rw [Interval.length]
      omega
    rw [List.take_of_length_le (by simp)] at hdrop
    simp only [cellSegment, cellOffset, bufferEnd, if_neg hc, List.take_length, cellPlaces, hlen]
    split
    · simpa using hdrop
    · simpa [Nat.add_comm 1 x] using hdrop

/-- One iteration of `rebalanceBlocks`. -/
lemma rebalanceCell_eq {s₀ : BatchedSparseArray K α} (start out : ℕ)
    {blockEnd blockIndex : ExtendedPmaIndex} (hptr : s.bufferPointers = s₀.bufferPointers)
    (hempty : blockIndex.bufferIndex = none →
      s.empty p blockIndex.pmaIndex = s₀.empty p blockIndex.pmaIndex)
    (hend : s₀.InCell blockEnd) (hless : blockIndex.less blockEnd = true)
    (hblocks : ∀ j, .buffer j ∈ s₀.cellSegment p blockEnd blockIndex →
      0 < (s.bufferArray j).size) :
    rebalanceCell p start blockEnd blockIndex out s =
      (movePlaces p (start + out) (s₀.cellSegment p blockEnd blockIndex) s,
        out + (s₀.cellSegment p blockEnd blockIndex).length) := by
  rcases blockIndex with ⟨c, b⟩
  cases b with
  | none =>
      have he := hempty rfl
      simp only at he
      rw [cellSegment_none hend hless] at hblocks ⊢
      rw [rebalanceCell]
      simp only [he, true_and, Option.getD_none, Nat.add_zero, hptr]
      have hend' : (if c = blockEnd.pmaIndex then
          (s₀.bufferPointers blockEnd.pmaIndex).left + blockEnd.bufferIndex.getD 0
        else (s₀.bufferPointers c).right) = s₀.bufferEnd blockEnd c := rfl
      rw [hend']
      by_cases hnull : s₀.empty p c = true
      · rw [if_neg (by simp [hnull]), if_pos hnull, List.nil_append]
        rw [if_pos hnull, List.nil_append] at hblocks
        rw [moveBufferBlocks_eq]
        · simp
        · intro j h1 h2
          refine hblocks j (List.mem_map.mpr ⟨j, ?_, rfl⟩)
          rw [List.mem_range'_1]
          exact ⟨h1, h2⟩
      · have hfalse : s₀.empty p c = false := by simpa using hnull
        rw [if_pos hfalse, if_neg hnull]
        rw [moveBufferBlocks_eq]
        · simp only [List.singleton_append, List.length_cons, List.length_map,
            List.length_range', movePlaces, movePlace, Prod.mk.injEq]
          exact ⟨rfl, by omega⟩
        · intro j h1 h2
          refine hblocks j (List.mem_append_right _ (List.mem_map.mpr ⟨j, ?_, rfl⟩))
          rw [List.mem_range'_1]
          exact ⟨h1, h2⟩
  | some x =>
      rw [cellSegment_some hend hless] at hblocks ⊢
      rw [rebalanceCell]
      simp only [hptr, reduceCtorEq, false_and, if_false, Option.getD_some]
      rw [moveBufferBlocks_eq]
      · simp only [List.length_map, List.length_range']
        rfl
      · intro j h1 h2
        refine hblocks j (List.mem_map.mpr ⟨j, ?_, rfl⟩)
        rw [List.mem_range'_1]
        exact ⟨h1, h2⟩

end BatchedSparseArray

end BatchPMA
