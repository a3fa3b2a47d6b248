import BatchPMA.InPlace.Shifting
import BatchPMA.Block.MergeFaster
import BatchPMA.Insertion.Splitting

/-!
# Inserting into a block of a range

What an iteration of the in-place `insertBatchRange` does to the sequence of blocks of its range:
one block is replaced by the blocks that hold its elements and the new ones.  All writes stay inside
the range, every one of them finds a free cell, and the aggregates stay exact.
-/

namespace BatchPMA

open KeyedUnion Ranges

variable {K α : Type} [LinearOrder K]

namespace OverallocatedBatchedSparseArray

variable {p : OverallocatedParams K α} {s s' s'' : OverallocatedBatchedSparseArray K α}
  {new : PmaEntry K α} {target : ℕ} {range : Interval}

/-! ## Changes inside a range -/

/-- `s'` differs from `s` in the cells of a range and in the aggregates, which stay exact. -/
structure RangeEdit (s s' : OverallocatedBatchedSparseArray K α) (range : Interval) : Prop where
  rest : ∃ sizeManager, sizeManager.size = s.sizeManager.size ∧
    s' = { s with pma := s'.pma, sizeManager := sizeManager }
  outside : ∀ c, c < range.left ∨ range.right ≤ c → s'.pma c = s.pma c
  exact : s.sizeManager.Exact s.blockSize → s'.sizeManager.Exact s'.blockSize

section

omit [LinearOrder K]

lemma RangeEdit.refl (s : OverallocatedBatchedSparseArray K α) (range : Interval) :
    s.RangeEdit s range := ⟨⟨s.sizeManager, rfl, rfl⟩, fun _ _ => rfl, id⟩

lemma RangeEdit.trans (h : s.RangeEdit s' range) (h' : s'.RangeEdit s'' range) :
    s.RangeEdit s'' range := by
  refine ⟨?_, fun c hc => (h'.outside c hc).trans (h.outside c hc), fun he => h'.exact (h.exact he)⟩
  obtain ⟨m, hm, heq⟩ := h.rest
  obtain ⟨m', hm', heq'⟩ := h'.rest
  refine ⟨m', ?_, ?_⟩
  · rw [hm', heq]
    exact hm
  · rw [heq', heq]

lemma RangeEdit.size_eq (h : s.RangeEdit s' range) : s'.size = s.size := by
  obtain ⟨m, -, heq⟩ := h.rest
  rw [heq]

lemma RangeEdit.tasks_eq (h : s.RangeEdit s' range) : s'.tasks = s.tasks := by
  obtain ⟨m, -, heq⟩ := h.rest
  rw [heq]

end

/-! ## One block -/

/-- A written block lies between the ones in front of the target and the others. -/
lemma Written.spec {result : WriteResult K α} (h : s.Written new target range result)
    (hnew : new.Valid p.toBlockParams) (hcells : CellsIn p.toBlockParams s.pma range.left range.right)
    (h1 : range.left ≤ target) (h2 : target ≤ range.right) :
    s.RangeEdit result.array range ∧
      CellsIn p.toBlockParams result.array.pma range.left range.right ∧
      range.left ≤ result.insertionIndex ∧ result.insertionIndex < range.right ∧
      rangeBlocks result.array.pma range.left (result.insertionIndex + 1) =
        rangeBlocks s.pma range.left target ++ [new] ∧
      rangeBlocks result.array.pma (result.insertionIndex + 1) range.right =
        rangeBlocks s.pma target range.right := by
  have hne := hnew.isEmpty_eq
  rcases h.moved with ⟨e, g1, g2, g3, hpma, hidx⟩ | ⟨b, e, rfl, g1, g2, g3, -, hpma, hidx⟩
  · refine ⟨⟨h.rest, fun c hc => ?_, h.exact⟩, fun c k1 k2 => ?_, by omega, by omega, ?_⟩
    · rw [hpma, shiftedRight, if_neg (by omega), if_neg (by omega)]
    · rw [hpma, shiftedRight]
      split
      · exact Or.inr hnew
      · split
        · exact hcells (c - 1) (by omega) (by omega)
        · exact hcells c k1 k2
    · rw [hpma, hidx]
      exact rangeBlocks_shiftedRight hne h1 g1 g2 g3
  · refine ⟨⟨h.rest, fun c hc => ?_, h.exact⟩, fun c k1 k2 => ?_, by omega, by omega, ?_⟩
    · rw [hpma, shiftedLeft, if_neg (by omega), if_neg (by omega)]
    · rw [hpma, shiftedLeft]
      split
      · exact Or.inr hnew
      · split
        · exact hcells (c + 1) (by omega) (by omega)
        · exact hcells c k1 k2
    · rw [hpma, hidx]
      exact rangeBlocks_shiftedLeft hne g1 g2 g3

omit [LinearOrder K] in
/-- A run of cells that hold written blocks goes on to the new block, wherever it is put. -/
lemma Written.run {result : WriteResult K α} (h : s.Written new target range result)
    {first : ℕ} {done : List (PmaEntry K α)} (h2 : target ≤ range.right) (hfirst : first ≤ target)
    (hlt : first < range.right) (hdone : ∀ b ∈ done, b.isEmpty = false)
    (hrun : ∀ c, first ≤ c → c < target → s.pma c ∈ done)
    (hself : first = target → (s.pma target).isEmpty = true) :
    first < result.insertionIndex + 1 ∧
      ∀ c, first ≤ c → c < result.insertionIndex + 1 → result.array.pma c ∈ done ++ [new] := by
  rcases h.moved with ⟨e, g1, g2, g3, hpma, hidx⟩ | ⟨b, e, rfl, g1, g2, g3, hocc, hpma, hidx⟩
  · refine ⟨by omega, fun c k1 k2 => ?_⟩
    rw [hpma, shiftedRight]
    split
    · exact List.mem_append_right _ (List.mem_singleton_self _)
    · rw [if_neg (by omega)]
      exact List.mem_append_left _ (hrun c k1 (by omega))
  · -- a free target would have been used; a free cell in front of it lies in front of the run
    have hne : first < b + 1 := by
      refine lt_of_le_of_ne hfirst fun heq => ?_
      have := hocc (by omega)
      rw [hself heq] at this
      exact absurd this (by simp)
    have he : e < first := by
      by_contra hge
      have := hdone _ (hrun e (by omega) (by omega))
      rw [g3] at this
      exact absurd this (by simp)
    refine ⟨by omega, fun c k1 k2 => ?_⟩
    rw [hpma, shiftedLeft]
    split
    · exact List.mem_append_right _ (List.mem_singleton_self _)
    · rw [if_pos (by omega)]
      exact List.mem_append_left _ (hrun (c + 1) (by omega) (by omega))

/-! ## The parts of a split block -/

/-- **The parts of a block** are written one behind the other, and none is lost. -/
lemma writeBlocksInPlace_spec {first : ℕ} : ∀ (blocks : List (PmaEntry K α))
    {s : OverallocatedBatchedSparseArray K α} {target : ℕ} {done : List (PmaEntry K α)},
    (∀ b ∈ blocks, b.Valid p.toBlockParams) →
    CellsIn p.toBlockParams s.pma range.left range.right →
    range.left ≤ target → target ≤ range.right →
    (rangeBlocks s.pma range.left range.right).length + blocks.length ≤ range.right - range.left →
    first ≤ target → first < range.right → (∀ b ∈ done, b.isEmpty = false) →
    (∀ c, first ≤ c → c < target → s.pma c ∈ done) →
    (first = target → (s.pma target).isEmpty = true) → blocks ≠ [] ∨ first < target →
    (s.writeBlocksInPlace p range blocks target).2 = [] ∧
      s.RangeEdit (s.writeBlocksInPlace p range blocks target).1 range ∧
      CellsIn p.toBlockParams (s.writeBlocksInPlace p range blocks target).1.pma range.left
        range.right ∧
      rangeBlocks (s.writeBlocksInPlace p range blocks target).1.pma range.left range.right =
        rangeBlocks s.pma range.left target ++ (blocks ++ rangeBlocks s.pma target range.right) ∧
      (s.writeBlocksInPlace p range blocks target).1.pma first ∈ done ++ blocks
  | [], s, target, done, _, hcells, h1, h2, _, _, _, _, hrun, _, hne => by
      simp only [writeBlocksInPlace]
      refine ⟨trivial, RangeEdit.refl s range, hcells, ?_, ?_⟩
      · rw [List.nil_append, ← rangeBlocks_append h1 h2]
      · rw [List.append_nil]
        exact hrun first (le_refl _) (hne.resolve_left fun h => h rfl)
  | block :: blocks, s, target, done, hvalid, hcells, h1, h2, hroom, hfirst, hlt, hdone, hrun,
      hself, _ => by
      have hv := hvalid block List.mem_cons_self
      rw [List.length_cons] at hroom
      have hw := writeBlockInPlace_spec hcells hv.isEmpty_eq h1 h2 (exists_free (by omega))
      obtain ⟨hedit, hcells', hleft, hright, hfront, hback⟩ := hw.spec hv hcells h1 h2
      obtain ⟨hfirst', hrun'⟩ := hw.run h2 hfirst hlt hdone hrun hself
      have hsplit := @rangeBlocks_append _ _ ((s.writeBlockInPlace p block target range).array.pma) _ _ _
        (show range.left ≤ (s.writeBlockInPlace p block target range).insertionIndex + 1 by omega)
        (Nat.succ_le_of_lt hright)
      have hold := @rangeBlocks_append _ _ s.pma _ _ _ h1 h2
      have hcount : (rangeBlocks (s.writeBlockInPlace p block target range).array.pma range.left
          range.right).length = (rangeBlocks s.pma range.left range.right).length + 1 := by
        rw [hsplit, hfront, hback, hold]
        simp only [List.length_append, List.length_singleton]
        omega
      obtain ⟨ih1, ih2, ih3, ih4, ih5⟩ := @writeBlocksInPlace_spec first blocks
        (s.writeBlockInPlace p block target range).array
        ((s.writeBlockInPlace p block target range).insertionIndex + 1) (done ++ [block])
        (fun b hb => hvalid b (List.mem_cons_of_mem _ hb)) hcells'
        (by omega) (by omega) (by omega) hfirst'.le hlt
        (fun b hb => by
          rcases List.mem_append.mp hb with hb | hb
          · exact hdone b hb
          · rw [List.mem_singleton.mp hb]
            exact hv.isEmpty_eq)
        hrun' (fun heq => by omega) (Or.inr hfirst')
      simp only [writeBlocksInPlace]
      refine ⟨?_, hedit.trans ih2, ih3, ?_, ?_⟩
      · rw [hw.carry, ih1]
        rfl
      · rw [ih4, hfront, hback, List.append_assoc, List.singleton_append, List.cons_append]
      · rw [List.append_assoc, List.singleton_append] at ih5
        exact ih5

/-! ## A block and new elements -/

/-- `merge` and `mergeFaster`. -/
lemma mergeElements_spec {b : PmaEntry K α} {es : List α} (hb : b.Filled p.toBlockParams)
    (hsigned : p.blockSize ≤ 2 ^ 15) (hroom : b.size + es.length ≤ p.blockSize)
    (hinc : Increasing p.toBlockParams es)
    (hes : ∀ x ∈ es, p.keyOf x ≠ p.nullKey ∧ b.DeadHidden p.toBlockParams x) :
    PmaEntry.HasMergedFaster p.toBlockParams b es (mergeElements p b es) := by
  rw [mergeElements]
  split
  · exact hb.mergeFaster_spec hsigned hroom hinc fun x hx => (hes x hx).1
  · have h := hb.merge_spec hroom hinc hes
    exact ⟨h.filled, h.union, fun x hx => Or.inl (h.dead.mem hx)⟩

/-- The block `b₀` and the elements `es` that go into it; `above` are keys of later blocks. -/
structure BlockInput (p : OverallocatedParams K α) (b₀ : PmaEntry K α) (above : K → Prop)
    (es : List α) : Prop where
  split : SplitState.SplitInput p.toBlockParams True b₀ above es
  signed : p.blockSize ≤ 2 ^ 15
  ne_nil : es ≠ []

/-- `parts` take the place of the block `b₀` when the elements `es` are inserted. -/
structure Replaces (p : OverallocatedParams K α) (b₀ : PmaEntry K α) (above : K → Prop)
    (es : List α) (parts : List (PmaEntry K α)) : Prop where
  valid : ∀ b ∈ parts, b.Valid p.toBlockParams
  union : IsUnion p.keyOf b₀.live es (elements parts)
  stale : StaleOk p.toBlockParams True above parts
  large : (∀ b ∈ parts, p.minBlockSize ≤ b.size) ∨ ∃ b, parts = [b] ∧ b₀.size ≤ b.size

lemma BlockInput.merge {b₀ : PmaEntry K α} {above : K → Prop} {es : List α}
    (h : BlockInput p b₀ above es) (hfit : b₀.size + es.length ≤ p.blockSize) :
    Replaces p b₀ above es [mergeElements p b₀ es] := by
  have hb := h.split.valid
  have hm := mergeElements_spec (p := p) hb.filled h.signed hfit h.split.increasing fun x hx => by
    refine ⟨h.split.key_ne_null x hx, fun d hd heq => ?_⟩
    rcases h.split.dead d hd with h1 | h1 | ⟨-, y, hy, hle⟩
    · exact absurd (heq ▸ h1) (h.split.key_ne_null x hx)
    · exact absurd (h.split.below x hx _ h1) (by rw [heq]; exact lt_irrefl _)
    · exact ⟨y, hy, heq ▸ hle⟩
  have hsize : b₀.size ≤ (mergeElements p b₀ es).size := by
    rw [← hm.filled.length_live, ← hb.length_live]
    exact hm.union.length_old_le hb.increasing
  refine ⟨fun b hin => ?_, ?_, ⟨fun x hx => ?_, trivial⟩, Or.inr ⟨_, rfl, hsize⟩⟩
  · rw [List.mem_singleton.mp hin]
    exact hm.filled.valid (lt_of_lt_of_le hb.size_pos hsize)
  · simp only [elements_cons, elements_nil, List.append_nil]
    exact hm.union
  · rcases hm.dead x hx with hx | hx
    · rcases h.split.dead x hx with h1 | h1 | ⟨-, y, hy, hle⟩
      · exact Or.inl h1
      · exact Or.inr (Or.inl h1)
      · exact Or.inr (Or.inr (Or.inr ⟨trivial, y, hm.union.mem_old hy, hle⟩))
    · exact Or.inr (Or.inr (Or.inr ⟨trivial, x, hx, le_refl _⟩))

lemma BlockInput.parts {b₀ : PmaEntry K α} {above : K → Prop} {es : List α}
    (h : BlockInput p b₀ above es) (hfit : p.blockSize < b₀.size + es.length) :
    Replaces p b₀ above es (splitBlocks p.toBlockParams b₀ es) := by
  obtain ⟨h1, h2, h3⟩ := splitBlocks_stale h.split hfit
  exact ⟨fun b hb => (h1 b hb).1, h2, h3, Or.inl fun b hb => (h1 b hb).2⟩

lemma Replaces.ne_nil {b₀ : PmaEntry K α} {above : K → Prop} {es : List α}
    {parts : List (PmaEntry K α)} (h : Replaces p b₀ above es parts)
    (hb : b₀.Valid p.toBlockParams) : parts ≠ [] := by
  rintro rfl
  obtain ⟨x, hx, -⟩ := hb.head_mem
  exact absurd (h.union.mem_old hx) List.not_mem_nil

/-- **`insertElementsIntoBlock`**, in the cell `c` of a range. -/
theorem insertElementsIntoBlock_spec {c : ℕ} {above : K → Prop} {es : List α}
    (h : BlockInput p (s.pma c) above es)
    (hcells : CellsIn p.toBlockParams s.pma range.left range.right) (h1 : range.left ≤ c)
    (h2 : c < range.right)
    (hroom : ∀ parts, Replaces p (s.pma c) above es parts →
      (∀ b ∈ parts, p.minBlockSize ≤ b.size) →
      (rangeBlocks s.pma range.left c).length + parts.length +
        (rangeBlocks s.pma (c + 1) range.right).length ≤ range.right - range.left) :
    (s.insertElementsIntoBlock p c es range).2 = [] ∧
      s.RangeEdit (s.insertElementsIntoBlock p c es range).1 range ∧
      CellsIn p.toBlockParams (s.insertElementsIntoBlock p c es range).1.pma range.left
        range.right ∧
      ∃ parts, Replaces p (s.pma c) above es parts ∧
        rangeBlocks (s.insertElementsIntoBlock p c es range).1.pma range.left range.right =
          rangeBlocks s.pma range.left c ++ (parts ++ rangeBlocks s.pma (c + 1) range.right) ∧
        (s.insertElementsIntoBlock p c es range).1.pma c ∈ parts := by
  rw [insertElementsIntoBlock]
  split
  · rename_i hfit
    have hrep := h.merge hfit
    have hv := hrep.valid _ (List.mem_singleton_self _)
    refine ⟨rfl, ⟨⟨s.sizeManager.adjustBlockSize c (s.blockSize c)
      (mergeElements p (s.pma c) es).size, rfl, rfl⟩, fun i hi => ?_, fun he => ?_⟩,
      fun i g1 g2 => ?_, _, hrep, ?_, ?_⟩
    · exact Function.update_of_ne (by omega) _ _
    · refine he.adjustBlockSize ?_ fun i hi => ?_
      · rw [blockSize, insertIntoBlockWithoutSplit]
        simp only [Function.update_self]
      · rw [blockSize, insertIntoBlockWithoutSplit]
        simp only [Function.update_of_ne hi]
        rfl
    · rw [insertIntoBlockWithoutSplit]
      simp only [Function.update_apply]
      split
      · exact Or.inr hv
      · exact hcells i g1 g2
    · have hne : ∀ i, i ≠ c →
          (s.insertIntoBlockWithoutSplit p c es).pma i = s.pma i := fun i hi =>
        Function.update_of_ne hi _ _
      rw [rangeBlocks_append h1 h2.le, rangeBlocks_append (Nat.le_succ c) h2, rangeBlocks_succ,
        rangeBlocks_congr fun i _ g2 => hne i (by omega),
        rangeBlocks_congr fun i (g1 : c + 1 ≤ i) _ => hne i (by omega), insertIntoBlockWithoutSplit]
      simp only [Function.update_self]
      rw [cellBlock_of_not_isEmpty hv.isEmpty_eq]
    · rw [insertIntoBlockWithoutSplit]
      simp only [Function.update_self]
      exact List.mem_singleton_self _
  · rename_i hfit
    have hrep := h.parts (not_le.mp hfit)
    obtain ⟨hl1, -, -⟩ := splitBlocks_stale h.split (not_le.mp hfit)
    -- the block is taken out before its parts are written
    have hne : ∀ i, i ≠ c → Function.update s.pma c (PmaEntry.null p.toBlockParams) i = s.pma i :=
      fun i hi => Function.update_of_ne hi _ _
    have hout : s.RangeEdit { s.adjustBlockSize c (s.pma c).size 0 with
        pma := Function.update s.pma c (PmaEntry.null p.toBlockParams) } range := by
      refine ⟨⟨s.sizeManager.adjustBlockSize c (s.pma c).size 0, rfl, rfl⟩, fun i hi => ?_,
        fun he => ?_⟩
      · exact hne i (by omega)
      · refine he.adjustBlockSize ?_ fun i hi => ?_
        · rw [blockSize]
          simp only [Function.update_self]
          rfl
        · rw [blockSize]
          simp only [Function.update_of_ne hi]
          rfl
    have hcells' : CellsIn p.toBlockParams
        (Function.update s.pma c (PmaEntry.null p.toBlockParams)) range.left range.right := by
      intro i g1 g2
      rw [Function.update_apply]
      split
      · exact Or.inl rfl
      · exact hcells i g1 g2
    have hfront : rangeBlocks (Function.update s.pma c (PmaEntry.null p.toBlockParams)) range.left c
        = rangeBlocks s.pma range.left c := rangeBlocks_congr fun i _ g2 => hne i (by omega)
    have hback : rangeBlocks (Function.update s.pma c (PmaEntry.null p.toBlockParams)) c range.right
        = rangeBlocks s.pma (c + 1) range.right := by
      rw [rangeBlocks_append (Nat.le_succ c) h2, rangeBlocks_succ, Function.update_self,
        cellBlock_of_isEmpty rfl, List.nil_append]
      exact rangeBlocks_congr fun i g1 _ => hne i (by omega)
    have hcount := hroom _ hrep fun b hb => (hl1 b hb).2
    obtain ⟨g1, g2, g3, g4, g5⟩ := @writeBlocksInPlace_spec _ _ _ p range c
      (splitBlocks p.toBlockParams (s.pma c) es) ({ s.adjustBlockSize c (s.pma c).size 0 with
        pma := Function.update s.pma c (PmaEntry.null p.toBlockParams) }) c []
      hrep.valid hcells' h1 h2.le
      (by
        rw [rangeBlocks_append h1 h2.le, List.length_append]
        simp only
        rw [hfront, hback]
        omega)
      (le_refl c) h2 (fun b hb => absurd hb List.not_mem_nil) (fun i k1 k2 => by omega)
      (fun _ => by simp only [Function.update_self]; rfl)
      (Or.inl (hrep.ne_nil h.split.valid))
    simp only at g4
    rw [hfront, hback] at g4
    rw [List.nil_append] at g5
    exact ⟨g1, hout.trans g2, g3, _, hrep, g4, g5⟩

end OverallocatedBatchedSparseArray

end BatchPMA
