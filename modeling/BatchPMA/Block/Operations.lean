import BatchPMA.Block.Neighbours
import BatchPMA.Model.State

/-!
# Blocks as finite maps

A family of blocks under any sequence of calls.  What a block should be is a sorted finite map: the
list of its entries.  `insertWithIndex` and `merge` compare a new element with the cell behind the
live ones, which holds whatever was left there by the allocation or by an earlier `split`, `remove`
or `steal`; an element that meets its own key there is taken for present and lost.  In every run in
which this does not happen, the live cells are the entries of the maps.
-/

namespace BatchPMA

open KeyedUnion

variable {K α : Type}

/-- A call of an operation, on the blocks with the given numbers.  The upper half that `split`
returns is assigned to `right`. -/
inductive BlockOperation (α : Type) where
  | allocateBlock (i : ℕ)
  | insertWithIndex (i : ℕ) (e : α)
  | merge (i : ℕ) (es : List α)
  | split (i right : ℕ)
  | remove (i : ℕ) (e : α)
  | mergeSmaller (i other : ℕ)
  | steal (i right : ℕ)
  | stealFromSmaller (i left : ℕ)

namespace BlockOperation

open PmaEntry

variable [LinearOrder K] (p : BlockParams K α)

/-- What a call does to the blocks. -/
def apply (blocks : ℕ → PmaEntry K α) : BlockOperation α → ℕ → PmaEntry K α
  | allocateBlock i => Function.update blocks i ((blocks i).allocateBlock p)
  | insertWithIndex i e => Function.update blocks i ((blocks i).insertWithIndex p e 0).1
  | merge i es => Function.update blocks i ((blocks i).merge p es)
  | split i right =>
      Function.update (Function.update blocks i ((blocks i).split p).1) right ((blocks i).split p).2
  | remove i e => Function.update blocks i ((blocks i).remove p e).1
  | mergeSmaller i other => Function.update blocks i ((blocks i).mergeSmaller p (blocks other))
  | steal i right =>
      Function.update (Function.update blocks i ((blocks i).steal p (blocks right)).1) right
        ((blocks i).steal p (blocks right)).2
  | stealFromSmaller i left =>
      Function.update (Function.update blocks i ((blocks i).stealFromSmaller p (blocks left)).1) left
        ((blocks i).stealFromSmaller p (blocks left)).2

/-- What a call should do to the sorted finite maps. -/
def applyToMaps (maps : ℕ → List α) : BlockOperation α → ℕ → List α
  | allocateBlock i => Function.update maps i []
  | insertWithIndex i e => Function.update maps i (insertKeyed p.keyOf (maps i) e)
  | merge i es => Function.update maps i (mergeKeyed p.keyOf (maps i) es)
  | split i right =>
      Function.update (Function.update maps i ((maps i).take p.minBlockSize)) right
        ((maps i).drop p.minBlockSize)
  | remove i e =>
      Function.update maps i ((maps i).filter fun x => decide (p.keyOf x ≠ p.keyOf e))
  | mergeSmaller i other => Function.update maps i (maps other ++ maps i)
  | steal i right =>
      let needed := p.minBlockSize - (maps i).length
      Function.update (Function.update maps i (maps i ++ (maps right).take needed)) right
        ((maps right).drop needed)
  | stealFromSmaller i left =>
      let kept := (maps left).length + (maps i).length - p.minBlockSize
      Function.update (Function.update maps i ((maps left).drop kept ++ maps i)) left
        ((maps left).take kept)

/-- What the source asserts or documents for a call: blocks that exist (or not yet), room, a sorted
batch, blocks in the order of their keys, and enough elements for two blocks.  Keys are not the
null key, and `MinSize - size` is a number. -/
def Allowed (blocks : ℕ → PmaEntry K α) : BlockOperation α → Prop
  | allocateBlock i => (blocks i).block = none
  | insertWithIndex i e =>
      (blocks i).isEmpty = false ∧ (blocks i).size < p.blockSize ∧ p.keyOf e ≠ p.nullKey
  | merge i es =>
      (blocks i).isEmpty = false ∧ es ≠ [] ∧ es.Pairwise (fun x y => p.keyOf x ≤ p.keyOf y) ∧
        (∀ e ∈ es, p.keyOf e ≠ p.nullKey) ∧
        (mergeKeyed p.keyOf (blocks i).live es).length ≤ p.blockSize
  | split i right => i ≠ right ∧ (blocks i).isEmpty = false ∧ (blocks i).size = p.blockSize
  | remove i _ => (blocks i).isEmpty = false
  | mergeSmaller i other =>
      (blocks i).isEmpty = false ∧ (blocks other).isEmpty = false ∧
        (blocks i).size + (blocks other).size ≤ p.blockSize ∧
        ∀ x ∈ (blocks other).live, ∀ y ∈ (blocks i).live, p.keyOf x < p.keyOf y
  | steal i right =>
      i ≠ right ∧ (blocks i).isEmpty = false ∧ (blocks right).isEmpty = false ∧
        0 < (blocks i).size ∧ 2 * p.minBlockSize ≤ (blocks i).size + (blocks right).size ∧
        (blocks i).size ≤ p.minBlockSize ∧
        ∀ x ∈ (blocks i).live, ∀ y ∈ (blocks right).live, p.keyOf x < p.keyOf y
  | stealFromSmaller i left =>
      i ≠ left ∧ (blocks i).isEmpty = false ∧ (blocks left).isEmpty = false ∧
        0 < (blocks i).size ∧ 2 * p.minBlockSize ≤ (blocks i).size + (blocks left).size ∧
        (blocks i).size ≤ p.minBlockSize ∧
        ∀ x ∈ (blocks left).live, ∀ y ∈ (blocks i).live, p.keyOf x < p.keyOf y

/-- No element that is inserted meets its own key in the cell behind the live ones. -/
def Unshadowed (blocks : ℕ → PmaEntry K α) : BlockOperation α → Prop
  | insertWithIndex i e => (blocks i).Unshadowed p e
  | merge i es => MergeUnshadowed p (blocks i) es
  | _ => True

/-- A condition holds of every call of a run. -/
def EachCall (Q : (ℕ → PmaEntry K α) → BlockOperation α → Prop) :
    (ℕ → PmaEntry K α) → List (BlockOperation α) → Prop
  | _, [] => True
  | blocks, op :: ops => Q blocks op ∧ EachCall Q (op.apply p blocks) ops

/-- The blocks after a sequence of calls; in the beginning there are none. -/
def run (ops : List (BlockOperation α)) : ℕ → PmaEntry K α :=
  ops.foldl (apply p) fun _ => PmaEntry.null p

/-- The maps after a sequence of calls. -/
def runMaps (ops : List (BlockOperation α)) : ℕ → List α :=
  ops.foldl (applyToMaps p) fun _ => []

variable {p}

instance (blocks : ℕ → PmaEntry K α) [DecidableEq α] : DecidablePred (Allowed p blocks)
  | allocateBlock i => decidable_of_iff ((blocks i).block.isNone = true) Option.isNone_iff_eq_none
  | insertWithIndex _ _ => inferInstanceAs (Decidable (_ ∧ _ ∧ _))
  | merge _ _ => inferInstanceAs (Decidable (_ ∧ _ ∧ _ ∧ _ ∧ _))
  | split _ _ => inferInstanceAs (Decidable (_ ∧ _ ∧ _))
  | remove _ _ => inferInstanceAs (Decidable (_ = _))
  | mergeSmaller _ _ => inferInstanceAs (Decidable (_ ∧ _ ∧ _ ∧ _))
  | steal _ _ => inferInstanceAs (Decidable (_ ∧ _ ∧ _ ∧ _ ∧ _ ∧ _ ∧ _))
  | stealFromSmaller _ _ => inferInstanceAs (Decidable (_ ∧ _ ∧ _ ∧ _ ∧ _ ∧ _ ∧ _))

instance (blocks : ℕ → PmaEntry K α) : DecidablePred (Unshadowed p blocks)
  | insertWithIndex _ _ => inferInstanceAs (Decidable (_ → _ ≠ _))
  | merge _ es => inferInstanceAs (Decidable (∀ e ∈ es, _ → _ ≠ _))
  | allocateBlock _ | split _ _ | remove _ _ | mergeSmaller _ _ | steal _ _
  | stealFromSmaller _ _ => inferInstanceAs (Decidable True)

instance EachCall.decidable (Q : (ℕ → PmaEntry K α) → BlockOperation α → Prop)
    [∀ blocks, DecidablePred (Q blocks)] : ∀ (blocks : ℕ → PmaEntry K α) ops, Decidable (EachCall p Q blocks ops)
  | _, [] => inferInstanceAs (Decidable True)
  | blocks, op :: ops =>
      have := EachCall.decidable Q (op.apply p blocks) ops
      inferInstanceAs (Decidable (_ ∧ _))

/-! ## Blocks and maps -/

/-- A block holds the entries of a map: they are its live cells, in order, the head is the first
key, and `contains` finds the keys of the map and no others. -/
structure Holds (p : BlockParams K α) (b : PmaEntry K α) (entries : List α) : Prop where
  live_eq : b.live = entries
  size_eq : b.size = entries.length
  increasing : Increasing p entries
  head_eq : ∀ x, entries.head? = some x → b.head = p.keyOf x
  contains_iff : ∀ k, b.contains p k = true ↔ ∃ x ∈ entries, p.keyOf x = k

/-- The invariant of a run. -/
def Represents (p : BlockParams K α) (blocks : ℕ → PmaEntry K α) (maps : ℕ → List α) : Prop :=
  ∀ i, (blocks i).live = maps i ∧ (blocks i = PmaEntry.null p ∨ (blocks i).Filled p)

variable {blocks : ℕ → PmaEntry K α} {maps : ℕ → List α}

lemma Represents.filled (h : Represents p blocks maps) {i : ℕ}
    (hi : (blocks i).isEmpty = false) : (blocks i).Filled p := by
  rcases (h i).2 with hnull | hf
  · rw [hnull] at hi
    exact absurd hi (by simp)
  · exact hf

lemma Represents.eq_null (h : Represents p blocks maps) (hpos : 0 < p.blockSize) {i : ℕ}
    (hi : (blocks i).block = none) : blocks i = PmaEntry.null p := by
  rcases (h i).2 with hnull | hf
  · exact hnull
  · have hlen := hf.length_cells
    rw [cells, hi] at hlen
    simp only [Option.getD_none, List.length_nil] at hlen
    omega

lemma Represents.update (h : Represents p blocks maps) {i : ℕ} {b : PmaEntry K α} {l : List α}
    (hb : b.Filled p) (hl : b.live = l) :
    Represents p (Function.update blocks i b) (Function.update maps i l) := by
  intro j
  by_cases hj : j = i
  · subst hj
    simp only [Function.update_self]
    exact ⟨hl, Or.inr hb⟩
  · simp only [Function.update_of_ne hj]
    exact h j

/-- A block that is being filled holds its live cells. -/
lemma holds_live {b : PmaEntry K α} (h : b.Filled p) : Holds p b b.live := by
  have hlen := h.length_live
  rcases Nat.eq_zero_or_pos b.size with hzero | hpos
  · have hnil : b.live = [] := List.eq_nil_of_length_eq_zero (by omega)
    refine ⟨rfl, hlen.symm, h.increasing, ?_, ?_⟩
    · intro x hx
      rw [hnil] at hx
      exact absurd hx (by simp)
    · intro k
      rw [hnil, contains]
      simp [hzero]
  · have hv := h.valid hpos
    refine ⟨rfl, hlen.symm, h.increasing, ?_, hv.contains_iff⟩
    intro x hx
    have hget := h.getElem?_live hpos
    rw [← List.head?_eq_getElem?, hx] at hget
    rw [hv.head_eq, Option.some.inj hget]

lemma Represents.holds (h : Represents p blocks maps) {i : ℕ}
    (hi : (blocks i).isEmpty = false) : Holds p (blocks i) (maps i) := by
  rw [← (h i).1]
  exact holds_live (h.filled hi)

/-- **One call.** -/
lemma Represents.apply (h : Represents p blocks maps) (heven : 2 ∣ p.blockSize)
    (hpos : 0 < p.blockSize) {op : BlockOperation α} (hop : op.Allowed p blocks)
    (hfree : op.Unshadowed p blocks) :
    Represents p (op.apply p blocks) (op.applyToMaps p maps) := by
  cases op with
  | allocateBlock i =>
      have hnull := h.eq_null hpos hop
      refine h.update ?_ ?_
      · rw [hnull]
        exact filled_allocateBlock p
      · rw [hnull]
        rfl
  | insertWithIndex i e =>
      obtain ⟨hi, hroom, hnull⟩ := hop
      have hf := h.filled hi
      have hins := @Filled.insertWithIndex_unshadowed _ _ _ _ _ _ hf (fun _ => hroom) hnull hfree 0
        (Nat.zero_le _) fun j hj => absurd hj (Nat.not_lt_zero j)
      refine h.update hins.filled ?_
      rw [hins.live_eq hf, (h i).1]
  | merge i es =>
      obtain ⟨hi, -, hsorted, hnull, hroom⟩ := hop
      obtain ⟨hf, hlive, -⟩ := (h.filled hi).merge_unshadowed hsorted hnull hroom hfree
      refine h.update hf ?_
      rw [hlive, (h i).1]
  | split i right =>
      obtain ⟨-, hi, hfull⟩ := hop
      have hs := (h.filled hi).split_spec hfull heven hpos
      have hleft := hs.left_valid.length_live
      rw [hs.left_size] at hleft
      refine (h.update hs.left_valid.filled ?_).update hs.right_valid.filled ?_
      · rw [← (h i).1, ← hs.live_eq, ← hleft, List.take_left]
      · rw [← (h i).1, ← hs.live_eq, ← hleft, List.drop_left]
  | remove i e =>
      obtain ⟨hf, hlive⟩ := (h.filled hop).remove_spec e
      refine h.update hf ?_
      rw [hlive, (h i).1]
  | mergeSmaller i other =>
      obtain ⟨hi, ho, hroom, hlt⟩ := hop
      obtain ⟨hf, hlive, -⟩ := (h.filled hi).mergeSmaller_spec (h.filled ho) hroom hlt
      refine h.update hf ?_
      rw [hlive, (h i).1, (h other).1]
  | steal i right =>
      obtain ⟨-, hi, hr, hsize, hsum, hsmall, hlt⟩ := hop
      have hlen := (h.filled hi).length_live
      obtain ⟨⟨hf, hlive, -⟩, hf', hlive', -⟩ :=
        (h.filled hi).steal_spec (h.filled hr) hsize hsmall hsum hlt
      rw [(h i).1] at hlen
      refine (h.update hf ?_).update hf' ?_
      · rw [hlive, (h i).1, (h right).1, hlen]
      · rw [hlive', (h right).1, hlen]
  | stealFromSmaller i left =>
      obtain ⟨-, hi, hl, -, hsum, hsmall, hlt⟩ := hop
      have hlen := (h.filled hi).length_live
      have hlen' := (h.filled hl).length_live
      obtain ⟨⟨hf, hlive, -⟩, hf', hlive', -⟩ :=
        (h.filled hi).stealFromSmaller_spec (h.filled hl) hsmall hsum hlt
      rw [(h i).1] at hlen
      rw [(h left).1] at hlen'
      refine (h.update hf ?_).update hf' ?_
      · rw [hlive, (h i).1, (h left).1, hlen, hlen']
      · rw [hlive', (h left).1, hlen, hlen']

/-- **Any number of calls.**  The invariant holds in every state that a run goes through. -/
lemma Represents.run (heven : 2 ∣ p.blockSize) (hpos : 0 < p.blockSize) :
    ∀ (ops : List (BlockOperation α)) {blocks : ℕ → PmaEntry K α} {maps : ℕ → List α},
    Represents p blocks maps → EachCall p (Allowed p) blocks ops →
    EachCall p (Unshadowed p) blocks ops → ∀ done, done <+: ops →
      Represents p (done.foldl (BlockOperation.apply p) blocks)
        (done.foldl (applyToMaps p) maps) := by
  intro ops
  induction ops with
  | nil =>
      intro blocks maps h _ _ done hdone
      rw [List.prefix_nil.mp hdone]
      exact h
  | cons op ops ih =>
      intro blocks maps h hops hfree done hdone
      rcases List.prefix_cons_iff.mp hdone with rfl | ⟨done', rfl, hdone'⟩
      · exact h
      · exact ih (h.apply heven hpos hops.1 hfree.1) hops.2 hfree.2 done' hdone'

/-- **Blocks are finite maps** in every state of a run in which no element that is inserted meets
its own key in the cell behind the live ones. -/
theorem run_holds_maps (p : BlockParams K α) (heven : 2 ∣ p.blockSize) (hpos : 0 < p.blockSize)
    (ops : List (BlockOperation α))
    (hallowed : EachCall p (Allowed p) (fun _ => PmaEntry.null p) ops)
    (hfree : EachCall p (Unshadowed p) (fun _ => PmaEntry.null p) ops) :
    ∀ done, done <+: ops → ∀ i, (BlockOperation.run p done i).isEmpty = false →
      Holds p (BlockOperation.run p done i) (runMaps p done i) := by
  intro done hdone i hi
  have hinit : Represents p (fun _ => PmaEntry.null p) fun _ => [] :=
    fun _ => ⟨rfl, Or.inl rfl⟩
  exact (Represents.run heven hpos ops hinit hallowed hfree done hdone).holds hi

/-- A block is filled and split, its halves change, and the smaller one steals from the other. -/
def sevenCalls : List (BlockOperation ℕ) :=
  [allocateBlock 0, merge 0 [1, 2, 2, 7], insertWithIndex 0 5, split 0 1, remove 0 1,
    insertWithIndex 1 9, steal 0 1]

theorem run_holds_maps_sevenCalls :
    EachCall (keyOnlyBlocks 4) (Unshadowed (keyOnlyBlocks 4))
      (fun _ => PmaEntry.null (keyOnlyBlocks 4)) sevenCalls ∧
    Holds (keyOnlyBlocks 4) (BlockOperation.run (keyOnlyBlocks 4) sevenCalls 0) [2, 5] ∧
    Holds (keyOnlyBlocks 4) (BlockOperation.run (keyOnlyBlocks 4) sevenCalls 1) [7, 9] := by
  have hholds := run_holds_maps (keyOnlyBlocks 4) (by decide) (by decide) sevenCalls (by decide)
    (by decide) sevenCalls (List.prefix_refl _)
  exact ⟨by decide, hholds 0 (by decide), hholds 1 (by decide)⟩

/-- A full block is split and the first element of the upper half inserted into the lower one. -/
def splitCalls : List (BlockOperation ℕ) :=
  [allocateBlock 0, merge 0 [1, 2, 3, 4], split 0 1, insertWithIndex 0 3]

/-- The element meets its own key behind the live cells and is not inserted. -/
theorem insertWithIndex_loses_key :
    EachCall (keyOnlyBlocks 4) (Allowed (keyOnlyBlocks 4))
      (fun _ => PmaEntry.null (keyOnlyBlocks 4)) splitCalls ∧
    (BlockOperation.run (keyOnlyBlocks 4) splitCalls 0).isEmpty = false ∧
    ¬ Holds (keyOnlyBlocks 4) (BlockOperation.run (keyOnlyBlocks 4) splitCalls 0)
      (runMaps (keyOnlyBlocks 4) splitCalls 0) := by
  refine ⟨by decide, by decide, ?_⟩
  intro h
  exact absurd h.live_eq (by decide)

end BlockOperation

end BatchPMA
