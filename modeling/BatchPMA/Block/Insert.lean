import BatchPMA.Block.Valid
import BatchPMA.Library.KeyedUnion

/-!
# Inserting into a block

`insertWithIndex`, `merge` and `split` as operations on ordered lists.  The live cells of the
result are the union of the live cells and the new elements.  The cell behind the live ones is
compared with the new element, so no dead cell may hold its key; dead cells are only ever used up.
-/

namespace BatchPMA

open KeyedUnion

variable {K α : Type}

namespace PmaEntry

variable {p : BlockParams K α} {b b' : PmaEntry K α} {e : α} {es : List α} {i : ℕ}

lemma live_append_dead (b : PmaEntry K α) : b.live ++ b.dead = b.cells :=
  List.take_append_drop _ _

lemma length_live_of_le (h : b.size ≤ b.cells.length) : b.live.length = b.size := by
  rw [live, List.length_take]
  omega

/-! ## Shifting -/

lemma swapCells_nil : ∀ (n i : ℕ) (c : α), swapCells p n [] i c = []
  | 0, _, _ => rfl
  | n + 1, i, c => by
      rw [swapCells, List.set_nil]
      exact swapCells_nil n _ _

/-- The cells from the carried value's place on move to the right, over the cell `d`. -/
lemma swapCells_append (d : α) (r : List α) : ∀ (m a : List α) (c : α),
    swapCells p (m.length + 1) (a ++ m ++ d :: r) a.length c = a ++ c :: m ++ r
  | [], a, c => by
      simp only [List.length_nil, swapCells, List.append_nil]
      rw [List.set_append_right _ _ (le_refl _), Nat.sub_self, List.set_cons_zero,
        List.append_assoc, List.cons_append, List.nil_append]
  | x :: m, a, c => by
      have hset : (a ++ (x :: m) ++ d :: r).set a.length c = (a ++ [c]) ++ m ++ d :: r := by
        rw [List.append_assoc, List.set_append_right _ _ (le_refl _), Nat.sub_self]
        simp
      have hget : (a ++ (x :: m) ++ d :: r).getD a.length p.zero = x := by
        rw [List.append_assoc, List.getD_eq_getElem?_getD,
          List.getElem?_append_right (le_refl _), Nat.sub_self]
        rfl
      have hlen : a.length + 1 = (a ++ [c]).length := by simp
      rw [List.length_cons, swapCells, hset, hget, hlen, swapCells_append d r m (a ++ [c]) x]
      simp

lemma cells_insertAtIndex (b : PmaEntry K α) (e : α) (i : ℕ) :
    (b.insertAtIndex p e i).cells = (swapCells p (b.size + 1 - i) b.cells i p.zero).set i e := by
  cases hb : b.block with
  | none => simp [insertAtIndex, makeFree, cells, hb, swapCells_nil]
  | some c => simp [insertAtIndex, makeFree, cells, hb]

/-- An element is put between the live cells, and the first dead cell is used up. -/
lemma insertAtIndex_spec (hi : i ≤ b.size) (hlt : b.size < b.cells.length) :
    (b.insertAtIndex p e i).live = b.live.take i ++ e :: b.live.drop i ∧
      (b.insertAtIndex p e i).dead = b.dead.tail ∧
      (b.insertAtIndex p e i).cells.length = b.cells.length := by
  have hlen := length_live_of_le hlt.le
  obtain ⟨d, r, hdead⟩ : ∃ d r, b.dead = d :: r := by
    refine List.exists_cons_of_ne_nil fun hnil => ?_
    have := congrArg List.length hnil
    rw [dead, List.length_drop, List.length_nil] at this
    omega
  have htake : (b.live.take i).length = i := by rw [List.length_take]; omega
  have hdrop : (b.live.drop i).length = b.size - i := by rw [List.length_drop]; omega
  have hcells : b.cells = b.live.take i ++ b.live.drop i ++ d :: r := by
    rw [List.take_append_drop, ← hdead, live_append_dead]
  have hnew : (b.insertAtIndex p e i).cells = b.live.take i ++ e :: b.live.drop i ++ r := by
    have hswap := swapCells_append (p := p) d r (b.live.drop i) (b.live.take i) p.zero
    rw [hdrop, htake, ← hcells, show b.size - i + 1 = b.size + 1 - i by omega] at hswap
    rw [cells_insertAtIndex, hswap, List.append_assoc, List.set_append_right _ _ htake.le, htake,
      Nat.sub_self]
    simp
  have hsize : (b.insertAtIndex p e i).size = b.size + 1 := rfl
  have hfront : (b.live.take i ++ e :: b.live.drop i).length = b.size + 1 := by
    rw [List.length_append, List.length_cons, htake, hdrop]
    omega
  refine ⟨?_, ?_, ?_⟩
  · rw [live, hsize, hnew, ← hfront, List.take_left]
  · rw [dead, hsize, hnew, ← hfront, List.drop_left, hdead, List.tail_cons]
  · rw [hnew, List.length_append, hfront, ← live_append_dead b, hdead, List.length_append,
      List.length_cons, hlen]
    omega

variable [LinearOrder K]

/-! ## Blocks that are being filled -/

/-- A block that is being filled: `Valid`, but maybe without elements. -/
structure Filled (p : BlockParams K α) (b : PmaEntry K α) : Prop where
  length_cells : b.cells.length = p.blockSize
  size_le : b.size ≤ p.blockSize
  head_eq : 0 < b.size → b.head = p.keyOf (b.get p 0)
  increasing : Increasing p b.live
  key_ne_null : ∀ x ∈ b.live, p.keyOf x ≠ p.nullKey

lemma Valid.filled (h : b.Valid p) : b.Filled p :=
  ⟨h.length_cells, h.size_le, fun _ => h.head_eq, h.increasing, h.key_ne_null⟩

lemma Filled.valid (h : b.Filled p) (hpos : 0 < b.size) : b.Valid p :=
  ⟨h.length_cells, hpos, h.size_le, h.head_eq hpos, h.increasing, h.key_ne_null⟩

lemma Filled.length_live (h : b.Filled p) : b.live.length = b.size :=
  length_live_of_le (by rw [h.length_cells]; exact h.size_le)

lemma filled_allocateBlock (p : BlockParams K α) : ((null p).allocateBlock p).Filled p where
  length_cells := by simp [allocateBlock, cells]
  size_le := Nat.zero_le _
  head_eq := fun h => absurd h (lt_irrefl _)
  increasing := List.Pairwise.nil
  key_ne_null := fun x hx => by simp [live, allocateBlock, null] at hx

/-- No dead cell holds the key of `e`. -/
def DeadFree (p : BlockParams K α) (b : PmaEntry K α) (e : α) : Prop :=
  ∀ x ∈ b.dead, p.keyOf x ≠ p.keyOf e

/-- A dead cell with the key of `e` is never compared, as the search stops at a live cell. -/
def DeadHidden (p : BlockParams K α) (b : PmaEntry K α) (e : α) : Prop :=
  ∀ x ∈ b.dead, p.keyOf x = p.keyOf e → ∃ y ∈ b.live, p.keyOf e ≤ p.keyOf y

lemma DeadFree.hidden (h : b.DeadFree p e) : b.DeadHidden p e :=
  fun x hx heq => absurd heq (h x hx)

/-- What is needed of the dead cells: the first one is compared with an element above all live keys,
and does not hold its key. -/
def Unshadowed (p : BlockParams K α) (b : PmaEntry K α) (e : α) : Prop :=
  (∀ x ∈ b.live, p.keyOf x < p.keyOf e) → p.keyOf (b.get p b.size) ≠ p.keyOf e

lemma Filled.get_mem (h : b.Filled p) (hi : i < b.size) : b.get p i ∈ b.live := by
  rw [get_of_lt (p := p) (by rw [h.length_live]; exact hi)]
  exact List.getElem_mem _

lemma Filled.get_mem_dead (h : b.Filled p) (h1 : b.size ≤ i) (h2 : i < p.blockSize) :
    b.get p i ∈ b.dead := by
  have hin : i < b.cells.length := by rw [h.length_cells]; exact h2
  rw [get, List.getD_eq_getElem?_getD, List.getElem?_eq_getElem hin, Option.getD_some, dead]
  refine List.mem_iff_getElem.mpr ⟨i - b.size, by rw [List.length_drop]; omega, ?_⟩
  rw [List.getElem_drop]
  congr 1
  omega

/-- Dead cells that are still there have kept their places. -/
lemma Filled.get_of_suffix (h : b.Filled p) (h' : b'.Filled p) (hs : b'.dead <:+ b.dead)
    (hi : b'.size ≤ i) : b'.get p i = b.get p i := by
  obtain ⟨t, ht⟩ := hs
  have h1 := congrArg List.length (live_append_dead b)
  have h2 := congrArg List.length (live_append_dead b')
  have h3 := congrArg List.length ht
  rw [List.length_append, h.length_live, h.length_cells] at h1
  rw [List.length_append, h'.length_live, h'.length_cells] at h2
  rw [List.length_append] at h3
  have hle := h'.size_le
  have hle' := h.size_le
  rw [get, get, ← live_append_dead b, ← live_append_dead b', ← ht, List.getD_eq_getElem?_getD,
    List.getD_eq_getElem?_getD, List.getElem?_append_right (by rw [h'.length_live]; exact hi),
    List.getElem?_append_right (by rw [h.length_live]; omega),
    List.getElem?_append_right (by rw [h.length_live]; omega), h'.length_live, h.length_live]
  congr 2
  omega

lemma DeadHidden.unshadowed (h : b.DeadHidden p e) (hb : b.Filled p)
    (hroom : b.size < p.blockSize) : b.Unshadowed p e := by
  intro hall heq
  obtain ⟨y, hy, hle⟩ := h _ (hb.get_mem_dead (le_refl _) hroom) heq
  exact absurd (hall y hy) (not_lt.mpr hle)

/-! ## One element -/

/-- The block `b'` is `b` with `e`, which is at position `pos`. -/
structure HasInserted (p : BlockParams K α) (b : PmaEntry K α) (e : α) (b' : PmaEntry K α)
    (pos : ℕ) : Prop where
  filled : b'.Filled p
  union : IsUnion p.keyOf b.live [e] b'.live
  shape : b'.live = b.live ∨ b'.live = b.live.take pos ++ e :: b.live.drop pos
  dead : b'.dead <:+ b.dead
  pos_lt : pos < b'.size
  key_pos : p.keyOf (b'.get p pos) = p.keyOf e

/-- The search position separates the smaller keys from the others. -/
lemma Filled.linearSearch_spec (h : b.Filled p) {k : K} {start : ℕ} (hs : start ≤ b.size)
    (hbefore : ∀ i < start, p.keyOf (b.get p i) < k) :
    (∀ x ∈ b.live.take (b.linearSearch p k start), p.keyOf x < k) ∧
      ∀ x ∈ b.live.drop (b.linearSearch p k start), k ≤ p.keyOf x := by
  have hlen := h.length_live
  constructor
  · intro x hx
    obtain ⟨i, hi, rfl⟩ := List.mem_iff_getElem.mp hx
    rw [List.length_take] at hi
    rw [List.getElem_take, ← get_of_lt (p := p)]
    rcases Nat.lt_or_ge i start with hlt | hge
    · exact hbefore i hlt
    · exact key_lt_of_lt_linearSearch hge (by omega)
  · intro x hx
    obtain ⟨i, hi, rfl⟩ := List.mem_iff_getElem.mp hx
    rw [List.length_drop] at hi
    rw [List.getElem_drop, ← get_of_lt (p := p)]
    have hstop := le_key_linearSearch (p := p) (b := b) (e := k) hs (by omega)
    rcases Nat.eq_zero_or_pos i with rfl | hpos
    · exact hstop
    · exact le_trans hstop
        ((h.valid (by omega)).key_lt (show _ < b.linearSearch p k start + i by omega) (by omega)).le

/-- **`insertWithIndex`**, for an element that is there or for which there is room. -/
lemma Filled.insertWithIndex_unshadowed (h : b.Filled p)
    (hnew : (∀ x ∈ b.live, p.keyOf x ≠ p.keyOf e) → b.size < p.blockSize)
    (hnull : p.keyOf e ≠ p.nullKey) (hfree : b.Unshadowed p e) {start : ℕ} (hs : start ≤ b.size)
    (hbefore : ∀ i < start, p.keyOf (b.get p i) < p.keyOf e) :
    HasInserted p b e (b.insertWithIndex p e start).1 (b.insertWithIndex p e start).2.2 := by
  have hlen := h.length_live
  have hle : b.linearSearch p (p.keyOf e) start ≤ b.size := linearSearch_le b _ _ hs
  have hge := le_linearSearch (p := p) b (p.keyOf e) start
  obtain ⟨htake, hdrop⟩ := h.linearSearch_spec hs hbefore
  rw [insertWithIndex]
  generalize b.linearSearch p (p.keyOf e) start = pos at *
  simp only
  split
  · -- the key is there
    rename_i heq
    have hlt : pos < b.size := by
      refine lt_of_le_of_ne hle fun hend => ?_
      rw [hend] at heq
      refine hfree (fun y hy => htake y ?_) heq
      rwa [hend, ← hlen, List.take_length]
    exact ⟨h, IsUnion.present h.increasing fun x hx => ⟨_, h.get_mem hlt, by
      rw [List.mem_singleton.mp hx]; exact heq⟩, Or.inl rfl, List.suffix_refl _, hlt, heq⟩
  · rename_i hne
    have hkeys : ∀ x ∈ b.live.drop pos, p.keyOf e < p.keyOf x := by
      intro x hx
      refine lt_of_le_of_ne (hdrop x hx) fun heq => hne ?_
      obtain ⟨i, hi, rfl⟩ := List.mem_iff_getElem.mp hx
      rw [List.length_drop] at hi
      have hlt : pos < b.size := by omega
      have hmin := hdrop (b.get p pos) (by
        rw [get_of_lt (p := p) (by omega)]
        exact List.mem_iff_getElem.mpr ⟨0, by rw [List.length_drop]; omega, by simp⟩)
      rw [List.getElem_drop, ← get_of_lt (p := p) (by omega)] at heq
      refine le_antisymm ?_ hmin
      rw [heq]
      rcases Nat.eq_zero_or_pos i with rfl | hpos
      · exact le_refl _
      · exact ((h.valid (by omega)).key_lt (show pos < pos + i by omega) (by omega)).le
    have hroom : b.size < p.blockSize := by
      refine hnew fun x hx => ?_
      rw [← List.take_append_drop pos b.live] at hx
      rcases List.mem_append.mp hx with hx | hx
      · exact (htake x hx).ne
      · exact (hkeys x hx).ne'
    obtain ⟨hlive, hdead', hcells⟩ := insertAtIndex_spec (p := p) (e := e) (i := pos) hle
      (by rw [h.length_cells]; exact hroom)
    have hunion : IsUnion p.keyOf b.live [e] (b.live.take pos ++ e :: b.live.drop pos) := by
      have hsplit := List.take_append_drop pos b.live
      have hins : IsUnion p.keyOf (b.live.take pos ++ b.live.drop pos) [e] _ :=
        IsUnion.insert (by rw [hsplit]; exact h.increasing) htake hkeys
      rwa [hsplit] at hins
    have hpos : (b.insertAtIndex p e pos).get p pos = e := by
      have hl : (b.live.take pos).length = pos := by rw [List.length_take]; omega
      rw [get_of_lt (p := p) (by rw [hlive, List.length_append, List.length_cons, hl]; omega)]
      simp only [hlive]
      rw [List.getElem_append_right hl.le]
      simp [hl]
    have hfilled : ∀ head, (0 < b.size + 1 → head = p.keyOf ((b.insertAtIndex p e pos).get p 0)) →
        Filled p { b.insertAtIndex p e pos with head := head } := by
      intro head hhead
      refine ⟨hcells.trans h.length_cells, hroom, hhead, ?_, fun x hx => ?_⟩
      · have : Increasing p (b.insertAtIndex p e pos).live := by rw [hlive]; exact hunion.ordered
        exact this
      · have hx' : x ∈ (b.insertAtIndex p e pos).live := hx
        rw [hlive] at hx'
        rcases hunion.mem_cases hx' with hx' | hx'
        · exact h.key_ne_null x hx'
        · rw [List.mem_singleton.mp hx']
          exact hnull
    have hsuffix : (b.insertAtIndex p e pos).dead <:+ b.dead := by
      rw [hdead']
      exact List.tail_suffix _
    split
    · rename_i h0
      exact ⟨hfilled _ fun _ => rfl, by
        have : (updateHead p (b.insertAtIndex p e pos)).live = (b.insertAtIndex p e pos).live := rfl
        rw [this, hlive]
        exact hunion, Or.inr hlive, hsuffix, Nat.lt_succ_of_le hle, congrArg p.keyOf hpos⟩
    · rename_i h0
      refine ⟨hfilled b.head fun _ => ?_, by rw [hlive]; exact hunion, Or.inr hlive, hsuffix,
        Nat.lt_succ_of_le hle, congrArg p.keyOf hpos⟩
      have hsize : 0 < b.size := by omega
      have hl : (b.live.take pos).length = pos := by rw [List.length_take]; omega
      rw [h.head_eq hsize, get_of_lt (p := p) (b := b) (by omega),
        get_of_lt (p := p) (b := b.insertAtIndex p e pos) (by
          rw [hlive, List.length_append, List.length_cons]; omega)]
      simp only [hlive]
      rw [List.getElem_append_left (by omega), List.getElem_take]

/-- **`insertWithIndex`.** -/
lemma Filled.insertWithIndex_spec (h : b.Filled p) (hroom : b.size < p.blockSize)
    (hnull : p.keyOf e ≠ p.nullKey) (hdead : b.DeadHidden p e) {start : ℕ} (hs : start ≤ b.size)
    (hbefore : ∀ i < start, p.keyOf (b.get p i) < p.keyOf e) :
    HasInserted p b e (b.insertWithIndex p e start).1 (b.insertWithIndex p e start).2.2 :=
  h.insertWithIndex_unshadowed (fun _ => hroom) hnull (hdead.unshadowed h hroom) hs hbefore

lemma HasInserted.live_eq {pos : ℕ} (h : HasInserted p b e b' pos) (hb : b.Filled p) :
    b'.live = insertKeyed p.keyOf b.live e :=
  h.union.unique (isUnion_insertKeyed hb.increasing e)

lemma Filled.getElem?_live (h : b.Filled p) (hi : i < b.size) : b.live[i]? = some (b.get p i) := by
  have hi' : i < b.live.length := by rw [h.length_live]; exact hi
  rw [List.getElem?_eq_getElem hi', get_of_lt (p := p) hi']

/-- If all but the last `n` keys of a block are below the new one, the same holds afterwards. -/
lemma HasInserted.key_le {pos n : ℕ} (h : HasInserted p b e b' pos) (hb : b.Filled p)
    (hold : ∀ i, i + n < b.size → p.keyOf (b.get p i) < p.keyOf e) (hi : i + n < b'.size) :
    p.keyOf (b'.get p i) ≤ p.keyOf e := by
  have hlen := hb.length_live
  have hlen' := h.filled.length_live
  have hget := h.filled.getElem?_live (show i < b'.size by omega)
  rcases h.shape with heq | heq
  · rw [heq] at hlen' hget
    rw [hb.getElem?_live (by omega)] at hget
    rw [← Option.some.inj hget]
    exact (hold i (by omega)).le
  · rcases Nat.lt_or_ge pos i with hgt | hle
    · -- behind the new element the old ones have moved by one place
      have htake : (b.live.take pos).length = pos := by
        have := h.pos_lt
        rw [heq, List.length_append, List.length_cons, List.length_take, List.length_drop] at hlen'
        rw [List.length_take]
        omega
      rw [heq, List.length_append, List.length_cons, htake, List.length_drop] at hlen'
      obtain ⟨j, rfl⟩ := Nat.exists_eq_add_of_lt hgt
      rw [heq, List.getElem?_append_right (by omega), htake,
        show pos + j + 1 - pos = j + 1 by omega, List.getElem?_cons_succ, List.getElem?_drop,
        hb.getElem?_live (by omega)] at hget
      rw [← Option.some.inj hget]
      exact (hold _ (by omega)).le
    · rw [← h.key_pos]
      rcases Nat.eq_or_lt_of_le hle with rfl | hlt
      · exact le_refl _
      · exact ((h.filled.valid (by omega)).key_lt hlt h.pos_lt).le

/-! ## Several elements -/

/-- The block `b'` is `b` with the elements `es`. -/
structure HasMerged (p : BlockParams K α) (b : PmaEntry K α) (es : List α) (b' : PmaEntry K α) :
    Prop where
  filled : b'.Filled p
  union : IsUnion p.keyOf b.live es b'.live
  dead : b'.dead <:+ b.dead

lemma HasInserted.hasMerged {pos : ℕ} (h : HasInserted p b e b' pos) : HasMerged p b [e] b' :=
  ⟨h.filled, h.union, h.dead⟩

lemma HasMerged.size_le (h : HasMerged p b es b') (hb : b.Filled p) :
    b'.size ≤ b.size + es.length := by
  rw [← h.filled.length_live, ← hb.length_live]
  exact h.union.length_le

lemma HasMerged.le_size (h : HasMerged p b es b') (hb : b.Filled p) : b.size ≤ b'.size := by
  rw [← h.filled.length_live, ← hb.length_live]
  exact h.union.length_old_le hb.increasing

/-- An iteration of the loop of `merge`: the head cannot change any more. -/
lemma mergeLoop_cons {start : ℕ} (hs : start < b.size)
    (hkey : p.keyOf (b.get p start) ≤ p.keyOf e) (es : List α) :
    mergeLoop p (e :: es) b start = mergeLoop p es (b.insertWithIndex p e start).1
      (b.insertWithIndex p e start).2.2 := by
  have hge := le_linearSearch (p := p) b (p.keyOf e) start
  have hstop := le_key_linearSearch (p := p) (b := b) (e := p.keyOf e) hs.le
  rw [mergeLoop, insertWithIndex]
  simp only
  split
  · rfl
  · rename_i hne
    rw [if_neg]
    intro h0
    -- at position 0 the search has not moved, so the key there is the key of the element
    rw [h0] at hge hstop hne
    obtain rfl : start = 0 := by omega
    exact hne (le_antisymm hkey (hstop hs))

/-- The cell that is compared with an element of the batch above all live keys does not hold its
key.  When its turn comes, the block holds the live elements and the elements of smaller key. -/
def MergeUnshadowed (p : BlockParams K α) (b : PmaEntry K α) (es : List α) : Prop :=
  ∀ e ∈ es, (∀ x ∈ b.live, p.keyOf x < p.keyOf e) →
    p.keyOf (b.get p (mergeKeyed p.keyOf b.live
      (es.filter fun x => decide (p.keyOf x < p.keyOf e))).length) ≠ p.keyOf e

/-- If the elements fit, the cell that is compared is a dead cell of the block. -/
lemma mergeUnshadowed_of_hidden (h : b.Filled p) (hroom : b.size + es.length ≤ p.blockSize)
    (hes : ∀ e ∈ es, b.DeadHidden p e) : MergeUnshadowed p b es := by
  intro e he hall heq
  have hlen := h.length_live
  have hshort : (es.filter fun x => decide (p.keyOf x < p.keyOf e)).length < es.length :=
    List.length_filter_lt_length_iff_exists.mpr ⟨e, he, by simp⟩
  have hge := @le_length_mergeKeyed _ _ _ p.keyOf
    (es.filter fun x => decide (p.keyOf x < p.keyOf e)) _ h.increasing
  have hle := @length_mergeKeyed_le _ _ _ p.keyOf
    (es.filter fun x => decide (p.keyOf x < p.keyOf e)) _ h.increasing
  obtain ⟨y, hy, hk⟩ := hes e he _ (h.get_mem_dead (by omega) (by omega)) heq
  exact absurd (hall y hy) (not_lt.mpr hk)

/-- One element of the batch after those in `done`. -/
lemma Filled.mergeLoop_step {done : List α} {start : ℕ} (hb : b.Filled p) (h : b'.Filled p)
    (hlive : b'.live = mergeKeyed p.keyOf b.live done) (hdead : b'.dead <:+ b.dead)
    (hsorted : NonDecreasing p (done ++ e :: es)) (hnull : p.keyOf e ≠ p.nullKey)
    (hroom : (mergeKeyed p.keyOf b.live (done ++ e :: es)).length ≤ p.blockSize)
    (hfree : MergeUnshadowed p b (done ++ e :: es)) (hs : start ≤ b'.size)
    (hbefore : ∀ i < start, p.keyOf (b'.get p i) < p.keyOf e) :
    HasInserted p b' e (b'.insertWithIndex p e start).1 (b'.insertWithIndex p e start).2.2 := by
  have hpair := List.pairwise_append.mp hsorted
  refine h.insertWithIndex_unshadowed (fun hnew => ?_) hnull ?_ hs hbefore
  · have hle := @le_length_mergeKeyed _ _ _ p.keyOf es _
      (isUnion_insertKeyed h.increasing e).ordered
    have hlen := length_insertKeyed_of_new h.increasing hnew
    rw [mergeKeyed_append, mergeKeyed_cons, ← hlive] at hroom
    rw [h.length_live] at hlen
    omega
  · intro hall
    have hkeys : ∀ x ∈ done, p.keyOf x < p.keyOf e := by
      intro x hx
      obtain ⟨y, hy, hk⟩ := (isKeyUnion_mergeKeyed hb.increasing).exists_key x hx
      rw [← hk]
      exact hall y (hlive ▸ hy)
    have hfilter : (done ++ e :: es).filter (fun x => decide (p.keyOf x < p.keyOf e)) = done := by
      rw [List.filter_append, List.filter_eq_self.mpr (fun x hx => by simpa using hkeys x hx),
        List.filter_eq_nil_iff.mpr, List.append_nil]
      intro x hx
      rcases List.mem_cons.mp hx with rfl | hx
      · simp
      · simpa using (List.pairwise_cons.mp hpair.2.1).1 x hx
    have hne := hfree e (by simp) fun x hx =>
      hall x (hlive ▸ (isKeyUnion_mergeKeyed hb.increasing).mem_old x hx)
    rw [hfilter, ← hlive, h.length_live] at hne
    rwa [hb.get_of_suffix h hdead (le_refl _)]

lemma Filled.mergeLoop_unshadowed (hb : b.Filled p) : ∀ (es : List α) {done : List α}
    {b' : PmaEntry K α} {start : ℕ}, b'.Filled p →
    b'.live = mergeKeyed p.keyOf b.live done → b'.dead <:+ b.dead →
    NonDecreasing p (done ++ es) → (∀ x ∈ es, p.keyOf x ≠ p.nullKey) →
    (mergeKeyed p.keyOf b.live (done ++ es)).length ≤ p.blockSize →
    MergeUnshadowed p b (done ++ es) → start < b'.size →
    (∀ x ∈ es, p.keyOf (b'.get p start) ≤ p.keyOf x) →
    (mergeLoop p es b' start).Filled p ∧
      (mergeLoop p es b' start).live = mergeKeyed p.keyOf b.live (done ++ es) ∧
      (mergeLoop p es b' start).dead <:+ b.dead := by
  intro es
  induction es with
  | nil =>
      intro done b' start h hlive hdead _ _ _ _ _ _
      rw [List.append_nil]
      exact ⟨h, hlive, hdead⟩
  | cons e es ih =>
      intro done b' start h hlive hdead hsorted hnull hroom hfree hs hkey
      have hle := hkey e List.mem_cons_self
      have hins := hb.mergeLoop_step h hlive hdead hsorted (hnull e List.mem_cons_self) hroom hfree
        hs.le (fun i hi => lt_of_lt_of_le ((h.valid (by omega)).key_lt hi hs) hle)
      have hcons := List.pairwise_cons.mp (List.pairwise_append.mp hsorted).2.1
      rw [List.append_cons] at hsorted hroom hfree ⊢
      rw [mergeLoop_cons hs hle]
      refine ih hins.filled ?_ (hins.dead.trans hdead) hsorted
        (fun x hx => hnull x (List.mem_cons_of_mem _ hx)) hroom hfree hins.pos_lt fun x hx => ?_
      · rw [hins.live_eq h, hlive, mergeKeyed_append, mergeKeyed_cons, mergeKeyed_nil]
      · rw [hins.key_pos]
        exact hcons.1 x hx

/-- **`merge`**, also for elements of equal keys. -/
lemma Filled.merge_unshadowed (h : b.Filled p) (hsorted : NonDecreasing p es)
    (hnull : ∀ x ∈ es, p.keyOf x ≠ p.nullKey)
    (hroom : (mergeKeyed p.keyOf b.live es).length ≤ p.blockSize)
    (hfree : MergeUnshadowed p b es) :
    (b.merge p es).Filled p ∧ (b.merge p es).live = mergeKeyed p.keyOf b.live es ∧
      (b.merge p es).dead <:+ b.dead := by
  cases es with
  | nil => exact ⟨h, rfl, List.suffix_refl _⟩
  | cons e es =>
      have hmerge : b.merge p (e :: es) = mergeLoop p es (b.insertWithIndex p e 0).1
          (b.insertWithIndex p e 0).2.2 := by
        rw [merge, insertWithIndex]
        simp only
        split <;> rfl
      have hins := @Filled.mergeLoop_step _ _ _ _ b e es _ [] 0 h h rfl (List.suffix_refl _) hsorted
        (hnull e List.mem_cons_self) hroom hfree (Nat.zero_le _)
        (fun i hi => absurd hi (Nat.not_lt_zero _))
      rw [hmerge]
      exact @Filled.mergeLoop_unshadowed _ _ _ _ _ h es [e] _ _ hins.filled (hins.live_eq h)
        hins.dead hsorted
        (fun x hx => hnull x (List.mem_cons_of_mem _ hx)) hroom hfree hins.pos_lt fun x hx => by
          rw [hins.key_pos]
          exact (List.pairwise_cons.mp hsorted).1 x hx

/-- **`merge`.** -/
lemma Filled.merge_spec (h : b.Filled p) (hroom : b.size + es.length ≤ p.blockSize)
    (hinc : Increasing p es) (hes : ∀ x ∈ es, p.keyOf x ≠ p.nullKey ∧ b.DeadHidden p x) :
    HasMerged p b es (b.merge p es) := by
  have hlen := h.length_live
  have hle := @length_mergeKeyed_le _ _ _ p.keyOf es _ h.increasing
  obtain ⟨hfilled, hlive, hdead⟩ := h.merge_unshadowed hinc.nonDecreasing
    (fun x hx => (hes x hx).1) (by omega) (mergeUnshadowed_of_hidden h hroom fun x hx => (hes x hx).2)
  exact ⟨hfilled, by rw [hlive]; exact isUnion_mergeKeyed h.increasing hinc, hdead⟩

/-! ## Splitting -/

/-- What `split` makes of a full block: its two halves, the upper one still in the dead cells of
the lower one. -/
structure HasSplit (p : BlockParams K α) (b left right : PmaEntry K α) : Prop where
  left_valid : left.Valid p
  right_valid : right.Valid p
  left_size : left.size = p.minBlockSize
  right_size : right.size = p.minBlockSize
  live_eq : left.live ++ right.live = b.live
  left_dead : left.dead = right.live
  right_dead : ∀ x ∈ right.dead, x = p.zero
  left_head : left.head = b.head

lemma Filled.split_spec (h : b.Filled p) (hfull : b.size = p.blockSize) (heven : 2 ∣ p.blockSize)
    (hpos : 0 < p.blockSize) : HasSplit p b (b.split p).1 (b.split p).2 := by
  obtain ⟨m, hm⟩ := heven
  have hmin : p.blockSize / 2 = m := by omega
  have hlive : b.live = b.cells := by
    rw [live, hfull, ← h.length_cells, List.take_length]
  have hleft : (b.split p).1.live = b.live.take m := by
    rw [split, hlive, live]
    simp only [hmin]
    rfl
  have hdead : (b.split p).1.dead = b.live.drop m := by
    rw [split, hlive, dead]
    simp only [hmin]
    rfl
  have hlenDrop : (b.cells.drop m).length = m := by
    rw [List.length_drop, h.length_cells]
    omega
  have hfresh : ((null p).allocateBlock p).cells = List.replicate p.blockSize p.zero := rfl
  have hcells : (b.split p).2.cells = b.cells.drop m ++ List.replicate m p.zero := by
    have : (b.split p).2.cells = b.cells.drop (p.blockSize / 2) ++
        ((null p).allocateBlock p).cells.drop (b.cells.drop (p.blockSize / 2)).length := rfl
    rw [this, hmin, hlenDrop, hfresh, List.drop_replicate, show p.blockSize - m = m by omega]
  have hright : (b.split p).2.live = b.live.drop m := by
    rw [live, show (b.split p).2.size = m from hmin, hcells, hlive]
    exact List.take_left' hlenDrop
  have hrdead : (b.split p).2.dead = List.replicate m p.zero := by
    rw [dead, show (b.split p).2.size = m from hmin, hcells]
    exact List.drop_left' hlenDrop
  have hinc := h.increasing
  rw [← List.take_append_drop m b.live] at hinc
  refine ⟨⟨h.length_cells, ?_, ?_, ?_, ?_, fun x hx => ?_⟩, ⟨?_, ?_, ?_, rfl, ?_, fun x hx => ?_⟩,
    rfl, rfl, ?_, ?_, fun x hx => ?_, rfl⟩
  · change 0 < p.blockSize / 2
    omega
  · change p.blockSize / 2 ≤ p.blockSize
    omega
  · exact h.head_eq (by omega)
  · rw [hleft]
    exact Ordered.left hinc
  · rw [hleft] at hx
    exact h.key_ne_null x (List.mem_of_mem_take hx)
  · rw [hcells, List.length_append, hlenDrop, List.length_replicate]
    omega
  · change 0 < p.blockSize / 2
    omega
  · change p.blockSize / 2 ≤ p.blockSize
    omega
  · rw [hright]
    exact Ordered.right hinc
  · rw [hright] at hx
    exact h.key_ne_null x (List.mem_of_mem_drop hx)
  · rw [hleft, hright, List.take_append_drop]
  · rw [hdead, hright]
  · rw [hrdead] at hx
    exact List.eq_of_mem_replicate hx

/-- The upper half begins with the element at the cut. -/
lemma HasSplit.head_right {left right : PmaEntry K α} (h : HasSplit p b left right)
    (hb : b.Filled p) (hlt : p.minBlockSize < b.size) :
    right.head = p.keyOf (b.get p p.minBlockSize) := by
  have hget := hb.getElem?_live hlt
  have hlen : left.live.length = p.minBlockSize := by
    rw [h.left_valid.length_live, h.left_size]
  rw [← h.live_eq, List.getElem?_append_right hlen.le, hlen, Nat.sub_self,
    h.right_valid.filled.getElem?_live h.right_valid.size_pos] at hget
  rw [h.right_valid.head_eq, Option.some.inj hget]

end PmaEntry

end BatchPMA
