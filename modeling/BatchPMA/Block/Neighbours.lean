import BatchPMA.Block.MergeFaster

/-!
# Removing from a block, and evening out two neighbours

`remove`, `mergeSmaller`, `steal` and `stealFromSmaller` as operations on ordered lists.  Each of
them writes a new list of live cells in front of what is left of the old cells, so all four are
instances of `filled_of_append`.  None of them clears a cell: what has been moved away stays behind.
-/

namespace BatchPMA

open KeyedUnion

variable {K α : Type} [LinearOrder K] {p : BlockParams K α}

namespace PmaEntry

variable {b b' other left right : PmaEntry K α} {e : α} {front rest : List α}

/-- A block whose cells are a list of live elements and a rest. -/
lemma filled_of_append (hblock : b'.cells = front ++ rest) (hsize : b'.size = front.length)
    (hlen : (front ++ rest).length = p.blockSize)
    (hhead : 0 < front.length → b'.head = p.keyOf ((front ++ rest).getD 0 p.zero))
    (hinc : Increasing p front) (hnull : ∀ x ∈ front, p.keyOf x ≠ p.nullKey) :
    b'.Filled p ∧ b'.live = front ∧ b'.dead = rest := by
  have hlive : b'.live = front := by rw [live, hblock, hsize, List.take_left]
  have hdead : b'.dead = rest := by rw [dead, hblock, hsize, List.drop_left]
  rw [List.length_append] at hlen
  refine ⟨⟨?_, ?_, ?_, ?_, ?_⟩, hlive, hdead⟩
  · rw [hblock, List.length_append, hlen]
  · omega
  · intro hpos
    rw [get, hblock]
    exact hhead (by omega)
  · rw [hlive]
    exact hinc
  · rw [hlive]
    exact hnull

/-! ## One element less -/

/-- The cells behind `index` move forward by one place; the last live cell keeps its value. -/
lemma Filled.cells_moveForward (h : b.Filled p) {index : ℕ} (hi : index < b.size) :
    ∃ last, (b.moveForward p index).cells = b.live.take index ++ b.live.drop (index + 1) ++
      last :: b.dead := by
  have hlen := h.length_live
  have hsplit : b.live.drop index = b.live[index] :: b.live.drop (index + 1) :=
    List.drop_eq_getElem_cons (by omega)
  have htake : (b.live.take index).length = index := by
    rw [List.length_take]
    omega
  have hcells : b.cells =
      b.live.take index ++ ([b.live[index]] ++ b.live.drop (index + 1) ++ b.dead) := by
    rw [List.singleton_append, ← hsplit, ← List.append_assoc, List.take_append_drop,
      live_append_dead]
  have hmoved : (b.live.drop (index + 1)).length = b.size - 1 - index := by
    rw [List.length_drop]
    omega
  have hfold := foldl_set_forward (b.live.take index) [b.live[index]] (b.live.drop (index + 1))
    b.dead p.zero _ (le_refl _)
  rw [← hcells, htake, hmoved, List.length_singleton] at hfold
  have hnew : (b.moveForward p index).cells = _ := hfold
  -- what is left of the gap and the moved part is one cell
  obtain ⟨last, hlast⟩ : ∃ last, ([b.live[index]] ++ b.live.drop (index + 1)).drop
      (b.size - 1 - index) = [last] := by
    rw [← List.length_eq_one_iff, List.length_drop, List.length_append, hmoved,
      List.length_singleton]
    omega
  refine ⟨last, ?_⟩
  rw [hnew, hlast, ← hmoved, List.take_length, List.singleton_append, List.append_assoc]

/-- **`remove`.** -/
lemma Filled.remove_spec (h : b.Filled p) (e : α) :
    (b.remove p e).1.Filled p ∧
      (b.remove p e).1.live = b.live.filter (fun x => decide (p.keyOf x ≠ p.keyOf e)) := by
  have hlen := h.length_live
  obtain ⟨hbelow, habove⟩ := h.linearSearch_spec (k := p.keyOf e) (Nat.zero_le _)
    fun i hi => absurd hi (Nat.not_lt_zero i)
  rw [remove]
  generalize b.linearSearch p (p.keyOf e) 0 = pos at hbelow habove ⊢
  simp only
  split
  · rename_i hfound
    obtain ⟨hpos, hkey⟩ := hfound
    obtain ⟨last, hcells⟩ := h.cells_moveForward hpos
    have hget : b.get p pos = b.live[pos] := get_of_lt (by omega)
    have hsplit : b.live = b.live.take pos ++ b.live[pos] :: b.live.drop (pos + 1) := by
      rw [← List.drop_eq_getElem_cons (by omega), List.take_append_drop]
    have hinc : Increasing p (b.live.take pos ++ b.live[pos] :: b.live.drop (pos + 1)) := by
      rw [← hsplit]
      exact h.increasing
    have hright := List.pairwise_cons.mp (Ordered.right hinc)
    have hsub : ∀ x ∈ b.live.take pos ++ b.live.drop (pos + 1), x ∈ b.live := by
      intro x hx
      rcases List.mem_append.mp hx with hx | hx
      · exact List.mem_of_mem_take hx
      · exact List.mem_of_mem_drop hx
    have hfront : (b.live.take pos ++ b.live.drop (pos + 1)).length = b.size - 1 := by
      rw [List.length_append, List.length_take, List.length_drop]
      omega
    obtain ⟨hfilled, hlive, -⟩ := @filled_of_append _ _ _ p
      ({ b.moveForward p pos with size := b.size - 1 }.updateHead p)
      (b.live.take pos ++ b.live.drop (pos + 1)) (last :: b.dead) hcells hfront.symm
      (by
        have hcount := congrArg List.length (live_append_dead b)
        rw [List.length_append, h.length_cells] at hcount
        rw [List.length_append, hfront, List.length_cons]
        omega)
      (fun _ => by
        rw [← hcells]
        rfl)
      (Ordered.append (Ordered.left hinc) hright.2 fun x hx y hy =>
        Ordered.lt hinc x hx y (List.mem_cons_of_mem _ hy))
      fun x hx => h.key_ne_null x (hsub x hx)
    refine ⟨hfilled, hlive.trans ?_⟩
    conv_rhs => rw [hsplit]
    rw [List.filter_append, List.filter_cons_of_neg (by simp [← hget, hkey])]
    congr 1
    · refine (List.filter_eq_self.mpr fun x hx => ?_).symm
      simpa using (hbelow x hx).ne
    · refine (List.filter_eq_self.mpr fun x hx => ?_).symm
      have hlt := hright.1 x hx
      rw [← hget, hkey] at hlt
      simpa using hlt.ne'
  · rename_i hmissing
    refine ⟨h, (List.filter_eq_self.mpr fun x hx => ?_).symm⟩
    rw [← List.take_append_drop pos b.live] at hx
    rcases List.mem_append.mp hx with hx | hx
    · simpa using (hbelow x hx).ne
    · -- the key could only be at the position found
      obtain ⟨i, hi, rfl⟩ := List.mem_iff_getElem.mp hx
      rw [List.length_drop] at hi
      have hpos : pos < b.size := by omega
      have hlt : p.keyOf e < p.keyOf (b.get p pos) := by
        refine lt_of_le_of_ne ?_ fun heq => hmissing ⟨hpos, heq.symm⟩
        refine habove _ ?_
        rw [get_of_lt (p := p) (by omega), List.drop_eq_getElem_cons (by omega)]
        exact List.mem_cons_self
      have hle : p.keyOf (b.get p pos) ≤ p.keyOf (b.get p (pos + i)) := by
        rcases Nat.eq_zero_or_pos i with rfl | hi'
        · exact le_refl _
        · exact ((h.valid (by omega)).key_lt (show pos < pos + i by omega) (by omega)).le
      rw [List.getElem_drop, ← get_of_lt (p := p) (by omega)]
      simpa using (lt_of_lt_of_le hlt hle).ne'

/-! ## Two neighbouring blocks -/

/-- **`mergeSmaller`.** -/
lemma Filled.mergeSmaller_spec (h : b.Filled p) (ho : other.Filled p)
    (hroom : b.size + other.size ≤ p.blockSize)
    (hlt : ∀ x ∈ other.live, ∀ y ∈ b.live, p.keyOf x < p.keyOf y) :
    (b.mergeSmaller p other).Filled p ∧ (b.mergeSmaller p other).live = other.live ++ b.live ∧
      (b.mergeSmaller p other).dead <:+ b.dead := by
  have hlen := h.length_live
  have hlen' := ho.length_live
  have hfront : (other.live ++ b.live).length = other.size + b.size := by
    rw [List.length_append]
    omega
  have hcells : (b.mergeSmaller p other).cells =
      other.live ++ b.live ++ b.cells.drop (other.live ++ b.live).length := rfl
  obtain ⟨hfilled, hlive, hdead⟩ := filled_of_append (p := p) hcells
    (by rw [hfront, Nat.add_comm]; rfl)
    (by rw [List.length_append, List.length_drop, hfront, h.length_cells]; omega)
    (fun _ => rfl) (Ordered.append ho.increasing h.increasing hlt) (by
      intro x hx
      rcases List.mem_append.mp hx with hx | hx
      · exact ho.key_ne_null x hx
      · exact h.key_ne_null x hx)
  refine ⟨hfilled, hlive, ?_⟩
  rw [hdead, hfront, Nat.add_comm, ← List.drop_drop]
  exact List.drop_suffix _ _

/-- **`steal`.**  The cells of the right block from which elements were moved away become dead, but
hold elements that are still live there. -/
lemma Filled.steal_spec (h : b.Filled p) (hr : right.Filled p) (hpos : 0 < b.size)
    (hsmall : b.size ≤ p.minBlockSize) (hsum : 2 * p.minBlockSize ≤ b.size + right.size)
    (hlt : ∀ x ∈ b.live, ∀ y ∈ right.live, p.keyOf x < p.keyOf y) :
    ((b.steal p right).1.Filled p ∧
      (b.steal p right).1.live = b.live ++ right.live.take (p.minBlockSize - b.size) ∧
      (b.steal p right).1.dead <:+ b.dead) ∧
    (b.steal p right).2.Filled p ∧
      (b.steal p right).2.live = right.live.drop (p.minBlockSize - b.size) ∧
      ∀ x ∈ (b.steal p right).2.dead, x ∈ right.live.drop (right.size + b.size - p.minBlockSize) ∨
        x ∈ right.dead := by
  have hlen := h.length_live
  have hlen' := hr.length_live
  have hmin : 2 * p.minBlockSize ≤ p.blockSize := by
    rw [BlockParams.minBlockSize]
    omega
  have htake : right.cells.take (p.minBlockSize - b.size) =
      right.live.take (p.minBlockSize - b.size) := by
    rw [live, List.take_take, Nat.min_eq_left (by omega)]
  have hinc : Increasing p (right.live.take (p.minBlockSize - b.size) ++
      right.live.drop (p.minBlockSize - b.size)) := by
    rw [List.take_append_drop]
    exact hr.increasing
  have hfront : (b.live ++ right.live.take (p.minBlockSize - b.size)).length =
      p.minBlockSize := by
    rw [List.length_append, List.length_take]
    omega
  have hrest : (right.live.drop (p.minBlockSize - b.size)).length =
      right.size + b.size - p.minBlockSize := by
    rw [List.length_drop]
    omega
  constructor
  · have hcells : (b.steal p right).1.cells =
        b.live ++ right.live.take (p.minBlockSize - b.size) ++ b.cells.drop
          (b.live ++ right.live.take (p.minBlockSize - b.size)).length := by
      rw [← htake]
      rfl
    obtain ⟨hfilled, hlive, hdead⟩ := filled_of_append (p := p) hcells
      (by rw [hfront]; exact Nat.add_sub_cancel' hsmall)
      (by rw [List.length_append, List.length_drop, hfront, h.length_cells]; omega)
      (by
        intro _
        rw [List.append_assoc, getD_zero_append (by omega)]
        exact (h.head_eq hpos).trans (by rw [get, ← live_append_dead, getD_zero_append (by omega)]))
      (Ordered.append h.increasing (Ordered.left hinc) fun x hx y hy =>
        hlt x hx y (List.mem_of_mem_take hy)) (by
        intro x hx
        rcases List.mem_append.mp hx with hx | hx
        · exact h.key_ne_null x hx
        · exact hr.key_ne_null x (List.mem_of_mem_take hx))
    refine ⟨hfilled, hlive, ?_⟩
    rw [hdead, hfront, ← Nat.add_sub_cancel' hsmall, ← List.drop_drop]
    exact List.drop_suffix _ _
  · have hcells : (b.steal p right).2.cells = right.live.drop (p.minBlockSize - b.size) ++
        right.cells.drop (right.live.drop (p.minBlockSize - b.size)).length := rfl
    obtain ⟨hfilled, hlive, hdead⟩ := filled_of_append (p := p) hcells
      (by rw [hrest]; change right.size - (p.minBlockSize - b.size) = _; omega)
      (by
        have hle := hr.size_le
        rw [List.length_append, hrest, List.length_drop, hr.length_cells]
        omega)
      (fun _ => rfl) (Ordered.right hinc) fun x hx => hr.key_ne_null x (List.mem_of_mem_drop hx)
    refine ⟨hfilled, hlive, ?_⟩
    intro x hx
    rw [hdead, hrest, ← live_append_dead,
      List.drop_append_of_le_length (by omega)] at hx
    exact List.mem_append.mp hx

/-- **`stealFromSmaller`.**  The cells of the left block from which elements were moved away become
dead. -/
lemma Filled.stealFromSmaller_spec (h : b.Filled p) (hl : left.Filled p)
    (hsmall : b.size ≤ p.minBlockSize) (hsum : 2 * p.minBlockSize ≤ b.size + left.size)
    (hlt : ∀ x ∈ left.live, ∀ y ∈ b.live, p.keyOf x < p.keyOf y) :
    ((b.stealFromSmaller p left).1.Filled p ∧
      (b.stealFromSmaller p left).1.live =
        left.live.drop (left.size + b.size - p.minBlockSize) ++ b.live ∧
      (b.stealFromSmaller p left).1.dead <:+ b.dead) ∧
    (b.stealFromSmaller p left).2.Filled p ∧
      (b.stealFromSmaller p left).2.live =
        left.live.take (left.size + b.size - p.minBlockSize) ∧
      (b.stealFromSmaller p left).2.dead =
        left.live.drop (left.size + b.size - p.minBlockSize) ++ left.dead := by
  have hlen := h.length_live
  have hlen' := hl.length_live
  have hmin : 2 * p.minBlockSize ≤ p.blockSize := by
    rw [BlockParams.minBlockSize]
    omega
  have hkept : left.size - (p.minBlockSize - b.size) = left.size + b.size - p.minBlockSize := by
    omega
  have hinc : Increasing p (left.live.take (left.size + b.size - p.minBlockSize) ++
      left.live.drop (left.size + b.size - p.minBlockSize)) := by
    rw [List.take_append_drop]
    exact hl.increasing
  constructor
  · have hfront : (left.live.drop (left.size + b.size - p.minBlockSize) ++ b.live).length =
        p.minBlockSize := by
      rw [List.length_append, List.length_drop]
      omega
    have hcells : (b.stealFromSmaller p left).1.cells =
        left.live.drop (left.size + b.size - p.minBlockSize) ++ b.live ++ b.cells.drop
          (left.live.drop (left.size + b.size - p.minBlockSize) ++ b.live).length := by
      rw [← hkept]
      rfl
    obtain ⟨hfilled, hlive, hdead⟩ := filled_of_append (p := p) hcells
      (by rw [hfront]; exact Nat.add_sub_cancel' hsmall)
      (by rw [List.length_append, List.length_drop, hfront, h.length_cells]; omega)
      (by
        intro _
        rw [← hcells]
        rfl)
      (Ordered.append (Ordered.right hinc) h.increasing fun x hx y hy =>
        hlt x (List.mem_of_mem_drop hx) y hy) (by
        intro x hx
        rcases List.mem_append.mp hx with hx | hx
        · exact hl.key_ne_null x (List.mem_of_mem_drop hx)
        · exact h.key_ne_null x hx)
    refine ⟨hfilled, hlive, ?_⟩
    rw [hdead, hfront, ← Nat.add_sub_cancel' hsmall, ← List.drop_drop]
    exact List.drop_suffix _ _
  · have hfront : (left.live.take (left.size + b.size - p.minBlockSize)).length =
        left.size + b.size - p.minBlockSize := by
      rw [List.length_take]
      omega
    have hcells : (b.stealFromSmaller p left).2.cells =
        left.live.take (left.size + b.size - p.minBlockSize) ++
          (left.live.drop (left.size + b.size - p.minBlockSize) ++ left.dead) := by
      rw [← List.append_assoc, List.take_append_drop, live_append_dead]
      rfl
    refine filled_of_append (p := p) hcells (by rw [hfront]; exact hkept) ?_ ?_ (Ordered.left hinc)
      fun x hx => hl.key_ne_null x (List.mem_of_mem_take hx)
    · rw [← hcells]
      exact hl.length_cells
    · intro hpos
      rw [← hcells]
      exact hl.head_eq (by omega)

end PmaEntry

end BatchPMA
