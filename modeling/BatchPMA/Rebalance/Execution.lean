import BatchPMA.Rebalance.Places

/-!
# Moving the blocks of the tasks to the swap array

The blocks of all tasks are numbered consecutively: `src g` is where block `g` is, and `dst g`
where in the swap array it has to go.  Step B-5 makes these moves, each of them once, whatever
the order of the threads.  `Running` describes the state after a set of moves; every part of the
step adds an interval of numbers to that set.
-/

namespace BatchPMA

open Transfer

namespace BatchedSparseArray

variable {K α : Type} {p : BatchedParams K α} {s s₀ : BatchedSparseArray K α}
  {src dst : ℕ → Place} {n : ℕ} {D : Set ℕ}

/-- The `n` moves of step B-5, made from the state `s₀`. -/
structure SwapPlan [DecidableEq K] (p : BatchedParams K α) (s₀ : BatchedSparseArray K α) (src dst : ℕ → Place)
    (n : ℕ) : Prop where
  plan : Plan src dst n
  src_pma : ∀ g < n, ∀ c, src g = .pma c → s₀.empty p c = false
  src_buffer : ∀ g < n, ∀ j, src g = .buffer j → 0 < (s₀.bufferArray j).size
  src_ne_swap : ∀ g < n, ∀ i, src g ≠ .swap i
  dst_swap : ∀ g < n, ∃ i, dst g = .swap i

/-- The moves from number `P` on are those of the cells `[a, b)`. -/
structure TaskPlan [DecidableEq K] (p : BatchedParams K α) (s₀ : BatchedSparseArray K α) (src dst : ℕ → Place)
    (n a b P : ℕ) : Prop where
  src_eq : ∀ j < (s₀.placesIn p a b).length, (s₀.placesIn p a b)[j]? = some (src (P + j))
  dst_eq : ∀ j < (s₀.placesIn p a b).length, dst (P + j) = .swap (a + j)
  le : P + (s₀.placesIn p a b).length ≤ n

/-- The state after the moves with numbers in `D`. -/
structure Running (p : BatchedParams K α) (s₀ : BatchedSparseArray K α) (src dst : ℕ → Place)
    (n : ℕ) (D : Set ℕ) (s : BatchedSparseArray K α) : Prop where
  done : Done src dst n (PmaEntry.null p.toBlockParams) s₀.memory D s.memory
  frame : ∃ a b c m, s = s₀.withBlocks a b c m

lemma Running.size_eq (h : Running p s₀ src dst n D s) : s.size = s₀.size := by
  obtain ⟨a, b, c, m, rfl⟩ := h.frame
  rfl

lemma Running.bufferPointers_eq (h : Running p s₀ src dst n D s) :
    s.bufferPointers = s₀.bufferPointers := by
  obtain ⟨a, b, c, m, rfl⟩ := h.frame
  rfl

/-! ## Moving a list of places -/

lemma memory_movePlace {q : Place} (hq : ∀ i, q ≠ .swap i) (w : ℕ) : (s.movePlace p q w).memory =
    Transfer.move (PmaEntry.null p.toBlockParams) s.memory q (.swap w) := by
  cases q with
  | pma c => exact memory_movePmaBlock p s c w
  | buffer j => exact memory_moveBufferBlock p s j w
  | swap i => exact absurd rfl (hq i)

variable [DecidableEq K]

lemma Running.movePlace (hp : SwapPlan p s₀ src dst n) (h : Running p s₀ src dst n D s)
    {g w : ℕ} (hg : g < n) (hout : g ∉ D) (hdst : dst g = .swap w) :
    Running p s₀ src dst n (insert g D) (s.movePlace p (src g) w) where
  done := by
    rw [memory_movePlace (hp.src_ne_swap g hg), ← hdst]
    exact h.done.move hp.plan hg hout
  frame := by
    obtain ⟨a, b, c, m, rfl⟩ := h.frame
    obtain ⟨a', b', c', heq⟩ := movePlace_frame p (s₀.withBlocks a b c m) (src g) w
    exact ⟨a', b', c', m, heq⟩

/-- Moving a run of places adds an interval of numbers. -/
lemma Running.movePlaces (hp : SwapPlan p s₀ src dst n) :
    ∀ (l : List Place) (g w : ℕ) (D : Set ℕ) (s : BatchedSparseArray K α),
      Running p s₀ src dst n D s → (∀ j < l.length, l[j]? = some (src (g + j))) →
      (∀ j < l.length, dst (g + j) = .swap (w + j)) → g + l.length ≤ n →
      (∀ i, g ≤ i → i < g + l.length → i ∉ D) →
      Running p s₀ src dst n (D ∪ Set.Ico g (g + l.length)) (movePlaces p w l s)
  | [], g, w, D, s, h, _, _, _, _ => by simpa [BatchedSparseArray.movePlaces] using h
  | q :: l, g, w, D, s, h, hsrc, hdst, hle, hout => by
      have hq : q = src g := by simpa using hsrc 0 (Nat.succ_pos _)
      have hw : dst g = .swap w := by simpa using hdst 0 (Nat.succ_pos _)
      simp only [List.length_cons] at hsrc hdst hle hout ⊢
      have hstep := h.movePlace hp (by omega) (hout g (le_refl _) (by omega)) hw
      rw [← hq] at hstep
      have hrest := Running.movePlaces hp l (g + 1) (w + 1) _ _ hstep
        (fun j hj => by
          have := hsrc (j + 1) (by omega)
          rw [List.getElem?_cons_succ] at this
          rw [this, Nat.add_assoc, Nat.add_comm 1 j])
        (fun j hj => by
          have := hdst (j + 1) (by omega)
          rw [Nat.add_assoc, Nat.add_comm 1 j, this, Nat.add_assoc, Nat.add_comm 1 j])
        (by omega)
        (fun i h1 h2 hin => by
          rcases hin with heq | hin
          · omega
          · exact hout i (by omega) (by omega) hin)
      have hset : insert g D ∪ Set.Ico (g + 1) (g + 1 + l.length) =
          D ∪ Set.Ico g (g + (l.length + 1)) := by
        ext i
        simp only [Set.mem_union, Set.mem_insert_iff, Set.mem_Ico]
        by_cases hD : i ∈ D
        · simp [hD]
        · simp only [hD, or_false, false_or]
          omega
      rw [hset] at hrest
      exact hrest

/-! ## The loop over the cells -/

lemma cellOffset_le {i : ExtendedPmaIndex} (h : s.InCell i) :
    s.cellOffset p i ≤ (s.cellPlaces p i.pmaIndex).length := by
  rcases i with ⟨c, b⟩
  cases b with
  | none => exact Nat.zero_le _
  | some y =>
      have := h y rfl
      rw [length_cellPlaces]
      simp only [cellOffset] at *
      omega

lemma length_placesIn_mono {a b c : ℕ} (h1 : a ≤ b) (h2 : b ≤ c) :
    (s.placesIn p a b).length ≤ (s.placesIn p a c).length := by
  rw [placesIn_append h1 h2, List.length_append]
  omega

/-- The rank of an index does not go beyond its own cell. -/
lemma rank_le_succ {a : ℕ} {i : ExtendedPmaIndex} (ha : a ≤ i.pmaIndex) (h : s.InCell i) :
    s.rank p a i ≤ s.rank p a ⟨i.pmaIndex + 1, none⟩ := by
  rw [rank_succ ha, rank_none, rank]
  have := cellOffset_le (p := p) h
  omega

/-- An index that is not in front of the end has at least the rank of the end. -/
lemma rank_le_of_not_less {a : ℕ} {i e : ExtendedPmaIndex} (ha : a ≤ e.pmaIndex)
    (he : s.InCell e) (h : i.less e = false) : s.rank p a e ≤ s.rank p a i := by
  simp only [ExtendedPmaIndex.less, decide_eq_false_iff_not, not_or, not_and, not_lt] at h
  rcases Nat.lt_or_ge e.pmaIndex i.pmaIndex with hlt | hge
  · refine le_trans (rank_le_succ ha he) ?_
    rw [rank_none, rank]
    exact le_trans (length_placesIn_mono (by omega) hlt) (Nat.le_add_right _ _)
  · have heq : i.pmaIndex = e.pmaIndex := by omega
    have hoff := h.2 heq
    rw [rank, rank, heq]
    rcases i with ⟨ic, ib⟩
    rcases e with ⟨ec, eb⟩
    simp only at heq
    subst heq
    cases eb with
    | none => simp [cellOffset]
    | some y =>
        cases ib with
        | none => simp [ExtendedPmaIndex.offset] at hoff
        | some x =>
            simp only [ExtendedPmaIndex.offset, cellOffset] at *
            omega

/-- The places of a cell as a part of the places of a range. -/
lemma getElem?_cellSegment {a b c x : ℕ} {e : ExtendedPmaIndex} (ha : a ≤ c) (hb : c < b)
    {i : ExtendedPmaIndex} (hi : i.pmaIndex = c)
    (hx : x < (s.cellSegment p e i).length) :
    (s.cellSegment p e i)[x]? = (s.placesIn p a b)[s.rank p a i + x]? := by
  subst hi
  have hsplit : s.placesIn p a b = s.placesIn p a i.pmaIndex ++
      (s.cellPlaces p i.pmaIndex ++ s.placesIn p (i.pmaIndex + 1) b) := by
    rw [placesIn_append ha hb.le, placesIn_append (Nat.le_succ i.pmaIndex) hb, placesIn_succ]
  have hlen : s.cellOffset p i + x < (s.cellPlaces p i.pmaIndex).length := by
    rw [cellSegment, List.length_drop, List.length_take] at hx
    omega
  rw [hsplit, rank, Nat.add_assoc, List.getElem?_append_right (Nat.le_add_right _ _),
    Nat.add_sub_cancel_left, List.getElem?_append_left hlen, cellSegment, List.getElem?_drop,
    List.getElem?_take_of_lt]
  rw [cellSegment, List.length_drop, List.length_take] at hx
  omega

/-- Where the index is after its cell. -/
lemma rank_add_length_cellSegment {a : ℕ} {e i : ExtendedPmaIndex} (ha : a ≤ i.pmaIndex)
    (he : s.InCell e) (hi : s.InCell i) (hless : i.less e = true) :
    s.rank p a i + (s.cellSegment p e i).length =
      if i.pmaIndex = e.pmaIndex then s.rank p a e else s.rank p a ⟨i.pmaIndex + 1, none⟩ := by
  have hoff := cellOffset_le (p := p) hi
  rw [cellSegment, List.length_drop, List.length_take]
  split
  · rename_i heq
    have hle := cellOffset_le (p := p) he
    -- within one cell the end comes behind the index
    have hlt : s.cellOffset p i ≤ s.cellOffset p e := by
      rcases i with ⟨ic, ib⟩
      rcases e with ⟨ec, eb⟩
      simp only at heq
      subst heq
      simp only [ExtendedPmaIndex.less, ExtendedPmaIndex.offset, lt_self_iff_false, true_and,
        false_or, decide_eq_true_eq] at hless
      cases ib with
      | none => exact Nat.zero_le _
      | some x =>
          cases eb with
          | none => simp at hless
          | some y =>
              simp only [cellOffset] at *
              omega
    rw [rank, rank, ← heq] at *
    omega
  · rw [rank_succ ha, rank_none, rank]
    omega

/-- An end index within the cells `[a, b)`. -/
structure EndIn (s : BatchedSparseArray K α) (a b : ℕ) (e : ExtendedPmaIndex) : Prop where
  inCell : s.InCell e
  le : a ≤ e.pmaIndex
  le_right : e.pmaIndex ≤ b
  lt_right : e.bufferIndex ≠ none → e.pmaIndex < b

lemma EndIn.rank_le {a b : ℕ} {e : ExtendedPmaIndex} (h : s.EndIn a b e) :
    s.rank p a e ≤ (s.placesIn p a b).length := by
  rcases e with ⟨ec, eb⟩
  cases eb with
  | none => exact length_placesIn_mono h.le h.le_right
  | some y =>
      refine le_trans (rank_le_succ h.le h.inCell) ?_
      exact length_placesIn_mono (Nat.le_succ_of_le h.le) (h.lt_right (by simp))

omit [DecidableEq K] in
lemma EndIn.lt_of_less {a b : ℕ} {e i : ExtendedPmaIndex} (h : s.EndIn a b e)
    (hless : i.less e = true) : i.pmaIndex < b := by
  rcases e with ⟨ec, eb⟩
  have h1 := h.le_right
  rcases of_decide_eq_true hless with hlt | ⟨heq, hoff⟩
  · simp only at h1 hlt
    omega
  · cases eb with
    | none => exact absurd hoff (Nat.not_lt_zero _)
    | some y =>
        have := h.lt_right (by simp)
        simp only at heq this
        omega

lemma less_pmaIndex_le {i e : ExtendedPmaIndex} (hless : i.less e = true) :
    i.pmaIndex ≤ e.pmaIndex := by
  simp only [ExtendedPmaIndex.less, decide_eq_true_eq] at hless
  omega

/-- A block of the plan that has not been moved yet. -/
lemma Running.memory_src (hp : SwapPlan p s₀ src dst n) (h : Running p s₀ src dst n D s) {g : ℕ}
    (hg : g < n) (hout : g ∉ D) {q : Place} (hq : q = src g) : s.memory q = s₀.memory q := by
  rw [hq]
  exact h.done.unmoved hp.plan hg hout

/-- Emptiness of a cell whose block, if it has one, has not been moved yet. -/
lemma Running.empty_eq (hp : SwapPlan p s₀ src dst n) (h : Running p s₀ src dst n D s) {c : ℕ}
    (hc : s₀.empty p c = false → ∃ g, g < n ∧ g ∉ D ∧ Place.pma c = src g) :
    s.empty p c = s₀.empty p c := by
  have hmem : s.memory (.pma c) = s₀.memory (.pma c) := by
    cases he : s₀.empty p c with
    | true =>
        refine h.done.other _ fun g hg => ⟨fun heq => ?_, fun heq => ?_⟩
        · have := hp.src_pma g (h.done.lt g hg) c heq.symm
          rw [he] at this
          exact absurd this (by simp)
        · obtain ⟨i, hi⟩ := hp.dst_swap g (h.done.lt g hg)
          rw [hi] at heq
          exact absurd heq (by simp)
    | false =>
        obtain ⟨g, hg, hout, hq⟩ := hc he
        exact h.memory_src hp hg hout hq
  have hpma : s.pma c = s₀.pma c := hmem
  rw [empty, empty, h.size_eq, hpma]

lemma rebalanceLoop_of_not_less (start : ℕ) {e i : ExtendedPmaIndex} (h : i.less e = false) :
    ∀ (fuel out : ℕ) (s : BatchedSparseArray K α), rebalanceLoop p start e fuel i out s = s
  | 0, _, _ => rfl
  | fuel + 1, out, s => by rw [rebalanceLoop, h]; rfl

/-- **The loop of `rebalanceBlocks`.**  It makes the moves between the ranks of its two ends. -/
theorem Running.rebalanceLoop (hp : SwapPlan p s₀ src dst n) {a b P : ℕ}
    (ht : TaskPlan p s₀ src dst n a b P) {e : ExtendedPmaIndex} (he : s₀.EndIn a b e) {x : ℕ} :
    ∀ (fuel : ℕ) (i : ExtendedPmaIndex) (out : ℕ) (D : Set ℕ) (s : BatchedSparseArray K α),
      Running p s₀ src dst n D s → a ≤ i.pmaIndex → s₀.InCell i →
      e.pmaIndex + 1 ≤ i.pmaIndex + fuel → x + out = s₀.rank p a i →
      (∀ g, P + s₀.rank p a i ≤ g → g < P + s₀.rank p a e → g ∉ D) →
      Running p s₀ src dst n (D ∪ Set.Ico (P + s₀.rank p a i) (P + s₀.rank p a e))
        (rebalanceLoop p (a + x) e fuel i out s)
  | 0, i, out, D, s, h, ha, hi, hfuel, hout, hD => by
      have hless : i.less e = false := by
        simp only [ExtendedPmaIndex.less, decide_eq_false_iff_not]
        omega
      have hle := rank_le_of_not_less (p := p) he.le he.inCell hless
      rw [Set.Ico_eq_empty (by omega), Set.union_empty]
      exact h
  | fuel + 1, i, out, D, s, h, ha, hi, hfuel, hout, hD => by
      rw [BatchedSparseArray.rebalanceLoop]
      split
      · rename_i hless
        have hib := he.lt_of_less hless
        have hie := less_pmaIndex_le hless
        have hlen := rank_add_length_cellSegment (p := p) ha he.inCell hi hless
        have hnext : s₀.rank p a i + (s₀.cellSegment p e i).length ≤ s₀.rank p a e := by
          rw [hlen]
          split
          · exact le_refl _
          · rw [rank_none, rank]
            exact le_trans (length_placesIn_mono (by omega) (by omega)) (Nat.le_add_right _ _)
        have hrank := he.rank_le (p := p)
        -- the numbers of the places of this cell
        have hsrc : ∀ j < (s₀.cellSegment p e i).length, (s₀.cellSegment p e i)[j]? =
            some (src (P + s₀.rank p a i + j)) := by
          intro j hj
          rw [getElem?_cellSegment ha hib rfl hj, ht.src_eq _ (by omega), Nat.add_assoc]
        have hfree : ∀ j < (s₀.cellSegment p e i).length, P + s₀.rank p a i + j < n ∧
            P + s₀.rank p a i + j ∉ D := by
          intro j hj
          exact ⟨by have := ht.le; omega, hD _ (by omega) (by omega)⟩
        have hcell := rebalanceCell_eq (p := p) (s := s) (a + x) out h.bufferPointers_eq
          (fun hb => h.empty_eq hp fun hne => ?_) he.inCell hless (fun j hj => ?_)
        · rw [hcell]
          have hmove := Running.movePlaces hp (s₀.cellSegment p e i) (P + s₀.rank p a i)
            (a + x + out) D s h hsrc
            (fun j hj => by
              rw [Nat.add_assoc, ht.dst_eq _ (by omega), ← hout]
              congr 1
              omega)
            (by have := ht.le; omega) (fun g h1 h2 => hD g h1 (by omega))
          by_cases hc : i.pmaIndex = e.pmaIndex
          · -- the end was in this cell
            have hstop : ExtendedPmaIndex.less ⟨i.pmaIndex + 1, none⟩ e = false := by
              simp only [ExtendedPmaIndex.less, decide_eq_false_iff_not]
              omega
            rw [if_pos hc] at hlen
            rw [Nat.add_assoc, hlen] at hmove
            rw [rebalanceLoop_of_not_less _ hstop]
            exact hmove
          · rw [if_neg hc] at hlen
            have hrest := Running.rebalanceLoop hp ht he (x := x) fuel ⟨i.pmaIndex + 1, none⟩
              (out + (s₀.cellSegment p e i).length) _ _ hmove (by simp only; omega)
              (fun y hy => by simp at hy) (by simp only; omega) (by omega)
              (fun g h1 h2 hin => by
                rcases hin with hin | hin
                · exact hD g (by omega) h2 hin
                · have := hin.2
                  omega)
            rw [Nat.add_assoc P, hlen, Set.union_assoc,
              Set.Ico_union_Ico_eq_Ico (by omega) (by omega)] at hrest
            exact hrest
        · -- the pma block of the cell is the first one of the segment
          rcases i with ⟨c, ib⟩
          simp only at hb hne
          subst hb
          have hseg := cellSegment_none (p := p) he.inCell hless
          rw [hne] at hseg
          have h0 : 0 < (s₀.cellSegment p e ⟨c, none⟩).length := by rw [hseg]; simp
          obtain ⟨hlt, hnot⟩ := hfree 0 h0
          have hfirst := hsrc 0 h0
          rw [hseg] at hfirst
          exact ⟨_, hlt, hnot, by simpa using hfirst⟩
        · obtain ⟨k, hk, hkj⟩ := List.mem_iff_getElem.mp hj
          obtain ⟨hlt, hnot⟩ := hfree k hk
          have hq := hsrc k hk
          rw [List.getElem?_eq_getElem hk, hkj, Option.some_inj] at hq
          have hmem : s.bufferArray j = s₀.bufferArray j := h.memory_src hp hlt hnot hq
          rw [hmem]
          exact hp.src_buffer _ hlt j hq.symm
      · rename_i hless
        have hle := rank_le_of_not_less (p := p) he.le he.inCell (by simpa using hless)
        rw [Set.Ico_eq_empty (by omega), Set.union_empty]
        exact h

end BatchedSparseArray

end BatchPMA
