import BatchPMA.Insertion.Counts
import BatchPMA.Block.Insert

/-!
# Splitting a block

`insertIntoBlockWithSplit` works on the block it fills and on one right half that has been split
off.  At every moment the blocks written so far, the block that is filled and the right half hold
the union of the original block and the elements inserted so far, in this order.
-/

namespace BatchPMA

open KeyedUnion

variable {K α : Type} [LinearOrder K] {p : BlockParams K α}

/-! ## Sequences of blocks -/

/-- The elements of a sequence of blocks. -/
def elements (blocks : List (PmaEntry K α)) : List α := blocks.flatMap PmaEntry.live

omit [LinearOrder K] in
@[simp] lemma elements_nil : elements ([] : List (PmaEntry K α)) = [] := rfl

omit [LinearOrder K] in
@[simp] lemma elements_cons (b : PmaEntry K α) (bs : List (PmaEntry K α)) :
    elements (b :: bs) = b.live ++ elements bs := rfl

omit [LinearOrder K] in
@[simp] lemma elements_append (bs cs : List (PmaEntry K α)) :
    elements (bs ++ cs) = elements bs ++ elements cs := List.flatMap_append

omit [LinearOrder K] in
lemma mem_elements {x : α} {bs : List (PmaEntry K α)} :
    x ∈ elements bs ↔ ∃ b ∈ bs, x ∈ b.live := List.mem_flatMap

section Lengths

variable {bs : List (PmaEntry K α)} (hvalid : ∀ b ∈ bs, b.Valid p)
include hvalid

lemma length_elements : (elements bs).length = (bs.map PmaEntry.size).sum := by
  rw [elements, List.length_flatMap]
  congr 1
  exact List.map_congr_left fun b hb => (hvalid b hb).length_live

/-- Blocks hold as many elements as they are allowed to at most. -/
lemma length_elements_le : (elements bs).length ≤ p.blockSize * bs.length := by
  rw [length_elements hvalid, Nat.mul_comm, ← smul_eq_mul, ← List.length_map (f := PmaEntry.size)]
  refine List.sum_le_card_nsmul _ _ fun n hn => ?_
  obtain ⟨b, hb, rfl⟩ := List.mem_map.mp hn
  exact (hvalid b hb).size_le

/-- Large blocks are few. -/
lemma le_length_elements (hlarge : ∀ b ∈ bs, p.minBlockSize ≤ b.size) :
    p.minBlockSize * bs.length ≤ (elements bs).length := by
  rw [length_elements hvalid, Nat.mul_comm, ← smul_eq_mul, ← List.length_map (f := PmaEntry.size)]
  refine List.card_nsmul_le_sum _ _ fun n hn => ?_
  obtain ⟨b, hb, rfl⟩ := List.mem_map.mp hn
  exact hlarge b hb

end Lengths

/-- The dead cells of a block hold the null key, keys that lie `above` the sequence, or keys from
the head of a later block on. -/
def DeadOk (p : BlockParams K α) (above : K → Prop) : List (PmaEntry K α) → Prop
  | [] => True
  | b :: bs => (∀ x ∈ b.dead, p.keyOf x = p.nullKey ∨ above (p.keyOf x) ∨
      ∃ c ∈ bs, c.head ≤ p.keyOf x) ∧ DeadOk p above bs

/-- The same, where dead cells may also (if `keep` holds) hold keys that are not above all live keys
of their own block. -/
def StaleOk (p : BlockParams K α) (keep : Prop) (above : K → Prop) : List (PmaEntry K α) → Prop
  | [] => True
  | b :: bs => (∀ x ∈ b.dead, p.keyOf x = p.nullKey ∨ above (p.keyOf x) ∨
      (∃ c ∈ bs, c.head ≤ p.keyOf x) ∨ keep ∧ ∃ y ∈ b.live, p.keyOf x ≤ p.keyOf y) ∧
      StaleOk p keep above bs

lemma staleOk_false {above : K → Prop} : ∀ {bs : List (PmaEntry K α)},
    StaleOk p False above bs ↔ DeadOk p above bs
  | [] => Iff.rfl
  | b :: bs => by
      rw [StaleOk, DeadOk, @staleOk_false _ bs]
      simp

variable {keep : Prop}

lemma StaleOk.mono {above above' : K → Prop} (h : ∀ k, above k → above' k) :
    ∀ {bs : List (PmaEntry K α)}, StaleOk p keep above bs → StaleOk p keep above' bs
  | [], _ => trivial
  | _ :: _, hb => ⟨fun x hx => (hb.1 x hx).imp id (Or.imp_left (h _)), hb.2.mono h⟩

lemma staleOk_append {above : K → Prop} {cs : List (PmaEntry K α)} :
    ∀ {bs : List (PmaEntry K α)}, StaleOk p keep above (bs ++ cs) ↔
      StaleOk p keep (fun k => above k ∨ ∃ c ∈ cs, c.head ≤ k) bs ∧ StaleOk p keep above cs
  | [] => ⟨fun h => ⟨trivial, h⟩, fun h => h.2⟩
  | b :: bs => by
      rw [List.cons_append, StaleOk, StaleOk, @staleOk_append _ _ bs, and_assoc]
      refine and_congr_left fun _ => forall₂_congr fun x _ => or_congr_right ?_
      simp only [List.mem_append, or_and_right, exists_or, or_assoc]
      exact or_congr_right or_left_comm

lemma DeadOk.mono {above above' : K → Prop} (h : ∀ k, above k → above' k)
    {bs : List (PmaEntry K α)} (hd : DeadOk p above bs) : DeadOk p above' bs :=
  staleOk_false.mp ((staleOk_false.mpr hd).mono h)

lemma deadOk_append {above : K → Prop} {bs cs : List (PmaEntry K α)} :
    DeadOk p above (bs ++ cs) ↔
      DeadOk p (fun k => above k ∨ ∃ c ∈ cs, c.head ≤ k) bs ∧ DeadOk p above cs := by
  simp only [← staleOk_false]
  exact staleOk_append

namespace SplitState

variable {st : SplitState K α} {b₀ : PmaEntry K α} {above : K → Prop} {done rest : List α} {e : α}

/-- What holds while the loop of `insertIntoBlockWithSplit` runs: `done` are the elements that have
been inserted into the block `b₀`, `rest` those that are still to come. -/
structure Splitting (p : BlockParams K α) (keep : Prop) (b₀ : PmaEntry K α) (above : K → Prop)
    (done rest : List α) (st : SplitState K α) : Prop where
  valid : ∀ b ∈ st.finish, b.Valid p
  union : IsUnion p.keyOf b₀.live done (elements st.finish)
  dead : StaleOk p keep above st.finish
  right : st.rightHalf = PmaEntry.null p ∨ st.rightHalf.Valid p ∧
    st.rightHalf.size = p.minBlockSize ∧ ∀ x ∈ st.rightHalf.dead, x = p.zero
  /-- There has been no split, or all blocks are large enough. -/
  large : st.written = [] ∧ st.rightHalf = PmaEntry.null p ∨
    ∀ b ∈ st.finish, p.minBlockSize ≤ b.size
  increasing : Increasing p (done ++ rest)
  fresh : ∀ e ∈ rest, p.keyOf e ≠ p.nullKey ∧ ∀ k, above k → p.keyOf e < k
  passed : ∀ x ∈ elements st.written, ∀ e ∈ rest, p.keyOf x < p.keyOf e
  hint : ∀ e ∈ rest, st.rightHalf.isEmpty = true ∨ p.keyOf e < st.rightHalf.head →
    st.lastInsertionIndex ≤ st.insertionBlock.size ∧
      ∀ i < st.lastInsertionIndex, p.keyOf (st.insertionBlock.get p i) < p.keyOf e
  /-- Of a block that has a right half all but `MinBlockSize` elements are new ones. -/
  half : st.rightHalf.isEmpty = false → ∀ e ∈ rest, ∀ i,
    i + p.minBlockSize < st.insertionBlock.size → p.keyOf (st.insertionBlock.get p i) < p.keyOf e

/-- The shared assumptions on the block and the elements that are inserted. -/
structure SplitInput (p : BlockParams K α) (keep : Prop) (b₀ : PmaEntry K α) (above : K → Prop)
    (es : List α) : Prop where
  even : 2 ∣ p.blockSize
  two_le : 2 ≤ p.blockSize
  zero_null : p.keyOf p.zero = p.nullKey
  valid : b₀.Valid p
  dead : ∀ x ∈ b₀.dead, p.keyOf x = p.nullKey ∨ above (p.keyOf x) ∨
    keep ∧ ∃ y ∈ b₀.live, p.keyOf x ≤ p.keyOf y
  increasing : Increasing p es
  key_ne_null : ∀ e ∈ es, p.keyOf e ≠ p.nullKey
  below : ∀ e ∈ es, ∀ k, above k → p.keyOf e < k

omit [LinearOrder K] in
lemma finish_eq (st : SplitState K α) (h : st.rightHalf.isEmpty = true) :
    st.finish = st.written ++ [st.insertionBlock] := by
  rw [finish, if_pos h]

omit [LinearOrder K] in
lemma finish_eq' (st : SplitState K α) (h : st.rightHalf.isEmpty = false) :
    st.finish = st.written ++ [st.insertionBlock] ++ [st.rightHalf] := by
  rw [finish, if_neg (by simp [h]), List.append_assoc]
  rfl

lemma SplitInput.start {es : List α} (h : SplitInput p keep b₀ above es) :
    Splitting p keep b₀ above [] es ⟨[], b₀, PmaEntry.null p, 0⟩ where
  valid := by
    intro b hb
    rw [List.mem_singleton.mp hb]
    exact h.valid
  union := by
    simp only [finish, PmaEntry.isEmpty_null, if_true, List.nil_append, elements_cons,
      elements_nil, List.append_nil]
    exact IsUnion.nil_new h.valid.increasing
  dead := ⟨fun x hx => (h.dead x hx).imp id (Or.imp id Or.inr), trivial⟩
  right := Or.inl rfl
  large := Or.inl ⟨rfl, rfl⟩
  increasing := h.increasing
  fresh := fun e he => ⟨h.key_ne_null e he, h.below e he⟩
  passed := fun x hx => absurd hx List.not_mem_nil
  hint := fun _ _ _ => ⟨Nat.zero_le _, fun i hi => absurd hi (Nat.not_lt_zero _)⟩
  half := fun hne => absurd hne (by simp)

lemma Splitting.right_valid (h : Splitting p keep b₀ above done rest st)
    (hne : st.rightHalf.isEmpty = false) : st.rightHalf.Valid p ∧
      st.rightHalf.size = p.minBlockSize ∧ ∀ x ∈ st.rightHalf.dead, x = p.zero :=
  h.right.resolve_left fun heq => by rw [heq] at hne; exact absurd hne (by simp)

/-- The right half lies behind the block that is filled. -/
lemma Splitting.lt_right (h : Splitting p keep b₀ above done rest st)
    (hne : st.rightHalf.isEmpty = false) :
    ∀ x ∈ st.insertionBlock.live, ∀ y ∈ st.rightHalf.live, p.keyOf x < p.keyOf y := by
  have hord := h.union.ordered
  rw [finish_eq' st hne, elements_append, elements_append] at hord
  simp only [elements_cons, elements_nil, List.append_nil] at hord
  exact fun x hx y hy => hord.lt x (List.mem_append_right _ hx) y hy

/-- Switching the roles of the two blocks changes nothing but the names. -/
lemma Splitting.switch {es : List α} (h : Splitting p keep b₀ above done (e :: es) st) :
    Splitting p keep b₀ above done (e :: es) (st.switch p e) ∧
      ((st.switch p e).rightHalf.isEmpty = true ∨
        p.keyOf e < (st.switch p e).rightHalf.head) := by
  rw [SplitState.switch]
  split
  · rename_i hcond
    obtain ⟨hne, hge⟩ := hcond
    obtain ⟨hrv, -, -⟩ := h.right_valid hne
    have hhead : st.rightHalf.head ≤ p.keyOf e := by
      rcases hge with hlt | heq
      · exact hlt.le
      · exact heq.ge
    have hcons := List.pairwise_cons.mp (Ordered.right h.increasing)
    have hfin : (⟨st.written ++ [st.insertionBlock], st.rightHalf, PmaEntry.null p, 0⟩ :
        SplitState K α).finish = st.finish := by
      rw [finish_eq' st hne, finish_eq _ rfl]
    refine ⟨⟨by rw [hfin]; exact h.valid, by rw [hfin]; exact h.union, by rw [hfin]; exact h.dead,
      Or.inl rfl, Or.inr ?_, h.increasing, h.fresh, fun x hx y hy => ?_,
      fun _ _ _ => ⟨Nat.zero_le _, fun i hi => absurd hi (Nat.not_lt_zero _)⟩,
      fun h' => absurd h' (by simp)⟩, Or.inl rfl⟩
    · rw [hfin]
      refine h.large.resolve_left fun hno => ?_
      rw [hno.2] at hne
      exact absurd hne (by simp)
    · simp only [elements_append, elements_cons, elements_nil, List.append_nil] at hx
      rcases List.mem_append.mp hx with hx | hx
      · exact h.passed x hx y hy
      · obtain ⟨z, hz, hk⟩ := hrv.head_mem
        have hxz := h.lt_right hne x hx z hz
        have hey : p.keyOf e ≤ p.keyOf y := by
          rcases List.mem_cons.mp hy with rfl | hy
          · exact le_refl _
          · exact (hcons.1 y hy).le
        exact lt_of_lt_of_le (lt_of_lt_of_le (hk ▸ hxz) hhead) hey
  · rename_i hcond
    refine ⟨h, ?_⟩
    cases hemp : st.rightHalf.isEmpty with
    | true => exact Or.inl rfl
    | false =>
        refine Or.inr (not_le.mp fun hle => hcond ⟨hemp, ?_⟩)
        rcases hle.lt_or_eq with hlt | heq
        · exact Or.inl hlt
        · exact Or.inr heq.symm

/-- The right half, if there is one. -/
def rightBlocks (st : SplitState K α) : List (PmaEntry K α) :=
  if st.rightHalf.isEmpty then [] else [st.rightHalf]

omit [LinearOrder K] in
lemma finish_eq_append (st : SplitState K α) :
    st.finish = st.written ++ (st.insertionBlock :: st.rightBlocks) := rfl

omit [LinearOrder K] in
lemma mem_rightBlocks {c : PmaEntry K α} :
    c ∈ st.rightBlocks ↔ st.rightHalf.isEmpty = false ∧ c = st.rightHalf := by
  rw [rightBlocks]
  split <;> rename_i h <;> simp [h]

lemma Splitting.insertion_valid (h : Splitting p keep b₀ above done rest st) :
    st.insertionBlock.Valid p :=
  h.valid _ (by rw [finish_eq_append]; exact List.mem_append_right _ List.mem_cons_self)

/-- Replacing the block that is filled by one with a smaller head and fewer dead cells. -/
lemma staleOk_replace {bs cs : List (PmaEntry K α)} {b b' : PmaEntry K α}
    (hhead : b'.head ≤ b.head) (hdead : b'.dead <:+ b.dead) (hlive : b.live ⊆ b'.live)
    (h : StaleOk p keep above (bs ++ b :: cs)) : StaleOk p keep above (bs ++ b' :: cs) := by
  rw [staleOk_append] at h ⊢
  refine ⟨h.1.mono ?_, fun x hx => ?_, h.2.2⟩
  · rintro k (hk | ⟨c, hc, hle⟩)
    · exact Or.inl hk
    refine Or.inr ?_
    rcases List.mem_cons.mp hc with rfl | hc
    · exact ⟨b', List.mem_cons_self, le_trans hhead hle⟩
    · exact ⟨c, List.mem_cons_of_mem _ hc, hle⟩
  · refine (h.2.1 x (hdead.mem hx)).imp id (Or.imp id (Or.imp id ?_))
    rintro ⟨hk, y, hy, hle⟩
    exact ⟨hk, y, hlive hy, hle⟩

lemma deadOk_replace {bs cs : List (PmaEntry K α)} {b b' : PmaEntry K α} (hhead : b'.head ≤ b.head)
    (hdead : b'.dead <:+ b.dead) (hlive : b.live ⊆ b'.live) (h : DeadOk p above (bs ++ b :: cs)) :
    DeadOk p above (bs ++ b' :: cs) :=
  staleOk_false.mp (staleOk_replace hhead hdead hlive (staleOk_false.mpr h))

/-- The next element goes into the block that is filled. -/
lemma Splitting.insert {es : List α} (h : Splitting p keep b₀ above done (e :: es) st)
    (hroom : st.insertionBlock.size < p.blockSize)
    (hright : st.rightHalf.isEmpty = true ∨ p.keyOf e < st.rightHalf.head) :
    Splitting p keep b₀ above (done ++ [e]) es (st.insert p e) := by
  have hv := h.insertion_valid
  obtain ⟨hnull, hbelow⟩ := h.fresh e List.mem_cons_self
  obtain ⟨hidx, hbefore⟩ := h.hint e List.mem_cons_self hright
  have hcons := List.pairwise_cons.mp (Ordered.right h.increasing)
  have hdead := h.dead
  rw [finish_eq_append, staleOk_append] at hdead
  have hfree : st.insertionBlock.DeadHidden p e := by
    intro x hx heq
    rcases hdead.2.1 x hx with h1 | h1 | ⟨c, hc, hle⟩ | ⟨-, y, hy, hle⟩
    · exact absurd (heq ▸ h1) hnull
    · exact absurd (hbelow _ h1) (by rw [heq]; exact lt_irrefl _)
    · obtain ⟨hne, rfl⟩ := mem_rightBlocks.mp hc
      rcases hright with hemp | hlt
      · rw [hemp] at hne
        exact absurd hne (by simp)
      · exact absurd (lt_of_lt_of_le hlt hle) (by rw [heq]; exact lt_irrefl _)
    · exact ⟨y, hy, heq ▸ hle⟩
  have hins := hv.filled.insertWithIndex_spec hroom hnull hfree hidx hbefore
  have hsize := hins.hasMerged.le_size hv.filled
  have hv' : (st.insert p e).insertionBlock.Valid p :=
    hins.filled.valid (lt_of_lt_of_le hv.size_pos hsize)
  have hord := h.union.ordered
  rw [finish_eq_append, elements_append, elements_cons] at hord
  have hRe : ∀ y ∈ elements st.rightBlocks, p.keyOf e < p.keyOf y := by
    intro y hy
    obtain ⟨c, hc, hy⟩ := mem_elements.mp hy
    obtain ⟨hne, rfl⟩ := mem_rightBlocks.mp hc
    rcases hright with hemp | hlt
    · rw [hemp] at hne
      exact absurd hne (by simp)
    · exact lt_of_lt_of_le hlt ((h.right_valid hne).1.head_le hy)
  have hunion : IsUnion p.keyOf (elements st.finish) [e] (elements (st.insert p e).finish) := by
    rw [finish_eq_append, finish_eq_append, elements_append, elements_append, elements_cons,
      elements_cons]
    have h1 := IsUnion.append hins.union (IsUnion.nil_new (Ordered.right (Ordered.right hord)))
      (fun x hx y hy => by
        rw [List.append_nil] at hy
        rcases List.mem_append.mp hx with hx | hx
        · exact (Ordered.right hord).lt x hx y hy
        · rw [List.mem_singleton.mp hx]
          exact hRe y hy)
    have h2 := IsUnion.append (IsUnion.nil_new hord.left) h1 (fun x hx y hy => by
      rw [List.append_nil] at hx hy
      rcases List.mem_append.mp hy with hy | hy
      · exact hord.lt x hx y hy
      · rw [List.mem_singleton.mp hy]
        exact h.passed x hx e List.mem_cons_self)
    exact h2
  have hhead : (st.insert p e).insertionBlock.head ≤ st.insertionBlock.head := by
    obtain ⟨x, hx, hk⟩ := hv.head_mem
    rw [← hk]
    exact hv'.head_le (hins.union.mem_old hx)
  have hfin : (st.insert p e).finish =
      st.written ++ ((st.insert p e).insertionBlock :: st.rightBlocks) := rfl
  have hinc : Increasing p (done ++ [e] ++ es) := by
    rw [List.append_assoc]
    exact h.increasing
  refine ⟨fun b hb => ?_, h.union.trans hunion fun x hx y hy => ?_, ?_, h.right, ?_, hinc,
    fun x hx => h.fresh x (List.mem_cons_of_mem _ hx),
    fun x hx y hy => h.passed x hx y (List.mem_cons_of_mem _ hy), fun y hy _ => ?_,
    fun hne y hy i hi => ?_⟩
  · rw [hfin] at hb
    rcases List.mem_append.mp hb with hb | hb
    · exact h.valid b (by rw [finish_eq_append]; exact List.mem_append_left _ hb)
    · rcases List.mem_cons.mp hb with rfl | hb
      · exact hv'
      · exact h.valid b (by
          rw [finish_eq_append]; exact List.mem_append_right _ (List.mem_cons_of_mem _ hb))
  · rw [List.mem_singleton.mp hy]
    exact (Ordered.lt h.increasing x hx e List.mem_cons_self).ne
  · rw [hfin]
    exact staleOk_replace hhead hins.dead (fun x hx => hins.union.mem_old hx) h.dead
  · refine h.large.imp id fun hl b hb => ?_
    rw [hfin] at hb
    rw [finish_eq_append] at hl
    rcases List.mem_append.mp hb with hb | hb
    · exact hl b (List.mem_append_left _ hb)
    · rcases List.mem_cons.mp hb with rfl | hb
      · exact le_trans (hl _ (List.mem_append_right _ List.mem_cons_self)) hsize
      · exact hl b (List.mem_append_right _ (List.mem_cons_of_mem _ hb))
  · -- the element stands at the position that the next search starts from
    refine ⟨hins.pos_lt.le, fun i hi => lt_trans (hv'.key_lt hi hins.pos_lt) ?_⟩
    exact lt_of_eq_of_lt hins.key_pos (hcons.1 y hy)
  · exact lt_of_le_of_lt (hins.key_le hv.filled (h.half hne e List.mem_cons_self) hi) (hcons.1 y hy)

/-! ### A full block -/

/-- The blocks when the one that is filled has been split. -/
def halves (p : BlockParams K α) (st : SplitState K α) : List (PmaEntry K α) :=
  st.written ++ ((st.insertionBlock.split p).1 :: (st.insertionBlock.split p).2 :: st.rightBlocks)

omit [LinearOrder K] in
lemma mem_halves {b : PmaEntry K α} : b ∈ st.halves p ↔ b ∈ st.written ∨
    b = (st.insertionBlock.split p).1 ∨ b = (st.insertionBlock.split p).2 ∨
      st.rightHalf.isEmpty = false ∧ b = st.rightHalf := by
  rw [halves, List.mem_append, List.mem_cons, List.mem_cons, mem_rightBlocks]

section Halves

variable (h : Splitting p keep b₀ above done rest st)
  (hs : PmaEntry.HasSplit p st.insertionBlock (st.insertionBlock.split p).1
    (st.insertionBlock.split p).2)
include hs

lemma elements_halves : elements (st.halves p) = elements st.finish := by
  rw [halves, finish_eq_append, elements_append, elements_append, elements_cons, elements_cons,
    elements_cons, ← hs.live_eq, List.append_assoc]

include h

lemma Splitting.valid_halves : ∀ b ∈ st.halves p, b.Valid p := by
  intro b hb
  rcases mem_halves.mp hb with hb | rfl | rfl | ⟨hne, rfl⟩
  · exact h.valid b (by rw [finish_eq_append]; exact List.mem_append_left _ hb)
  · exact hs.left_valid
  · exact hs.right_valid
  · exact (h.right_valid hne).1

lemma Splitting.large_halves : ∀ b ∈ st.halves p, p.minBlockSize ≤ b.size := by
  intro b hb
  rcases mem_halves.mp hb with hb | rfl | rfl | ⟨hne, rfl⟩
  · rcases h.large with ⟨hnil, -⟩ | hl
    · rw [hnil] at hb
      exact absurd hb List.not_mem_nil
    · exact hl b (by rw [finish_eq_append]; exact List.mem_append_left _ hb)
  · exact hs.left_size.ge
  · exact hs.right_size.ge
  · exact (h.right_valid hne).2.1.ge

/-- The dead cells of the left half hold the right half, and those of the right half nothing. -/
lemma Splitting.dead_halves (hzero : p.keyOf p.zero = p.nullKey) :
    StaleOk p keep above (st.halves p) := by
  have hd := h.dead
  rw [finish_eq_append, staleOk_append] at hd
  rw [halves, staleOk_append]
  have hlater : ∀ k, (∃ c ∈ st.insertionBlock :: st.rightBlocks, c.head ≤ k) →
      ∃ c ∈ (st.insertionBlock.split p).1 :: (st.insertionBlock.split p).2 :: st.rightBlocks,
        c.head ≤ k := by
    rintro k ⟨c, hc, hle⟩
    rcases List.mem_cons.mp hc with rfl | hc
    · exact ⟨_, List.mem_cons_self, le_trans hs.left_head.le hle⟩
    · exact ⟨c, List.mem_cons_of_mem _ (List.mem_cons_of_mem _ hc), hle⟩
  refine ⟨hd.1.mono fun k hk => hk.imp id (hlater k), fun x hx => ?_, fun x hx => ?_, hd.2.2⟩
  · rw [hs.left_dead] at hx
    exact Or.inr (Or.inr (Or.inl ⟨_, List.mem_cons_self, hs.right_valid.head_le hx⟩))
  · rw [hs.right_dead x hx]
    exact Or.inl hzero

/-- After the first split the hint is in the left half, if the next element belongs there: the key
at the cut is not below it. -/
lemma Splitting.hint_left (hhead : p.keyOf (st.insertionBlock.get p p.minBlockSize) =
      (st.insertionBlock.split p).2.head) (hemp : st.rightHalf.isEmpty = true) {y : α}
    (hy : y ∈ rest) (hlt : p.keyOf y < (st.insertionBlock.split p).2.head) :
    st.lastInsertionIndex ≤ (st.insertionBlock.split p).1.size ∧
      ∀ i < st.lastInsertionIndex, p.keyOf (st.insertionBlock.get p i) < p.keyOf y := by
  obtain ⟨-, h2⟩ := h.hint y hy (Or.inl hemp)
  refine ⟨?_, h2⟩
  rw [hs.left_size]
  by_contra hgt
  have hcut := h2 p.minBlockSize (by omega)
  rw [hhead] at hcut
  exact absurd (lt_trans hcut hlt) (lt_irrefl _)

/-- At a later split all elements of the left half are smaller than the next one. -/
lemma Splitting.passed_left (hne : st.rightHalf.isEmpty = false)
    (hfull : 2 * p.minBlockSize ≤ st.insertionBlock.size) :
    ∀ x ∈ (st.insertionBlock.split p).1.live, ∀ y ∈ rest, p.keyOf x < p.keyOf y := by
  intro x hx y hy
  obtain ⟨i, hi, rfl⟩ := List.mem_iff_getElem.mp hx
  rw [hs.left_valid.length_live, hs.left_size] at hi
  rw [← PmaEntry.get_of_lt (p := p)]
  exact h.half hne y hy i (by omega)

end Halves

/-- A full block is split. -/
lemma Splitting.split (h : Splitting p keep b₀ above done rest st) (heven : 2 ∣ p.blockSize)
    (htwo : 2 ≤ p.blockSize) (hzero : p.keyOf p.zero = p.nullKey)
    (hfull : st.insertionBlock.size = p.blockSize) :
    Splitting p keep b₀ above done rest (st.split p) ∧
      (st.split p).insertionBlock.size < p.blockSize := by
  have hv := h.insertion_valid
  have hs := hv.filled.split_spec hfull heven (by omega)
  have hmin : p.minBlockSize = p.blockSize / 2 := rfl
  have hdead := h.dead_halves hs hzero
  have helems := elements_halves hs
  have hvalid := h.valid_halves hs
  have hsizes := h.large_halves hs
  have hunion := h.union
  rw [← helems] at hunion
  rw [SplitState.split]
  simp only
  split
  · -- there is no right half yet
    rename_i hemp
    have hhalves : st.halves p =
        st.written ++ [(st.insertionBlock.split p).1, (st.insertionBlock.split p).2] := by
      rw [halves, rightBlocks, if_pos hemp]
    rw [hhalves] at hdead hunion hvalid hsizes
    refine ⟨⟨hvalid, hunion, hdead,
      Or.inr ⟨hs.right_valid, hs.right_size, hs.right_dead⟩, Or.inr hsizes, h.increasing, h.fresh,
      h.passed, fun y hy hcase => ?_, fun _ y hy i hi => ?_⟩, ?_⟩
    · exact h.hint_left hs (hs.head_right hv.filled (by omega)).symm hemp hy
        (hcase.resolve_left (by simp [PmaEntry.isEmpty_split]))
    · simp only at hi
      rw [hs.left_size] at hi
      omega
    · simp only
      rw [hs.left_size]
      omega
  · rename_i hemp
    have hne : st.rightHalf.isEmpty = false := by simpa using hemp
    have hfin : (⟨st.written ++ [(st.insertionBlock.split p).1], (st.insertionBlock.split p).2,
        st.rightHalf, 0⟩ : SplitState K α).finish = st.halves p := by
      rw [finish_eq_append, List.append_assoc]
      rfl
    refine ⟨⟨by rw [hfin]; exact hvalid, by rw [hfin]; exact hunion,
      by rw [hfin]; exact hdead, h.right, Or.inr (by rw [hfin]; exact hsizes), h.increasing,
      h.fresh, fun x hx y hy => ?_,
      fun _ _ _ => ⟨Nat.zero_le _, fun i hi => absurd hi (Nat.not_lt_zero _)⟩,
      fun _ y hy i hi => ?_⟩, ?_⟩
    · simp only [elements_append, elements_cons, elements_nil, List.append_nil] at hx
      rcases List.mem_append.mp hx with hx | hx
      · exact h.passed x hx y hy
      · exact h.passed_left hs hne (by omega) x hx y hy
    · simp only at hi
      rw [hs.right_size] at hi
      omega
    · simp only
      rw [hs.right_size]
      omega

/-- The whole loop.  An element takes two iterations only when it finds a full block. -/
lemma Splitting.loop (heven : 2 ∣ p.blockSize) (htwo : 2 ≤ p.blockSize)
    (hzero : p.keyOf p.zero = p.nullKey) :
    ∀ (n : ℕ) (rest done : List α) (st : SplitState K α),
      2 * rest.length ≤ n ∨ st.insertionBlock.size < p.blockSize ∧ 2 * rest.length ≤ n + 1 →
      Splitting p keep b₀ above done rest st →
        Splitting p keep b₀ above (done ++ rest) [] (SplitState.loop p n rest st)
  | n, [], done, st, _, h => by
      have hloop : SplitState.loop p n [] st = st := by cases n <;> rfl
      rw [hloop, List.append_nil]
      exact h
  | 0, e :: es, done, st, hn, h => by
      simp only [List.length_cons] at hn
      omega
  | n + 1, e :: es, done, st, hn, h => by
      obtain ⟨hsw, hright⟩ := h.switch
      have hmin : p.minBlockSize = p.blockSize / 2 := rfl
      simp only [List.length_cons] at hn
      rw [SplitState.loop]
      split
      · rename_i hroom
        have hins := hsw.insert hroom hright
        have ih := Splitting.loop heven htwo hzero n es (done ++ [e]) _ (by omega) hins
        rwa [List.append_assoc, List.singleton_append] at ih
      · rename_i hroom
        have hfull : (st.switch p e).insertionBlock.size = p.blockSize := by
          have := hsw.insertion_valid.size_le
          omega
        obtain ⟨hsp, hlt⟩ := hsw.split heven htwo hzero hfull
        refine Splitting.loop heven htwo hzero n (e :: es) done _ (Or.inr ⟨hlt, ?_⟩) hsp
        simp only [List.length_cons]
        -- a block is full only in the first of the two iterations of an element
        rcases hn with hn | ⟨hlt', -⟩
        · omega
        · refine absurd hfull (Nat.ne_of_lt ?_)
          rw [SplitState.switch]
          split
          · rename_i hcond
            have := (h.right_valid hcond.1).2.1
            simp only
            omega
          · exact hlt'

end SplitState

/-- What a routine that writes blocks for an old sequence and new elements has to achieve. -/
structure WritesUnion (p : BlockParams K α) (above : K → Prop) (old new : List α)
    (blocks : List (PmaEntry K α)) : Prop where
  valid : ∀ b ∈ blocks, b.Valid p
  large : ∀ b ∈ blocks, p.minBlockSize ≤ b.size
  union : IsUnion p.keyOf old new (elements blocks)
  dead : DeadOk p above blocks

/-- **`insertIntoBlockWithSplit`.**  The blocks that are written hold the union of the block and
the elements, and each of them is at least half full. -/
theorem splitBlocks_stale {b₀ : PmaEntry K α} {above : K → Prop} {es : List α}
    (h : SplitState.SplitInput p keep b₀ above es) (hsize : p.blockSize < b₀.size + es.length) :
    (∀ b ∈ splitBlocks p b₀ es, b.Valid p ∧ p.minBlockSize ≤ b.size) ∧
      IsUnion p.keyOf b₀.live es (elements (splitBlocks p b₀ es)) ∧
      StaleOk p keep above (splitBlocks p b₀ es) := by
  have hrun := SplitState.Splitting.loop h.even h.two_le h.zero_null (2 * es.length) es [] _
    (Or.inl (le_refl _)) h.start
  rw [List.nil_append] at hrun
  refine ⟨fun b hb => ⟨hrun.valid b hb, ?_⟩, hrun.union, hrun.dead⟩
  rcases hrun.large with ⟨hnil, hnull⟩ | hl
  · -- without a split all elements are in one block
    have hfin : splitBlocks p b₀ es = [(SplitState.loop p (2 * es.length) es
        ⟨[], b₀, PmaEntry.null p, 0⟩).insertionBlock] := by
      rw [splitBlocks, SplitState.finish_eq _ (by rw [hnull]; rfl), hnil, List.nil_append]
    have hunion := hrun.union
    have hv := hrun.insertion_valid
    have hmin : p.minBlockSize = p.blockSize / 2 := rfl
    rw [SplitState.finish_eq _ (by rw [hnull]; rfl), hnil, List.nil_append] at hunion
    simp only [elements_cons, elements_nil, List.append_nil] at hunion
    have h1 := hunion.length_old_le h.valid.increasing
    have h2 := hunion.length_new_le h.increasing
    rw [hv.length_live, h.valid.length_live] at h1
    rw [hv.length_live] at h2
    rw [hfin] at hb
    rw [List.mem_singleton.mp hb]
    have heven := h.even
    omega
  · exact hl b hb

theorem splitBlocks_spec {b₀ : PmaEntry K α} {above : K → Prop} {es : List α}
    (h : SplitState.SplitInput p False b₀ above es) (hsize : p.blockSize < b₀.size + es.length) :
    WritesUnion p above b₀.live es (splitBlocks p b₀ es) := by
  obtain ⟨h1, h2, h3⟩ := splitBlocks_stale h hsize
  exact ⟨fun b hb => (h1 b hb).1, fun b hb => (h1 b hb).2, h2, staleOk_false.mp h3⟩

end BatchPMA
